import IntentCode.Format
import IntentCode.Proofs.Ast.Rows
import IntentCode.Proofs.Lexer.Spelling
import IntentCode.Proofs.OrderedMap
import IntentCode.Proofs.Parser.OnLine
import IntentCode.Proofs.Parser.Parentheses

/-!
# Declarations that have been written

What a declaration can hold is what some line could have said: a name is one word, a text is the
rendering of tokens, and a list is entries that the commas and parentheses around them cannot be
confused with. `Legal` says this of a body. A legal body writes a line that declares it again
(`reads_header`), whatever blanks the writer puts where the lexer drops them.

For a step there is one thing that its own tokens do not settle: whether the written line is taken
for a declaration or a note.
-/

set_option autoImplicit false

namespace IntentCode

theorem toString_eq (s : String) : toString s = s := rfl

namespace Parser

open Ast Lexer Token

/-! ## Lists in parentheses -/

/-- Groups with a comma between any two. -/
def joinCommas (line : Nat) : List (List Token) → List Token
  | [] => []
  | [g] => g
  | g :: gs => g ++ .bare .comma line :: joinCommas line gs

theorem joinCommas_cons (line : Nat) (g : List Token) (gs : List (List Token)) :
    joinCommas line (g :: gs) = rejoin g (gs.map fun x => (.bare .comma line, x)) := by
  induction gs generalizing g with
  | nil => simp [joinCommas]
  | cons x gs ih => rw [joinCommas, ih, List.map_cons, rejoin_cons]; simp

theorem cutCommas_joinCommas (line : Nat) {gs : List (List Token)} (hne : gs ≠ [])
    (h : ∀ g ∈ gs, Closes 0 g) : cutCommas 0 (joinCommas line gs) = gs := by
  cases gs with
  | nil => exact absurd rfl hne
  | cons g gs =>
    have hsecond : (gs.map fun x => (Token.bare .comma line, x)).map Prod.snd = gs := by
      rw [List.map_map]
      exact List.map_id gs
    rw [joinCommas_cons, cutCommas_rejoin, hsecond]
    · intro x hx
      obtain ⟨y, -, rfl⟩ := List.mem_map.mp hx
      rfl
    · rw [hsecond]
      exact h

theorem balanced_joinCommas (line : Nat) {gs : List (List Token)} (h : ∀ g ∈ gs, Closes 0 g) :
    Balanced 0 (joinCommas line gs) := by
  induction gs with
  | nil => rfl
  | cons g gs ih =>
    have hg := balanced_of_closes (h g List.mem_cons_self)
    cases gs with
    | nil => exact hg
    | cons g' gs =>
      rw [joinCommas]
      · refine balanced_append hg ?_
        show Balanced 0 (joinCommas line (g' :: gs))
        exact ih fun x hx => h x (List.mem_cons_of_mem _ hx)
      · simp

/-! ## Entries -/

/-- An entry that can stand in a list. -/
structure Entry.Legal (allowRefs : Bool) (e : Entry) : Prop where
  name : ∃ t : Token, t.Plain ∧ (t.kind = .identifier ∨ t.kind = .reference) ∧
    entryName? allowRefs t = .ok e.name
  plain : ∀ t ∈ e.description, t.Plain
  closed : Closes 0 e.description

/-- The entry as it is read from a rendered list. -/
def Entry.fused (line : Nat) (e : Entry) : Entry :=
  { e with description := fuse line e.description }

theorem render_eq_empty {ts : List Token} (h : ∀ t ∈ ts, t.Plain) :
    (render ts).isEmpty = true ↔ ts = [] := by
  rw [render_of_plain h, String.isEmpty_iff, ← String.toList_eq_nil_iff, String.toList_ofList]
  constructor
  · intro he
    cases ts with
    | nil => rfl
    | cons t ts =>
      exfalso
      simp [charsAfter, chars_ne_nil (h t List.mem_cons_self)] at he
  · rintro rfl
    rfl

theorem toList_withText (head text : String) :
    (Format.withText head text).toList =
      head.toList ++ if text.isEmpty then [] else ':' :: ' ' :: text.toList := by
  unfold Format.withText
  split
  · simp
  · simp [toString_eq]

/-- Text after a colon, or nothing. -/
theorem spells_text (line : Nat) {ts : List Token} (hts : ∀ t ∈ ts, t.Plain)
    {rest : List Char} {us : List Token} (hrest : Spells line rest us) (hbreaks : Breaks rest) :
    Spells line ((if (render ts).isEmpty then [] else ':' :: ' ' :: (render ts).toList) ++ rest)
      ((if ts = [] then [] else .bare .colon line :: fuse line ts) ++ us) := by
  by_cases hempty : ts = []
  · rw [if_pos ((render_eq_empty hts).mpr hempty), if_pos hempty]
    exact hrest
  · have hno : ¬ (render ts).isEmpty = true := fun h => hempty ((render_eq_empty hts).mp h)
    rw [if_neg hno, if_neg hempty, render_of_plain hts, String.toList_ofList]
    have hspells := spells_charsAfter line hts hrest hbreaks Unmarked.nil .openParen fun _ => rfl
    have hcolon : markOf? ':' = some .colon := rfl
    exact Spells.mark Unmarked.nil hcolon (hspells.blank blank_space)

theorem breaks_text (text : String) {rest : List Char} (hbreaks : Breaks rest) :
    Breaks ((if text.isEmpty then [] else ':' :: ' ' :: text.toList) ++ rest) := by
  split
  · exact hbreaks
  · exact breaks_mark rfl

/-- A name is written as its token is. -/
theorem display_of_entryName {allowRefs : Bool} {t : Token} {name : String}
    (h : entryName? allowRefs t = .ok name) : t.display = name := by
  unfold entryName? at h
  unfold display Token.chars
  split at h
  · next hk =>
    split at h
    · cases h
    · rw [hk]
      simpa using h
  · next hk =>
    split at h
    · rw [hk]
      cases h
      simp [display, Token.chars, hk]
    · cases h
  · cases h

/-- The name of an entry is read again, whatever stands after it. -/
theorem spells_display (line : Nat) {t : Token} (ht : t.Plain)
    (hkind : t.kind = .identifier ∨ t.kind = .reference) {rest : List Char} {us : List Token}
    (hrest : Spells line rest us) (hbreaks : Breaks rest) :
    Spells line (t.display.toList ++ rest) (t.onLine line :: us) := by
  rw [display, String.toList_ofList]
  rcases chars_cases ht with ⟨hk, hchars, hword⟩ | ⟨hk, hchars, href⟩ | ⟨c, hc, -, -⟩
  · have hspells := hrest.prepend hbreaks hword.unmarked
    rw [wordTokens_of_isWord hword] at hspells
    rw [hchars]
    simpa [onLine, hk] using hspells
  · have hne : Text.trim t.text.toList ≠ [] := by
      rw [Text.trim_of_trimmed href.trimmed]
      exact href.ne_nil
    have hspells := Spells.reference Unmarked.nil href.unmarked hne hrest
    rw [Text.trim_of_trimmed href.trimmed] at hspells
    rw [hchars]
    simpa [onLine, hk, wordTokens_nil] using hspells
  · -- a mark is no name
    obtain ⟨hw, hi⟩ := isWord_of_mark hc
    rcases hkind with hkind | hkind
    · exact absurd hkind hi
    · rw [hkind] at hw
      cases hw

/-- The tokens of an entry with the name `t`. -/
def entryTokens (line : Nat) (t : Token) (description : List Token) : List Token :=
  t.onLine line :: if description = [] then [] else .bare .colon line :: fuse line description

theorem closes_entryTokens (line : Nat) {t : Token}
    (hkind : t.kind = .identifier ∨ t.kind = .reference) {description : List Token}
    (h : Closes 0 description) : Closes 0 (entryTokens line t description) := by
  have hk : (t.onLine line).kind = t.kind := rfl
  have hrest : Closes 0 (if description = [] then [] else
      .bare .colon line :: fuse line description) := by
    split
    · rfl
    · exact (closes_fuseAfter line [] 0 description).mpr h
  unfold entryTokens
  rcases hkind with hkind | hkind <;> simpa [Closes, hk, hkind] using hrest

theorem entryOf?_entryTokens (line : Nat) {allowRefs : Bool} {t : Token} {e : Entry}
    (h : entryName? allowRefs t = .ok e.name) :
    entryOf? allowRefs (entryTokens line t e.description) = .ok (e.fused line) := by
  have hn : entryName? allowRefs (t.onLine line) = .ok e.name := h
  unfold entryOf? entryTokens Entry.fused
  simp only [bind, Except.bind, hn]
  by_cases hempty : e.description = []
  · simp [hempty, fuse, fuseAfter, wordTokens_nil]
  · simp [hempty, bare]

/-- **An entry that has been written is read again.** -/
theorem spells_entry (line : Nat) {allowRefs : Bool} {e : Entry} (h : e.Legal allowRefs) :
    ∃ g, Closes 0 g ∧ g ≠ [] ∧ entryOf? allowRefs g = .ok (e.fused line) ∧
      ∀ {rest : List Char} {us : List Token}, Spells line rest us → Breaks rest →
        Spells line ((Format.withText e.name (render e.description)).toList ++ rest) (g ++ us) := by
  obtain ⟨⟨t, ht, hkind, hname⟩, hplain, hclosed⟩ := h
  refine ⟨entryTokens line t e.description, closes_entryTokens line hkind hclosed,
    List.cons_ne_nil _ _, entryOf?_entryTokens line hname, fun hrest hbreaks => ?_⟩
  have htext := spells_text line hplain hrest hbreaks
  rw [toList_withText, List.append_assoc, ← display_of_entryName hname]
  exact spells_display line ht hkind htext (breaks_text (render e.description) hbreaks)

/-! ## Lists -/

/-- The entries of a list with commas between them. -/
theorem spells_entries (line : Nat) {allowRefs : Bool} {es : List Entry} (hne : es ≠ [])
    (h : ∀ e ∈ es, e.Legal allowRefs) :
    ∃ gs : List (List Token), gs ≠ [] ∧ (∀ g ∈ gs, Closes 0 g ∧ g ≠ []) ∧
      gs.mapM (entryOf? allowRefs) = .ok (es.map (Entry.fused line)) ∧
      ∀ {rest : List Char} {us : List Token}, Spells line rest us → Breaks rest →
        Spells line
          ((String.intercalate ", "
              (es.map fun e => Format.withText e.name (render e.description))).toList ++ rest)
          (joinCommas line gs ++ us) := by
  induction es with
  | nil => exact absurd rfl hne
  | cons e es ih =>
    obtain ⟨g, hclosed, hg, hentry, hspells⟩ := spells_entry line (h e List.mem_cons_self)
    cases es with
    | nil =>
      refine ⟨[g], by simp, by simpa using ⟨hclosed, hg⟩, ?_, ?_⟩
      · simp [hentry, bind, Except.bind, pure, Except.pure]
      · intro rest us hrest hbreaks
        simpa [joinCommas, String.intercalate_singleton] using hspells hrest hbreaks
    | cons e' es =>
      obtain ⟨gs, hgs, hall, hmap, hlist⟩ :=
        ih (by simp) fun x hx => h x (List.mem_cons_of_mem _ hx)
      refine ⟨g :: gs, by simp, ?_, ?_, ?_⟩
      · intro x hx
        rcases List.mem_cons.mp hx with rfl | hx
        · exact ⟨hclosed, hg⟩
        · exact hall x hx
      · rw [List.mapM_cons, hentry, hmap]
        rfl
      · -- the space behind the comma goes to no token
        intro rest us hrest hbreaks
        have hcomma : markOf? ',' = some .comma := rfl
        have hmore := Spells.mark Unmarked.nil hcomma ((hlist hrest hbreaks).blank blank_space)
        have hall := hspells hmore (breaks_mark hcomma)
        have hjoin : joinCommas line (g :: gs) = g ++ .bare .comma line :: joinCommas line gs := by
          cases gs with
          | nil => exact absurd rfl hgs
          | cons x xs => rfl
        rw [hjoin, List.map_cons, List.map_cons, String.intercalate_cons_cons]
        simpa [wordTokens_nil] using hall

theorem toList_descriptions {es : List Entry} (h : (es.map Entry.name).Nodup) :
    (descriptions es).toList = es.map fun e => (e.name, render e.description) := by
  apply OrderedMap.toList_ofList
  rw [List.map_map]
  exact h

/-- The parenthesis that closes a list is the first that none of its entries has opened. -/
theorem parenEntries_joinCommas (line : Nat) {allowRefs : Bool} {gs : List (List Token)}
    {entries : List Entry} (hne : gs ≠ []) (hall : ∀ g ∈ gs, Closes 0 g ∧ g ≠ [])
    (hmap : gs.mapM (entryOf? allowRefs) = .ok entries) :
    parenEntries allowRefs
        (.bare .openParen line :: (joinCommas line gs ++ [.bare .closeParen line])) =
      .ok (entries, []) := by
  have hclosed : ∀ g ∈ gs, Closes 0 g := fun g hg => (hall g hg).1
  have huntil : untilClose 0 (joinCommas line gs ++ [.bare .closeParen line]) =
      some (joinCommas line gs, []) :=
    untilClose_of_balanced (balanced_joinCommas line hclosed) rfl []
  have hinner : joinCommas line gs ≠ [] := by
    match gs, hne, hall with
    | [g], _, hall => exact (hall g (by simp)).2
    | g :: g' :: gs, _, _ => simp [joinCommas]
  have hcut := cutCommas_joinCommas line hne hclosed
  unfold parenEntries
  simp only [bare, ne_eq, not_true_eq_false, if_false] at huntil ⊢
  rw [huntil]
  cases hj : joinCommas line gs with
  | nil => exact absurd hj hinner
  | cons t ts =>
    rw [hj] at hcut
    simp only [hcut, hmap]
    rfl

theorem toList_entryList {es : List Entry} (hnames : (es.map Entry.name).Nodup) (hne : es ≠ []) :
    (Format.entryList (descriptions es)).toList =
      '(' :: ((String.intercalate ", "
        (es.map fun e => Format.withText e.name (render e.description))).toList ++ [')']) := by
  have hlist := toList_descriptions hnames
  have hno : (descriptions es).isEmpty = false := by
    simp [OrderedMap.isEmpty, hlist, hne]
  unfold Format.entryList
  rw [hno]
  simp only [Bool.false_eq_true, if_false, hlist, List.map_map, String.toList_append]
  rfl

/-- **A list that has been written is read again**, and nothing is left over. -/
theorem spells_entryList (line : Nat) {allowRefs : Bool} {es : List Entry}
    (hnames : (es.map Entry.name).Nodup) (h : ∀ e ∈ es, e.Legal allowRefs) :
    ∃ list : List Token, parenEntries allowRefs list = .ok (es.map (Entry.fused line), []) ∧
      endsWithColon list = false ∧
      ∀ {rest : List Char} {us : List Token}, Spells line rest us → Breaks rest →
        Breaks ((Format.entryList (descriptions es)).toList ++ rest) ∧
          Spells line ((Format.entryList (descriptions es)).toList ++ rest) (list ++ us) := by
  by_cases hempty : es = []
  · subst hempty
    exact ⟨[], rfl, rfl, fun hrest hbreaks => ⟨hbreaks, hrest⟩⟩
  · obtain ⟨gs, hgs, hall, hmap, hspells⟩ := spells_entries line hempty h
    refine ⟨.bare .openParen line :: (joinCommas line gs ++ [.bare .closeParen line]),
      parenEntries_joinCommas line hgs hall hmap, ?_, ?_⟩
    · unfold endsWithColon
      rw [← List.cons_append, List.getLast?_concat]
      rfl
    · intro rest us hrest hbreaks
      have hopen : markOf? '(' = some .openParen := rfl
      have hclose : markOf? ')' = some .closeParen := rfl
      have hend := Spells.mark Unmarked.nil hclose hrest
      have hinner := Spells.mark Unmarked.nil hopen (hspells hend (breaks_mark hclose))
      rw [toList_entryList hnames hempty]
      exact ⟨breaks_mark hopen, by simpa [wordTokens_nil] using hinner⟩

/-! ## Declarations -/

/-- A name that a declaration can have. -/
structure IsName (name : String) : Prop where
  word : IsWord name.toList
  unbroken : Text.containsBlank name = false

/-- The bodies that lines declare. -/
inductive Legal : Body → Prop
  | moduleImport {path : String} {ts : List Token} (name : IsName path)
    (plain : ∀ t ∈ ts, t.Plain) : Legal (.moduleImport ⟨path, render ts⟩)
  | varDecl {name : String} {ts : List Token} (notes : Notes) (isName : IsName name)
    (plain : ∀ t ∈ ts, t.Plain) : Legal (.varDecl ⟨name, notes, render ts, references ts⟩)
  | step {ts : List Token} (opens : Bool) (plain : ∀ t ∈ ts, t.Plain)
    (ends : opens = false → ts ≠ [] ∧ endsWithColon ts = false) :
    Legal (.step ⟨render ts, references ts, opens⟩)
  | classDecl {name : String} {es : List Entry} (notes : Notes) (isName : IsName name)
    (names : (es.map Entry.name).Nodup) (entries : ∀ e ∈ es, e.Legal true) :
    Legal (.classDecl ⟨name, notes, descriptions es⟩)
  | funcDecl {name : String} {es : List Entry} (notes : Notes) (isName : IsName name)
    (names : (es.map Entry.name).Nodup) (entries : ∀ e ∈ es, e.Legal false) :
    Legal (.funcDecl ⟨name, notes, descriptions es, firstReferences es⟩)

theorem IsName.ne_empty {name : String} (h : IsName name) : name ≠ "" := by
  rintro rfl
  exact h.word.ne_nil rfl

theorem Legal.isName {b : Body} (h : Legal b) {name : String}
    (hname : b.declaredName? = some name) : IsName name := by
  cases h with
  | moduleImport | step => cases hname
  | varDecl notes isName | classDecl notes isName | funcDecl notes isName =>
    obtain rfl := Option.some.inj hname
    exact isName

theorem Legal.path_ne_empty {m : ModuleImport} (h : Legal (.moduleImport m)) : m.path ≠ "" := by
  cases h with
  | moduleImport isName => exact isName.ne_empty

theorem descriptions_fused (line : Nat) {es : List Entry}
    (h : ∀ e ∈ es, ∀ t ∈ e.description, t.Plain) :
    descriptions (es.map (Entry.fused line)) = descriptions es :=
  descriptions_map (f := Entry.fused line) (fun _ _ => rfl) fun e he => render_fuse line (h e he)

theorem firstReferences_fused (line : Nat) (es : List Entry) :
    firstReferences (es.map (Entry.fused line)) = firstReferences es :=
  firstReferences_map (f := Entry.fused line) (fun _ => rfl)
    (fun e => references_fuse line e.description) es

theorem distinctEntries_of_nodup {es : List Entry} (h : (es.map Entry.name).Nodup) :
    distinctEntries es = (es, []) := by
  rw [distinctEntries_eq]
  suffices hall : ∀ kept : List Entry, ((kept ++ es).map Entry.name).Nodup →
      es.foldl enlist (kept, []) = (kept ++ es, []) from hall [] h
  clear h
  induction es with
  | nil => simp
  | cons e es ih =>
    intro kept hnodup
    have hno : (kept.map Entry.name).contains e.name = false := by
      rw [List.map_append, List.map_cons, List.nodup_append] at hnodup
      rw [Bool.eq_false_iff]
      intro hc
      exact hnodup.2.2 _ (List.contains_iff_mem.mp hc) _ List.mem_cons_self rfl
    have hnext : enlist (kept, []) e = (kept ++ [e], []) := by
      unfold enlist
      rw [hno]
      rfl
    rw [List.foldl_cons, hnext, ih _ (by simpa using hnodup)]
    simp

/-- The tokens of a colon that announces a block, if there is one. -/
def colonTokens (line : Nat) (colon : Bool) : List Token :=
  if colon then [.bare .colon line] else []

theorem spells_colon (line : Nat) (colon : Bool) :
    Breaks (if colon then ":" else "" : String).toList ∧
      Spells line (if colon then ":" else "" : String).toList (colonTokens line colon) := by
  cases colon with
  | false => exact ⟨fun c hc => by simp at hc, Spells.nil line⟩
  | true =>
    refine ⟨fun c hc => ?_, ?_⟩
    · simp only [if_true] at hc
      cases hc
      exact .inl (by decide)
    · have hcolon : markOf? ':' = some .colon := rfl
      exact Spells.mark Unmarked.nil hcolon (Spells.nil line)

theorem stripColon_append (line : Nat) (colon : Bool) {ts : List Token}
    (h : endsWithColon ts = false) :
    stripColon (ts ++ colonTokens line colon) = (ts, colon) := by
  unfold stripColon colonTokens
  cases colon with
  | false => simp [h]
  | true =>
    have hends : endsWithColon (ts ++ [Token.bare .colon line]) = true := by
      simp [endsWithColon, bare]
    simp [hends]

theorem name?_of_isName (what : String) {name : String} (h : IsName name) (line : Nat)
    (ts : List Token) :
    name? what (⟨.identifier, name, line⟩ :: ts) = .ok (name, ts) := by
  simp [name?, h.unbroken]

/-- A name after a keyword, and what follows it. -/
theorem spells_name (line : Nat) {name : String} (h : IsName name) {rest : List Char}
    {ts : List Token} (hbreaks : Breaks rest) (hrest : Spells line rest ts) :
    Spells line (' ' :: (name.toList ++ rest)) (⟨.identifier, name, line⟩ :: ts) := by
  have hspells := hrest.prepend hbreaks h.word.unmarked
  rw [wordTokens_of_isWord h.word, String.ofList_toList] at hspells
  exact hspells.blank blank_space

theorem endsWord_space (rest : List Char) : endsWord (' ' :: rest) = true := by
  simp [endsWord, blank_space]

/-- What is asked of the written line of a step, so that it is not taken for anything else. -/
def Free (text : List Char) : Prop := text.head? ≠ some '@' ∧ splitKeyword? text = none

theorem textAfterColon_text (fault : Kind → HeaderFault) (line : Nat) (ts : List Token) :
    textAfterColon fault (if ts = [] then [] else .bare .colon line :: fuse line ts) =
      .ok (fuse line ts) := by
  split
  · next h => simp [h, textAfterColon, fuse, fuseAfter, wordTokens_nil]
  · simp [textAfterColon, bare]

theorem classLine_eq (line : Nat) (colon : Bool) {name : String} (hname : IsName name)
    {es : List Entry} (hnames : (es.map Entry.name).Nodup) {list : List Token}
    (hlist : parenEntries true list = .ok (es, [])) (hends : endsWithColon list = false) :
    classLine (⟨.identifier, name, line⟩ :: list ++ colonTokens line colon) =
      .ok ⟨.classDecl ⟨name, .none, descriptions es⟩, colon, []⟩ := by
  have hno : endsWithColon (⟨.identifier, name, line⟩ :: list) = false := by
    cases list with
    | nil => rfl
    | cons t ts => exact hends
  unfold classLine
  rw [stripColon_append line colon hno]
  simp only [bind, Except.bind, name?_of_isName "class" hname, hlist, noMore, pure, Except.pure,
    distinctEntries_of_nodup hnames]
  rfl

theorem functionLine_eq (line : Nat) (colon : Bool) {name : String} (hname : IsName name)
    {es : List Entry} (hnames : (es.map Entry.name).Nodup) {list : List Token}
    (hlist : parenEntries false list = .ok (es, [])) (hends : endsWithColon list = false) :
    functionLine (⟨.identifier, name, line⟩ :: list ++ colonTokens line colon) =
      .ok ⟨.funcDecl ⟨name, .none, descriptions es, firstReferences es⟩, colon, []⟩ := by
  have hno : endsWithColon (⟨.identifier, name, line⟩ :: list) = false := by
    cases list with
    | nil => rfl
    | cons t ts => exact hends
  unfold functionLine
  rw [stripColon_append line colon hno]
  simp only [bind, Except.bind, name?_of_isName "function" hname, hlist, noMore, pure, Except.pure,
    distinctEntries_of_nodup hnames]
  rfl

/-- What the tokens of a declaration line declare. -/
theorem ofTokens_keyword {k : Token} (hk : k.kind = .keyword) (hword : k.text ≠ "description")
    {ts : List Token} {node : LineNode} (h : lineNode (k :: ts) = .ok node) :
    Reading.ofTokens (k :: ts) = .node node := by
  have hno : k.isKeyword "description" = false := by simp [isKeyword, hword]
  unfold Reading.ofTokens
  simp [hk, hno, h]

/-- What the tokens of a step declare. -/
theorem ofTokens_plain {ts : List Token} (hts : ∀ t ∈ ts, t.Plain) :
    Reading.ofTokens ts = .node (stepLine ts) := by
  unfold Reading.ofTokens
  cases ts with
  | nil => rfl
  | cons t ts =>
    have ht := hts t List.mem_cons_self
    have hintent : t.kind ≠ .intent := fun hk => by simp [Plain, hk] at ht
    have hkeyword : t.kind ≠ .keyword := fun hk => by simp [Plain, hk] at ht
    simp [hintent, isKeyword, hkeyword, lineNode]

/-- Whether the line of a node ends with the colon of a block. -/
def announces (n : Node) : Bool :=
  match n.body with
  | .classDecl _ | .funcDecl _ => !n.children.isEmpty
  | .step s => s.opensBlock
  | .root | .moduleImport _ | .varDecl _ => false

/-- What the line of a node says: the body without its notes, and nothing twice. -/
def lineOf (n : Node) : LineNode := ⟨n.body.bare, announces n, []⟩

/-- A line that reads back as the node it was written for. -/
def ReadsBack (text : List Char) (node : LineNode) : Prop :=
  ∀ line raw, ∃ ts, scan text line raw = .ok ⟨ts, []⟩ ∧ ts ≠ [] ∧
    Reading.ofTokens ts = .node node

theorem header_class {n : Node} {c : ClassDecl} (h : n.body = .classDecl c) :
    (Format.header n).toList =
      "class".toList ++ ' ' :: (c.name.toList ++ ((Format.entryList c.bases).toList ++
        (if !n.children.isEmpty then ":" else "" : String).toList)) := by
  unfold Format.header
  rw [h]
  cases n.children <;> simp [toString_eq]

theorem header_func {n : Node} {f : FuncDecl} (h : n.body = .funcDecl f) :
    (Format.header n).toList =
      "func".toList ++ ' ' :: (f.name.toList ++ ((Format.entryList f.params).toList ++
        (if !n.children.isEmpty then ":" else "" : String).toList)) := by
  unfold Format.header
  rw [h]
  cases n.children <;> simp [toString_eq]

theorem header_module {n : Node} {m : ModuleImport} (h : n.body = .moduleImport m) :
    (Format.header n).toList =
      "module".toList ++ ' ' :: (m.path.toList ++
        if m.content.isEmpty then [] else ':' :: ' ' :: m.content.toList) := by
  unfold Format.header
  rw [h]
  simp only [toList_withText]
  simp [toString_eq]

theorem header_var {n : Node} {v : VarDecl} (h : n.body = .varDecl v) :
    (Format.header n).toList =
      "var".toList ++ ' ' :: (v.name.toList ++
        if v.content.isEmpty then [] else ':' :: ' ' :: v.content.toList) := by
  unfold Format.header
  rw [h]
  simp only [toList_withText]
  simp [toString_eq]

theorem header_step {n : Node} {s : Step} (h : n.body = .step s) :
    (Format.header n).toList =
      s.content.toList ++ (if s.opensBlock then ":" else "" : String).toList := by
  unfold Format.header
  rw [h]
  cases hs : s.opensBlock <;> simp [hs, toString_eq]

/-- Text after a colon at the end of a line. -/
theorem spells_text_end (line : Nat) {ts : List Token} (hts : ∀ t ∈ ts, t.Plain) :
    Breaks (if (render ts).isEmpty then [] else ':' :: ' ' :: (render ts).toList) ∧
      Spells line (if (render ts).isEmpty then [] else ':' :: ' ' :: (render ts).toList)
        (if ts = [] then [] else .bare .colon line :: fuse line ts) := by
  have hnil : Breaks [] := fun c hc => by cases hc
  have hbreaks := breaks_text (render ts) hnil
  have hspells := spells_text line hts (Spells.nil line) hnil
  rw [List.append_nil] at hbreaks hspells
  rw [List.append_nil] at hspells
  exact ⟨hbreaks, hspells⟩

theorem moduleLine_eq (line : Nat) {path : String} (hname : IsName path) {ts : List Token}
    (hts : ∀ t ∈ ts, t.Plain) :
    moduleLine (⟨.identifier, path, line⟩ ::
        if ts = [] then [] else .bare .colon line :: fuse line ts) =
      .ok ⟨.moduleImport ⟨path, render ts⟩, false, []⟩ := by
  unfold moduleLine
  simp only [bind, Except.bind, name?_of_isName "module" hname, textAfterColon_text, pure,
    Except.pure, render_fuse line hts]

theorem variableLine_eq (line : Nat) {name : String} (hname : IsName name) {ts : List Token}
    (hts : ∀ t ∈ ts, t.Plain) :
    variableLine (⟨.identifier, name, line⟩ ::
        if ts = [] then [] else .bare .colon line :: fuse line ts) =
      .ok ⟨.varDecl ⟨name, .none, render ts, references ts⟩, false, []⟩ := by
  unfold variableLine
  simp only [bind, Except.bind, name?_of_isName "variable" hname, textAfterColon_text, pure,
    Except.pure, render_fuse line hts, references_fuse]

/-- The tokens of a written step. -/
theorem stepLine_eq (line : Nat) {ts : List Token} (hts : ∀ t ∈ ts, t.Plain) {opens : Bool}
    (ends : opens = false → ts ≠ [] ∧ endsWithColon ts = false) :
    stepLine (fuse line ts ++ colonTokens line opens) =
      ⟨.step ⟨render ts, references ts, opens⟩, opens, []⟩ := by
  have hstrip : stripColon (fuse line ts ++ colonTokens line opens) = (fuse line ts, opens) := by
    cases opens with
    | true => simp [stripColon, endsWithColon, colonTokens, bare]
    | false =>
      apply stripColon_append line false
      have hlast := getLast_kind_fuseAfter line hts [] .colon (fun h => by cases h)
      have hcolon := (ends rfl).2
      unfold endsWithColon at hcolon ⊢
      rw [decide_eq_false_iff_not] at hcolon ⊢
      exact fun h => hcolon (hlast.mp h)
  unfold stepLine
  rw [hstrip]
  simp only [render_fuse line hts, references_fuse]

/-! ### The tokens of a written line -/

theorem scan_textLine (line : Nat) {word : String} (hw : word ∈ keywords) {name : String}
    (hname : IsName name) {ts : List Token} (hts : ∀ t ∈ ts, t.Plain) (raw : String) :
    scan (word.toList ++ ' ' :: (name.toList ++
        if (render ts).isEmpty then [] else ':' :: ' ' :: (render ts).toList)) line raw =
      .ok ⟨⟨.keyword, word, line⟩ :: ⟨.identifier, name, line⟩ ::
        if ts = [] then [] else .bare .colon line :: fuse line ts, []⟩ := by
  obtain ⟨hbreaks, htext⟩ := spells_text_end line hts
  have hspells := spells_name line hname hbreaks htext
  rw [scan_keyword hw (endsWord_space _) hspells raw]

theorem scan_listLine (line : Nat) {word : String} (hw : word ∈ keywords) {name : String}
    (hname : IsName name) {allowRefs : Bool} {es : List Entry} (hnames : (es.map Entry.name).Nodup)
    (hes : ∀ e ∈ es, e.Legal allowRefs) (colon : Bool) (raw : String) :
    ∃ list, parenEntries allowRefs list = .ok (es.map (Entry.fused line), []) ∧
      endsWithColon list = false ∧
      scan (word.toList ++ ' ' :: (name.toList ++
          ((Format.entryList (descriptions es)).toList ++
            (if colon then ":" else "" : String).toList))) line raw =
        .ok ⟨⟨.keyword, word, line⟩ ::
          (⟨.identifier, name, line⟩ :: (list ++ colonTokens line colon)), []⟩ := by
  obtain ⟨list, hlist, hends, hspells⟩ := spells_entryList line hnames hes
  obtain ⟨hcbreaks, hcolon⟩ := spells_colon line colon
  obtain ⟨hbreaks, htext⟩ := hspells hcolon hcbreaks
  have hline := spells_name line hname hbreaks htext
  exact ⟨list, hlist, hends, scan_keyword hw (endsWord_space _) hline raw⟩

theorem scan_stepLine (line : Nat) {ts : List Token} (hts : ∀ t ∈ ts, t.Plain) (opens : Bool)
    (hfree : Free ((render ts).toList ++ (if opens then ":" else "" : String).toList))
    (raw : String) :
    scan ((render ts).toList ++ (if opens then ":" else "" : String).toList) line raw =
      .ok ⟨fuse line ts ++ colonTokens line opens, []⟩ := by
  obtain ⟨hat, hkeyword⟩ := hfree
  obtain ⟨hbreaks, hcolon⟩ := spells_colon line opens
  have hspells := spells_charsAfter line hts hcolon hbreaks Unmarked.nil .openParen fun _ => rfl
  have htext : (render ts).toList = charsAfter .openParen ts := by
    rw [render_of_plain hts, String.toList_ofList]
  rw [List.nil_append, ← htext] at hspells
  exact scan_plain hat hkeyword hspells raw

theorem plain_stepLine (line : Nat) {ts : List Token} (hts : ∀ t ∈ ts, t.Plain) (opens : Bool) :
    ∀ t ∈ fuse line ts ++ colonTokens line opens, t.Plain := by
  intro t ht
  rcases List.mem_append.mp ht with ht | ht
  · exact plain_fuseAfter line hts (.inl rfl) t ht
  · unfold colonTokens at ht
    cases opens with
    | true =>
      obtain rfl := List.mem_singleton.mp ht
      rfl
    | false => cases ht

/-- **What a legal body writes declares it again.** -/
theorem reads_header {n : Node} (h : Legal n.body)
    (hfree : ∀ s, n.body = .step s → Free (Format.header n).toList) :
    ReadsBack (Format.header n).toList (lineOf n) := by
  intro line raw
  unfold lineOf announces
  generalize hbody : n.body = body at h
  cases h with
  | @moduleImport path ts name plain =>
    rw [header_module hbody, scan_textLine line (by decide) name plain raw]
    exact ⟨_, rfl, by simp, ofTokens_keyword rfl (by simp) (moduleLine_eq line name plain)⟩
  | @varDecl name ts notes isName plain =>
    rw [header_var hbody, scan_textLine line (by decide) isName plain raw]
    exact ⟨_, rfl, by simp, ofTokens_keyword rfl (by simp) (variableLine_eq line isName plain)⟩
  | @step ts opens plain ends =>
    have hheader := header_step hbody
    have htext := hfree _ hbody
    rw [hheader] at htext ⊢
    have hne : fuse line ts ++ colonTokens line opens ≠ [] := by
      cases opens with
      | true => simp [colonTokens]
      | false => simp [fuse_ne_nil line plain (ends rfl).1]
    have hnode := ofTokens_plain (plain_stepLine line plain opens)
    rw [stepLine_eq line plain ends] at hnode
    exact ⟨_, scan_stepLine line plain opens htext raw, hne, hnode⟩
  | @classDecl name es notes isName names entries =>
    have hword : "class" ∈ keywords := by decide
    obtain ⟨list, hlist, hends, hscan⟩ :=
      scan_listLine line hword isName names entries (!n.children.isEmpty) raw
    have hnames : ((es.map (Entry.fused line)).map Entry.name).Nodup := by
      rw [List.map_map]
      exact names
    have hclass := classLine_eq line (!n.children.isEmpty) isName hnames hlist hends
    rw [descriptions_fused line fun e he => (entries e he).plain] at hclass
    rw [header_class hbody, hscan]
    exact ⟨_, rfl, by simp, ofTokens_keyword rfl (by simp) hclass⟩
  | @funcDecl name es notes isName names entries =>
    have hword : "func" ∈ keywords := by decide
    obtain ⟨list, hlist, hends, hscan⟩ :=
      scan_listLine line hword isName names entries (!n.children.isEmpty) raw
    have hnames : ((es.map (Entry.fused line)).map Entry.name).Nodup := by
      rw [List.map_map]
      exact names
    have hfunc := functionLine_eq line (!n.children.isEmpty) isName hnames hlist hends
    rw [descriptions_fused line fun e he => (entries e he).plain, firstReferences_fused] at hfunc
    rw [header_func hbody, hscan]
    exact ⟨_, rfl, by simp, ofTokens_keyword rfl (by simp) hfunc⟩

end Parser

end IntentCode
