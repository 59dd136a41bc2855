import IntentCode.Proofs.Lexer.Conservation
import IntentCode.Proofs.Parser.Legal
import Mathlib.Algebra.Order.BigOperators.Group.List
import Mathlib.Algebra.Order.Ring.Nat

/-!
# A writer adds nothing of its own

Count the characters of some kind in a line and then in what is written for the declaration that the
line made. Unless they are spaces, colons or dollars, which a writer sets by its own rules, there
are no more of them: tokens are cut out of the line, an entry that is named twice is written once, and
between entries there is a comma less than there are entries. So a line without a line feed is
written without one, and a line with few commas is written with as few.
-/

set_option autoImplicit false

namespace IntentCode

/-- Characters that a writer does not set by rules of its own. -/
structure Foreign (p : Char → Bool) : Prop where
  space : p ' ' = false
  colon : p ':' = false
  dollar : p '$' = false

namespace Token

variable {p : Char → Bool}

/-- How many characters of some kind the tokens have. -/
def tally (p : Char → Bool) (ts : List Token) : Nat := (ts.map fun t => t.chars.countP p).sum

@[simp] theorem tally_nil : tally p [] = 0 := rfl

@[simp] theorem tally_cons (t : Token) (ts : List Token) :
    tally p (t :: ts) = t.chars.countP p + tally p ts := rfl

@[simp] theorem tally_append (ts us : List Token) : tally p (ts ++ us) = tally p ts + tally p us := by
  simp [tally]

theorem tally_le_of_sublist {ts us : List Token} (h : ts.Sublist us) : tally p ts ≤ tally p us :=
  (h.map _).sum_le_sum fun _ _ => Nat.zero_le _

theorem countP_charsAfter (hp : Foreign p) (previous : Kind) (ts : List Token) :
    (charsAfter previous ts).countP p = tally p ts := by
  induction ts generalizing previous with
  | nil => rfl
  | cons t ts ih =>
    have hspace : (if t.kind.isWord && previous != .openParen then [' '] else []).countP p = 0 := by
      split <;> simp [hp.space]
    rw [charsAfter, List.countP_append, List.countP_append, hspace, ih, tally_cons, Nat.zero_add]

/-- Rendering adds only spaces. -/
theorem countP_render_le (hp : Foreign p) (ts : List Token) :
    (render ts).toList.countP p ≤ tally p ts := by
  rw [render, String.toList_ofList, Lexer.lineChars_eq, countP_charsAfter hp]
  exact tally_le_of_sublist List.filter_sublist

end Token

/-! ## Lexing -/

namespace Lexer

open Token

variable {p : Char → Bool}

theorem markOf?_inj {c d : Char} {kind : Kind} (hc : markOf? c = some kind)
    (hd : markOf? d = some kind) : c = d := by
  have h := chars_mark hc 0
  rw [chars_mark hd 0] at h
  exact (List.cons.inj h).1.symm

theorem chars_of_mark {t : Token} (h : t.Plain) {c : Char} (hc : markOf? c = some t.kind) :
    t.chars = [c] := by
  rcases chars_cases h with ⟨hk, -⟩ | ⟨hk, -⟩ | ⟨d, hd, hchars, -⟩
  · exact absurd hk (isWord_of_mark hc).2
  · have hword := (isWord_of_mark hc).1
    rw [hk] at hword
    cases hword
  · rw [hchars, markOf?_inj hc hd]

theorem countP_trim_le (cs : List Char) : (Text.trim cs).countP p ≤ cs.countP p :=
  ((Text.trimRight_isPrefix _).sublist.trans (Text.trimLeft_isSuffix _).sublist).countP_le

theorem tally_plainTokens (line : Nat) (cs : List Char) :
    tally p (plainTokens line cs) ≤ cs.countP p := by
  conv => rhs; rw [← flatMap_cutMarks cs]
  unfold plainTokens
  induction cutMarks cs with
  | nil => exact Nat.le_refl _
  | cons piece pieces ih =>
    rw [List.flatMap_cons, List.countP_append, List.filterMap_cons]
    cases piece with
    | mark kind =>
      have hchars : (Token.bare kind line).chars = (Token.bare kind 0).chars := rfl
      simp only [Piece.token?, tally_cons, hchars, Piece.chars]
      omega
    | run text =>
      have htrim := countP_trim_le (p := p) text
      simp only [Piece.token?, Piece.chars]
      split
      · omega
      · next t ht =>
        split at ht
        · cases ht
        · cases ht
          simp only [tally_cons, Token.chars, String.toList_ofList]
          omega

theorem tally_referenceTokens (hp : Foreign p) (line : Nat) (raw : String) (cs : List Char) :
    tally p (referenceTokens line raw cs).tokens ≤ cs.countP p := by
  have htrim := countP_trim_le (p := p) cs
  unfold referenceTokens
  simp only
  split
  · simp
  · simpa [Token.chars, hp.dollar] using htrim

theorem tally_spanTokens (hp : Foreign p) (line : Nat) (raw : String) (inside : Bool)
    (spans : List (List Char)) :
    tally p (spanTokens line raw inside spans).tokens ≤ (spans.map (List.countP p)).sum := by
  induction spans generalizing inside with
  | nil => exact Nat.le_refl _
  | cons span spans ih =>
    have hrest := ih (!inside)
    rw [spanTokens, List.map_cons, List.sum_cons, Scanned.append, tally_append]
    cases inside with
    | true =>
      have := tally_referenceTokens hp line raw span
      exact Nat.add_le_add this hrest
    | false => exact Nat.add_le_add (tally_plainTokens line span) hrest

theorem sum_cutAt (hp : Foreign p) (cs : List Char) :
    ((Text.cutAt '$' cs).map (List.countP p)).sum = cs.countP p := by
  fun_induction Text.cutAt '$' cs with
  | case1 => rfl
  | case2 cs ih => simp [ih, hp.dollar]
  | case3 c cs hc hnil => exact absurd hnil (Text.cutAt_ne_nil _ _)
  | case4 c cs hc q qs hq ih =>
    rw [hq] at ih
    rw [List.map_cons, List.sum_cons] at ih ⊢
    rw [List.countP_cons, List.countP_cons]
    omega

/-- **The tokens of a line are made of its characters**, each used once. -/
theorem tally_scan (hp : Foreign p) {text : List Char} {line : Nat} {raw : String} {s : Scanned}
    (h : scan text line raw = .ok s) : tally p s.tokens ≤ text.countP p := by
  have hplain : ∀ rest, tally p (plainOf line raw rest).tokens ≤ rest.countP p := by
    intro rest
    rw [← sum_cutAt hp rest]
    exact tally_spanTokens hp line raw false _
  rcases scan_cases h with ⟨comment, rfl, rfl⟩ | ⟨-, word, rest, hk, -, rfl⟩ | ⟨-, -, -, rfl⟩
  · have htrim := countP_trim_le (p := p) comment
    simp only [tally_cons, tally_nil, Token.chars, String.toList_ofList, List.countP_cons, hp.space]
    simp
    omega
  · rw [(of_splitKeyword? hk).2.1, List.countP_append, Scanned.append, tally_append]
    have := hplain rest
    simp only [tally_cons, tally_nil, Token.chars]
    omega
  · exact hplain text

end Lexer

namespace LogicalLine

theorem tally_tokens {p : Char → Bool} (hp : Foreign p) (l : LogicalLine) :
    Token.tally p l.tokens ≤ l.text.toList.countP p := by
  unfold tokens
  split
  · next h => exact Lexer.tally_scan hp h
  · exact Nat.zero_le _

end LogicalLine

/-! ## Declarations -/

namespace Parser

open Ast Token

variable {p : Char → Bool}

/-- The characters of an entry, with the comma that would follow it. -/
def entryTally (p : Char → Bool) (e : Entry) : Nat :=
  e.name.toList.countP p + (render e.description).toList.countP p + [','].countP p

theorem countP_withText (hp : Foreign p) (head text : String) :
    (Format.withText head text).toList.countP p =
      head.toList.countP p + text.toList.countP p := by
  rw [toList_withText, List.countP_append]
  split
  · next h =>
    rw [String.isEmpty_iff.mp h]
    rfl
  · simp [hp.colon, hp.space]

/-- The commas between texts, and one more, are one for each. -/
theorem countP_intercalate (hp : Foreign p) {texts : List String} (hne : texts ≠ []) :
    (String.intercalate ", " texts).toList.countP p + [','].countP p =
      (texts.map fun t => t.toList.countP p + [','].countP p).sum := by
  induction texts with
  | nil => exact absurd rfl hne
  | cons t texts ih =>
    cases texts with
    | nil => simp
    | cons u texts =>
      have hrest := ih (by simp)
      have hsep : (", " : String).toList.countP p = [','].countP p := by
        simp [List.countP_cons, hp.space]
      rw [String.intercalate_cons_cons, String.toList_append, String.toList_append,
        List.countP_append, List.countP_append, hsep, List.map_cons, List.sum_cons, ← hrest]
      omega

theorem countP_entries (hp : Foreign p) {es : List Entry} (hne : es ≠ []) :
    (String.intercalate ", " (es.map fun e =>
        Format.withText e.name (render e.description))).toList.countP p + [','].countP p =
      (es.map (entryTally p)).sum := by
  rw [countP_intercalate hp (by simpa using hne), List.map_map]
  congr 1
  apply List.map_congr_left
  intro e he
  simp only [Function.comp_apply, countP_withText hp, entryTally]

theorem countP_entryList (hp : Foreign p) {es : List Entry} (hne : es ≠ [])
    (hnames : (es.map Entry.name).Nodup) :
    (Format.entryList (descriptions es)).toList.countP p + [','].countP p =
      ['('].countP p + (es.map (entryTally p)).sum + [')'].countP p := by
  have hlist := toList_descriptions hnames
  have hno : (descriptions es).isEmpty = false := by simp [OrderedMap.isEmpty, hlist, hne]
  have htext : (Format.entryList (descriptions es)).toList =
      '(' :: ((String.intercalate ", " (es.map fun e =>
        Format.withText e.name (render e.description))).toList ++ [')']) := by
    unfold Format.entryList
    rw [hno]
    simp only [Bool.false_eq_true, if_false, hlist, List.map_map, String.toList_append]
    rfl
  rw [htext, ← countP_entries hp hne, ← List.singleton_append, List.countP_append,
    List.countP_append]
  omega

theorem entryTally_le (hp : Foreign p) {allowRefs : Bool} {g : List Token} {e : Entry}
    (h : entryOf? allowRefs g = .ok e) : entryTally p e ≤ tally p g + [','].countP p := by
  unfold entryOf? at h
  cases g with
  | nil => cases h
  | cons t ts =>
    obtain ⟨name, hname, h⟩ := bind_ok h
    have hchars : name.toList.countP p = t.chars.countP p := by
      unfold entryName? at hname
      split at hname
      · next hk =>
        split at hname
        · cases hname
        · cases hname
          simp [chars, hk]
      · split at hname
        · cases hname
          simp [display]
        · cases hname
      · cases hname
    rw [tally_cons]
    cases ts with
    | nil =>
      cases h
      have hempty : (render []).toList.countP p = 0 := rfl
      rw [entryTally, hempty, hchars]
      omega
    | cons u us =>
      simp only at h
      split at h
      · cases h
        have hdescription := countP_render_le hp us
        simp only [entryTally, hchars, tally_cons]
        omega
      · cases h

theorem tally_cutCommas {depth : Nat} {ts : List Token}
    (hts : ∀ t ∈ ts, t.kind = .comma → t.chars = [',']) :
    ((cutCommas depth ts).map fun g => tally p g + [','].countP p).sum =
      tally p ts + [','].countP p := by
  induction ts generalizing depth with
  | nil => simp [cutCommas]
  | cons t ts ih =>
    have hrest : ∀ d, ((cutCommas d ts).map fun g => tally p g + [','].countP p).sum =
        tally p ts + [','].countP p :=
      fun d => ih fun u hu => hts u (List.mem_cons_of_mem _ hu)
    rw [cutCommas]
    split
    · next hc =>
      rw [List.map_cons, List.sum_cons, hrest, tally_nil, tally_cons,
        hts t List.mem_cons_self hc.1]
      omega
    · have hmore := hrest (depthAfter depth t.kind)
      split
      · next hnil =>
        rw [hnil] at hmore
        simp only [List.map_nil, List.sum_nil] at hmore
        simp only [List.map_cons, List.map_nil, List.sum_cons, List.sum_nil, tally_cons, tally_nil]
        omega
      · next g gs hg =>
        rw [hg, List.map_cons, List.sum_cons] at hmore
        rw [List.map_cons, List.sum_cons, tally_cons, tally_cons]
        omega

theorem entryTally_mapM (hp : Foreign p) {allowRefs : Bool} {gs : List (List Token)}
    {es : List Entry} (h : gs.mapM (entryOf? allowRefs) = .ok es) :
    (es.map (entryTally p)).sum ≤ (gs.map fun g => tally p g + [','].countP p).sum := by
  induction gs generalizing es with
  | nil =>
    cases h
    exact Nat.le_refl _
  | cons g gs ih =>
    rw [List.mapM_cons] at h
    obtain ⟨e, he, h⟩ := bind_ok h
    obtain ⟨es', hes, h⟩ := bind_ok h
    cases h
    exact Nat.add_le_add (entryTally_le hp he) (ih hes)

theorem distinctEntries_sublist (es : List Entry) : (distinctEntries es).1.Sublist es := by
  rw [distinctEntries_eq]
  suffices h : ∀ r : List Entry × List String, (es.foldl enlist r).1.Sublist (r.1 ++ es) from
    h ([], [])
  induction es with
  | nil => exact fun r => by simp
  | cons e es ih =>
    intro r
    rw [List.foldl_cons]
    refine (ih _).trans ?_
    unfold enlist
    split
    · exact (List.Sublist.refl _).append (List.sublist_cons_self _ _)
    · simp

/-- A list is written with no more than it was read from. -/
theorem countP_list_le (hp : Foreign p) {allowRefs : Bool} {list : List Token} {es : List Entry}
    (h : parenEntries allowRefs list = .ok (es, [])) (hplain : ∀ t ∈ list, t.Plain) :
    (Format.entryList (descriptions (distinctEntries es).1)).toList.countP p ≤ tally p list := by
  by_cases hempty : (distinctEntries es).1 = []
  · rw [hempty]
    exact Nat.zero_le _
  · have hwritten := countP_entryList hp hempty (distinctEntries_spec es).1
    have hdistinct := ((distinctEntries_sublist es).map (entryTally p)).sum_le_sum
      fun _ _ => Nat.zero_le _
    have hne : es ≠ [] := by
      rintro rfl
      exact hempty rfl
    unfold parenEntries at h
    split at h
    · cases h
      exact absurd rfl hne
    · next t inside =>
      split at h
      · cases h
      · next hopen =>
        split at h
        · cases h
        · cases h
          exact absurd rfl hne
        · next inner rest hinner huntil =>
          obtain ⟨es', hes, h⟩ := bind_ok h
          cases h
          obtain ⟨u, hu, rfl, -⟩ := untilClose_eq_some_iff.mp huntil
          -- the brackets are counted on both sides, and a comma less is written than is read
          have hcommas : ∀ v ∈ inner, v.kind = .comma → v.chars = [','] := fun v hv hk =>
            Lexer.chars_of_mark (hplain v (by simp [hv])) (by rw [hk]; rfl)
          have hopened : t.chars = ['('] :=
            Lexer.chars_of_mark (hplain t (by simp)) (by rw [Decidable.not_not.mp hopen]; rfl)
          have hclosed : u.chars = [')'] :=
            Lexer.chars_of_mark (hplain u (by simp)) (by rw [hu]; rfl)
          have hread := entryTally_mapM hp hes
          rw [tally_cutCommas hcommas] at hread
          rw [tally_cons, tally_append, tally_cons, tally_nil, hopened, hclosed]
          omega

/-- Bodies that differ in their notes only. -/
theorem exists_mapNotes {b c : Body} (h : b.bare = c.bare) : ∃ f, b = c.mapNotes f := by
  have hb : b.bare.mapNotes (fun _ => b.notes?.getD .none) = b := by cases b <;> rfl
  have hc : ∀ notes, c.bare.mapNotes (fun _ => notes) = c.mapNotes fun _ => notes := by
    intro notes
    cases c <;> rfl
  exact ⟨_, by rw [← hc, ← h, hb]⟩

theorem tally_stripColon_le (ts : List Token) : tally p (stripColon ts).1 ≤ tally p ts := by
  unfold stripColon
  split
  · exact tally_le_of_sublist (List.dropLast_sublist ts)
  · exact Nat.le_refl _

theorem tally_textAfterColon_le {fault : Kind → HeaderFault} {ts text : List Token}
    (h : textAfterColon fault ts = .ok text) : tally p text ≤ tally p ts := by
  unfold textAfterColon at h
  split at h
  · cases h
    exact Nat.le_refl _
  · split at h
    · cases h
      rw [tally_cons]
      exact Nat.le_add_left _ _
    · cases h

/-- The colon before a block does not count. -/
theorem countP_colon (hp : Foreign p) (b : Bool) :
    (if b then ":" else "" : String).toList.countP p = 0 := by
  cases b <;> simp [hp.colon]

theorem chars_of_nameToken {t : Token} (h : NameToken t) : t.chars = t.text.toList := by
  simp [chars, h.1]

section

variable {k t : Token} {word : String} (keyword : k.kind = .keyword) (hword : k.text = word)
  (name : NameToken t)

include keyword hword name

/-- A line with a name and a text. -/
theorem countP_textLine_le (hp : Foreign p) {fault : Kind → HeaderFault} {ts text : List Token}
    (after : textAfterColon fault ts = .ok text) :
    (word.toList ++ ' ' :: (t.text.toList ++
      if (render text).isEmpty then [] else ':' :: ' ' :: (render text).toList)).countP p ≤
        tally p (k :: t :: ts) := by
  have hrender := countP_render_le hp text
  have hafter : tally p text ≤ tally p ts := tally_textAfterColon_le after
  have hk : k.chars = word.toList := by simp [chars, keyword, hword]
  have hspaced : word.toList.countP p + t.text.toList.countP p +
      (render text).toList.countP p ≤ tally p (k :: t :: ts) := by
    rw [tally_cons, tally_cons, hk, chars_of_nameToken name]
    omega
  rw [← toList_withText, List.countP_append, List.countP_cons, countP_withText hp]
  simpa [hp.space, Nat.add_assoc] using hspaced

/-- A line with a name and a list. -/
theorem countP_listLine_le (hp : Foreign p) {allowRefs : Bool} {ts list : List Token}
    {entries : List Entry} (front : (stripColon ts).1 = t :: list)
    (listed : parenEntries allowRefs list = .ok (entries, [])) (hplain : ∀ u ∈ ts, u.Plain)
    (colon : Bool) :
    (word.toList ++ ' ' :: (t.text.toList ++
      ((Format.entryList (descriptions (distinctEntries entries).1)).toList ++
        (if colon then ":" else "" : String).toList))).countP p ≤ tally p (k :: ts) := by
  have hfront : tally p (stripColon ts).1 ≤ tally p ts := tally_stripColon_le ts
  have hlist := countP_list_le hp listed fun u hu =>
    hplain u (mem_of_stripColon ts u (by rw [front]; exact List.mem_cons_of_mem _ hu))
  have hk : k.chars = word.toList := by simp [chars, keyword, hword]
  rw [front, tally_cons, chars_of_nameToken name] at hfront
  have hspaced : word.toList.countP p + t.text.toList.countP p +
      (Format.entryList (descriptions (distinctEntries entries).1)).toList.countP p ≤
        tally p (k :: ts) := by
    rw [tally_cons, hk]
    omega
  rw [List.countP_append, List.countP_cons, List.countP_append, List.countP_append,
    countP_colon hp]
  simpa [hp.space, Nat.add_assoc] using hspaced

end

/-- **What is written for a declaration was in its line.** -/
theorem countP_header_le (hp : Foreign p) {ts : List Token} {node : LineNode}
    (h : Declares ts node) (hplain : ∀ t ∈ ts.tail, t.Plain) {n : Node}
    (hn : n.body.bare = node.body.bare) : (Format.header n).toList.countP p ≤ tally p ts := by
  obtain ⟨f, hbody⟩ := exists_mapNotes hn
  cases h with
  | step ts free =>
    rw [header_step hbody, List.countP_append, countP_colon hp]
    exact Nat.le_trans (countP_render_le hp (stripColon ts).1) (tally_stripColon_le ts)
  | moduleImport k t ts text keyword word name after =>
    rw [header_module hbody]
    exact countP_textLine_le keyword word name hp after
  | varDecl k t ts text keyword word name after =>
    rw [header_var hbody]
    exact countP_textLine_le keyword word name hp after
  | classDecl k t ts list entries keyword word name front listed =>
    rw [header_class hbody]
    exact countP_listLine_le keyword word name hp front listed hplain _
  | funcDecl k t ts list entries keyword word name front listed =>
    rw [header_func hbody]
    exact countP_listLine_le keyword word name hp front listed hplain _

end Parser

end IntentCode
