import IntentCode.Proofs.Lexer.Spelling
import IntentCode.Proofs.Parser.Header
import Mathlib.Data.List.Forall2

/-!
# Lists in parentheses

`parenEntries` looks for the end of a list with one count of open parentheses and cuts the list at
commas with another. What the two scans find can be said without a count that goes along: the closing
parenthesis is the first at which as many have been closed as opened (`Matched`), and the commas are
those that stand in no parentheses of the list (`Cut`). `parenEntries_iff` is that, with what each group
between two commas has to look like.

`openCount` is the exact number of open parentheses, negative if more are closed than opened. The counts
of the scans stop at zero, and on no input does that make a difference: they are always equal to the
exact one.
-/

set_option autoImplicit false

namespace IntentCode.Parser

open Lexer Token

/-! ## Counting -/

/-- How many more parentheses are open after a token of a kind. -/
def openWeight : Token.Kind → Int
  | .openParen => 1
  | .closeParen => -1
  | _ => 0

/-- How many more parentheses the tokens open than they close. -/
def openCount : List Token → Int
  | [] => 0
  | t :: ts => openWeight t.kind + openCount ts

@[simp] theorem openCount_nil : openCount [] = 0 := rfl

@[simp] theorem openCount_cons (t : Token) (ts : List Token) :
    openCount (t :: ts) = openWeight t.kind + openCount ts := rfl

/-- The scans count exactly as long as nothing is closed that is not open. -/
theorem depthAfter_eq {depth : Nat} {kind : Token.Kind} (h : 0 ≤ depth + openWeight kind) :
    (depthAfter depth kind : Int) = depth + openWeight kind := by
  cases kind <;> simp only [depthAfter, openWeight] at h ⊢ <;> omega

theorem forall_prefix_cons {α : Type} {P : List α → Prop} {a : α} {as : List α} :
    (∀ p, p <+: a :: as → P p) ↔ P [] ∧ ∀ p, p <+: as → P (a :: p) := by
  constructor
  · intro h
    exact ⟨h [] List.nil_prefix, fun p hp => h (a :: p) (List.cons_prefix_cons.mpr ⟨rfl, hp⟩)⟩
  · rintro ⟨hnil, hcons⟩ p hp
    cases p with
    | nil => exact hnil
    | cons b p =>
      obtain ⟨rfl, hrest⟩ := List.cons_prefix_cons.mp hp
      exact hcons p hrest

/-! ## Parentheses that match -/

/-- With `depth` parentheses open, the tokens close them all. -/
def Balanced : Nat → List Token → Prop
  | depth, [] => depth = 0
  | depth, t :: ts =>
    match t.kind with
    | .openParen => Balanced (depth + 1) ts
    | .closeParen => 0 < depth ∧ Balanced (depth - 1) ts
    | _ => Balanced depth ts

theorem balanced_cons {depth : Nat} {t : Token} {ts : List Token} :
    Balanced depth (t :: ts) ↔
      0 ≤ depth + openWeight t.kind ∧ Balanced (depthAfter depth t.kind) ts := by
  rw [Balanced]
  cases t.kind <;> simp [openWeight, depthAfter] <;> omega

theorem closes_cons {depth : Nat} {t : Token} {ts : List Token} :
    Closes depth (t :: ts) ↔
      0 ≤ depth + openWeight t.kind ∧ (t.kind = .comma → 0 < depth) ∧
        Closes (depthAfter depth t.kind) ts := by
  rw [Closes]
  cases t.kind <;> simp [openWeight, depthAfter] <;> omega

/-- The tokens close what they open, and nothing else. -/
structure Matched (ts : List Token) : Prop where
  closed : openCount ts = 0
  opened : ∀ p, p <+: ts → 0 ≤ openCount p

theorem balanced_iff {depth : Nat} {ts : List Token} :
    Balanced depth ts ↔ depth + openCount ts = 0 ∧ ∀ p, p <+: ts → 0 ≤ depth + openCount p := by
  induction ts generalizing depth with
  | nil => simp [Balanced]
  | cons t ts ih =>
    rw [balanced_cons, forall_prefix_cons, ih]
    simp only [openCount_cons, openCount_nil, ← Int.add_assoc]
    constructor
    · rintro ⟨hpos, hclosed, hopened⟩
      rw [depthAfter_eq hpos] at hclosed hopened
      exact ⟨hclosed, by omega, hopened⟩
    · rintro ⟨hclosed, -, hopened⟩
      have hpos : 0 ≤ depth + openWeight t.kind := by simpa using hopened [] List.nil_prefix
      rw [depthAfter_eq hpos]
      exact ⟨hpos, hclosed, hopened⟩

theorem matched_iff {ts : List Token} : Balanced 0 ts ↔ Matched ts := by
  have hzero : ∀ n : Int, ((0 : Nat) : Int) + n = n := fun n => Int.zero_add n
  simp only [balanced_iff, hzero]
  exact ⟨fun h => ⟨h.1, h.2⟩, fun h => ⟨h.closed, h.opened⟩⟩

theorem balanced_append {depth : Nat} {g ts : List Token} (hg : Balanced depth g)
    (hts : Balanced 0 ts) : Balanced depth (g ++ ts) := by
  induction g generalizing depth with
  | nil =>
    have hd : depth = 0 := hg
    subst hd
    exact hts
  | cons u g ih =>
    rw [List.cons_append, balanced_cons]
    rw [balanced_cons] at hg
    exact ⟨hg.1, ih hg.2⟩

theorem balanced_of_closes {depth : Nat} {g : List Token} (h : Closes depth g) :
    Balanced depth g := by
  induction g generalizing depth with
  | nil => exact h
  | cons u g ih =>
    rw [closes_cons] at h
    rw [balanced_cons]
    exact ⟨h.1, ih h.2.2⟩

/-- A list that closes what it opens, with every comma in it inside parentheses. -/
structure IsGroup (g : List Token) : Prop where
  matched : Matched g
  commas : ∀ p c q, g = p ++ c :: q → c.kind = .comma → openCount p ≠ 0

theorem closes_iff {depth : Nat} {g : List Token} :
    Closes depth g ↔
      Balanced depth g ∧
        ∀ p c q, g = p ++ c :: q → c.kind = .comma → depth + openCount p ≠ 0 := by
  induction g generalizing depth with
  | nil => simp [Closes, Balanced]
  | cons t ts ih =>
    have hsplit : (∀ p c q, t :: ts = p ++ c :: q → c.kind = .comma → depth + openCount p ≠ 0) ↔
        (t.kind = .comma → 0 < depth) ∧
          ∀ p c q, ts = p ++ c :: q → c.kind = .comma →
            depth + (openWeight t.kind + openCount p) ≠ 0 := by
      constructor
      · intro h
        refine ⟨fun hk => ?_, fun p c q hts => h (t :: p) c q (by rw [hts, List.cons_append])⟩
        have hne := h [] t ts rfl hk
        rw [openCount_nil] at hne
        omega
      · rintro ⟨hhead, htail⟩ p c q hts hk
        cases p with
        | nil =>
          obtain ⟨rfl, rfl⟩ := List.cons.inj hts
          have := hhead hk
          rw [openCount_nil]
          omega
        | cons u p =>
          obtain ⟨rfl, rfl⟩ := List.cons.inj hts
          exact htail p c q rfl hk
    rw [closes_cons, balanced_cons, hsplit, ih]
    constructor
    · rintro ⟨hpos, hcomma, hbalanced, hcommas⟩
      rw [depthAfter_eq hpos] at hcommas
      exact ⟨⟨hpos, hbalanced⟩, hcomma, fun p c q hts hk => Int.add_assoc .. ▸ hcommas p c q hts hk⟩
    · rintro ⟨⟨hpos, hbalanced⟩, hcomma, hcommas⟩
      rw [depthAfter_eq hpos]
      exact ⟨hpos, hcomma, hbalanced, fun p c q hts hk => Int.add_assoc .. ▸ hcommas p c q hts hk⟩

theorem isGroup_iff {g : List Token} : Closes 0 g ↔ IsGroup g := by
  have hzero : ∀ n : Int, ((0 : Nat) : Int) + n = n := fun n => Int.zero_add n
  simp only [closes_iff, matched_iff, hzero]
  exact ⟨fun h => ⟨h.1, h.2⟩, fun h => ⟨h.matched, h.commas⟩⟩

/-! ## The end of a list -/

/-- The scan stops at a token that would close more than is open. -/
theorem untilClose_cons (depth : Nat) (t : Token) (ts : List Token) :
    untilClose depth (t :: ts) =
      if depth + openWeight t.kind < 0 then some ([], ts)
      else (untilClose (depthAfter depth t.kind) ts).map fun r => (t :: r.1, r.2) := by
  by_cases hk : t.kind = .closeParen
  · cases depth with
    | zero => simp [untilClose, hk, openWeight]
    | succ depth =>
      rw [if_neg (by rw [hk, openWeight]; omega)]
      simp [untilClose, hk, depthAfter]
  · have hpos : 0 ≤ openWeight t.kind := by cases h : t.kind <;> simp_all [openWeight]
    rw [if_neg (by omega)]
    cases h : t.kind <;> first | exact absurd h hk | simp [untilClose, h, depthAfter]

theorem untilClose_of_balanced {depth : Nat} {ts : List Token} (h : Balanced depth ts) {t : Token}
    (ht : t.kind = .closeParen) (rest : List Token) :
    untilClose depth (ts ++ t :: rest) = some (ts, rest) := by
  induction ts generalizing depth with
  | nil =>
    have hd : depth = 0 := h
    subst hd
    simp [untilClose, ht]
  | cons u ts ih =>
    rw [balanced_cons] at h
    rw [List.cons_append, untilClose_cons, if_neg (by omega), ih h.2]
    rfl

/-- **The end of a list is the first parenthesis that closes more than the list has opened.** -/
theorem untilClose_eq_some_iff {depth : Nat} {ts inner rest : List Token} :
    untilClose depth ts = some (inner, rest) ↔
      ∃ close : Token, close.kind = .closeParen ∧ ts = inner ++ close :: rest ∧
        Balanced depth inner := by
  constructor
  · intro h
    induction ts generalizing depth inner with
    | nil => cases h
    | cons t ts ih =>
      rw [untilClose_cons] at h
      split at h
      · next hneg =>
        cases h
        have hk : t.kind = .closeParen ∧ depth = 0 := by
          cases hk : t.kind <;> simp only [hk, openWeight] at hneg <;> simp <;> omega
        exact ⟨t, hk.1, rfl, hk.2⟩
      · next hpos =>
        obtain ⟨⟨more, rest'⟩, hmore, heq⟩ := Option.map_eq_some_iff.mp h
        cases heq
        obtain ⟨close, hk, rfl, hbalanced⟩ := ih hmore
        exact ⟨close, hk, rfl, balanced_cons.mpr ⟨by omega, hbalanced⟩⟩
  · rintro ⟨close, hk, rfl, hbalanced⟩
    exact untilClose_of_balanced hbalanced hk rest

/-- A list without an end never closes more than it has opened. -/
theorem opened_of_untilClose {depth : Nat} {ts : List Token} (h : untilClose depth ts = none) :
    ∀ p, p <+: ts → 0 ≤ depth + openCount p := by
  induction ts generalizing depth with
  | nil =>
    intro p hp
    obtain rfl := List.prefix_nil.mp hp
    simp
  | cons t ts ih =>
    rw [untilClose_cons] at h
    split at h
    · cases h
    · next hpos =>
      have hopened := ih (Option.map_eq_none_iff.mp h)
      rw [depthAfter_eq (by omega)] at hopened
      rw [forall_prefix_cons]
      refine ⟨by simp, fun p hp => ?_⟩
      rw [openCount_cons, ← Int.add_assoc]
      exact hopened p hp

/-! ## Commas -/

/-- Groups with a comma between any two; each comma stands with the group after it. -/
def rejoin (first : List Token) (more : List (Token × List Token)) : List Token :=
  first ++ more.flatMap fun g => g.1 :: g.2

@[simp] theorem rejoin_nil (first : List Token) : rejoin first [] = first := by
  simp [rejoin]

@[simp] theorem rejoin_cons (first : List Token) (comma : Token) (g : List Token)
    (more : List (Token × List Token)) :
    rejoin first ((comma, g) :: more) = first ++ comma :: rejoin g more := by
  simp [rejoin]

theorem mem_rejoin {first g : List Token} {more : List (Token × List Token)}
    (h : g ∈ first :: more.map Prod.snd) {t : Token} (ht : t ∈ g) : t ∈ rejoin first more := by
  rcases List.mem_cons.mp h with rfl | h
  · exact List.mem_append_left _ ht
  · obtain ⟨m, hm, rfl⟩ := List.mem_map.mp h
    exact List.mem_append_right _ (List.mem_flatMap.mpr ⟨m, hm, List.mem_cons_of_mem _ ht⟩)

/-- `inner` is cut at the commas that are in no parentheses. -/
structure Cut (inner first : List Token) (more : List (Token × List Token)) : Prop where
  joined : inner = rejoin first more
  commas : ∀ g ∈ more, g.1.kind = .comma
  groups : ∀ g ∈ first :: more.map Prod.snd, IsGroup g

theorem cutCommas_of_closes {depth : Nat} {g : List Token} (h : Closes depth g) :
    cutCommas depth g = [g] ∧
      ∀ (t : Token) (rest : List Token), t.kind = .comma →
        cutCommas depth (g ++ t :: rest) = g :: cutCommas 0 rest := by
  induction g generalizing depth with
  | nil =>
    have hd : depth = 0 := h
    subst hd
    exact ⟨rfl, fun t rest ht => by rw [List.nil_append, cutCommas, if_pos ⟨ht, rfl⟩]⟩
  | cons u g ih =>
    rw [closes_cons] at h
    obtain ⟨hpos, hcomma, hnext⟩ := h
    have hno : ¬ (u.kind = .comma ∧ depth = 0) := by
      rintro ⟨hk, rfl⟩
      exact absurd (hcomma hk) (Nat.lt_irrefl 0)
    obtain ⟨hcut, hmore⟩ := ih hnext
    refine ⟨?_, fun t rest ht => ?_⟩
    · rw [cutCommas, if_neg hno, hcut]
    · rw [List.cons_append, cutCommas, if_neg hno, hmore t rest ht]

theorem cutCommas_rejoin {first : List Token} {more : List (Token × List Token)}
    (hcommas : ∀ g ∈ more, g.1.kind = .comma)
    (hgroups : ∀ g ∈ first :: more.map Prod.snd, Closes 0 g) :
    cutCommas 0 (rejoin first more) = first :: more.map Prod.snd := by
  induction more generalizing first with
  | nil =>
    rw [rejoin_nil]
    exact (cutCommas_of_closes (hgroups first List.mem_cons_self)).1
  | cons g more ih =>
    have hfirst := cutCommas_of_closes (hgroups first List.mem_cons_self)
    rw [rejoin_cons, hfirst.2 g.1 _ (hcommas g List.mem_cons_self),
      ih (fun g hg => hcommas g (List.mem_cons_of_mem _ hg))
        (fun g hg => hgroups g (List.mem_cons_of_mem _ hg))]
    rfl

/-- Cutting at the commas outside parentheses leaves none there, and loses nothing. -/
theorem closes_of_cutCommas {depth : Nat} {ts : List Token} (h : Balanced depth ts) :
    ∃ first more, cutCommas depth ts = first :: more.map Prod.snd ∧ ts = rejoin first more ∧
      (∀ g ∈ more, g.1.kind = .comma) ∧ Closes depth first ∧
      ∀ g ∈ more.map Prod.snd, Closes 0 g := by
  induction ts generalizing depth with
  | nil => exact ⟨[], [], rfl, rfl, by simp, h, by simp⟩
  | cons t ts ih =>
    rw [balanced_cons] at h
    obtain ⟨hpos, hnext⟩ := h
    obtain ⟨first, more, hcut, hts, hcommas, hfirst, hmore⟩ := ih hnext
    rw [cutCommas]
    by_cases hc : t.kind = .comma ∧ depth = 0
    · -- the comma ends an empty group
      obtain ⟨hk, rfl⟩ := hc
      have hzero : depthAfter 0 t.kind = 0 := by rw [hk]; rfl
      rw [hzero] at hcut hfirst
      refine ⟨[], (t, first) :: more, ?_, ?_, ?_, rfl, ?_⟩
      · rw [if_pos ⟨hk, rfl⟩, hcut]
        rfl
      · rw [rejoin_cons, hts, List.nil_append]
      · exact List.forall_mem_cons.mpr ⟨hk, hcommas⟩
      · exact List.forall_mem_cons.mpr ⟨hfirst, hmore⟩
    · -- the token goes to the first group
      refine ⟨t :: first, more, ?_, ?_, hcommas, ?_, hmore⟩
      · rw [if_neg hc, hcut]
      · rw [hts, rejoin, rejoin, List.cons_append]
      · exact closes_cons.mpr ⟨hpos, fun hk => Nat.pos_of_ne_zero fun hd => hc ⟨hk, hd⟩, hfirst⟩

/-- **The groups of a list** are what `cutCommas` returns for it. -/
theorem cutCommas_eq_iff {inner : List Token} (h : Matched inner) {groups : List (List Token)} :
    cutCommas 0 inner = groups ↔
      ∃ first more, Cut inner first more ∧ groups = first :: more.map Prod.snd := by
  constructor
  · rintro rfl
    obtain ⟨first, more, hcut, hinner, hcommas, hfirst, hmore⟩ :=
      closes_of_cutCommas (matched_iff.mpr h)
    refine ⟨first, more, ⟨hinner, hcommas, fun g hg => isGroup_iff.mp ?_⟩, hcut⟩
    rcases List.mem_cons.mp hg with rfl | hg
    · exact hfirst
    · exact hmore g hg
  · rintro ⟨first, more, hcut, rfl⟩
    rw [hcut.joined]
    exact cutCommas_rejoin hcut.commas fun g hg => isGroup_iff.mpr (hcut.groups g hg)

/-- The depth that `cutCommas` has reached after some tokens. -/
def depthBehind (p : List Token) : Nat := p.foldl (fun depth t => depthAfter depth t.kind) 0

theorem depthBehind_eq {p : List Token} (h : ∀ q, q <+: p → 0 ≤ openCount q) :
    (depthBehind p : Int) = openCount p := by
  have hall : ∀ (p : List Token) (depth : Nat), (∀ q, q <+: p → 0 ≤ depth + openCount q) →
      ((p.foldl (fun depth t => depthAfter depth t.kind) depth : Nat) : Int) =
        depth + openCount p := by
    intro p
    induction p with
    | nil => simp
    | cons t p ih =>
      intro depth h
      obtain ⟨-, h⟩ := forall_prefix_cons.mp h
      simp only [openCount_cons, ← Int.add_assoc] at h ⊢
      have hpos : 0 ≤ depth + openWeight t.kind := by simpa using h [] List.nil_prefix
      rw [← depthAfter_eq hpos] at h ⊢
      exact ih _ h
  simpa [depthBehind] using hall p 0 (by simpa using h)

/-! ## Entries -/

/-- A token that names an entry, and the name: a word, or a reference where one may stand. -/
inductive NamesEntry (allowRefs : Bool) (t : Token) : String → Prop
  | word (h : NameToken t) : NamesEntry allowRefs t t.text
  | reference (allowed : allowRefs = true) (kind : t.kind = .reference) :
    NamesEntry allowRefs t t.display

/-- A group that is an entry: a name alone, or with a colon and a description. -/
inductive ReadsAs (allowRefs : Bool) : List Token → Entry → Prop
  | alone (t : Token) (name : String) (names : NamesEntry allowRefs t name) :
    ReadsAs allowRefs [t] ⟨name, []⟩
  | described (t colon : Token) (description : List Token) (name : String)
    (names : NamesEntry allowRefs t name) (kind : colon.kind = .colon) :
    ReadsAs allowRefs (t :: colon :: description) ⟨name, description⟩

theorem entryName?_eq_ok_iff {allowRefs : Bool} {t : Token} {name : String} :
    entryName? allowRefs t = .ok name ↔ NamesEntry allowRefs t name := by
  constructor
  · intro h
    unfold entryName? at h
    split at h
    · next hk =>
      split at h
      · cases h
      · next hb =>
        cases h
        exact .word ⟨hk, eq_false_of_ne_true hb⟩
    · next hk =>
      split at h
      · next ha =>
        cases h
        exact .reference ha hk
      · cases h
    · cases h
  · rintro (⟨hk, hb⟩ | ⟨rfl, hk⟩)
    · simp [entryName?, hk, hb]
    · simp [entryName?, hk]

theorem entryOf?_eq_ok_iff {allowRefs : Bool} {g : List Token} {e : Entry} :
    entryOf? allowRefs g = .ok e ↔ ReadsAs allowRefs g e := by
  constructor
  · intro h
    unfold entryOf? at h
    cases g with
    | nil => cases h
    | cons t ts =>
      obtain ⟨name, hname, h⟩ := bind_ok h
      have hnames := entryName?_eq_ok_iff.mp hname
      cases ts with
      | nil =>
        cases h
        exact .alone t name hnames
      | cons colon description =>
        simp only at h
        split at h
        · next hk =>
          cases h
          exact .described t colon description name hnames hk
        · cases h
  · intro h
    cases h with
    | alone t name names =>
      rw [entryOf?, entryName?_eq_ok_iff.mpr names]
      rfl
    | described t colon description name names kind =>
      rw [entryOf?, entryName?_eq_ok_iff.mpr names]
      simp [bind, Except.bind, kind]

theorem mapM_eq_ok_iff {ε α β : Type} {f : α → Except ε β} {xs : List α} {ys : List β} :
    xs.mapM f = .ok ys ↔ List.Forall₂ (fun x y => f x = .ok y) xs ys := by
  induction xs generalizing ys with
  | nil =>
    rw [List.forall₂_nil_left_iff]
    exact ⟨fun h => by cases h; rfl, fun h => by rw [h]; rfl⟩
  | cons x xs ih =>
    rw [List.mapM_cons, List.forall₂_cons_left_iff]
    constructor
    · intro h
      obtain ⟨y, hy, h⟩ := bind_ok h
      obtain ⟨ys', hys, h⟩ := bind_ok h
      cases h
      exact ⟨y, ys', hy, ih.mp hys, rfl⟩
    · rintro ⟨y, ys', hy, hys, rfl⟩
      rw [hy, ih.mpr hys]
      rfl

theorem mem_of_mapM {ε α β : Type} {f : α → Except ε β} {xs : List α} {ys : List β}
    (h : xs.mapM f = .ok ys) : ∀ y ∈ ys, ∃ x ∈ xs, f x = .ok y := by
  have hall := mapM_eq_ok_iff.mp h
  clear h
  induction hall with
  | nil => simp
  | @cons x y xs ys hy _ ih =>
    intro z hz
    rcases List.mem_cons.mp hz with rfl | hz
    · exact ⟨x, List.mem_cons_self, hy⟩
    · obtain ⟨w, hw, hz⟩ := ih z hz
      exact ⟨w, List.mem_cons_of_mem _ hw, hz⟩

/-! ## Lists -/

/-- What the search for the end of a list passes over. -/
def passedOver (ts : List Token) : List Token :=
  match untilClose 0 ts with
  | some (inner, _) => inner
  | none => ts

theorem opened_passedOver (ts : List Token) : ∀ p, p <+: passedOver ts → 0 ≤ openCount p := by
  unfold passedOver
  cases h : untilClose 0 ts with
  | none => simpa using opened_of_untilClose h
  | some found =>
    obtain ⟨close, -, -, hbalanced⟩ := untilClose_eq_some_iff.mp h
    exact (matched_iff.mp hbalanced).opened

/-- **A list in parentheses is cut into its entries.** It ends at the parenthesis that matches the
first, and nothing of it is lost: with the commas between them the groups are again what stands in the
parentheses. The search for the end has at least one parenthesis open at every token that it passes
over, and the depth at which commas are cut is the exact number of open parentheses: neither count is
ever taken below zero. -/
theorem parenEntries_iff {openParen : Token} (h : openParen.kind = .openParen) (allowRefs : Bool)
    (ts : List Token) :
    (∀ entries rest, parenEntries allowRefs (openParen :: ts) = .ok (entries, rest) ↔
      ∃ (inner : List Token) (close : Token), ts = inner ++ close :: rest ∧
        close.kind = .closeParen ∧ Matched inner ∧
        (inner = [] ∧ entries = [] ∨
          ∃ first more, Cut inner first more ∧
            List.Forall₂ (ReadsAs allowRefs) (first :: more.map Prod.snd) entries)) ∧
    (∀ p, p <+: passedOver ts → 0 < openCount (openParen :: p)) ∧
    ∀ inner rest, untilClose 0 ts = some (inner, rest) →
      ∀ p, p <+: inner → (depthBehind p : Int) = openCount p := by
  refine ⟨fun entries rest => ?_, fun p hp => ?_, fun inner rest hinner p hp => ?_⟩
  · have hentries : ∀ {groups : List (List Token)},
        groups.mapM (entryOf? allowRefs) = .ok entries ↔
          List.Forall₂ (ReadsAs allowRefs) groups entries := by
      intro groups
      rw [mapM_eq_ok_iff]
      simp only [entryOf?_eq_ok_iff]
    rw [parenEntries, if_neg (not_not_intro h)]
    constructor
    · intro hok
      split at hok
      · cases hok
      · next rest' hinner =>
        cases hok
        obtain ⟨close, hk, hts, hbalanced⟩ := untilClose_eq_some_iff.mp hinner
        exact ⟨[], close, hts, hk, matched_iff.mp hbalanced, .inl ⟨rfl, rfl⟩⟩
      · next inner rest' hne hinner =>
        obtain ⟨entries', hread, hok⟩ := bind_ok hok
        cases hok
        obtain ⟨close, hk, hts, hbalanced⟩ := untilClose_eq_some_iff.mp hinner
        have hmatched := matched_iff.mp hbalanced
        obtain ⟨first, more, hcut, hgroups⟩ := (cutCommas_eq_iff hmatched).mp rfl
        rw [hgroups] at hread
        exact ⟨inner, close, hts, hk, hmatched, .inr ⟨first, more, hcut, hentries.mp hread⟩⟩
    · rintro ⟨inner, close, hts, hk, hmatched, hparts⟩
      rw [untilClose_eq_some_iff.mpr ⟨close, hk, hts, matched_iff.mpr hmatched⟩]
      rcases hparts with ⟨rfl, rfl⟩ | ⟨first, more, hcut, hread⟩
      · rfl
      · have hgroups := (cutCommas_eq_iff hmatched).mpr ⟨first, more, hcut, rfl⟩
        cases inner with
        | nil =>
          -- the one group of an empty list would have to be an entry
          obtain ⟨rfl, -⟩ := List.cons.inj hgroups
          obtain ⟨e, -, hread, -⟩ := List.forall₂_cons_left_iff.mp hread
          cases hread
        | cons t inner =>
          simp only [hgroups, hentries.mpr hread]
          rfl
  · have := opened_passedOver ts p hp
    rw [openCount_cons, h, openWeight]
    omega
  · obtain ⟨close, -, -, hbalanced⟩ := untilClose_eq_some_iff.mp hinner
    have hopened := (matched_iff.mp hbalanced).opened
    exact depthBehind_eq fun q hq => hopened q (hq.trans hp)

/-- `x: (a, b), y):`, a list with a comma that is none of its own, and a colon after it. -/
def nestedList : List Token :=
  [⟨.identifier, "x", 1⟩, .bare .colon 1, .bare .openParen 1, ⟨.identifier, "a", 1⟩,
   .bare .comma 1, ⟨.identifier, "b", 1⟩, .bare .closeParen 1, .bare .comma 1,
   ⟨.identifier, "y", 1⟩, .bare .closeParen 1, .bare .colon 1]

theorem parenEntries_iff_nested :
    (Token.bare .openParen 1).kind = .openParen ∧
      parenEntries false (.bare .openParen 1 :: nestedList) =
        .ok ([⟨"x", (nestedList.drop 2).take 5⟩, ⟨"y", []⟩], [.bare .colon 1]) ∧
      (∃ (inner : List Token) (close : Token), nestedList = inner ++ close :: [.bare .colon 1] ∧
        close.kind = .closeParen ∧ Matched inner ∧
        (inner = [] ∧ [(⟨"x", (nestedList.drop 2).take 5⟩ : Entry), ⟨"y", []⟩] = [] ∨
          ∃ first more, Cut inner first more ∧
            List.Forall₂ (ReadsAs false) (first :: more.map Prod.snd)
              [⟨"x", (nestedList.drop 2).take 5⟩, ⟨"y", []⟩])) ∧
      (∀ p, p <+: passedOver nestedList → 0 < openCount (.bare .openParen 1 :: p)) ∧
      ∀ inner rest, untilClose 0 nestedList = some (inner, rest) →
        ∀ p, p <+: inner → (depthBehind p : Int) = openCount p := by
  have hread : parenEntries false (.bare .openParen 1 :: nestedList) =
      .ok ([⟨"x", (nestedList.drop 2).take 5⟩, ⟨"y", []⟩], [.bare .colon 1]) := rfl
  have hopen : (Token.bare .openParen 1).kind = .openParen := rfl
  obtain ⟨hlist, hsearch, hcuts⟩ := parenEntries_iff hopen false nestedList
  exact ⟨hopen, hread, (hlist _ _).mp hread, hsearch, hcuts⟩

end IntentCode.Parser
