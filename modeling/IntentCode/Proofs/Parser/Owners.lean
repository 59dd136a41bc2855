import IntentCode.Proofs.Ast.Declarations
import IntentCode.Proofs.Parser.Placed

/-!
# To whom a note belongs

A note that is read is a `Remark`: what it says, the node in whose scope its line stands, and the
number of the last node before it. To whom it belongs can then be told from the tree alone
(`Remark.owner?`): to the last declaration of its scope that comes before it, else to the first of
its scope.

A node that comes later changes little: a note that has an owner keeps it, and a note without one is
owned by the first declaration of its scope as soon as there is one (`Remark.ownerIn_cons`). So the
notes are at any time divided among the declarations (`owned`), the open scopes (`waiting`) and the
rest (`loose`), and a scope that closes sets loose what waits in it (`loose_perm_append`).
-/

set_option autoImplicit false

namespace IntentCode

namespace Parser

open Ast

/-! ## Notes that have been read -/

/-- A note with its place. -/
structure Remark where
  /-- The node in whose scope the line stands. -/
  scope : Nat
  /-- The number of the last node before the line. -/
  before : Nat
  note : PendingNote
deriving DecidableEq

def Outcome.remark? (rs : List Row) (o : Outcome) : Option Remark :=
  match o.fate with
  | .note kind text =>
    some ⟨parentOf rs o.level, rs.length,
      ⟨kind, text, o.line.number, Token.render o.line.tokens⟩⟩
  | _ => none

theorem Outcome.remark?_of_isLost {rs : List Row} {o : Outcome} (h : o.fate.isLost = true) :
    o.remark? rs = none := by
  unfold remark?
  split
  · next hfate =>
    rw [hfate] at h
    cases h
  · rfl

/-- The notes among some lines, of which the latest comes first, in the order of the source. -/
def remarks : List Outcome → List Remark
  | [] => []
  | o :: past => remarks past ++ (o.remark? (rows past)).toList

/-- What is reported about a note without an owner. -/
def PendingNote.finding (p : PendingNote) : Finding := ⟨.detachedNote p.kind, p.line, p.content⟩

/-! ## Owners -/

namespace Remark

/-- The owner of a note among the declarations of its scope: the last one before it, else the first
one. -/
def ownerAmong (r : Remark) (declared : List Nat) : Option Nat :=
  (declared.filter fun d => d ≤ r.before).getLast?.or declared.head?

def owner? (r : Remark) (t : Table) : Option Nat := r.ownerAmong (t.declaredChildren r.scope)

/-- The owner as far as the rows go. -/
def ownerIn (r : Remark) (rs : List Row) : Option Nat := r.ownerAmong (declaredIn r.scope rs)

variable {r : Remark} {rs : List Row} {d : Nat}

theorem ownerAmong_eq_none_iff {declared : List Nat} :
    r.ownerAmong declared = none ↔ declared = [] := by
  cases declared <;> simp [ownerAmong]

theorem mem_of_ownerAmong {declared : List Nat} (h : r.ownerAmong declared = some d) :
    d ∈ declared := by
  rcases Option.or_eq_some_iff.mp h with h | ⟨-, h⟩
  · exact List.mem_of_mem_filter (List.mem_of_getLast? h)
  · exact List.mem_of_mem_head? h

/-- A declaration that comes after a note owns it only if it is the first. -/
theorem ownerAmong_concat {declared : List Nat} (h : r.before < d) :
    r.ownerAmong (declared ++ [d]) =
      if declared = [] then some d else r.ownerAmong declared := by
  have hfilter : (declared ++ [d]).filter (fun d => d ≤ r.before) =
      declared.filter fun d => d ≤ r.before := by
    rw [List.filter_append, List.filter_cons_of_neg (by simpa using h), List.filter_nil,
      List.append_nil]
  rw [ownerAmong, hfilter, ownerAmong]
  cases declared <;> simp

/-- A note after all declarations belongs to the last. -/
theorem ownerAmong_of_le {declared : List Nat} (h : ∀ d ∈ declared, d ≤ r.before) :
    r.ownerAmong declared = declared.getLast? := by
  have hfilter : declared.filter (fun d => d ≤ r.before) = declared :=
    List.filter_eq_self.mpr (by simpa using h)
  rw [ownerAmong, hfilter]
  cases declared with
  | nil => rfl
  | cons d ds => simp [List.getLast?_cons]

theorem le_of_ownerIn (h : r.ownerIn rs = some d) : d ≤ rs.length :=
  (lt_of_mem_declaredIn (mem_of_ownerAmong h)).2

/-- A new row owns what waits in its scope, if it declares something. -/
theorem ownerIn_cons (h : r.before ≤ rs.length) (row : Row) :
    r.ownerIn (row :: rs) =
      if r.scope = parentOf rs row.level ∧ row.body.isDeclaration = true ∧ r.ownerIn rs = none then
        some (rs.length + 1)
      else r.ownerIn rs := by
  simp only [ownerIn, declaredIn, ownerAmong_eq_none_iff]
  by_cases hrow : r.scope = parentOf rs row.level ∧ row.body.isDeclaration = true
  · rw [if_pos hrow, ownerAmong_concat (Nat.lt_succ_of_le h)]
    simp [hrow]
  · rw [if_neg hrow, List.append_nil, if_neg fun hall => hrow ⟨hall.1, hall.2.1⟩]

end Remark

/-- The notes that a node owns. -/
def owned (rs : List Row) (rems : List Remark) (uid : Nat) : List Remark :=
  rems.filter fun r => r.ownerIn rs = some uid

/-- The notes in the scope of a node that no one owns. -/
def waiting (rs : List Row) (rems : List Remark) (uid : Nat) : List Remark :=
  rems.filter fun r => r.ownerIn rs = none ∧ r.scope = uid

/-- The notes that no one owns, but for those in some scopes. -/
def loose (rs : List Row) (rems : List Remark) (uids : List Nat) : List Remark :=
  rems.filter fun r => r.ownerIn rs = none ∧ r.scope ∉ uids

section

variable {rs : List Row} {rems : List Remark}

/-! ### One more note -/

theorem owned_concat (r : Remark) (uid : Nat) :
    owned rs (rems ++ [r]) uid =
      owned rs rems uid ++ if r.ownerIn rs = some uid then [r] else [] := by
  unfold owned
  rw [List.filter_append]
  by_cases h : r.ownerIn rs = some uid <;> simp [h]

theorem waiting_concat (r : Remark) (uid : Nat) :
    waiting rs (rems ++ [r]) uid =
      waiting rs rems uid ++ if r.ownerIn rs = none ∧ r.scope = uid then [r] else [] := by
  unfold waiting
  rw [List.filter_append]
  by_cases h : r.ownerIn rs = none ∧ r.scope = uid <;> simp [h]

/-- A note that is owned, or in one of the scopes, is not loose. -/
theorem loose_concat {r : Remark} {uids : List Nat} (h : r.ownerIn rs = none → r.scope ∈ uids) :
    loose rs (rems ++ [r]) uids = loose rs rems uids := by
  unfold loose
  rw [List.filter_append, List.filter_cons_of_neg, List.filter_nil, List.append_nil]
  simpa using h

/-! ### One more row -/

theorem owned_cons_of_ne (hplace : ∀ r ∈ rems, r.before ≤ rs.length) (row : Row) {uid : Nat}
    (hu : uid ≠ rs.length + 1) : owned (row :: rs) rems uid = owned rs rems uid := by
  refine List.filter_congr fun r hr => ?_
  rw [Remark.ownerIn_cons (hplace r hr)]
  split
  · next hnew => simp [hnew, Ne.symm hu]
  · rfl

/-- A declaration takes what waits in its scope. -/
theorem owned_cons_self (hplace : ∀ r ∈ rems, r.before ≤ rs.length) {row : Row}
    (hd : row.body.isDeclaration = true) :
    owned (row :: rs) rems (rs.length + 1) = waiting rs rems (parentOf rs row.level) := by
  refine List.filter_congr fun r hr => ?_
  have hne : r.ownerIn rs ≠ some (rs.length + 1) := by
    intro howner
    have := Remark.le_of_ownerIn howner
    omega
  rw [Remark.ownerIn_cons (hplace r hr)]
  split
  · next hnew => simp [hnew]
  · next hold =>
    have hnot : ¬ (r.ownerIn rs = none ∧ r.scope = parentOf rs row.level) :=
      fun h => hold ⟨h.2, hd, h.1⟩
    simp only [hne, hnot]

theorem waiting_cons (hplace : ∀ r ∈ rems, r.before ≤ rs.length) (row : Row) (uid : Nat) :
    waiting (row :: rs) rems uid =
      if uid = parentOf rs row.level ∧ row.body.isDeclaration = true then []
      else waiting rs rems uid := by
  split
  · next hrow =>
    refine List.filter_eq_nil_iff.mpr fun r hr => ?_
    rw [Remark.ownerIn_cons (hplace r hr)]
    split
    · simp
    · next hold =>
      simp only [decide_eq_true_eq]
      rintro ⟨hnone, hscope⟩
      exact hold ⟨hscope.trans hrow.1, hrow.2, hnone⟩
  · next hrow =>
    refine List.filter_congr fun r hr => ?_
    rw [Remark.ownerIn_cons (hplace r hr)]
    split
    · next hnew =>
      have hscope : r.scope ≠ uid := fun h => hrow ⟨h ▸ hnew.1, hnew.2.1⟩
      simp [hscope]
    · rfl

/-- A row in one of the scopes changes nothing outside them. -/
theorem loose_cons (hplace : ∀ r ∈ rems, r.before ≤ rs.length) {row : Row} {uids : List Nat}
    (hu : parentOf rs row.level ∈ uids) : loose (row :: rs) rems uids = loose rs rems uids := by
  refine List.filter_congr fun r hr => ?_
  rw [Remark.ownerIn_cons (hplace r hr)]
  split
  · next hnew => simp [hnew, hu]
  · rfl

end

/-- Adds several notes. -/
def withRemarks (ps : List PendingNote) (ns : Notes) : Notes :=
  ps.foldl (fun ns p => State.addNote p.kind p.text ns) ns

/-- What notes add up to. -/
def collected (ps : List PendingNote) : Notes := withRemarks ps .none

theorem collected_append (ps : List PendingNote) (p : PendingNote) :
    collected (ps ++ [p]) = State.addNote p.kind p.text (collected ps) := List.foldl_append

/-! ## Closing scopes -/

/-- Where a scope is no longer left out, what waits in it is loose. -/
theorem loose_perm_cons (rs : List Row) (rems : List Remark) {uid : Nat} {uids : List Nat}
    (h : uid ∉ uids) :
    (loose rs rems uids).Perm (loose rs rems (uid :: uids) ++ waiting rs rems uid) := by
  have hsplit := List.filter_append_perm (fun r : Remark => r.scope ≠ uid) (loose rs rems uids)
  have hout : (loose rs rems uids).filter (fun r => r.scope ≠ uid) = loose rs rems (uid :: uids) := by
    rw [loose, List.filter_filter]
    refine List.filter_congr fun r _ => ?_
    simp only [List.mem_cons, not_or]
    by_cases hu : r.scope = uid <;> simp [hu]
  have hin : (loose rs rems uids).filter (fun r => !decide (r.scope ≠ uid)) = waiting rs rems uid := by
    rw [loose, List.filter_filter]
    refine List.filter_congr fun r _ => ?_
    by_cases hu : r.scope = uid <;> simp [hu, h]
  rw [hout, hin] at hsplit
  exact hsplit.symm

theorem loose_perm_append (rs : List Row) (rems : List Remark) {closed uids : List Nat}
    (h : (closed ++ uids).Nodup) :
    (loose rs rems uids).Perm
      (loose rs rems (closed ++ uids) ++ closed.flatMap (waiting rs rems)) := by
  induction closed with
  | nil => simp
  | cons uid closed ih =>
    rw [List.cons_append, List.nodup_cons] at h
    refine (ih h.2).trans ?_
    rw [List.flatMap_cons, List.cons_append, ← List.append_assoc]
    exact (loose_perm_cons rs rems h.1).append_right _

end Parser

end IntentCode
