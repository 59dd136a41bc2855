import IntentCode.Ast.Interchange
import IntentCode.Proofs.Ast.Accepted
import IntentCode.Proofs.Json.Record
import IntentCode.Proofs.OrderedMap

/-!
# Reading a tree that was written

A table that is a tree is written as text from which the same table is read (`read_write`): every node with
its links in order and its line, every text character by character, every list of parameters and references in
its order.

The steps of reading meet what the steps of writing left. The nodes are keyed by their numbers, so no key
occurs twice, and they lie in the order of their numbers, so sorting does not move them. The links lead to nodes
of the table, because the table is accepted, so they are words if the numbers of the nodes are.
-/

set_option autoImplicit false

namespace IntentCode.Ast

open Json (Value MembersFit Record.required_of_mem Record.withDefault_of_mem Record.nullable_of_mem)

/-! ## What is written can be read -/

theorem fits_ofNat {n : Nat} (h : n < 0x100000000) (budget : Nat) : (ofNat n).Fits budget := by
  show n < 0x10000000000000000
  omega

theorem fits_ofStrings (texts : List String) (budget : Nat) :
    (ofStrings texts).Fits (budget + 1) := by
  refine ⟨Nat.succ_pos budget, Json.itemsFit_iff.mpr fun v hv => ?_⟩
  obtain ⟨text, -, rfl⟩ := List.mem_map.mp hv
  trivial

theorem fits_ofEntries (entries : OrderedMap String) (budget : Nat) :
    (ofEntries entries).Fits (budget + 1) := by
  refine ⟨Nat.succ_pos budget, Json.membersFit_iff.mpr fun m hm => ?_⟩
  obtain ⟨e, -, rfl⟩ := List.mem_map.mp hm
  trivial

theorem Body.fits_fields (b : Body) (budget : Nat) :
    ∀ m ∈ b.fields, m.2.Fits (budget + 1) := by
  have htext : ∀ text : String, (Value.string text).Fits (budget + 1) := fun _ => trivial
  have hmark : ∀ mark : Bool, (Value.bool mark).Fits (budget + 1) := fun _ => trivial
  cases b <;>
    simp [fields, ofNotes, htext, hmark, fits_ofStrings, fits_ofEntries]

/-- The numbers of a node are words of 32 bits. -/
structure Node.Words (n : Node) : Prop where
  uid : n.uid < 0x100000000
  line : n.line < 0x100000000
  parent : ∀ p ∈ n.parent, p < 0x100000000
  children : ∀ c ∈ n.children, c < 0x100000000

/-- The fields of a node. -/
def Node.members (n : Node) : List (String × Value) :=
  [("uid", ofNat n.uid),
    ("parent_uid", (n.parent.map ofNat).getD .null),
    ("children_uids", .array (n.children.map ofNat)),
    ("line_number", ofNat n.line),
    ("node_type", .string n.type.word)] ++ n.body.fields

theorem Node.fits_toJson {n : Node} (h : n.Words) (budget : Nat) : n.toJson.Fits (budget + 2) := by
  have hparent : ((n.parent.map ofNat).getD .null).Fits (budget + 1) := by
    cases hp : n.parent with
    | none => trivial
    | some p => exact fits_ofNat (h.parent p hp) _
  have hchildren : (Value.array (n.children.map ofNat)).Fits (budget + 1) := by
    refine ⟨Nat.succ_pos budget, Json.itemsFit_iff.mpr fun v hv => ?_⟩
    obtain ⟨c, hc, rfl⟩ := List.mem_map.mp hv
    exact fits_ofNat (h.children c hc) _
  refine ⟨Nat.succ_pos _, Json.membersFit_iff.mpr fun m hm => ?_⟩
  rcases List.mem_append.mp hm with hm | hm
  · simp only [List.mem_cons, List.not_mem_nil, or_false] at hm
    rcases hm with rfl | rfl | rfl | rfl | rfl
    · exact fits_ofNat h.uid _
    · exact hparent
    · exact hchildren
    · exact fits_ofNat h.line _
    · trivial
  · exact n.body.fits_fields budget m hm

/-! ## Reading one node -/

theorem word32?_ofNat {n : Nat} (h : n < 0x100000000) : (ofNat n).word32? = some n :=
  if_pos h

theorem words?_ofNat {numbers : List Nat} (h : ∀ n ∈ numbers, n < 0x100000000) :
    words? (.array (numbers.map ofNat)) = some numbers :=
  Json.mapM_map_eq_some fun n hn => word32?_ofNat (h n hn)

theorem optional?_ofNat {parent : Option Nat} (h : ∀ p ∈ parent, p < 0x100000000) :
    ((parent.map ofNat).getD .null).optional? Value.word32? = some parent := by
  cases parent with
  | none => rfl
  | some p =>
    show ((ofNat p).word32?).map some = _
    rw [word32?_ofNat (h p rfl)]
    rfl

theorem strings?_ofStrings (texts : List String) : (ofStrings texts).strings? = some texts :=
  Json.mapM_map_eq_some fun _ _ => rfl

theorem entries?_ofEntries (entries : OrderedMap String) :
    entries? (ofEntries entries) = some entries := by
  have hpairs : (ofEntries entries).stringPairs? = some entries.toList :=
    Json.mapM_map_eq_some fun _ _ => rfl
  rw [entries?, hpairs, Option.map_some, OrderedMap.ofList_toList]

theorem nodeType?_word (type : NodeType) : nodeType? (.string type.word) = some type := by
  cases type <;> decide

section

variable {members : List (String × Value)} (hkeys : (members.map Prod.fst).Nodup)

include hkeys

theorem notes?_of_mem {notes : Notes} (h : ofNotes notes ⊆ members) :
    notes? members = some notes := by
  have hdescription : ("external_desc", Value.string notes.description) ∈ members :=
    h (by simp [ofNotes])
  have hintent : ("intent_comment", Value.string notes.intent) ∈ members := h (by simp [ofNotes])
  rw [notes?, Record.withDefault_of_mem hkeys hdescription, Record.withDefault_of_mem hkeys hintent]
  rfl

/-- **A body is read off its fields**, whatever other fields there are. -/
theorem body?_of_fields {b : Body} (h : b.fields ⊆ members) : body? members b.type = some b := by
  cases b with
  | root => rfl
  | moduleImport m =>
    have hpath : ("identifier", Value.string m.path) ∈ members := h (by simp [Body.fields])
    have hcontent : ("content", Value.string m.content) ∈ members := h (by simp [Body.fields])
    show body? members .moduleImport = _
    rw [body?, Record.required_of_mem hkeys hpath, Record.required_of_mem hkeys hcontent]
    rfl
  | classDecl c =>
    have hname : ("identifier", Value.string c.name) ∈ members := h (by simp [Body.fields])
    have hbases : ("inh_params", ofEntries c.bases) ∈ members := h (by simp [Body.fields])
    have hnotes : ofNotes c.notes ⊆ members := fun m hm => h (by simp [Body.fields, hm])
    show body? members .classDecl = _
    rw [body?, Record.required_of_mem hkeys hname, notes?_of_mem hkeys hnotes,
      Record.withDefault_of_mem hkeys hbases, entries?_ofEntries]
    rfl
  | funcDecl f =>
    have hname : ("identifier", Value.string f.name) ∈ members := h (by simp [Body.fields])
    have hparams : ("params", ofEntries f.params) ∈ members := h (by simp [Body.fields])
    have hrefs : ("param_type_refs", ofEntries f.paramRefs) ∈ members := h (by simp [Body.fields])
    have hnotes : ofNotes f.notes ⊆ members := fun m hm => h (by simp [Body.fields, hm])
    show body? members .funcDecl = _
    rw [body?, Record.required_of_mem hkeys hname, notes?_of_mem hkeys hnotes,
      Record.withDefault_of_mem hkeys hparams, Record.withDefault_of_mem hkeys hrefs,
      entries?_ofEntries, entries?_ofEntries]
    rfl
  | varDecl v =>
    have hname : ("identifier", Value.string v.name) ∈ members := h (by simp [Body.fields])
    have hcontent : ("content", Value.string v.content) ∈ members := h (by simp [Body.fields])
    have hrefs : ("type_ref", ofStrings v.refs) ∈ members := h (by simp [Body.fields])
    have hnotes : ofNotes v.notes ⊆ members := fun m hm => h (by simp [Body.fields, hm])
    show body? members .varDecl = _
    rw [body?, Record.required_of_mem hkeys hname, Record.withDefault_of_mem hkeys hcontent,
      notes?_of_mem hkeys hnotes, Record.withDefault_of_mem hkeys hrefs, strings?_ofStrings]
    rfl
  | step s =>
    have hcontent : ("content", Value.string s.content) ∈ members := h (by simp [Body.fields])
    have hrefs : ("symbol_refs", ofStrings s.refs) ∈ members := h (by simp [Body.fields])
    have hopens : ("new_block_flag", Value.bool s.opensBlock) ∈ members :=
      h (by simp [Body.fields])
    show body? members .step = _
    rw [body?, Record.required_of_mem hkeys hcontent, Record.withDefault_of_mem hkeys hrefs,
      Record.withDefault_of_mem hkeys hopens, strings?_ofStrings]
    rfl

end

theorem Node.nodup_keys (n : Node) : (n.members.map Prod.fst).Nodup := by
  obtain ⟨uid, parent, children, line, body⟩ := n
  cases body <;> simp [members, Body.fields, ofNotes]

/-- **A node is read as it was written.** -/
theorem node?_toJson {n : Node} (h : n.Words) : node? n.toJson = some n := by
  have hkeys := n.nodup_keys
  have huid : ("uid", ofNat n.uid) ∈ n.members := by simp [Node.members]
  have hparent : ("parent_uid", (n.parent.map ofNat).getD .null) ∈ n.members := by
    simp [Node.members]
  have hchildren : ("children_uids", Value.array (n.children.map ofNat)) ∈ n.members := by
    simp [Node.members]
  have hline : ("line_number", ofNat n.line) ∈ n.members := by simp [Node.members]
  have htype : ("node_type", Value.string n.type.word) ∈ n.members := by simp [Node.members]
  have hbody : body? n.members n.type = some n.body :=
    body?_of_fields hkeys fun m hm => by simp [Node.members, hm]
  have hobject : n.toJson.object? = some n.members := rfl
  simp only [node?, Json.held?_of_fits (n.fits_toJson h 0), hobject, Option.bind_eq_bind,
    Option.bind_some, Record.required_of_mem hkeys huid, Record.required_of_mem hkeys hline,
    Record.required_of_mem hkeys htype, Record.nullable_of_mem hkeys hparent,
    Record.withDefault_of_mem hkeys hchildren, word32?_ofNat h.uid, word32?_ofNat h.line,
    words?_ofNat h.children, optional?_ofNat h.parent, nodeType?_word, hbody]
  rfl

/-! ## Reading a table -/

theorem keyedNodes_ofList {nodes : List Node} (h : (nodes.map Node.uid).Nodup) :
    keyedNodes (.ofList (nodes.map fun n => (toString n.uid, n))) = .ok nodes := by
  have hkeys : ((nodes.map fun n => (toString n.uid, n)).map Prod.fst).Nodup := by
    rw [List.map_map]
    have hcomp : (Prod.fst ∘ fun n : Node => (toString n.uid, n)) =
        (fun i : Nat => toString i) ∘ Node.uid := rfl
    rw [hcomp, ← List.map_map]
    exact h.map fun _ _ heq => Json.eq_of_toString_eq heq
  rw [keyedNodes, OrderedMap.toList_ofList hkeys]
  clear h hkeys
  induction nodes with
  | nil => rfl
  | cons n nodes ih =>
    rw [List.map_cons, List.mapM_cons, ih, if_pos rfl]
    rfl

/-- Nodes that lie at their numbers are left where they are. -/
theorem tableOf_toList {t : Table} (h : ∀ i n, t.get? i = some n → n.uid = i) :
    tableOf t.toList = .ok t := by
  have hsorted : t.toList.mergeSort (fun a b => decide (a.uid ≤ b.uid)) = t.toList := by
    apply List.mergeSort_of_pairwise
    have hranged : (t.toList.map Node.uid).Pairwise (· ≤ ·) := by
      rw [Table.uids_eq_range h]
      exact List.pairwise_le_range
    rw [List.pairwise_map] at hranged
    exact hranged.imp fun hle => decide_eq_true hle
  have hplaced : (t.toList.zipIdx.find? fun p => p.1.uid != p.2) = none := by
    rw [List.find?_eq_none]
    rintro ⟨n, i⟩ hmem
    have hi := List.mem_zipIdx_iff_getElem?.mp hmem
    rw [Table.getElem?_toList] at hi
    simp [h i n hi]
  unfold tableOf
  simp only
  rw [hsorted, hplaced]
  rfl

namespace Table

section

variable {t : Table} (hnumber : ∀ i n, t.get? i = some n → n.uid = i)
  (hvalid : t.validate = .ok ())
  (hwords : ∀ n ∈ t.toList, n.uid < 0x100000000 ∧ n.line < 0x100000000)

include hnumber hvalid hwords

theorem words_of_mem {n : Node} (hn : n ∈ t.toList) : n.Words := by
  obtain ⟨i, hi⟩ := List.mem_iff_getElem?.mp hn
  rw [getElem?_toList] at hi
  obtain ⟨hchildren, hparent⟩ := links_lt_of_validate hvalid hi
  have hword : ∀ c < t.size, c < 0x100000000 := by
    intro c hc
    obtain ⟨m, hm⟩ := exists_get? hc
    rw [← hnumber c m hm]
    exact (hwords m (mem_toList hm)).1
  exact
    { uid := (hwords n hn).1
      line := (hwords n hn).2
      parent := fun p hp => hword p (hparent p hp)
      children := fun c hc => hword c (hchildren c hc) }

/-- **A tree is read as it was written**, if the numbers of its nodes and their lines are words of 32 bits.
Every text may hold any characters. -/
theorem read_write : Table.read t.write = .ok t := by
  have hnode : ∀ n ∈ t.toList, n.Words := fun n hn => words_of_mem hnumber hvalid hwords hn
  have hfits : t.toJson.Fits Json.maxDepth := by
    refine ⟨by decide, Json.membersFit_iff.mpr fun m hm => ?_⟩
    obtain ⟨n, hn, rfl⟩ := List.mem_map.mp hm
    exact n.fits_toJson (hnode n hn) 124
  have hmembers : (t.toList.map fun n => (toString n.uid, n.toJson)).mapM
      (fun m => (node? m.2).map fun n => (m.1, n)) =
        some (t.toList.map fun n => (toString n.uid, n)) := by
    refine Json.mapM_map_eq_some_map fun n hn => ?_
    rw [node?_toJson (hnode n hn)]
    rfl
  have hnodup : (t.toList.map Node.uid).Nodup := by
    rw [uids_eq_range hnumber]
    exact List.nodup_range
  have hread : Json.readValue (t.write.toList ++ []) = some (t.toJson, []) :=
    Json.readValue_pretty hfits Json.stops_nil
  rw [List.append_nil] at hread
  have hobject : t.toJson.object? = some (t.toList.map fun n => (toString n.uid, n.toJson)) := rfl
  simp only [Table.read, hread, hobject, hmembers, keyedNodes_ofList hnodup,
    tableOf_toList hnumber, hvalid, bind, Except.bind, pure, Except.pure]
  rfl

end

/-- A tree whose texts need escapes, with children that are not listed in the order of their numbers and a
line with the greatest number that there is. -/
def oddTable : Table :=
  ⟨#[⟨0, none, [2, 1], 0, .root⟩,
    ⟨1, some 0, [3], 0xFFFFFFFF,
      .classDecl ⟨"\"Ball\\", ⟨"round,\n\tlight", "\x01\x7f"⟩, .ofList [("b", "😀"), ("a", "")]⟩⟩,
    ⟨2, some 0, [], 7, .moduleImport ⟨"src.ball", "ß"⟩⟩,
    ⟨3, some 1, [], 0,
      .funcDecl ⟨"", .none, .ofList [("q", "$a$"), ("p", "p")], .ofList [("q", "a")]⟩⟩]⟩

theorem read_write_odd :
    (∀ i n, oddTable.get? i = some n → n.uid = i) ∧ oddTable.validate = .ok () ∧
      (∀ n ∈ oddTable.toList, n.uid < 0x100000000 ∧ n.line < 0x100000000) ∧
      Table.read oddTable.write = .ok oddTable := by
  have hplaced : ∀ p ∈ oddTable.toList.zipIdx, p.1.uid = p.2 := by decide +kernel
  have hnumber : ∀ i n, oddTable.get? i = some n → n.uid = i := by
    intro i n hn
    rw [← getElem?_toList] at hn
    exact hplaced (n, i) (List.mem_zipIdx_iff_getElem?.mpr hn)
  have hvalid : oddTable.validate = .ok () := by decide +kernel
  have hwords : ∀ n ∈ oddTable.toList, n.uid < 0x100000000 ∧ n.line < 0x100000000 := by
    decide +kernel
  exact ⟨hnumber, hvalid, hwords, read_write hnumber hvalid hwords⟩

end Table

end IntentCode.Ast
