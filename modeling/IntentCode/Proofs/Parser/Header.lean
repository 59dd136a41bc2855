import IntentCode.Proofs.Lexer.Content
import IntentCode.Proofs.Parser.State

/-!
# What a line that declares looks like

`lineNode` goes through the tokens of a line and gives up at the first that is out of place. Seen
from a line that it accepts there is no order in that: the line is a step, or it is a keyword, a
name, and then a text or a list. `Declares` lists the five forms with everything that was checked
on the way, so that a statement about the nodes of lines is a case analysis over forms.
-/

set_option autoImplicit false

namespace IntentCode.Parser

open Ast

/-- A token that `name?` takes as a name. -/
def NameToken (t : Token) : Prop := t.kind = .identifier ∧ Text.containsBlank t.text = false

/-- The lines that declare something, each with what it declares. -/
inductive Declares : List Token → LineNode → Prop
  | step (ts : List Token) (free : ∀ t ∈ ts.head?, t.kind ≠ .keyword) : Declares ts (stepLine ts)
  | moduleImport (k t : Token) (ts text : List Token) (keyword : k.kind = .keyword)
    (word : k.text = "module") (name : NameToken t)
    (after : textAfterColon .afterModulePath ts = .ok text) :
    Declares (k :: t :: ts) ⟨.moduleImport ⟨t.text, Token.render text⟩, false, []⟩
  | varDecl (k t : Token) (ts text : List Token) (keyword : k.kind = .keyword)
    (word : k.text = "var") (name : NameToken t)
    (after : textAfterColon .afterVariableName ts = .ok text) :
    Declares (k :: t :: ts)
      ⟨.varDecl ⟨t.text, .none, Token.render text, Token.references text⟩, false, []⟩
  | classDecl (k t : Token) (ts list : List Token) (entries : List Entry)
    (keyword : k.kind = .keyword) (word : k.text = "class") (name : NameToken t)
    (front : (stripColon ts).1 = t :: list) (listed : parenEntries true list = .ok (entries, [])) :
    Declares (k :: ts)
      ⟨.classDecl ⟨t.text, .none, descriptions (distinctEntries entries).1⟩, (stripColon ts).2,
        (distinctEntries entries).2.map (.repeatedEntry "base class")⟩
  | funcDecl (k t : Token) (ts list : List Token) (entries : List Entry)
    (keyword : k.kind = .keyword) (word : k.text = "func") (name : NameToken t)
    (front : (stripColon ts).1 = t :: list) (listed : parenEntries false list = .ok (entries, [])) :
    Declares (k :: ts)
      ⟨.funcDecl ⟨t.text, .none, descriptions (distinctEntries entries).1,
        firstReferences (distinctEntries entries).1⟩, (stripColon ts).2,
        (distinctEntries entries).2.map (.repeatedEntry "parameter")⟩

/-- What else is said about such a line is that an entry of its list is there already. -/
theorem Declares.mem_repeated {ts : List Token} {node : LineNode} (h : Declares ts node)
    {c : Complaint} (hc : c ∈ node.repeated) : ∃ what name, c = .repeatedEntry what name := by
  cases h with
  | step | moduleImport | varDecl => cases hc
  | classDecl | funcDecl =>
    obtain ⟨name, -, rfl⟩ := List.mem_map.mp hc
    exact ⟨_, name, rfl⟩

theorem Declares.code_repeated {ts : List Token} {node : LineNode} (h : Declares ts node) :
    ∀ c ∈ node.repeated, c.code ≠ .detachedNote := by
  intro c hc
  obtain ⟨what, name, rfl⟩ := h.mem_repeated hc
  simp [Complaint.code]

/-- What a computation with an error has to go through to succeed. -/
theorem bind_ok {ε α β : Type} {x : Except ε α} {f : α → Except ε β} {b : β}
    (h : (x >>= f) = .ok b) : ∃ a, x = .ok a ∧ f a = .ok b := by
  cases x with
  | error e => exact absurd h (by simp [bind, Except.bind])
  | ok a => exact ⟨a, rfl, h⟩

theorem toOption_eq_some_iff {ε α : Type} {x : Except ε α} {a : α} :
    x.toOption = some a ↔ x = .ok a := by
  cases x <;> simp [Except.toOption]

theorem name?_ok {what name : String} {ts rest : List Token} (h : name? what ts = .ok (name, rest)) :
    ∃ t, ts = t :: rest ∧ NameToken t ∧ t.text = name := by
  unfold name? at h
  cases ts with
  | nil => cases h
  | cons t ts =>
    simp only at h
    split at h
    · cases h
    · next hk =>
      split at h
      · cases h
      · next hb =>
        simp only [Except.ok.injEq, Prod.mk.injEq] at h
        obtain ⟨rfl, rfl⟩ := h
        exact ⟨t, rfl, ⟨by simpa using hk, by simpa using hb⟩, rfl⟩

theorem noMore_ok {what : String} {ts : List Token} {u : Unit} (h : noMore what ts = .ok u) :
    ts = [] := by
  cases ts with
  | nil => rfl
  | cons t ts => cases h

theorem classLine_ok {ts : List Token} {node : LineNode} (h : classLine ts = .ok node) :
    ∃ t list entries, NameToken t ∧ (stripColon ts).1 = t :: list ∧
      parenEntries true list = .ok (entries, []) ∧
      node = ⟨.classDecl ⟨t.text, .none, descriptions (distinctEntries entries).1⟩,
        (stripColon ts).2, (distinctEntries entries).2.map (.repeatedEntry "base class")⟩ := by
  unfold classLine at h
  generalize stripColon ts = stripped at h ⊢
  obtain ⟨front, explicit⟩ := stripped
  simp only at h ⊢
  obtain ⟨⟨name, list⟩, hn, h⟩ := bind_ok h
  obtain ⟨t, rfl, ht, rfl⟩ := name?_ok hn
  obtain ⟨⟨entries, rest⟩, hl, h⟩ := bind_ok h
  obtain ⟨u, hm, h⟩ := bind_ok h
  obtain rfl := noMore_ok hm
  simp only [pure, Except.pure, Except.ok.injEq] at h
  exact ⟨t, list, entries, ht, rfl, hl, h.symm⟩

theorem functionLine_ok {ts : List Token} {node : LineNode} (h : functionLine ts = .ok node) :
    ∃ t list entries, NameToken t ∧ (stripColon ts).1 = t :: list ∧
      parenEntries false list = .ok (entries, []) ∧
      node = ⟨.funcDecl ⟨t.text, .none, descriptions (distinctEntries entries).1,
          firstReferences (distinctEntries entries).1⟩,
        (stripColon ts).2, (distinctEntries entries).2.map (.repeatedEntry "parameter")⟩ := by
  unfold functionLine at h
  generalize stripColon ts = stripped at h ⊢
  obtain ⟨front, explicit⟩ := stripped
  simp only at h ⊢
  obtain ⟨⟨name, list⟩, hn, h⟩ := bind_ok h
  obtain ⟨t, rfl, ht, rfl⟩ := name?_ok hn
  obtain ⟨⟨entries, rest⟩, hl, h⟩ := bind_ok h
  obtain ⟨u, hm, h⟩ := bind_ok h
  obtain rfl := noMore_ok hm
  simp only [pure, Except.pure, Except.ok.injEq] at h
  exact ⟨t, list, entries, ht, rfl, hl, h.symm⟩

/-- **A line that declares has one of the five forms.** -/
theorem declares_of_lineNode {ts : List Token} {node : LineNode} (h : lineNode ts = .ok node) :
    Declares ts node := by
  unfold lineNode at h
  cases ts with
  | nil =>
    simp only [Except.ok.injEq] at h
    subst h
    exact .step [] (by simp)
  | cons k ts =>
    simp only at h
    split at h
    · next hk =>
      simp only [Except.ok.injEq] at h
      subst h
      exact .step _ (by simpa using hk)
    · next hk =>
      have hk : k.kind = .keyword := by simpa using hk
      split at h
      · next hw =>
        obtain ⟨⟨name, rest⟩, hn, h⟩ := bind_ok h
        obtain ⟨t, rfl, ht, rfl⟩ := name?_ok hn
        obtain ⟨text, ha, h⟩ := bind_ok h
        simp only [pure, Except.pure, Except.ok.injEq] at h
        subst h
        exact .moduleImport k t rest text hk hw ht ha
      · next hw =>
        obtain ⟨⟨name, rest⟩, hn, h⟩ := bind_ok h
        obtain ⟨t, rfl, ht, rfl⟩ := name?_ok hn
        obtain ⟨text, ha, h⟩ := bind_ok h
        simp only [pure, Except.pure, Except.ok.injEq] at h
        subst h
        exact .varDecl k t rest text hk hw ht ha
      · next hw =>
        obtain ⟨t, list, entries, ht, hs, hl, rfl⟩ := classLine_ok h
        exact .classDecl k t ts list entries hk hw ht hs hl
      · next hw =>
        obtain ⟨t, list, entries, ht, hs, hl, rfl⟩ := functionLine_ok h
        exact .funcDecl k t ts list entries hk hw ht hs hl
      · cases h

theorem declares_of_ofTokens {ts : List Token} {node : LineNode}
    (h : Reading.ofTokens ts = .node node) : Declares ts node := by
  unfold Reading.ofTokens at h
  split at h
  · simp only [Reading.node.injEq] at h
    subst h
    exact .step [] (by simp)
  · next t rest =>
    split at h
    · cases h
    · split at h
      · unfold Reading.ofDescription at h
        split at h
        · cases h
        · split at h <;> cases h
      · split at h
        · next n hn =>
          simp only [Reading.node.injEq] at h
          subst h
          exact declares_of_lineNode hn
        · cases h

/-- The lines that say something about a declaration, each with what it says. -/
inductive Remarks : List Token → NoteKind → String → Prop
  | intent (t : Token) (ts : List Token) (kind : t.kind = .intent) :
    Remarks (t :: ts) .intent t.text
  | description (k colon : Token) (text : List Token) (keyword : k.isKeyword "description" = true)
    (after : colon.kind = .colon) : Remarks (k :: colon :: text) .description (Token.render text)

theorem remarks_of_ofTokens {ts : List Token} {kind : NoteKind} {text : String}
    (h : Reading.ofTokens ts = .note kind text) : Remarks ts kind text := by
  unfold Reading.ofTokens at h
  split at h
  · cases h
  · next t rest =>
    split at h
    · next hk =>
      cases h
      exact .intent t rest hk
    · split at h
      · next hd =>
        unfold Reading.ofDescription at h
        split at h
        · cases h
        · next colon text =>
          split at h
          · next hc =>
            cases h
            exact .description t colon text hd hc
          · cases h
      · split at h <;> cases h

/-- A block is announced exactly where the node can have one. -/
theorem acceptsBlock_eq {ts : List Token} {node : LineNode} (h : Declares ts node) :
    node.acceptsBlock = node.body.opensBlock := by
  cases h with
  | step => simp [stepLine, LineNode.acceptsBlock, Body.opensBlock, Body.type]
  | moduleImport => rfl
  | varDecl => rfl
  | classDecl => simp [LineNode.acceptsBlock, Body.opensBlock, Body.type]
  | funcDecl => simp [LineNode.acceptsBlock, Body.opensBlock, Body.type]

end IntentCode.Parser
