import IntentCode.Proofs.Parser.State

/-!
# A line reads the same under any number

Tokens carry the number of their line, but what a line declares and how it is quoted is a matter of
kinds and texts. Moving a line to another place in the file changes the numbers in its tokens and
nothing else (`LogicalLine.tokens_of_unnumbered`), so it has the same reading there
(`ofTokens_onLine`). One equation for each function of `Header` says so.
-/

set_option autoImplicit false

namespace IntentCode

namespace Token

variable (n : Nat)

theorem charsAfter_onLine (previous : Kind) (ts : List Token) :
    charsAfter previous (ts.map (onLine n)) = charsAfter previous ts := by
  induction ts generalizing previous with
  | nil => rfl
  | cons t ts ih => simp only [List.map_cons, charsAfter, ih]; rfl

theorem render_onLine (ts : List Token) : render (ts.map (onLine n)) = render ts := by
  unfold render
  rw [List.filter_map]
  congr 1
  show lineChars ((ts.filter fun t => !t.kind.isLayout).map (onLine n)) = _
  cases ts.filter fun t => !t.kind.isLayout with
  | nil => rfl
  | cons t ts => simp only [List.map_cons, lineChars, charsAfter_onLine]; rfl

theorem references_onLine (ts : List Token) :
    references (ts.map (onLine n)) = references ts := by
  unfold references
  rw [List.filter_map, List.map_map]
  rfl

end Token

namespace LogicalLine

/-- Lines that differ in the number only have tokens that differ in the number only. -/
theorem tokens_of_unnumbered {l m : LogicalLine} (htext : m.text = l.text) :
    m.tokens = l.tokens.map (Token.onLine m.number) := by
  unfold tokens
  rw [htext]
  cases hl : Lexer.scan l.text.toList l.number l.raw with
  | ok scanned =>
    obtain ⟨s', hs, ht⟩ := Lexer.scan_onLine hl m.number m.raw
    rw [hs]
    exact ht
  | error e =>
    cases hm : Lexer.scan l.text.toList m.number m.raw with
    | ok scanned =>
      obtain ⟨s', hs, -⟩ := Lexer.scan_onLine hm l.number l.raw
      rw [hl] at hs
      cases hs
    | error e => rfl

end LogicalLine

namespace Parser

open Ast

variable (n : Nat)

/-- The entry with the tokens of its description on another line. -/
def Entry.onLine (e : Entry) : Entry := { e with description := e.description.map (Token.onLine n) }

theorem endsWithColon_onLine (ts : List Token) :
    endsWithColon (ts.map (Token.onLine n)) = endsWithColon ts := by
  unfold endsWithColon
  rw [List.getLast?_map, Option.map_map]
  rfl

theorem stripColon_onLine (ts : List Token) :
    stripColon (ts.map (Token.onLine n)) =
      ((stripColon ts).1.map (Token.onLine n), (stripColon ts).2) := by
  unfold stripColon
  rw [endsWithColon_onLine]
  split
  · rw [List.map_dropLast]
  · rfl

theorem name?_onLine (what : String) (ts : List Token) :
    name? what (ts.map (Token.onLine n)) =
      (name? what ts).map fun r => (r.1, r.2.map (Token.onLine n)) := by
  cases ts with
  | nil => rfl
  | cons t ts =>
    simp only [List.map_cons, name?, Token.onLine]
    split
    · rfl
    · split <;> rfl

theorem textAfterColon_onLine (fault : Token.Kind → HeaderFault) (ts : List Token) :
    textAfterColon fault (ts.map (Token.onLine n)) =
      (textAfterColon fault ts).map fun text => text.map (Token.onLine n) := by
  cases ts with
  | nil => rfl
  | cons t ts =>
    simp only [List.map_cons, textAfterColon, Token.onLine]
    split <;> rfl

theorem untilClose_onLine (depth : Nat) (ts : List Token) :
    untilClose depth (ts.map (Token.onLine n)) =
      (untilClose depth ts).map fun r => (r.1.map (Token.onLine n), r.2.map (Token.onLine n)) := by
  induction ts generalizing depth with
  | nil => rfl
  | cons t ts ih =>
    have hkind : (Token.onLine n t).kind = t.kind := rfl
    simp only [List.map_cons, untilClose, hkind]
    split <;> simp [ih, Option.map_map, Function.comp_def]

theorem cutCommas_onLine (depth : Nat) (ts : List Token) :
    cutCommas depth (ts.map (Token.onLine n)) =
      (cutCommas depth ts).map fun g => g.map (Token.onLine n) := by
  induction ts generalizing depth with
  | nil => rfl
  | cons t ts ih =>
    have hkind : (Token.onLine n t).kind = t.kind := rfl
    simp only [List.map_cons, cutCommas, hkind, ih]
    split
    · rfl
    · cases cutCommas (depthAfter depth t.kind) ts <;> rfl

theorem entryOf?_onLine (allowRefs : Bool) (ts : List Token) :
    entryOf? allowRefs (ts.map (Token.onLine n)) =
      (entryOf? allowRefs ts).map (Entry.onLine n) := by
  cases ts with
  | nil => rfl
  | cons t ts =>
    have hname : entryName? allowRefs (Token.onLine n t) = entryName? allowRefs t := rfl
    simp only [List.map_cons, entryOf?, hname, bind, Except.bind]
    cases entryName? allowRefs t with
    | error e => rfl
    | ok name =>
      cases ts with
      | nil => rfl
      | cons u us =>
        simp only [List.map_cons, Token.onLine]
        split <;> rfl

theorem mapM_entryOf?_onLine (allowRefs : Bool) (gs : List (List Token)) :
    (gs.map fun g => g.map (Token.onLine n)).mapM (entryOf? allowRefs) =
      (gs.mapM (entryOf? allowRefs)).map fun es => es.map (Entry.onLine n) := by
  induction gs with
  | nil => rfl
  | cons g gs ih =>
    rw [List.map_cons, List.mapM_cons, List.mapM_cons, entryOf?_onLine, ih]
    cases entryOf? allowRefs g with
    | error e => rfl
    | ok e => cases gs.mapM (entryOf? allowRefs) <;> rfl

theorem parenEntries_onLine (allowRefs : Bool) (ts : List Token) :
    parenEntries allowRefs (ts.map (Token.onLine n)) =
      (parenEntries allowRefs ts).map fun r =>
        (r.1.map (Entry.onLine n), r.2.map (Token.onLine n)) := by
  cases ts with
  | nil => rfl
  | cons t inside =>
    have hkind : (Token.onLine n t).kind = t.kind := rfl
    simp only [List.map_cons, parenEntries, hkind, untilClose_onLine]
    split
    · rfl
    · cases untilClose 0 inside with
      | none => rfl
      | some r =>
        obtain ⟨inner, rest⟩ := r
        cases inner with
        | nil => rfl
        | cons u us =>
          have hcut := cutCommas_onLine n 0 (u :: us)
          rw [List.map_cons] at hcut
          simp only [Option.map_some, List.map_cons, hcut, mapM_entryOf?_onLine, bind, Except.bind]
          cases (cutCommas 0 (u :: us)).mapM (entryOf? allowRefs) <;> rfl

theorem noMore_onLine (what : String) (ts : List Token) :
    noMore what (ts.map (Token.onLine n)) = noMore what ts := by
  cases ts <;> rfl

/-- One round of `distinctEntries`. -/
def enlist (r : List Entry × List String) (e : Entry) : List Entry × List String :=
  if (r.1.map Entry.name).contains e.name then (r.1, r.2 ++ [e.name]) else (r.1 ++ [e], r.2)

theorem distinctEntries_eq (es : List Entry) : distinctEntries es = es.foldl enlist ([], []) := rfl

theorem enlist_onLine (r : List Entry × List String) (e : Entry) :
    enlist (r.1.map (Entry.onLine n), r.2) (Entry.onLine n e) =
      ((enlist r e).1.map (Entry.onLine n), (enlist r e).2) := by
  have hnames : (r.1.map (Entry.onLine n)).map Entry.name = r.1.map Entry.name := by
    rw [List.map_map]
    rfl
  have hname : (Entry.onLine n e).name = e.name := rfl
  simp only [enlist, hnames, hname]
  split
  · rfl
  · simp

theorem distinctEntries_onLine (es : List Entry) :
    distinctEntries (es.map (Entry.onLine n)) =
      ((distinctEntries es).1.map (Entry.onLine n), (distinctEntries es).2) := by
  rw [distinctEntries_eq, distinctEntries_eq, List.foldl_map]
  suffices h : ∀ r : List Entry × List String,
      es.foldl (fun r e => enlist r (Entry.onLine n e)) (r.1.map (Entry.onLine n), r.2) =
        ((es.foldl enlist r).1.map (Entry.onLine n), (es.foldl enlist r).2) from h ([], [])
  induction es with
  | nil => exact fun r => rfl
  | cons e es ih =>
    intro r
    rw [List.foldl_cons, List.foldl_cons, enlist_onLine]
    exact ih (enlist r e)

/-- Entries with the same names and texts describe the same. -/
theorem descriptions_map {f : Entry → Entry} {es : List Entry}
    (hname : ∀ e ∈ es, (f e).name = e.name)
    (htext : ∀ e ∈ es, Token.render (f e).description = Token.render e.description) :
    descriptions (es.map f) = descriptions es := by
  unfold descriptions
  rw [List.map_map]
  congr 1
  apply List.map_congr_left
  intro e he
  rw [Function.comp_apply, hname e he, htext e he]

theorem firstReferences_map {f : Entry → Entry} (hname : ∀ e, (f e).name = e.name)
    (hrefs : ∀ e, Token.references (f e).description = Token.references e.description)
    (es : List Entry) : firstReferences (es.map f) = firstReferences es := by
  unfold firstReferences
  rw [List.filterMap_map]
  have hfun : ((fun e : Entry => (Token.references e.description).head?.map fun r => (e.name, r)) ∘
      f) = fun e : Entry => (Token.references e.description).head?.map fun r => (e.name, r) := by
    funext e
    rw [Function.comp_apply, hname, hrefs]
  rw [hfun]

theorem descriptions_onLine (es : List Entry) :
    descriptions (es.map (Entry.onLine n)) = descriptions es :=
  descriptions_map (f := Entry.onLine n) (fun _ _ => rfl) fun e _ => Token.render_onLine n e.description

theorem firstReferences_onLine (es : List Entry) :
    firstReferences (es.map (Entry.onLine n)) = firstReferences es :=
  firstReferences_map (f := Entry.onLine n) (fun _ => rfl)
    (fun e => Token.references_onLine n e.description) es

/-! ## The line -/

theorem moduleLine_onLine (ts : List Token) :
    moduleLine (ts.map (Token.onLine n)) = moduleLine ts := by
  simp only [moduleLine, name?_onLine, bind, Except.bind]
  cases name? "module" ts with
  | error e => rfl
  | ok r =>
    simp only [Except.map, textAfterColon_onLine]
    cases textAfterColon .afterModulePath r.2 with
    | error e => rfl
    | ok text => simp [Token.render_onLine]

theorem variableLine_onLine (ts : List Token) :
    variableLine (ts.map (Token.onLine n)) = variableLine ts := by
  simp only [variableLine, name?_onLine, bind, Except.bind]
  cases name? "variable" ts with
  | error e => rfl
  | ok r =>
    simp only [Except.map, textAfterColon_onLine]
    cases textAfterColon .afterVariableName r.2 with
    | error e => rfl
    | ok text => simp [Token.render_onLine, Token.references_onLine]

theorem classLine_onLine (ts : List Token) :
    classLine (ts.map (Token.onLine n)) = classLine ts := by
  simp only [classLine, stripColon_onLine, name?_onLine, bind, Except.bind]
  cases name? "class" (stripColon ts).1 with
  | error e => rfl
  | ok r =>
    simp only [Except.map, parenEntries_onLine]
    cases parenEntries true r.2 with
    | error e => rfl
    | ok s =>
      simp [noMore_onLine, distinctEntries_onLine, descriptions_onLine]

theorem functionLine_onLine (ts : List Token) :
    functionLine (ts.map (Token.onLine n)) = functionLine ts := by
  simp only [functionLine, stripColon_onLine, name?_onLine, bind, Except.bind]
  cases name? "function" (stripColon ts).1 with
  | error e => rfl
  | ok r =>
    simp only [Except.map, parenEntries_onLine]
    cases parenEntries false r.2 with
    | error e => rfl
    | ok s =>
      simp [noMore_onLine, distinctEntries_onLine, descriptions_onLine,
        firstReferences_onLine]

theorem stepLine_onLine (ts : List Token) : stepLine (ts.map (Token.onLine n)) = stepLine ts := by
  simp [stepLine, stripColon_onLine, Token.render_onLine, Token.references_onLine]

theorem lineNode_onLine (ts : List Token) : lineNode (ts.map (Token.onLine n)) = lineNode ts := by
  cases ts with
  | nil => rfl
  | cons t rest =>
    have hkind : (Token.onLine n t).kind = t.kind := rfl
    have htext : (Token.onLine n t).text = t.text := rfl
    have hstep := stepLine_onLine n (t :: rest)
    rw [List.map_cons] at hstep
    simp only [List.map_cons, lineNode, hkind, htext, hstep, moduleLine_onLine,
      variableLine_onLine, classLine_onLine, functionLine_onLine]

/-- **What a line says does not depend on where it stands.** -/
theorem ofTokens_onLine (ts : List Token) :
    Reading.ofTokens (ts.map (Token.onLine n)) = Reading.ofTokens ts := by
  cases ts with
  | nil => rfl
  | cons t rest =>
    have hline := lineNode_onLine n (t :: rest)
    rw [List.map_cons] at hline
    have hkeyword : (Token.onLine n t).isKeyword "description" = t.isKeyword "description" := rfl
    have hdescription :
        Reading.ofDescription (rest.map (Token.onLine n)) = Reading.ofDescription rest := by
      cases rest with
      | nil => rfl
      | cons u us =>
        simp only [List.map_cons, Reading.ofDescription, Token.render_onLine]
        rfl
    simp only [List.map_cons, Reading.ofTokens, hline, hkeyword, hdescription]
    rfl

end Parser

end IntentCode
