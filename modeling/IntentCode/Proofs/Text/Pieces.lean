import IntentCode.Text.Split
import Mathlib.Data.List.Basic

/-!
# Cutting what has been joined

A text that is joined from pieces is cut into the same pieces, as long as no piece holds the
separator (`pieces_intercalate`). Without that condition the pieces are lost: a name with a dot in it
and two names joined by a dot are one text.
-/

set_option autoImplicit false

namespace IntentCode.Text

/-! ## Cutting -/

theorem cutAt_of_notMem {sep : Char} {cs : List Char} (h : sep ∉ cs) : cutAt sep cs = [cs] := by
  induction cs with
  | nil => rfl
  | cons c cs ih =>
    have hc : ¬ c = sep := fun e => h (by simp [e])
    rw [cutAt, if_neg hc, ih fun hm => h (List.mem_cons_of_mem _ hm)]

/-- **Two texts that a separator joins are cut apart from each other.** -/
theorem cutAt_joined (sep : Char) (cs ds : List Char) :
    cutAt sep (cs ++ sep :: ds) = cutAt sep cs ++ cutAt sep ds := by
  induction cs with
  | nil => simp [cutAt]
  | cons c cs ih =>
    rw [List.cons_append, cutAt, ih]
    by_cases hc : c = sep
    · rw [if_pos hc, cutAt, if_pos hc, List.cons_append]
    · rw [if_neg hc, cutAt, if_neg hc]
      cases h : cutAt sep cs with
      | nil => exact absurd h (cutAt_ne_nil sep cs)
      | cons p ps => rfl

theorem cutAt_append {sep : Char} {cs : List Char} (h : sep ∉ cs) (ds : List Char) :
    cutAt sep (cs ++ sep :: ds) = cs :: cutAt sep ds := by
  rw [cutAt_joined, cutAt_of_notMem h, List.singleton_append]

/-- A character that does not separate goes to the last piece. -/
theorem cutAt_concat {sep c : Char} (hc : c ≠ sep) (cs : List Char) :
    ∃ ps p, cutAt sep cs = ps ++ [p] ∧ cutAt sep (cs ++ [c]) = ps ++ [p ++ [c]] := by
  induction cs with
  | nil => exact ⟨[], [], rfl, by simp [cutAt, hc]⟩
  | cons d cs ih =>
    obtain ⟨ps, p, hcs, hmore⟩ := ih
    rw [List.cons_append, cutAt, cutAt, hcs, hmore]
    by_cases hd : d = sep
    · exact ⟨[] :: ps, p, by rw [if_pos hd]; rfl, by rw [if_pos hd]; rfl⟩
    · rw [if_neg hd, if_neg hd]
      cases ps with
      | nil => exact ⟨[], d :: p, rfl, rfl⟩
      | cons q ps => exact ⟨(d :: q) :: ps, p, rfl, rfl⟩

/-- Text without a separator goes to the first piece. -/
theorem cutAt_prepend {sep : Char} {cs : List Char} (h : sep ∉ cs) {ds p : List Char}
    {ps : List (List Char)} (hd : cutAt sep ds = p :: ps) :
    cutAt sep (cs ++ ds) = (cs ++ p) :: ps := by
  induction cs with
  | nil => exact hd
  | cons c cs ih =>
    have hc : ¬ c = sep := fun e => h (by simp [e])
    rw [List.cons_append, cutAt, if_neg hc, ih fun hm => h (List.mem_cons_of_mem _ hm)]
    rfl

/-- The pieces of a text hold no separator, and only characters of the text. -/
theorem of_mem_cutAt {sep : Char} {cs p : List Char} (h : p ∈ cutAt sep cs) :
    sep ∉ p ∧ ∀ c ∈ p, c ∈ cs := by
  fun_induction cutAt sep cs generalizing p with
  | case1 => simp_all
  | case2 cs ih =>
    rcases List.mem_cons.mp h with rfl | h
    · simp
    · exact ⟨(ih h).1, fun c hc => List.mem_cons_of_mem _ ((ih h).2 c hc)⟩
  | case3 c cs hc hnil => exact absurd hnil (cutAt_ne_nil sep cs)
  | case4 c cs hc q qs hq ih =>
    rw [hq] at ih
    rcases List.mem_cons.mp h with rfl | h
    · have hq' := ih List.mem_cons_self
      refine ⟨by simpa [hq'.1] using Ne.symm hc, fun d hd => ?_⟩
      rcases List.mem_cons.mp hd with rfl | hd
      · exact List.mem_cons_self
      · exact List.mem_cons_of_mem _ (hq'.2 d hd)
    · have hp := ih (List.mem_cons_of_mem _ h)
      exact ⟨hp.1, fun d hd => List.mem_cons_of_mem _ (hp.2 d hd)⟩

/-- The pieces of two texts that a separator joins. -/
theorem pieces_joined (sep : Char) (s more : String) :
    pieces sep (s ++ .ofList [sep] ++ more) = pieces sep s ++ pieces sep more := by
  unfold pieces
  rw [← List.map_append, ← cutAt_joined]
  simp [String.toList_append]

/-- A separator at the front leaves an empty piece. -/
theorem head?_ne_of_pieces {sep : Char} {text : String} (h : "" ∉ pieces sep text) :
    text.toList.head? ≠ some sep := by
  intro hhead
  obtain ⟨rest, hrest⟩ := List.head?_eq_some_iff.mp hhead
  apply h
  rw [pieces, hrest, cutAt, if_pos rfl]
  exact List.mem_cons_self

/-- A separator at the end leaves an empty piece. -/
theorem getLast?_ne_of_pieces {sep : Char} {text : String} (h : "" ∉ pieces sep text) :
    text.toList.getLast? ≠ some sep := by
  intro hlast
  obtain ⟨front, hfront⟩ := List.getLast?_eq_some_iff.mp hlast
  apply h
  rw [pieces, hfront, cutAt_joined, List.map_append]
  exact List.mem_append_right _ List.mem_cons_self

/-! ## Joining -/

theorem intercalate_append {sep : String} {texts more : List String} (h : texts ≠ [])
    (hm : more ≠ []) :
    String.intercalate sep (texts ++ more) =
      String.intercalate sep texts ++ sep ++ String.intercalate sep more := by
  induction texts with
  | nil => exact absurd rfl h
  | cons t texts ih =>
    cases texts with
    | nil =>
      obtain ⟨u, more, rfl⟩ := List.exists_cons_of_ne_nil hm
      simp [String.intercalate_cons_cons]
    | cons u texts =>
      have hmore := ih (by simp)
      rw [List.cons_append] at hmore
      rw [List.cons_append, List.cons_append, String.intercalate_cons_cons, hmore,
        String.intercalate_cons_cons]
      simp [String.append_assoc]

theorem intercalate_concat {sep : String} {texts : List String} (h : texts ≠ []) (text : String) :
    String.intercalate sep (texts ++ [text]) = String.intercalate sep texts ++ sep ++ text := by
  rw [intercalate_append h (by simp), String.intercalate_singleton]

/-- **Pieces without separators are found again.** -/
theorem pieces_intercalate {sep : Char} {texts : List String} (hne : texts ≠ [])
    (h : ∀ t ∈ texts, sep ∉ t.toList) :
    pieces sep (String.intercalate (.ofList [sep]) texts) = texts := by
  unfold pieces
  induction texts with
  | nil => exact absurd rfl hne
  | cons t texts ih =>
    have ht := h t List.mem_cons_self
    cases texts with
    | nil => simp [cutAt_of_notMem ht]
    | cons u texts =>
      have hrest := ih (by simp) fun v hv => h v (List.mem_cons_of_mem _ hv)
      rw [String.intercalate_cons_cons, String.toList_append, String.toList_append,
        String.toList_ofList, List.append_assoc, List.singleton_append, cutAt_append ht,
        List.map_cons, hrest, String.ofList_toList]

/-- The pieces of a text make up the text. -/
theorem intercalate_pieces (sep : Char) (s : String) :
    String.intercalate (.ofList [sep]) (pieces sep s) = s := by
  refine String.toList_injective ?_
  have hpieces : (pieces sep s).map String.toList = cutAt sep s.toList := by
    simp [pieces, Function.comp_def]
  rw [String.toList_intercalate, String.toList_ofList, hpieces, intercalate_cutAt]

/-! ## The front of a text -/

theorem afterStart?_eq_some_iff {s start rest : String} :
    afterStart? s start = some rest ↔ s = start ++ rest := by
  unfold afterStart?
  rw [Option.map_eq_some_iff]
  constructor
  · rintro ⟨cs, hcs, rfl⟩
    rw [List.isPrefixOf?_eq_some_iff_append_eq] at hcs
    exact String.toList_injective (by rw [String.toList_append, String.toList_ofList, hcs])
  · rintro rfl
    refine ⟨rest.toList, ?_, String.ofList_toList⟩
    rw [List.isPrefixOf?_eq_some_iff_append_eq, String.toList_append]

end IntentCode.Text
