import IntentCode.Proofs.Parser.Header
import IntentCode.Proofs.Parser.Written

/-!
# What lines declare is legal

The tokens of a line are sound, and what a declaration takes from them is legal: a name is a single
identifier token, a text is what follows a colon, and the entries of a list are cut at commas
outside parentheses, so each of them closes what it opens.
-/

set_option autoImplicit false

namespace IntentCode.Parser

open Ast Lexer Token

/-! ## Lists -/

theorem legal_of_readsAs {allowRefs : Bool} {g : List Token} {e : Entry} (h : ReadsAs allowRefs g e)
    (hplain : ∀ t ∈ g, t.Plain) (hclosed : Closes 0 g) : e.Legal allowRefs := by
  have hname : ∀ {t name}, NamesEntry allowRefs t name → t.kind = .identifier ∨ t.kind = .reference :=
    fun names => names.rec (fun h => .inl h.1) fun _ hk => .inr hk
  cases h with
  | alone t name names =>
    exact ⟨⟨t, hplain t List.mem_cons_self, hname names, entryName?_eq_ok_iff.mpr names⟩, by simp, rfl⟩
  | described t colon description name names kind =>
    refine ⟨⟨t, hplain t List.mem_cons_self, hname names, entryName?_eq_ok_iff.mpr names⟩,
      fun u hu => hplain u (by simp [hu]), ?_⟩
    rcases hname names with hk | hk <;> simpa [Closes, hk, kind] using hclosed

theorem legal_of_parenEntries {allowRefs : Bool} {ts : List Token} {es : List Entry}
    (h : parenEntries allowRefs ts = .ok (es, [])) (hplain : ∀ t ∈ ts, t.Plain) :
    ∀ e ∈ es, e.Legal allowRefs := by
  unfold parenEntries at h
  split at h
  · cases h
    simp
  · next t inside =>
    split at h
    · cases h
    · split at h
      · cases h
      · cases h
        simp
      · next inner rest hne huntil =>
        obtain ⟨es', hes, h⟩ := bind_ok h
        cases h
        obtain ⟨close, -, rfl, hbalanced⟩ := untilClose_eq_some_iff.mp huntil
        obtain ⟨first, more, hcut, hgroups⟩ :=
          (cutCommas_eq_iff (matched_iff.mp hbalanced)).mp rfl
        intro e he
        obtain ⟨g, hg, hentry⟩ := mem_of_mapM hes e he
        rw [hgroups] at hg
        refine legal_of_readsAs (entryOf?_eq_ok_iff.mp hentry) (fun u hu => hplain u ?_)
          (isGroup_iff.mpr (hcut.groups g hg))
        have hu : u ∈ inner := hcut.joined ▸ mem_rejoin hg hu
        simp [hu]

theorem distinctEntries_spec (es : List Entry) :
    ((distinctEntries es).1.map Entry.name).Nodup ∧ ∀ e ∈ (distinctEntries es).1, e ∈ es := by
  rw [distinctEntries_eq]
  suffices h : ∀ (r : List Entry × List String), (r.1.map Entry.name).Nodup →
      ((es.foldl enlist r).1.map Entry.name).Nodup ∧
        ∀ e ∈ (es.foldl enlist r).1, e ∈ r.1 ∨ e ∈ es by
    obtain ⟨hnodup, hmem⟩ := h ([], []) (by simp)
    exact ⟨hnodup, fun e he => (hmem e he).resolve_left (by simp)⟩
  induction es with
  | nil => exact fun r hr => ⟨hr, fun e he => .inl he⟩
  | cons e es ih =>
    intro r hr
    rw [List.foldl_cons]
    unfold enlist
    split
    · obtain ⟨hnodup, hmem⟩ := ih (r.1, r.2 ++ [e.name]) hr
      refine ⟨hnodup, fun x hx => ?_⟩
      rcases hmem x hx with hx | hx
      · exact .inl hx
      · exact .inr (List.mem_cons_of_mem _ hx)
    · next hno =>
      have hnodup : ((r.1 ++ [e]).map Entry.name).Nodup := by
        rw [List.map_append, List.map_singleton, List.nodup_append]
        refine ⟨hr, by simp, ?_⟩
        rintro a ha b hb rfl
        obtain rfl := List.mem_singleton.mp hb
        exact hno (List.contains_iff_mem.mpr ha)
      obtain ⟨hnodup, hmem⟩ := ih (r.1 ++ [e], r.2) hnodup
      refine ⟨hnodup, fun x hx => ?_⟩
      rcases hmem x hx with hx | hx
      · rcases List.mem_append.mp hx with hx | hx
        · exact .inl hx
        · obtain rfl := List.mem_singleton.mp hx
          exact .inr List.mem_cons_self
      · exact .inr (List.mem_cons_of_mem _ hx)

/-! ## The line -/

theorem isName_of_nameToken {t : Token} (h : NameToken t) (ht : t.Plain) : IsName t.text :=
  ⟨by simpa [Plain, h.1] using ht, h.2⟩

theorem mem_of_textAfterColon {fault : Kind → HeaderFault} {ts text : List Token}
    (h : textAfterColon fault ts = .ok text) : ∀ t ∈ text, t ∈ ts := by
  unfold textAfterColon at h
  split at h
  · cases h
    simp
  · split at h
    · cases h
      exact fun t ht => List.mem_cons_of_mem _ ht
    · cases h

theorem mem_of_stripColon (ts : List Token) : ∀ t ∈ (stripColon ts).1, t ∈ ts := by
  unfold stripColon
  split
  · exact fun t ht => List.dropLast_subset _ ht
  · exact fun t ht => ht

theorem of_stripColon_false {ts : List Token} (h : (stripColon ts).2 = false) :
    (stripColon ts).1 = ts ∧ endsWithColon ts = false := by
  unfold stripColon at h ⊢
  split
  · next hends =>
    rw [if_pos hends] at h
    cases h
  · next hno => exact ⟨rfl, eq_false_of_ne_true hno⟩

/-- **What a line declares is legal.** -/
theorem legal_of_ofTokens {l : LogicalLine} {node : LineNode} (ne : l.tokens ≠ [])
    (h : Reading.ofTokens l.tokens = .node node) : Legal node.body := by
  obtain ⟨hsound, hplain⟩ := l.sound_tokens
  have hdeclares := declares_of_ofTokens h
  generalize l.tokens = ts at hsound hplain hdeclares h ne
  cases hdeclares with
  | step ts free =>
    have hall : ∀ t ∈ ts, t.Plain := by
      intro t ht
      cases ts with
      | nil => cases ht
      | cons u us =>
        rcases List.mem_cons.mp ht with rfl | ht
        · have hkeyword := free t (by simp)
          have hintent : t.kind ≠ .intent := by
            intro hk
            simp [Reading.ofTokens, hk] at h
          have := hsound t List.mem_cons_self
          unfold Sound at this
          split at this
          · next hk => exact absurd hk hkeyword
          · next hk => exact absurd hk hintent
          · exact this
        · exact hplain t ht
    have hlegal : Legal (.step ⟨render (stripColon ts).1, references (stripColon ts).1,
        (stripColon ts).2⟩) := by
      refine .step _ (fun t ht => hall t (mem_of_stripColon ts t ht)) ?_
      intro hopens
      obtain ⟨hts, hno⟩ := of_stripColon_false hopens
      rw [hts]
      exact ⟨ne, hno⟩
    exact hlegal
  | moduleImport k t ts text keyword word name after =>
    refine .moduleImport (isName_of_nameToken name (hplain t (by simp))) fun u hu => ?_
    exact hplain u (by simp [mem_of_textAfterColon after u hu])
  | varDecl k t ts text keyword word name after =>
    refine .varDecl _ (isName_of_nameToken name (hplain t (by simp))) fun u hu => ?_
    exact hplain u (by simp [mem_of_textAfterColon after u hu])
  | classDecl k t ts list entries keyword word name front listed =>
    have hfront : ∀ u ∈ t :: list, u.Plain := fun u hu =>
      hplain u (mem_of_stripColon ts u (front ▸ hu))
    obtain ⟨hnodup, hmem⟩ := distinctEntries_spec entries
    have hlegal := legal_of_parenEntries listed fun u hu => hfront u (List.mem_cons_of_mem _ hu)
    exact .classDecl _ (isName_of_nameToken name (hfront t List.mem_cons_self)) hnodup
      fun e he => hlegal e (hmem e he)
  | funcDecl k t ts list entries keyword word name front listed =>
    have hfront : ∀ u ∈ t :: list, u.Plain := fun u hu =>
      hplain u (mem_of_stripColon ts u (front ▸ hu))
    obtain ⟨hnodup, hmem⟩ := distinctEntries_spec entries
    have hlegal := legal_of_parenEntries listed fun u hu => hfront u (List.mem_cons_of_mem _ hu)
    exact .funcDecl _ (isName_of_nameToken name (hfront t List.mem_cons_self)) hnodup
      fun e he => hlegal e (hmem e he)

end IntentCode.Parser
