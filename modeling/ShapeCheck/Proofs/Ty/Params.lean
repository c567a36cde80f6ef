import ShapeCheck.Ty.Parts

/-! The parameters of a signature: which lists of them are let through, and what follows for the
positions and for the number of arguments. -/

namespace ShapeCheck.Signature
variable {τ : Type} {p : Param τ} {ps required optional : List (Param τ)} {rest : Option (Param τ)}
  {s : Signature τ}

/-- Required parameters, then optional ones, then at most one rest parameter, which is not
optional. -/
structure Layout (ps required optional : List (Param τ)) (rest : Option (Param τ)) : Prop where
  split : ps = required ++ optional ++ rest.toList
  of_required : ∀ p ∈ required, p.optional = false ∧ p.rest = false
  of_optional : ∀ p ∈ optional, p.optional = true ∧ p.rest = false
  of_rest : ∀ p, rest = some p → p.optional = false ∧ p.rest = true

theorem layout_nil : Layout ([] : List (Param τ)) [] [] none :=
  ⟨rfl, by simp, by simp, by simp⟩

theorem layout_rest (ho : p.optional = false) (hr : p.rest = true) : Layout [p] [] [] (some p) :=
  ⟨rfl, by simp, by simp, by simp [ho, hr]⟩

namespace Layout

theorem cons_required (h : Layout ps required optional rest) (ho : p.optional = false)
    (hr : p.rest = false) : Layout (p :: ps) (p :: required) optional rest where
  split := by simp [h.split]
  of_required := List.forall_mem_cons.mpr ⟨⟨ho, hr⟩, h.of_required⟩
  of_optional := h.of_optional
  of_rest := h.of_rest

theorem cons_optional (h : Layout ps [] optional rest) (ho : p.optional = true)
    (hr : p.rest = false) : Layout (p :: ps) [] (p :: optional) rest where
  split := by simp [h.split]
  of_required := h.of_required
  of_optional := List.forall_mem_cons.mpr ⟨⟨ho, hr⟩, h.of_optional⟩
  of_rest := h.of_rest

/-- The first parameter says in which of the three stretches the list begins. -/
theorem cons_cases (h : Layout (p :: ps) required optional rest) :
    (p.optional = false ∧ p.rest = false ∧ required ≠ [] ∧ Layout ps required.tail optional rest) ∨
      (p.optional = true ∧ p.rest = false ∧ Layout ps [] optional.tail rest) ∨
      (p.optional = false ∧ p.rest = true ∧ ps = []) := by
  obtain ⟨hsplit, hq, ho, hr⟩ := h
  cases required with
  | cons q qs =>
    obtain ⟨rfl, rfl⟩ := List.cons.inj hsplit
    obtain ⟨hp, hqs⟩ := List.forall_mem_cons.mp hq
    exact .inl ⟨hp.1, hp.2, List.cons_ne_nil _ _, rfl, hqs, ho, hr⟩
  | nil =>
    cases optional with
    | cons o os =>
      obtain ⟨rfl, rfl⟩ := List.cons.inj hsplit
      obtain ⟨hp, hos⟩ := List.forall_mem_cons.mp ho
      exact .inr (.inl ⟨hp.1, hp.2, rfl, hq, hos, hr⟩)
    | nil =>
      cases rest with
      | none => cases hsplit
      | some r =>
        obtain ⟨rfl, rfl⟩ := List.cons.inj hsplit
        exact .inr (.inr ⟨(hr p rfl).1, (hr p rfl).2, rfl⟩)

end Layout

theorem exists_layout_of_checkParams {seen : Bool} (h : checkParams seen ps = .ok ()) :
    ∃ required optional rest, Layout ps required optional rest ∧ (seen = true → required = []) := by
  fun_induction checkParams seen ps with
  | case1 seen => exact ⟨[], [], none, layout_nil, fun _ => rfl⟩
  | case2 | case3 | case6 => cases h
  | case4 seen p ps hr hlast ho =>
    obtain rfl : ps = [] := by simpa using hlast
    exact ⟨[], [], some p, layout_rest (by simpa using ho) hr, fun _ => rfl⟩
  | case5 seen p ps hr ho ih =>
    obtain ⟨required, optional, rest, hl, hnone⟩ := ih h
    obtain rfl := hnone rfl
    exact ⟨[], p :: optional, rest, hl.cons_optional ho (by simpa using hr), fun _ => rfl⟩
  | case7 seen p ps hr ho hseen ih =>
    obtain ⟨required, optional, rest, hl, _⟩ := ih h
    exact ⟨p :: required, optional, rest,
      hl.cons_required (by simpa using ho) (by simpa using hr), fun he => (hseen he).elim⟩

theorem Layout.checkParams {seen : Bool} (h : Layout ps required optional rest)
    (hseen : seen = true → required = []) : checkParams seen ps = .ok () := by
  induction ps generalizing seen required optional with
  | nil => rfl
  | cons p ps ih =>
    rcases h.cons_cases with ⟨ho, hr, hne, htail⟩ | ⟨ho, hr, htail⟩ | ⟨ho, hr, rfl⟩
    · have hfirst : seen = false := by simpa using fun he => hne (hseen he)
      simp [Signature.checkParams, ho, hr, hfirst, ih htail]
    · simp [Signature.checkParams, ho, hr, ih htail]
    · simp [Signature.checkParams, ho, hr]

theorem ofParts_eq_ok_iff {result : τ} :
    ofParts ps result = .ok s ↔ checkParams false ps = .ok () ∧ s = ⟨ps, result⟩ := by
  unfold ofParts
  cases checkParams false ps with
  | ok _ => simp [eq_comm]
  | error d => simp

namespace Layout

theorem rest?_eq (h : Layout s.params required optional rest) : s.rest? = rest := by
  unfold rest?
  rw [h.split]
  cases rest with
  | some p => simp [(h.of_rest p rfl).2]
  | none =>
    split
    · rename_i p hp
      have hfalse : p.rest = false := by
        rcases List.mem_append.mp (List.mem_of_getLast? (by simpa using hp)) with hq | ho
        · exact (h.of_required p hq).2
        · exact (h.of_optional p ho).2
      simp [hfalse]
    · rfl

theorem positional_eq (h : Layout s.params required optional rest) :
    s.positional = required ++ optional := by
  unfold positional
  rw [h.rest?_eq, h.split]
  cases rest <;> simp

theorem minArity_eq (h : Layout s.params required optional rest) :
    s.minArity = required.length := by
  have hq : required.countP (fun p => !p.optional) = required.length :=
    List.countP_eq_length.mpr fun p hp => by simp [h.of_required p hp]
  have ho : optional.countP (fun p => !p.optional) = 0 :=
    List.countP_eq_zero.mpr fun p hp => by simp [h.of_optional p hp]
  rw [minArity, h.positional_eq, List.countP_append, hq, ho, Nat.add_zero]

theorem filter_rest (h : Layout ps required optional rest) :
    ps.filter (fun p => !p.rest) = required ++ optional := by
  have hq : required.filter (fun p => !p.rest) = required :=
    List.filter_eq_self.mpr fun p hp => by simp [h.of_required p hp]
  have ho : optional.filter (fun p => !p.rest) = optional :=
    List.filter_eq_self.mpr fun p hp => by simp [h.of_optional p hp]
  have hr : rest.toList.filter (fun p => !p.rest) = [] :=
    List.filter_eq_nil_iff.mpr fun p hp => by simp [h.of_rest p (by simpa using hp)]
  rw [h.split, List.filter_append, List.filter_append, hq, ho, hr, List.append_nil]

theorem filter_optional (h : Layout ps required optional rest) :
    (required ++ optional).filter (fun p => !p.optional) = required := by
  have hq : required.filter (fun p => !p.optional) = required :=
    List.filter_eq_self.mpr fun p hp => by simp [h.of_required p hp]
  have ho : optional.filter (fun p => !p.optional) = [] :=
    List.filter_eq_nil_iff.mpr fun p hp => by simp [h.of_optional p hp]
  rw [List.filter_append, hq, ho, List.append_nil]

theorem optional_of_mem_drop (h : Layout ps required optional rest) {count : Nat}
    (hc : required.length ≤ count) (hp : p ∈ (required ++ optional).drop count) :
    p.optional = true := by
  rw [List.drop_append, List.drop_eq_nil_of_le hc, List.nil_append] at hp
  exact (h.of_optional p (List.mem_of_mem_drop hp)).1

end Layout

/-- Without a rest parameter there is a position for each argument. -/
theorem maxArity_eq (h : s.rest? = none) : s.maxArity = some s.positional.length := by
  simp [maxArity, positional, h]

/-- Exactly the lists of required, then optional parameters and at most one rest parameter make a
signature. Its positions are all parameters but the last of these, as many as the least number of
arguments are required, and they come first. So with any number of arguments that is allowed, each
position without an argument is optional, and only a rest parameter takes arguments beyond the
positions. -/
theorem ofParts_grammar (ps : List (Param τ)) (result : τ) :
    ((∃ s, ofParts ps result = .ok s) ↔
        ∃ required optional rest, Layout ps required optional rest) ∧
      ∀ s, ofParts ps result = .ok s →
        s = ⟨ps, result⟩ ∧ s.positional = ps.filter (fun p => !p.rest) ∧
        s.positional.take s.minArity = s.positional.filter (fun p => !p.optional) ∧
        (∀ p ∈ s.positional.drop s.minArity, p.optional = true) ∧
        ∀ count, s.minArity ≤ count → (∀ most, s.maxArity = some most → count ≤ most) →
          (∀ p ∈ s.positional.drop count, p.optional = true) ∧
          (s.rest? = none → count ≤ s.positional.length) := by
  refine ⟨⟨?_, ?_⟩, ?_⟩
  · rintro ⟨s, hs⟩
    obtain ⟨required, optional, rest, hl, _⟩ :=
      exists_layout_of_checkParams (ofParts_eq_ok_iff.mp hs).1
    exact ⟨required, optional, rest, hl⟩
  · rintro ⟨required, optional, rest, hl⟩
    exact ⟨⟨ps, result⟩, ofParts_eq_ok_iff.mpr ⟨hl.checkParams (by simp), rfl⟩⟩
  · intro s hs
    obtain ⟨hcheck, rfl⟩ := ofParts_eq_ok_iff.mp hs
    obtain ⟨required, optional, rest, hl, _⟩ := exists_layout_of_checkParams hcheck
    have hpos : (⟨ps, result⟩ : Signature τ).positional = required ++ optional := hl.positional_eq
    have hmin : (⟨ps, result⟩ : Signature τ).minArity = required.length := hl.minArity_eq
    refine ⟨rfl, ?_, ?_, ?_, fun count hcount hmost => ⟨?_, fun hr => hmost _ (maxArity_eq hr)⟩⟩
    · rw [hpos, hl.filter_rest]
    · rw [hpos, hmin, hl.filter_optional, List.take_left]
    · rw [hpos, hmin]
      exact fun p => hl.optional_of_mem_drop (Nat.le_refl _)
    · rw [hpos]
      exact fun p => hl.optional_of_mem_drop (hmin ▸ hcount)

/-- Parameters of all three kinds, with more than one position that may stay empty. -/
theorem ofParts_grammar_three_kinds :
    let text : Ty := .prim .string
    let ps : List (Param Ty) := [⟨"a", text, false, false⟩, ⟨"b", text, true, false⟩,
      ⟨"c", text, true, false⟩, ⟨"more", .array text, false, true⟩]
    let s : Signature Ty := ⟨ps, Ty.void⟩
    ofParts ps Ty.void = .ok s ∧ (∃ required optional rest, Layout ps required optional rest) ∧
      s.minArity = 1 ∧ s.maxArity = none ∧ ∀ p ∈ s.positional.drop 2, p.optional = true := by
  intro text ps s
  obtain ⟨hiff, hall⟩ := ofParts_grammar ps Ty.void
  obtain ⟨-, -, -, -, hcount⟩ := hall s rfl
  refine ⟨rfl, hiff.mp ⟨s, rfl⟩, rfl, rfl, (hcount 2 (by decide) ?_).1⟩
  intro most hmost
  cases hmost

end ShapeCheck.Signature
