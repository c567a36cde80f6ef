import ShapeCheck.Proofs.Fit.Join
import ShapeCheck.Proofs.Ty.Absorb

/-! Unions and intersections depend neither on the order nor on the number nor on the grouping of
the types they are made from. -/

namespace ShapeCheck.Ty
variable {a b m p q t u : Ty} {ps qs ts xs ys zs : List Ty}

/-! Literals and their primitives absorb each other: the primitive in a union, the literal in an
intersection. -/

theorem widensTo_iff : Rule.widensTo p q ↔ ∃ v, p = .literal v ∧ q = .prim v.base := by
  cases p with
  | literal v => cases q <;> simp [Rule.widensTo, eq_comm]
  | _ => simp [Rule.widensTo]

theorem widensTo_same (hpq : p.same q) (hab : a.same b) (h : Rule.widensTo p a) :
    Rule.widensTo q b := by
  obtain ⟨v, rfl, rfl⟩ := widensTo_iff.mp h
  obtain ⟨w, rfl, hvw⟩ := same_literal_iff.mp hpq
  obtain rfl := same_prim_iff.mp hab
  exact widensTo_iff.mpr ⟨w, rfl, by rw [Literal.base_eq_of_same hvw]⟩

theorem widensTo_once (h : Rule.widensTo p q) : ¬Rule.widensTo q t := by
  obtain ⟨v, rfl, rfl⟩ := widensTo_iff.mp h
  simp [Rule.widensTo]

/-- A primitive makes its literals superfluous in a union. -/
theorem absorption_union : Absorption fun a p => Rule.widensTo p a where
  same hab hpq h := widensTo_same hpq hab h
  stays h h' := widensTo_once h h'

/-- A literal makes its primitive superfluous in an intersection. -/
theorem absorption_inter : Absorption fun a p => Rule.widensTo a p where
  same hab hpq h := widensTo_same hab hpq h
  stays h h' := widensTo_once h' h

/-! Unions. -/

/-- What types bring to a union, `never` apart. -/
def brought (ts : List Ty) : List Ty := (ts.flatMap unionParts).filter fun t => !t.isNever

theorem mem_brought : p ∈ brought ts ↔ (∃ t ∈ ts, p ∈ t.unionParts) ∧ p ≠ never := by
  simp [brought, ← Inquiry.isNever_iff]

theorem brought_append (xs ys : List Ty) : brought (xs ++ ys) = brought xs ++ brought ys := by
  simp [brought]

theorem proper_brought (hp : ∀ t ∈ ts, t.Proper) : ∀ p ∈ brought ts, p.Proper := by
  intro p h
  obtain ⟨⟨t, ht, hpt⟩, _⟩ := mem_brought.mp h
  exact (hp t ht).unionPart hpt

theorem join_of_any (h : any ∈ brought ts) : join ts = any := by
  have hany : (ts.flatMap unionParts).any isAny :=
    List.any_eq_true.mpr ⟨any, List.mem_of_mem_filter h, rfl⟩
  simp only [join, hany, if_true]

theorem leaves_kept (ts : List Ty) :
    Leaves (fun a p => Rule.widensTo p a) (brought ts) (kept ts) where
  apart := (pairwise_distinct _).sublist List.filter_sublist
  given l hl := (distinct_sublist _).subset (List.mem_of_mem_filter hl)
  free l hl p hp h := by
    obtain ⟨v, rfl, rfl⟩ := widensTo_iff.mp h
    obtain ⟨u, hu, hup⟩ := exists_distinct hp
    have habs : absorbedBy (distinct (brought ts)) (.literal v) := List.any_eq_true.mpr ⟨u, hu, hup⟩
    have hno := (List.mem_filter.mp hl).2
    rw [← brought, habs] at hno
    cases hno
  every p hp hfree := by
    rcases exists_kept (List.mem_of_mem_filter hp) with rfl | hsame | ⟨l, hl, hk⟩
    · exact ((mem_brought.mp hp).2 rfl).elim
    · exact hsame
    · obtain ⟨m, rfl, hlm⟩ := same_literal_iff.mp hl
      have hbase := (distinct_sublist _).subset (List.mem_of_mem_filter hk)
      refine (hfree _ hbase (widensTo_iff.mpr ⟨m, rfl, ?_⟩)).elim
      rw [Literal.base_eq_of_same hlm]

theorem gathers_join (h : any ∉ brought ts) : Gathers never .union (kept ts) (join ts) := by
  have hany : (ts.flatMap unionParts).any isAny = false := by
    rw [List.any_eq_false]
    intro t ht hta
    obtain rfl := eq_any_of_isAny hta
    exact h (List.mem_filter.mpr ⟨ht, rfl⟩)
  simp only [join, hany, Bool.false_eq_true, if_false]
  rw [← kept]
  split
  · exact .none ‹_›
  · exact .one ‹_›
  · exact .many (two_le_length ‹_› ‹_›) (Text.sortOn_perm _ _)

/-- Unions are equal if what either is made from says no more than what the other is made from. -/
theorem join_same (hx : ∀ p ∈ brought xs, p.Proper) (hy : ∀ p ∈ brought ys, p.Proper)
    (hxy : Subsumed (fun a p => Rule.widensTo p a) (brought xs) (brought ys))
    (hyx : Subsumed (fun a p => Rule.widensTo p a) (brought ys) (brought xs)) :
    (join xs).same (join ys) := by
  have hany : ∀ q : Ty, ¬Rule.widensTo any q := by simp [Rule.widensTo]
  by_cases ha : any ∈ brought xs
  · rw [join_of_any ha, join_of_any (hxy.mem_prim hany ha)]
    exact same_refl any
  · have ha' : any ∉ brought ys := fun h => ha (hyx.mem_prim hany h)
    refine Gathers.same (fun as bs hlen hin => ?_) absorption_union hx hy hxy hyx (leaves_kept xs)
      (leaves_kept ys) (gathers_join ha) (gathers_join ha')
    exact same_union_iff.mpr ⟨bs, rfl, hlen, hin⟩

/-- What a type brings to a union or to an intersection has its like in what an equal one
brings. -/
theorem same_parts (h : t.same u) :
    (∀ p ∈ t.unionParts, ∃ q ∈ u.unionParts, p.same q) ∧
      ∀ p ∈ t.interParts, ∃ q ∈ u.interParts, p.same q := by
  have hself : ∀ p ∈ [t], ∃ q ∈ [u], p.same q := by simpa using h
  cases t with
  | union ts =>
    obtain ⟨us, rfl, _, hus⟩ := same_union_iff.mp h
    exact ⟨hus, hself⟩
  | inter ts =>
    obtain ⟨us, rfl, _, hus⟩ := same_inter_iff.mp h
    exact ⟨hself, hus⟩
  | _ =>
    cases u with
    | union us => simp [same] at h
    | inter us => simp [same] at h
    | _ => exact ⟨hself, hself⟩

theorem SameMembers.brought (h : SameMembers xs ys) :
    SameMembers (Ty.brought xs) (Ty.brought ys) := by
  have hone : ∀ {ps qs : List Ty}, SameMembers ps qs → ∀ p ∈ ps.filter fun t => !t.isNever,
      ∃ q ∈ qs.filter fun t => !t.isNever, p.same q := by
    intro ps qs h p hp
    obtain ⟨hp, hn⟩ := List.mem_filter.mp hp
    obtain ⟨q, hq, hpq⟩ := h.into p hp
    refine ⟨q, List.mem_filter.mpr ⟨hq, ?_⟩, hpq⟩
    by_contra hnever
    obtain rfl := Inquiry.isNever_iff.mp (by simpa using hnever)
    rw [Inquiry.same_prim_right.mp hpq] at hn
    cases hn
  have hparts := h.flatMap fun hs => (same_parts hs).1 _
  exact ⟨hone hparts, hone hparts.symm⟩

theorem join_of_sameMembers (hx : ∀ x ∈ xs, x.Proper) (hy : ∀ y ∈ ys, y.Proper)
    (h : SameMembers xs ys) : (join xs).same (join ys) :=
  join_same (proper_brought hx) (proper_brought hy) h.brought.subsumed h.brought.symm.subsumed

/-- Neither a union within a union nor an intersection within an intersection. -/
def Flat (t : Ty) : Prop :=
  (∀ p ∈ t.unionParts, ∀ ms, p ≠ .union ms) ∧ ∀ p ∈ t.interParts, ∀ ms, p ≠ .inter ms

theorem unionParts_eq_self (h : ∀ ms, t ≠ .union ms) : t.unionParts = [t] := by
  cases t with
  | union ms => exact (h ms rfl).elim
  | _ => rfl

theorem interParts_eq_self (h : ∀ ms, t ≠ .inter ms) : t.interParts = [t] := by
  cases t with
  | inter ms => exact (h ms rfl).elim
  | _ => rfl

/-- A union brings to another one what is left of its own members. -/
theorem mem_brought_join (ha : any ∉ brought xs) (hf : ∀ x ∈ xs, x.Flat) :
    p ∈ brought [join xs] ↔ p ∈ kept xs := by
  have hk : ∀ k ∈ kept xs, k.unionParts = [k] ∧ k ≠ never := by
    intro k hk
    obtain ⟨⟨x, hx, hkx⟩, hn⟩ := mem_brought.mp ((leaves_kept xs).given k hk)
    exact ⟨unionParts_eq_self ((hf x hx).1 k hkx), hn⟩
  rcases (gathers_join ha).mem_parts unionParts (fun _ => rfl) fun k h => (hk k h).1 with
    ⟨hnil, he⟩ | hparts
  · simp [mem_brought, hnil, he, unionParts]
  · simp only [mem_brought, List.mem_singleton, exists_eq_left, hparts]
    exact ⟨And.left, fun h => ⟨h, (hk p h).2⟩⟩

theorem join_join (hp : ∀ t ∈ xs ++ ys, t.Proper) (hf : ∀ x ∈ xs, x.Flat) :
    (join (join xs :: ys)).same (join (xs ++ ys)) := by
  have happend : brought (join xs :: ys) = brought [join xs] ++ brought ys :=
    brought_append [join xs] ys
  have hx := proper_brought fun x h => hp x (List.mem_append_left ys h)
  have hy := proper_brought fun y h => hp y (List.mem_append_right xs h)
  by_cases ha : any ∈ brought xs
  · have hleft : any ∈ brought (join xs :: ys) := by
      rw [happend, join_of_any ha]
      exact List.mem_append_left _ (by simp [mem_brought, unionParts])
    have hright : any ∈ brought (xs ++ ys) := by simp [brought_append, ha]
    rw [join_of_any hleft, join_of_any hright]
    exact same_refl any
  · have hl := leaves_kept xs
    have hmem : ∀ p, p ∈ brought (join xs :: ys) ↔ p ∈ kept xs ++ brought ys := by
      simp [happend, mem_brought_join ha hf]
    obtain ⟨hthere, hback⟩ := hl.regroup absorption_union hx hmem
    rw [← brought_append] at hthere hback
    refine join_same (fun p h => ?_) (proper_brought hp) hthere hback
    rcases List.mem_append.mp ((hmem p).mp h) with h | h
    · exact hx p (hl.given p h)
    · exact hy p h

/-! Intersections. -/

/-- A member that is equal to the type, or a literal in the place of its primitive. -/
def StandsFor (m p : Ty) : Prop := m.same p ∨ ∃ l, m = .literal l ∧ p = .prim l.base

/-- The parts that are left when an intersection is simplified. -/
def remaining (ts : List Ty) : List Ty :=
  let members := distinct (ts.flatMap interParts)
  match members.filterMap literal? with
  | [] => members
  | v :: _ => members.filter fun t => !t.same (.prim v.base)

/-- For every part one that is left stands. -/
theorem exists_remaining (h : p ∈ ts.flatMap interParts) : ∃ m ∈ remaining ts, m.StandsFor p := by
  obtain ⟨u, hu, hup⟩ := exists_distinct h
  simp only [remaining]
  split
  · exact ⟨u, hu, .inl hup⟩
  · rename_i v vs hliterals
    by_cases hprim : u.same (.prim v.base)
    · obtain rfl := Inquiry.same_prim_right.mp hprim
      obtain rfl := same_prim_iff.mp hup
      have hv : v ∈ (distinct (ts.flatMap interParts)).filterMap literal? := by simp [hliterals]
      obtain ⟨m, hm, hlit⟩ := List.mem_filterMap.mp hv
      have he : m = .literal v := by
        cases m with
        | literal l =>
          cases hlit
          rfl
        | _ => cases hlit
      subst he
      exact ⟨.literal v, List.mem_filter.mpr ⟨hm, by simp [same]⟩, .inr ⟨v, rfl, rfl⟩⟩
    · exact ⟨u, List.mem_filter.mpr ⟨hu, by simpa using hprim⟩, .inl hup⟩

/-- An intersection is `never`, or what is left of its parts. -/
theorem meet_eq (ts : List Ty) :
    meet ts = never ∨ (∀ u ∈ ts.flatMap interParts, u ≠ never) ∧ (meet ts = any ∨
      (∃ m, remaining ts = [m] ∧ meet ts = m) ∨ meet ts = .inter (arrange (remaining ts))) := by
  by_cases hn : (ts.flatMap interParts).any isNever
  · exact .inl (by simp only [meet, hn, if_true])
  have hnever : ∀ u ∈ ts.flatMap interParts, u ≠ never := by
    rintro u hu rfl
    exact hn (List.any_eq_true.mpr ⟨never, hu, rfl⟩)
  simp only [meet, hn, if_false, Bool.false_eq_true]
  split
  · exact .inr ⟨hnever, .inl rfl⟩
  split
  · exact .inl rfl
  refine .inr ⟨hnever, ?_⟩
  split
  · exact .inl rfl
  · exact .inr (.inl ⟨_, ‹_›, rfl⟩)
  · exact .inr (.inr rfl)

/-- Values of two types never meet: they belong to different primitives, or to different
literals. -/
def Excludes (p q : Ty) : Prop :=
  (∃ j k, p.disjointKind? = some j ∧ q.disjointKind? = some k ∧ j ≠ k) ∨
    ∃ v w, p = .literal v ∧ q = .literal w ∧ v.same w = false

/-- Two of the types exclude each other. -/
def Excluding (ps : List Ty) : Prop := ∃ p ∈ ps, ∃ q ∈ ps, p.Excludes q

theorem Excludes.symm (h : p.Excludes q) : q.Excludes p := by
  rcases h with ⟨j, k, hj, hk, hne⟩ | ⟨v, w, rfl, rfl, hne⟩
  · exact .inl ⟨k, j, hk, hj, hne.symm⟩
  · refine .inr ⟨w, v, rfl, rfl, ?_⟩
    by_contra hwv
    rw [Literal.same_symm (by simpa using hwv)] at hne
    cases hne

theorem disjointKind?_same (h : p.same q) : q.disjointKind? = p.disjointKind? := by
  cases p with
  | prim k => rw [same_prim_iff.mp h]
  | literal v =>
    obtain ⟨w, rfl, hvw⟩ := same_literal_iff.mp h
    simp [disjointKind?, Literal.base_eq_of_same hvw]
  | _ => cases q <;> simp_all [same, disjointKind?]

theorem disjointKind?_literal (v : Literal) :
    (literal v).disjointKind? = (prim v.base).disjointKind? := by
  cases v <;> rfl

theorem Excludes.left (h : p.Excludes t) (hpq : p.same q ∨ Rule.widensTo q p) : q.Excludes t := by
  rcases h with ⟨j, k, hj, hk, hne⟩ | ⟨v, w, rfl, rfl, hne⟩
  · refine .inl ⟨j, k, ?_, hk, hne⟩
    rcases hpq with hs | hw
    · rw [disjointKind?_same hs, hj]
    · obtain ⟨v, rfl, rfl⟩ := widensTo_iff.mp hw
      rw [disjointKind?_literal, hj]
  · rcases hpq with hs | hw
    · obtain ⟨u, rfl, hvu⟩ := same_literal_iff.mp hs
      refine .inr ⟨u, w, rfl, rfl, ?_⟩
      by_contra huw
      rw [Literal.same_trans hvu (by simpa using huw)] at hne
      cases hne
    · obtain ⟨u, _, hu⟩ := widensTo_iff.mp hw
      cases hu

theorem Excluding.of_subsumed (h : Subsumed (fun a p => Rule.widensTo a p) ps qs)
    (he : Excluding ps) : Excluding qs := by
  obtain ⟨p, hp, r, hr, hpr⟩ := he
  obtain ⟨q, hq, hpq⟩ := h p hp
  obtain ⟨s, hs, hrs⟩ := h r hr
  exact ⟨q, hq, s, hs, ((hpr.left hpq).symm.left hrs).symm⟩

theorem kindsClash_iff {ks : List Prim} : kindsClash ks ↔ ∃ j ∈ ks, ∃ k ∈ ks, j ≠ k := by
  cases ks with
  | nil => simp [kindsClash]
  | cons i ks =>
    simp only [kindsClash, List.any_eq_true, bne_iff_ne]
    constructor
    · rintro ⟨k, hk, hne⟩
      exact ⟨k, List.mem_cons_of_mem i hk, i, List.mem_cons_self, hne⟩
    · rintro ⟨j, hj, k, hk, hne⟩
      by_cases hji : j = i
      · subst hji
        refine ⟨k, ?_, hne.symm⟩
        exact (List.mem_cons.mp hk).resolve_left hne.symm
      · exact ⟨j, (List.mem_cons.mp hj).resolve_left hji, hji⟩

theorem literal?_eq_some {v : Literal} : t.literal? = some v ↔ t = .literal v := by
  cases t <;> simp [literal?]

theorem same_literal_right {v : Literal} :
    t.same (.literal v) ↔ ∃ w, t = .literal w ∧ w.same v := by
  cases t <;> simp [same]

/-- Of distinct types, two are literals exactly if two literals differ. -/
theorem literals_differ_iff (ps : List Ty) :
    1 < ((distinct ps).filterMap literal?).length ↔
      ∃ v w, Ty.literal v ∈ ps ∧ Ty.literal w ∈ ps ∧ v.same w = false := by
  have hin : ∀ v, v ∈ (distinct ps).filterMap literal? ↔ Ty.literal v ∈ distinct ps := by
    intro v
    simp only [List.mem_filterMap, literal?_eq_some, exists_eq_right]
  have hapart : ((distinct ps).filterMap literal?).Pairwise fun v w => v.same w = false := by
    refine List.pairwise_filterMap.mpr ((pairwise_distinct ps).imp ?_)
    intro p q hpq v hv w hw
    rw [literal?_eq_some.mp hv, literal?_eq_some.mp hw] at hpq
    simpa [same] using hpq
  generalize (distinct ps).filterMap literal? = vs at hin hapart
  constructor
  · intro hlen
    rcases vs with _ | ⟨v, _ | ⟨w, vs⟩⟩
    · simp at hlen
    · simp at hlen
    · have hgiven : ∀ {u}, Ty.literal u ∈ distinct ps → Ty.literal u ∈ ps :=
        fun h => (distinct_sublist ps).subset h
      exact ⟨v, w, hgiven ((hin v).mp (by simp)), hgiven ((hin w).mp (by simp)),
        (List.pairwise_cons.mp hapart).1 w List.mem_cons_self⟩
  · rintro ⟨v, w, hv, hw, hne⟩
    obtain ⟨_, hv', hvv⟩ := exists_distinct hv
    obtain ⟨_, hw', hww⟩ := exists_distinct hw
    obtain ⟨v', rfl, hvv⟩ := same_literal_right.mp hvv
    obtain ⟨w', rfl, hww⟩ := same_literal_right.mp hww
    rw [← hin] at hv' hw'
    rcases vs with _ | ⟨x, _ | ⟨y, vs⟩⟩
    · cases hv'
    · rw [List.mem_singleton.mp hv'] at hvv
      rw [List.mem_singleton.mp hw'] at hww
      rw [Literal.same_trans (Literal.same_symm hvv) hww] at hne
      cases hne
    · simp

/-- The kinds and the literals among distinct types tell whether two of them exclude each other. -/
theorem clash_iff (ps : List Ty) :
    (kindsClash ((distinct ps).filterMap disjointKind?) ||
      decide (1 < ((distinct ps).filterMap literal?).length)) = true ↔ Excluding ps := by
  simp only [Bool.or_eq_true, kindsClash_iff, List.mem_filterMap, decide_eq_true_eq,
    literals_differ_iff]
  constructor
  · have hgiven : ∀ {p}, p ∈ distinct ps → p ∈ ps := fun h => (distinct_sublist ps).subset h
    rintro (⟨j, ⟨p, hp, hj⟩, k, ⟨q, hq, hk⟩, hne⟩ | ⟨v, w, hv, hw, hne⟩)
    · exact ⟨p, hgiven hp, q, hgiven hq, .inl ⟨j, k, hj, hk, hne⟩⟩
    · exact ⟨_, hv, _, hw, .inr ⟨v, w, rfl, rfl, hne⟩⟩
  · rintro ⟨p, hp, q, hq, ⟨j, k, hj, hk, hne⟩ | ⟨v, w, rfl, rfl, hne⟩⟩
    · obtain ⟨p', hp', hpp⟩ := exists_distinct hp
      obtain ⟨q', hq', hqq⟩ := exists_distinct hq
      rw [disjointKind?_same hpp] at hj
      rw [disjointKind?_same hqq] at hk
      exact .inl ⟨j, ⟨p', hp', hj⟩, k, ⟨q', hq', hk⟩, hne⟩
    · exact .inr ⟨v, w, hp, hq, hne⟩

theorem any_isNever_iff : ps.any isNever ↔ never ∈ ps := by
  simp [List.any_eq_true, Inquiry.isNever_iff]

theorem any_isAny_iff : ps.any isAny ↔ any ∈ ps := by
  simp [List.any_eq_true, Inquiry.isAny_iff]

/-- No value belongs to all of the types. -/
def Vain (ps : List Ty) : Prop := never ∈ ps ∨ Excluding ps

theorem meet_of_never (h : never ∈ ts.flatMap interParts) : meet ts = never := by
  simp only [meet, any_isNever_iff, h, if_true]

theorem meet_of_any (hn : never ∉ ts.flatMap interParts) (h : any ∈ ts.flatMap interParts) :
    meet ts = any := by
  simp only [meet, any_isNever_iff, any_isAny_iff, hn, h, if_true, if_false]

theorem meet_of_vain (ha : any ∉ ts.flatMap interParts) (h : Vain (ts.flatMap interParts)) :
    meet ts = never := by
  by_cases hn : never ∈ ts.flatMap interParts
  · exact meet_of_never hn
  · have he := h.resolve_left hn
    simp only [meet, any_isNever_iff, any_isAny_iff, clash_iff, hn, ha, he, if_true, if_false]

theorem gathers_meet (ha : any ∉ ts.flatMap interParts) (h : ¬Vain (ts.flatMap interParts)) :
    Gathers any .inter (remaining ts) (meet ts) := by
  obtain ⟨hn, he⟩ := not_or.mp h
  simp only [meet, any_isNever_iff, any_isAny_iff, clash_iff, hn, ha, he, if_false]
  split
  · exact .none ‹_›
  · exact .one ‹_›
  · exact .many (two_le_length ‹_› ‹_›) (Text.sortOn_perm _ _)

theorem remaining_sublist (ts : List Ty) :
    (remaining ts).Sublist (distinct (ts.flatMap interParts)) := by
  unfold remaining
  dsimp only
  split
  · exact .refl _
  · exact List.filter_sublist

theorem leaves_remaining (h : ¬Vain (ts.flatMap interParts)) :
    Leaves (fun a p => Rule.widensTo a p) (ts.flatMap interParts) (remaining ts) where
  apart := (pairwise_distinct _).sublist (remaining_sublist ts)
  given l hl := (distinct_sublist _).subset ((remaining_sublist ts).subset hl)
  free l hl p hp hw := by
    obtain ⟨v, rfl, rfl⟩ := widensTo_iff.mp hw
    obtain ⟨_, hu, hus⟩ := exists_distinct hp
    obtain ⟨w, rfl, _⟩ := same_literal_right.mp hus
    unfold remaining at hl
    dsimp only at hl
    split at hl
    · rename_i hnil
      have hw : w ∈ (distinct (ts.flatMap interParts)).filterMap literal? :=
        List.mem_filterMap.mpr ⟨_, hu, rfl⟩
      simp [hnil] at hw
    · rename_i x xs hlits
      -- the literal whose primitive is dropped is no other than this one
      obtain ⟨y, hy, hyx⟩ := List.mem_filterMap.mp (hlits ▸ List.mem_cons_self (a := x) (l := xs))
      obtain rfl := literal?_eq_some.mp hyx
      have hxv : x.same v := by
        by_contra hne
        have hdiffer : (literal x).Excludes (literal v) := .inr ⟨x, v, rfl, rfl, by simpa using hne⟩
        exact h (.inr ⟨_, (distinct_sublist _).subset hy, _, hp, hdiffer⟩)
      have hno := (List.mem_filter.mp hl).2
      simp [Literal.base_eq_of_same hxv, same_refl] at hno
  every p hp hfree := by
    obtain ⟨m, hm, hs | ⟨v, rfl, rfl⟩⟩ := exists_remaining hp
    · exact ⟨m, hm, hs⟩
    · have hgiven := (distinct_sublist _).subset ((remaining_sublist ts).subset hm)
      exact (hfree _ hgiven (widensTo_iff.mpr ⟨v, rfl, rfl⟩)).elim

theorem not_widensTo_extreme {k : Prim} (hk : k = .any ∨ k = .never) :
    ¬Rule.widensTo q (.prim k) := by
  intro h
  obtain ⟨v, _, he⟩ := widensTo_iff.mp h
  cases he
  cases v <;> simp [Literal.base] at hk

theorem Vain.of_subsumed (h : Subsumed (fun a p => Rule.widensTo a p) ps qs) (hv : Vain ps) :
    Vain qs :=
  hv.imp (h.mem_prim fun _ => not_widensTo_extreme (.inr rfl)) (Excluding.of_subsumed h)

/-- Intersections are equal if what either is made from says no more than what the other is made
from. -/
theorem meet_same (hx : ∀ p ∈ xs.flatMap interParts, p.Proper)
    (hy : ∀ p ∈ ys.flatMap interParts, p.Proper)
    (hxy : Subsumed (fun a p => Rule.widensTo a p) (xs.flatMap interParts) (ys.flatMap interParts))
    (hyx : Subsumed (fun a p => Rule.widensTo a p) (ys.flatMap interParts)
      (xs.flatMap interParts)) :
    (meet xs).same (meet ys) := by
  have hnever : ∀ q : Ty, ¬Rule.widensTo q never := fun _ => not_widensTo_extreme (.inr rfl)
  have hany : ∀ q : Ty, ¬Rule.widensTo q any := fun _ => not_widensTo_extreme (.inl rfl)
  by_cases hn : never ∈ xs.flatMap interParts
  · rw [meet_of_never hn, meet_of_never (hxy.mem_prim hnever hn)]
    exact same_refl never
  by_cases ha : any ∈ xs.flatMap interParts
  · have hn' : never ∉ ys.flatMap interParts := fun h => hn (hyx.mem_prim hnever h)
    rw [meet_of_any hn ha, meet_of_any hn' (hxy.mem_prim hany ha)]
    exact same_refl any
  have ha' : any ∉ ys.flatMap interParts := fun h => ha (hyx.mem_prim hany h)
  by_cases hv : Vain (xs.flatMap interParts)
  · rw [meet_of_vain ha hv, meet_of_vain ha' (hv.of_subsumed hxy)]
    exact same_refl never
  have hv' : ¬Vain (ys.flatMap interParts) := fun h => hv (h.of_subsumed hyx)
  refine Gathers.same (fun as bs hlen hin => ?_) absorption_inter hx hy hxy hyx
    (leaves_remaining hv) (leaves_remaining hv') (gathers_meet ha hv) (gathers_meet ha' hv')
  exact same_inter_iff.mpr ⟨bs, rfl, hlen, hin⟩

theorem proper_interParts (hp : ∀ t ∈ ts, t.Proper) : ∀ p ∈ ts.flatMap interParts, p.Proper := by
  intro p h
  obtain ⟨t, ht, hpt⟩ := List.mem_flatMap.mp h
  exact (hp t ht).interPart hpt

theorem meet_of_sameMembers (hx : ∀ x ∈ xs, x.Proper) (hy : ∀ y ∈ ys, y.Proper)
    (h : SameMembers xs ys) : (meet xs).same (meet ys) := by
  have hparts := h.flatMap fun hs => (same_parts hs).2 _
  exact meet_same (proper_interParts hx) (proper_interParts hy) hparts.subsumed hparts.symm.subsumed

/-- An intersection brings to another one what is left of its own members. -/
theorem mem_interParts_meet (hne : xs ≠ []) (hp : ∀ x ∈ xs, x.Proper) (hf : ∀ x ∈ xs, x.Flat)
    (ha : any ∉ xs.flatMap interParts) (hv : ¬Vain (xs.flatMap interParts)) :
    p ∈ (meet xs).interParts ↔ p ∈ remaining xs := by
  have hl := leaves_remaining hv
  have hk : ∀ k ∈ remaining xs, k.interParts = [k] := by
    intro k hk
    obtain ⟨x, hx, hkx⟩ := List.mem_flatMap.mp (hl.given k hk)
    exact interParts_eq_self ((hf x hx).2 k hkx)
  rcases (gathers_meet ha hv).mem_parts interParts (fun _ => rfl) hk with ⟨hnil, _⟩ | hparts
  · -- every type has a part, and of some parts something is left
    obtain ⟨x, hx⟩ := List.exists_mem_of_ne_nil xs hne
    obtain ⟨q, hq⟩ : ∃ q, q ∈ x.interParts := by
      cases x with
      | inter ms =>
        exact List.exists_mem_of_length_pos (Nat.lt_of_lt_of_le two_pos (hp _ hx).here.1)
      | _ => exact ⟨_, List.mem_singleton_self _⟩
    obtain ⟨l, hl', _⟩ := hl.subsumes absorption_inter (proper_interParts hp) q
      (List.mem_flatMap.mpr ⟨x, hx, hq⟩)
    simp [hnil] at hl'
  · exact hparts p

theorem meet_meet (hp : ∀ t ∈ xs ++ ys, t.Proper) (hf : ∀ x ∈ xs, x.Flat) (hne : xs ≠ [])
    (ha : ∀ t ∈ xs ++ ys, ∀ p ∈ t.interParts, p ≠ any) :
    (meet (meet xs :: ys)).same (meet (xs ++ ys)) := by
  have hpx : ∀ x ∈ xs, x.Proper := fun x h => hp x (List.mem_append_left ys h)
  have hx := proper_interParts hpx
  have hy := proper_interParts fun y h => hp y (List.mem_append_right xs h)
  have hany : any ∉ (xs ++ ys).flatMap interParts := by
    intro h
    obtain ⟨t, ht, hpt⟩ := List.mem_flatMap.mp h
    exact ha t ht any hpt rfl
  have hsplit : (xs ++ ys).flatMap interParts = xs.flatMap interParts ++ ys.flatMap interParts :=
    List.flatMap_append
  have hanyx : any ∉ xs.flatMap interParts := fun h => hany (by simp [hsplit, h])
  by_cases hv : Vain (xs.flatMap interParts)
  · have hv' : Vain ((xs ++ ys).flatMap interParts) := by
      refine hv.of_subsumed fun p h => ⟨p, ?_, .inl (same_refl p)⟩
      exact hsplit ▸ List.mem_append_left _ h
    have hleft : never ∈ (meet xs :: ys).flatMap interParts := by
      simp [meet_of_vain hanyx hv, interParts]
    rw [meet_of_never hleft, meet_of_vain hany hv']
    exact same_refl never
  · have hl := leaves_remaining hv
    have hmem : ∀ p, p ∈ (meet xs :: ys).flatMap interParts ↔
        p ∈ remaining xs ++ ys.flatMap interParts := by
      intro p
      rw [List.flatMap_cons, List.mem_append, List.mem_append,
        mem_interParts_meet hne hpx hf hanyx hv]
    obtain ⟨hthere, hback⟩ := hl.regroup absorption_inter hx hmem
    rw [← hsplit] at hthere hback
    refine meet_same (fun p h => ?_) (proper_interParts hp) hthere hback
    rcases List.mem_append.mp ((hmem p).mp h) with h | h
    · exact hx p (hl.given p h)
    · exact hy p h

/-- Order, repetition and grouping make no difference to unions, nor to intersections of types
without `any`. -/
theorem join_meet_laws (hp : ∀ t ∈ xs ++ ys, t.Proper) (hf : ∀ t ∈ xs ++ ys, t.Flat) :
    (∀ zs, (∀ z ∈ zs, z.Proper) → SameMembers zs xs → (join zs).same (join xs)) ∧
      (join (join xs :: ys)).same (join (xs ++ ys)) ∧
      (xs ≠ [] → (∀ t ∈ xs ++ ys, ∀ p ∈ t.interParts, p ≠ any) →
        (∀ zs, (∀ z ∈ zs, z.Proper) → SameMembers zs xs → (meet zs).same (meet xs)) ∧
          (meet (meet xs :: ys)).same (meet (xs ++ ys))) := by
  have hx : ∀ x ∈ xs, x.Proper := fun x h => hp x (List.mem_append_left ys h)
  have hfx : ∀ x ∈ xs, x.Flat := fun x h => hf x (List.mem_append_left ys h)
  refine ⟨fun zs hz h => join_of_sameMembers hz hx h, join_join hp hfx, fun hne ha => ?_⟩
  exact ⟨fun zs hz h => meet_of_sameMembers hz hx h, meet_meet hp hfx hne ha⟩

/-- A number in two notations, a literal beside its primitive, objects under other names and in
another order, and a union that holds `never`. -/
theorem join_meet_laws_renamed :
    let number : Ty := .prim .number
    let one : Ty := .literal (.number (.int 1))
    let oneAsDouble : Ty := .literal (.number (.double (.finite false 4503599627370496 (-52))))
    let point (axis name : String) : Ty := .object [⟨axis, number, false⟩] none (some name)
    let xs : List Ty := [number, one, .inter [point "x" "A", point "y" "B"]]
    let ys : List Ty := [.union [never, number, .prim .string]]
    let zs : List Ty := [.inter [point "y" "D", point "x" "C"], oneAsDouble, number, number]
    (∀ t ∈ xs ++ ys, t.Proper) ∧ (∀ t ∈ xs ++ ys, t.Flat) ∧ (∀ z ∈ zs, z.Proper) ∧
      SameMembers zs xs ∧ xs ≠ [] ∧ (∀ t ∈ xs ++ ys, ∀ p ∈ t.interParts, p ≠ any) ∧
      (join zs).same (join xs) ∧ (join (join xs :: ys)).same (join (xs ++ ys)) ∧
      (meet zs).same (meet xs) ∧ (meet (meet xs :: ys)).same (meet (xs ++ ys)) := by
  intro number one oneAsDouble point xs ys zs
  have hp : ∀ t ∈ xs ++ ys ++ zs, t.Proper := by
    have hw : ∀ t ∈ xs ++ ys ++ zs, holdsWithin WellShaped 3 t := by decide
    exact fun t ht => everywhere_of_holdsWithin (hw t ht)
  have hxy : ∀ t ∈ xs ++ ys, t.Proper := fun t ht => hp t (List.mem_append_left zs ht)
  have hz : ∀ z ∈ zs, z.Proper := fun z h => hp z (List.mem_append_right _ h)
  have hf : ∀ t ∈ xs ++ ys, t.Flat := by
    simp [xs, ys, number, one, point, Flat, unionParts, interParts]
  have ha : ∀ t ∈ xs ++ ys, ∀ p ∈ t.interParts, p ≠ any := by
    simp [xs, ys, number, one, point, interParts]
  have hs : SameMembers zs xs := ⟨by decide +kernel, by decide +kernel⟩
  have hne : xs ≠ [] := by simp [xs]
  obtain ⟨hjoin, hnested, hmeet⟩ := join_meet_laws hxy hf
  obtain ⟨hmeet, hnested'⟩ := hmeet hne ha
  exact ⟨hxy, hf, hz, hs, hne, ha, hjoin zs hz hs, hnested, hmeet zs hz hs, hnested'⟩

end ShapeCheck.Ty
