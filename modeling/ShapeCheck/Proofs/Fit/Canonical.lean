import ShapeCheck.Proofs.Fit.EqualTypes
import ShapeCheck.Proofs.Fit.Asked

/-! The types that come up when an intersection is compared with its members, and where all their
intersections have one order only. Members of an intersection are kept in the order of their
spelling, so equal intersections may list their members differently if equal types are spelled
differently. Where they are not, no question is taken for another one. -/

namespace ShapeCheck.Ty
variable {variance : Variance} {ts xs ms ns : List Ty} {a b m p t u : Ty}

/-- The types that come up when the intersection of the given ones is compared with them. -/
inductive ComesUp (variance : Variance) (ts : List Ty) : Ty → Prop
  | given {t : Ty} (ht : t ∈ ts) : ComesUp variance ts t
  | whole : ComesUp variance ts (meet ts)
  | any : ComesUp variance ts Ty.any
  | part {t u : Ty} (h : ComesUp variance ts t) (hu : u ∈ t.children) : ComesUp variance ts u
  | merged {ms ns : List Ty} {fs : List (Field Ty)} {f : Field Ty}
    (h : ComesUp variance ts (.inter ms)) (hn : ns <+: ms)
    (ho : (Ty.inter ns).offersBy (Fits variance) = some fs) (hf : f ∈ fs) :
    ComesUp variance ts f.type
  | shared {ms : List Ty} {fs : List (Field Ty)} {f : Field Ty}
    (h : ComesUp variance ts (.union ms))
    (ho : (Ty.union ms).offersBy (Fits variance) = some fs) (hf : f ∈ fs) :
    ComesUp variance ts f.type
  | combined {ms : List Ty} {shape : Ty} (h : ComesUp variance ts (.inter ms))
    (hc : (Ty.inter ms).combinedBy (Fits variance) = some shape) : ComesUp variance ts shape

theorem closed_comesUp (hts : ∀ t ∈ ts, Within .unnamed t) :
    ComparisonClosed (Fits variance) (ComesUp variance ts) where
  within h := by
    induction h with
    | given ht => exact hts _ ht
    | whole => exact within_meet trivial hts
    | any => exact within_prim _
    | part _ hu ih => exact ih.child hu
    | merged _ hn ho hf ih => exact closed_unnamed.merged ih hn ho _ hf
    | shared _ ho hf ih => exact closed_unnamed.shared ih ho _ hf
    | combined _ hc ih => exact closed_unnamed.combined ih hc
  any := .any
  child := .part
  merged h hn ho _ hf := .merged h hn ho hf
  shared h ho _ hf := .shared h ho hf
  combined := .combined

/-- What a type brings to an intersection if it is an object or an intersection itself. -/
def conjunctsOf : Ty → List Ty
  | .object fs i n => [.object fs i n]
  | .inter ms => ms
  | _ => []

/-- What may become a member of an intersection when the given types are compared: their own
parts, and the objects and the members of intersections inside of them. -/
def conjuncts (ts : List Ty) : List Ty :=
  ts.flatMap interParts ++ (ts.flatMap preorder).flatMap conjunctsOf

/-- Members in the order of their spelling. -/
def Arranged (ms : List Ty) : Prop := ms.Pairwise fun a b => a.spelling ≤ b.spelling

instance (ms : List Ty) : Decidable (Arranged ms) :=
  inferInstanceAs (Decidable (ms.Pairwise fun a b => a.spelling ≤ b.spelling))

/-- Members of intersections are equal exactly if they are spelled alike, and stand in the order of
their spelling. -/
structure Canonical (ts : List Ty) : Prop where
  spelled : ∀ a ∈ conjuncts ts, ∀ b ∈ conjuncts ts, (a.same b = true ↔ a.spelling = b.spelling)
  arranged : ∀ u ∈ ts.flatMap preorder, Arranged u.conjunctsOf

instance (ts : List Ty) : Decidable (Canonical ts) :=
  decidable_of_iff ((∀ a ∈ conjuncts ts, ∀ b ∈ conjuncts ts,
      (a.same b = true ↔ a.spelling = b.spelling)) ∧
    ∀ u ∈ ts.flatMap preorder, Arranged u.conjunctsOf) ⟨fun h => ⟨h.1, h.2⟩, fun h => ⟨h.1, h.2⟩⟩

theorem mem_preorder_child (h : t ∈ ts.flatMap preorder) (hu : u ∈ t.children) :
    u ∈ ts.flatMap preorder := by
  obtain ⟨x, hx, hxt⟩ := List.mem_flatMap.mp h
  exact List.mem_flatMap.mpr ⟨x, hx, mem_preorder_iff.mpr ((mem_preorder_iff.mp hxt).tail hu)⟩

theorem mem_preorder_given (h : t ∈ ts) : t ∈ ts.flatMap preorder :=
  List.mem_flatMap.mpr ⟨t, h, mem_preorder_iff.mpr (.here t)⟩

/-- What merging leads to, at most, when the given types are compared. -/
inductive Composed (ts : List Ty) : Ty → Prop
  | any : Composed ts Ty.any
  | never : Composed ts Ty.never
  | inside {u : Ty} (hu : u ∈ ts.flatMap preorder) : Composed ts u
  | inter {ms : List Ty} (hm : ms ⊆ conjuncts ts) (ha : Arranged ms) : Composed ts (.inter ms)
  | union {ms : List Ty} (hm : ∀ m ∈ ms, Composed ts m) : Composed ts (.union ms)

theorem composed_of_conjunct (h : a ∈ conjuncts ts) : Composed ts a := by
  rcases List.mem_append.mp h with h | h
  · obtain ⟨t, ht, hp⟩ := List.mem_flatMap.mp h
    rcases mem_interParts hp with rfl | ⟨ms, rfl, hm⟩
    · exact .inside (mem_preorder_given ht)
    · exact .inside (mem_preorder_child (mem_preorder_given ht) hm)
  · obtain ⟨u, hu, ha⟩ := List.mem_flatMap.mp h
    cases u with
    | object fs i n =>
      obtain rfl := List.mem_singleton.mp ha
      exact .inside hu
    | inter ms => exact .inside (mem_preorder_child hu ha)
    | _ => cases ha

theorem Composed.child (h : Composed ts t) (hu : u ∈ t.children) : Composed ts u := by
  cases h with
  | any => cases hu
  | never => cases hu
  | inside hi => exact .inside (mem_preorder_child hi hu)
  | inter hm _ => exact composed_of_conjunct (hm hu)
  | union hm => exact hm u hu

theorem Composed.unionPart (h : Composed ts t) (hu : u ∈ t.unionParts) : Composed ts u := by
  rcases mem_unionParts hu with rfl | ⟨ms, rfl, hm⟩
  · exact h
  · exact h.child hm

/-- The parts of an object or an intersection can be members of another intersection. -/
theorem Composed.conjunct (h : Composed ts t) (ho : t.isObjectLike) (hp : p ∈ t.interParts) :
    p ∈ conjuncts ts := by
  have hinside : t ∈ ts.flatMap preorder → p ∈ t.conjunctsOf → p ∈ conjuncts ts := fun ht hp =>
    List.mem_append_right _ (List.mem_flatMap.mpr ⟨t, ht, hp⟩)
  cases t with
  | object fs i n =>
    cases h with
    | inside ht => exact hinside ht hp
  | inter ms =>
    cases h with
    | inside ht => exact hinside ht hp
    | inter hm _ => exact hm hp
  | _ => cases ho

theorem composed_join (h : ∀ x ∈ xs, Composed ts x) : Composed ts (Ty.join xs) := by
  have hparts : ∀ u ∈ xs.flatMap unionParts, Composed ts u := by
    intro u hu
    obtain ⟨x, hx, hux⟩ := List.mem_flatMap.mp hu
    exact (h x hx).unionPart hux
  rcases join_cases xs with hm | he | ⟨ms, he, _, _, hs⟩
  · exact hparts _ hm
  · exact he ▸ .never
  · exact he ▸ .union fun m hm => hparts m (hs.subset hm)

theorem composed_meet (h : xs.flatMap interParts ⊆ conjuncts ts) : Composed ts (Ty.meet xs) := by
  have hleft : remaining xs ⊆ conjuncts ts := fun m hm =>
    h ((distinct_sublist _).subset ((remaining_sublist xs).subset hm))
  rcases meet_eq xs with he | ⟨_, he | ⟨m, hone, he⟩ | he⟩
  · exact he ▸ .never
  · exact he ▸ .any
  · exact he ▸ composed_of_conjunct (hleft (by simp [hone]))
  · refine he ▸ .inter (fun m hm => ?_) (Text.pairwise_sortOn spelling _)
    exact hleft ((Text.sortOn_perm spelling _).mem_iff.mp hm)

/-- Well-shaped types that merging leads to. -/
def Compared (ts : List Ty) (t : Ty) : Prop := Within .unnamed t ∧ Composed ts t

theorem mergeClosed_compared (ts : List Ty) : MergeClosed (Compared ts) where
  within h := h.1
  any := ⟨within_prim _, .any⟩
  never := ⟨within_prim _, .never⟩
  child h hu := ⟨h.1.child hu, h.2.child hu⟩
  join h := ⟨within_join fun t ht => (h t ht).1, composed_join fun t ht => (h t ht).2⟩
  meet {a b} ha hb hao hbo := by
    refine ⟨within_meet trivial (by simpa using ⟨ha.1, hb.1⟩), composed_meet fun p hp => ?_⟩
    obtain ⟨u, hu, hup⟩ := List.mem_flatMap.mp hp
    rcases List.mem_pair.mp hu with rfl | rfl
    · exact ha.2.conjunct hao hup
    · exact hb.2.conjunct hbo hup

/-- Whatever comes up is what merging leads to, or an object made of that. -/
theorem ComesUp.composed (hts : ∀ t ∈ ts, Within .unnamed t) (h : ComesUp variance ts t) :
    Composed ts t ∨ t.IsObject ∧ ∀ u ∈ t.children, Composed ts u := by
  have hinter : ∀ {ms : List Ty}, (Composed ts (.inter ms) ∨
      (Ty.inter ms).IsObject ∧ ∀ u ∈ (Ty.inter ms).children, Composed ts u) →
      Composed ts (.inter ms) := by
    rintro ms (h | ⟨⟨_, _, _, ho⟩, _⟩)
    · exact h
    · cases ho
  induction h with
  | given ht => exact .inl (.inside (mem_preorder_given ht))
  | whole => exact .inl (composed_meet (List.subset_append_left _ _))
  | any => exact .inl .any
  | part h hu ih =>
    rcases ih with hc | ⟨_, hc⟩
    · exact .inl (hc.child hu)
    · exact .inl (hc _ hu)
  | merged h hn ho hf ih =>
    have hpart : Compared ts _ := ⟨(closed_comesUp hts).within h, hinter ih⟩
    exact .inl (((mergeClosed_compared ts).prefix_merged hpart hn ho).type _ hf).1.2
  | @shared ms fs f h ho hf ih =>
    rcases ih with hc | ⟨⟨_, _, _, ho⟩, _⟩
    · have hpart : Compared ts _ := ⟨(closed_comesUp hts).within h, hc⟩
      exact .inl (((mergeClosed_compared ts).offersBy hpart ho).type _ hf).1.2
    · cases ho
  | combined h hc ih =>
    have hpart : Compared ts _ := ⟨(closed_comesUp hts).within h, hinter ih⟩
    obtain ⟨fs, i, rfl, hcombined⟩ := (mergeClosed_compared ts).combined hpart hc
    exact .inr ⟨⟨fs, i, none, rfl⟩, fun u hu => (hcombined.child hu).2⟩

namespace Canonical
variable (hc : Canonical ts)
include hc

theorem members (h : Composed ts (.inter ms)) : ms ⊆ conjuncts ts ∧ Arranged ms := by
  refine ⟨fun m hm => h.conjunct rfl hm, ?_⟩
  cases h with
  | inside hi => exact hc.arranged _ hi
  | inter _ ha => exact ha

/-- Members that differ are spelled differently, and stand in the order of their spelling. So equal
intersections list equal members. -/
theorem ordered (hts : ∀ t ∈ ts, Within .unnamed t) : Ordered (ComesUp variance ts) := by
  intro ms ns hms hns h
  have hmembers : ∀ {us : List Ty}, ComesUp variance ts (.inter us) →
      us ⊆ conjuncts ts ∧ Arranged us := by
    intro us hus
    rcases hus.composed hts with h | ⟨⟨_, _, _, ho⟩, _⟩
    · exact hc.members h
    · cases ho
  obtain ⟨hcm, ham⟩ := hmembers hms
  obtain ⟨hcn, han⟩ := hmembers hns
  obtain ⟨_, he, hlen, hin⟩ := same_inter_iff.mp h
  cases he
  have hnodup : ∀ {us : List Ty}, us ⊆ conjuncts ts →
      us.Pairwise (fun a b => a.same b = false) → (us.map spelling).Nodup := by
    intro us hus hd
    refine List.pairwise_map.mpr (hd.imp_of_mem fun {a b} ha hb hab he => ?_)
    rw [(hc.spelled a (hus ha) b (hus hb)).mpr he] at hab
    cases hab
  have hsub : ms.map spelling ⊆ ns.map spelling := by
    intro k hk
    obtain ⟨m, hm, rfl⟩ := List.mem_map.mp hk
    obtain ⟨n, hn, hmn⟩ := hin m hm
    exact List.mem_map.mpr ⟨n, hn, ((hc.spelled m (hcm hm) n (hcn hn)).mp hmn).symm⟩
  have hdiffer := ((closed_comesUp hts).within hms).here.shaped.2
  have hperm : (ms.map spelling).Perm (ns.map spelling) :=
    ((hnodup hcm hdiffer).subperm hsub).perm_of_length_le (by simp [hlen])
  have hspelled : ms.map spelling = ns.map spelling :=
    hperm.eq_of_pairwise (fun _ _ _ _ => String.le_antisymm) (List.pairwise_map.mpr ham)
      (List.pairwise_map.mpr han)
  have hpairs : List.Forall₂ (fun m n => m.spelling = n.spelling) ms ns := by
    rw [← List.forall₂_eq_eq_eq] at hspelled
    rwa [List.forall₂_map_left_iff, List.forall₂_map_right_iff] at hspelled
  refine List.forall₂_iff_zip.mpr ⟨hpairs.length_eq, fun {m n} hz => ?_⟩
  obtain ⟨hm, hn⟩ := List.of_mem_zip hz
  exact (hc.spelled m (hcm hm) n (hcn hn)).mpr ((List.forall₂_iff_zip.mp hpairs).2 hz)

/-- No question that comes up when the intersection is compared with one of the given types is taken
for another one. -/
theorem equalAnswers (hts : ∀ t ∈ ts, Within .unnamed t) (ht : t ∈ ts) :
    EqualAnswers (Asked variance (meet ts) t) (Fits variance) := by
  have hP : ComparisonClosed (Fits variance) (ComesUp variance ts) := closed_comesUp hts
  intro a a' b b' h h' haa hbb hab
  obtain ⟨ha, hb⟩ := h.closed hP .whole (.given ht)
  obtain ⟨ha', hb'⟩ := h'.closed hP .whole (.given ht)
  exact respects_fits hP (hc.ordered hts) ha ha' hb hb' haa hbb hab

end Canonical
end ShapeCheck.Ty
