import ShapeCheck.Proofs.Env.Plain
import ShapeCheck.Proofs.Fit.Closed

/-! Types whose meaning no name has a part in are taken as they are. That is how the fields of an
object are checked when it is built: it is refused exactly if a field that can be checked there
does not fit the index. -/

namespace ShapeCheck

namespace Ty
variable {t u : Ty}

/-- Neither an intersection nor a reference. -/
def NotInterOrRef (t : Ty) : Prop := t.NotInter ∧ ∀ n, t ≠ .ref n

instance (t : Ty) : Decidable t.NotInterOrRef :=
  match t with
  | .inter ms => isFalse fun h => h.1 ms rfl
  | .ref n => isFalse fun h => h.2 n rfl
  | .prim _ | .literal _ | .array _ | .tuple _ | .object .. | .union _ | .func .. | .ctor _ =>
    isTrue ⟨by simp [NotInter], by simp⟩

/-- A type that can be built and whose meaning no name has a part in. -/
structure InterRefFree (t : Ty) : Prop where
  proper : t.Proper
  notInterOrRef : Everywhere NotInterOrRef t

theorem InterRefFree.child (h : t.InterRefFree) (hu : u ∈ t.children) : u.InterRefFree :=
  ⟨h.proper.child hu, h.notInterOrRef.child hu⟩

theorem InterRefFree.prim (k : Prim) : (Ty.prim k).InterRefFree :=
  ⟨.leaf trivial rfl, .leaf ⟨by simp [NotInter], by simp⟩ rfl⟩

end Ty

/-- Types taken as they are. -/
def Reading.asIs (variance : Variance) : Reading := ⟨id, variance⟩

/-- Types taken as they are, with parameters compared the other way round. -/
abbrev Reading.verbatim : Reading := .asIs .contravariant

namespace Reading

theorem faithful_asIs (variance : Variance) : (asIs variance).Faithful Ty.InterRefFree where
  any := .prim _
  child := Ty.InterRefFree.child
  look := id
  proper h := h.proper
  look_same := id
  look_look _ := rfl

theorem faithful_verbatim : verbatim.Faithful Ty.InterRefFree := faithful_asIs _

/-- Surroundings that look up nothing but references read types without intersections and
references as they are. -/
theorem governs_asIs {σ : Type} {ctx : Surroundings σ} {variance : Variance}
    (hv : ctx.variance = variance) (hu : ∀ t : Ty, (∀ n, t ≠ .ref n) → ctx.unwrap t = pure t) :
    (asIs variance).Governs ctx (fun _ => True) Ty.InterRefFree where
  variance := hv.symm
  unwrap {w t} _ ht := ⟨w, trivial, by rw [hu t ht.notInterOrRef.here.2]; rfl⟩

theorem readsWithoutInter_asIs {σ : Type} {ctx : Surroundings σ} {variance : Variance}
    (hv : ctx.variance = variance) (hu : ∀ t : Ty, (∀ n, t ≠ .ref n) → ctx.unwrap t = pure t) :
    ReadsWithoutInter ctx (asIs variance) (fun _ => True) Ty.InterRefFree where
  governs := governs_asIs hv hu
  faithful := faithful_asIs _
  noInter h := h.notInterOrRef.here.1
  closed s t := by
    obtain ⟨U, hf, hb, hr⟩ := Ty.exists_base [s, t]
    exact ⟨U, ⟨⟨hb.any, hb.child, id⟩, hf⟩, hr s (by simp), hr t (by simp)⟩

theorem readsWithoutInter_verbatim {σ : Type} {ctx : Surroundings σ}
    (hv : ctx.variance = .contravariant)
    (hu : ∀ t : Ty, (∀ n, t ≠ .ref n) → ctx.unwrap t = pure t) :
    ReadsWithoutInter ctx verbatim (fun _ => True) Ty.InterRefFree :=
  readsWithoutInter_asIs hv hu

end Reading

/-- A type without intersections, references and callables. -/
structure Ty.Inert (t : Ty) : Prop where
  interRefFree : t.InterRefFree
  solid : t.Solid

theorem Ty.Inert.child {t u : Ty} (h : t.Inert) (hu : u ∈ t.children) : u.Inert :=
  ⟨h.interRefFree.child hu, h.solid.child hu⟩

theorem Ty.inert_of_defers {φ : Features} {t : Ty} (h : Ty.Within φ t) (hi : ¬φ.inter)
    (hd : t.defers = false) : t.Inert := by
  have hsolid := solid_of_orderly h.orderly hd
  refine ⟨⟨h.proper, ?_⟩, hsolid⟩
  clear hd
  induction h with
  | @mk t here _ ih =>
    refine .mk ⟨fun ms he => hi (here.inter he), ?_⟩ fun u hu => ih u hu (hsolid.child hu)
    rintro n rfl
    cases hsolid.here.1

namespace Reading
variable {rd rd' : Reading} {R : Ty → Ty → Prop} {s t : Ty}

/-- Only `never` fits `never`. -/
theorem FitsBy.eq_never (hs : s.Proper) (h : rd.FitsBy R s t) (ht : t = Ty.never) :
    s = Ty.never := by
  cases h with
  | equal he =>
    subst ht
    exact Ty.same_prim_iff.mp (Ty.same_symm hs he)
  | fromNever => rfl
  | fromAny hn => exact (hn ht).elim
  | fromUnion hn _ => exact (hn ht).elim
  | literalToPrim l => cases l <;> cases ht
  | _ => cases ht

/-- How parameters compare makes no difference to what is not callable. -/
theorem FitsBy.reread (hs : s.isDeferring = false) (h : rd.FitsBy R s t) : rd'.FitsBy R s t := by
  cases h with
  | equal he => exact .equal he
  | toAny => exact .toAny s
  | fromNever => exact .fromNever t
  | fromAny hn => exact .fromAny hn
  | undefinedToVoid => exact .undefinedToVoid
  | literalToPrim l => exact .literalToPrim l
  | fromUnion hn hm => exact .fromUnion hn hm
  | toUnion hn hm hrel => exact .toUnion hn hm hrel
  | arrays hab => exact .arrays hab
  | tupleToArray hab => exact .tupleToArray hab
  | tuples hab => exact .tuples hab
  | objects hf hi => exact .objects hf hi
  | functions => cases hs
  | constructors => cases hs

/-- Readings that take what is no reference as it is agree about inert types. -/
theorem Assignable.reread (hl : ∀ t : Ty, (∀ n, t ≠ .ref n) → rd.look t = t)
    (hl' : ∀ t : Ty, (∀ n, t ≠ .ref n) → rd'.look t = t) (hs : s.Inert) (ht : t.Inert)
    (h : rd.Assignable s t) : rd'.Assignable s t := by
  have hlook : ∀ {u : Ty}, u.Inert → rd.look u = u ∧ rd'.look u = u := fun hu =>
    ⟨hl _ hu.interRefFree.notInterOrRef.here.2, hl' _ hu.interRefFree.notInterOrRef.here.2⟩
  have hany : Ty.any.Inert := ⟨faithful_verbatim.any, .leaf ⟨rfl, trivial⟩ rfl⟩
  have hpreserves : rd.Preserves Ty.Inert :=
    ⟨hany, Ty.Inert.child, fun hu => (hlook hu).1.symm ▸ hu⟩
  refine ⟨fun a b => a.Inert ∧ b.Inert ∧ rd.Assignable a b, fun a b hab => ?_, hs, ht, h⟩
  obtain ⟨ha, hb, hab⟩ := hab
  have hfits := assignable_iff.mp hab
  rw [(hlook ha).1, (hlook hb).1] at hfits
  rw [(hlook ha).2, (hlook hb).2]
  exact (hfits.imp hpreserves ha hb fun c d hc hd hcd => ⟨hc, hd, hcd⟩).reread ha.solid.here.1

end Reading

section
variable {s t : Ty} {n : Nat} {st : CheckState Unit} {fs : List (Field Ty)}

/-- A check without references is right. -/
theorem closedAsk_rightly (n : Nat) {st : CheckState Unit} {s t : Ty}
    (hi : (soundFrame .verbatim (fun _ => True) Ty.InterRefFree).Inv st) (hs : s.InterRefFree)
    (ht : t.InterRefFree) :
    Rightly .verbatim (fun _ => True) Ty.InterRefFree (closedAsk n s t) st s t := by
  induction n generalizing st s t with
  | zero => exact Frame.gives_throw trivial
  | succ n ih =>
    have hg : Reading.verbatim.Governs (closedContext n) (fun _ => True) Ty.InterRefFree :=
      Reading.governs_asIs rfl fun _ _ => rfl
    exact answer_rightly hg Reading.faithful_verbatim (fun h => h.notInterOrRef.here.1) ih n
      hi hs ht

/-- Without intersections no fault arises. -/
theorem ends_closedAsk_inert (hs : s.Inert) (ht : t.Inert) (h : s.weight + t.weight < n) :
    Ends (fun _ => False) (closedAsk n s t) := by
  induction n generalizing s t with
  | zero => omega
  | succ n ih =>
    refine ends_closedAsk_succ (ends_structural Ty.Inert.solid Ty.Inert.child hs ht
      (fun ha hb hw => ih ha hb (by omega)) ?_)
    rintro ms rfl
    exact (hs.interRefFree.notInterOrRef.here.1 ms rfl).elim

theorem closedAsk_decides (hs : s.Inert) (ht : t.Inert) (h : s.weight + t.weight < n)
    (hi : (soundFrame .verbatim (fun _ => True) Ty.InterRefFree).Inv st)
    (hp : st.memo.pending = []) :
    ∃ v st', (closedAsk n s t).run.run st = (.ok v, st') ∧
      (soundFrame .verbatim (fun _ => True) Ty.InterRefFree).Inv st' ∧ st'.memo.pending = [] ∧
      (v = none ↔ Reading.verbatim.Assignable s t) := by
  obtain ⟨bound, r, st', hrun, hr⟩ := ends_closedAsk_inert hs ht h st
  have hrun := hrun bound (Nat.le_refl _)
  cases r with
  | error e => exact hr.elim
  | ok v =>
    exact ⟨v, st', hrun, (closedAsk_rightly n hi hs.interRefFree ht.interRefFree).decides hp hrun⟩

/-- The fields are taken in turn, up to the first that does not fit, which the refusal names. -/
theorem fitIndex_outcome (hf : ∀ f ∈ fs, f.type.Inert) (ht : t.Inert)
    (hn : ∀ f ∈ fs, f.type.weight + t.weight < n)
    (hi : (soundFrame .verbatim (fun _ => True) Ty.InterRefFree).Inv st)
    (hp : st.memo.pending = []) :
    (((fitIndex (closedAsk n) t fs).run.run st).1 = .ok () ∧
        ∀ f ∈ fs, Reading.verbatim.Assignable f.type t) ∨
      ∃ f ∈ fs, ((fitIndex (closedAsk n) t fs).run.run st).1 =
          .error (.defect (.indexMisfit f.name f.type t)) ∧
        ¬Reading.verbatim.Assignable f.type t := by
  induction fs generalizing st with
  | nil => exact .inl ⟨rfl, by simp⟩
  | cons f fs ih =>
    obtain ⟨hf, hfs⟩ := List.forall_mem_cons.mp hf
    obtain ⟨hn, hns⟩ := List.forall_mem_cons.mp hn
    obtain ⟨v, st', hrun, hi', hp', hv⟩ := closedAsk_decides hf ht hn hi hp
    unfold fitIndex
    rw [run_bind, hrun]
    dsimp only
    cases v with
    | none =>
      rcases ih hfs hns hi' hp' with ⟨hok, hall⟩ | ⟨g, hg, herror, hmisfit⟩
      · exact .inl ⟨hok, List.forall_mem_cons.mpr ⟨hv.mp rfl, hall⟩⟩
      · exact .inr ⟨g, List.mem_cons_of_mem f hg, herror, hmisfit⟩
    | some m =>
      refine .inr ⟨f, List.mem_cons_self, rfl, fun ha => ?_⟩
      cases hv.mpr ha

end

/-- An object with an index is refused exactly if a field does not fit that can be checked when it
is built, and the refusal names such a field. -/
theorem Ty.objectOf_index {φ : Features} {fs : List (Field Ty)} {i : Index Ty} {rd : Reading}
    (name : Option String) (hni : ¬φ.inter) (ha : Field.Apart fs)
    (hf : ∀ f ∈ fs, Within φ f.type) (hi : Within φ i.value)
    (hl : ∀ t : Ty, (∀ n, t ≠ .ref n) → rd.look t = t) :
    (Ty.objectOf fs (some i) name = .ok (.object fs (some i) name) ∧
        (i.value.defers = false → ∀ f ∈ fs, f.type.defers = false →
          rd.Assignable f.type i.value)) ∨
      ∃ f ∈ fs, Ty.objectOf fs (some i) name =
          .error (.defect (.indexMisfit f.name f.type i.value)) ∧
        ¬rd.Assignable f.type i.value := by
  unfold Ty.objectOf objectBy
  rw [Field.duplicate?_eq_none.mpr ha]
  dsimp only
  by_cases hd : i.value.defers
  · simp [hd]
  have hd : i.value.defers = false := by simpa using hd
  have hvalue := inert_of_defers hi hni hd
  simp only [hd, Bool.false_eq_true, if_false, checkIndex]
  have hfields : ∀ f ∈ fs.filter fun f => !f.type.defers, f ∈ fs ∧ f.type.Inert := by
    intro f hm
    obtain ⟨hm, hfd⟩ := List.mem_filter.mp hm
    exact ⟨hm, inert_of_defers (hf f hm) hni (by simpa using hfd)⟩
  have hagree : ∀ f ∈ fs.filter fun f => !f.type.defers,
      Reading.verbatim.Assignable f.type i.value ↔ rd.Assignable f.type i.value := fun f hm =>
    ⟨.reread (fun _ _ => rfl) hl (hfields f hm).2 hvalue,
      .reread hl (fun _ _ => rfl) (hfields f hm).2 hvalue⟩
  have hdepth : ∀ f ∈ fs.filter fun f => !f.type.defers, f.type.weight + i.value.weight <
      closedDepth (sizeFields fs + ((some i).map (·.value.size)).getD 0) := by
    intro f hm
    have hsize : f.type.size ≤ sizeFields fs :=
      size_le_sizeFields (List.mem_map.mpr ⟨f, (hfields f hm).1, rfl⟩)
    have := f.type.weight_lt_size
    have := i.value.weight_lt_size
    simp only [closedDepth, Option.map_some, Option.getD_some]
    omega
  have hstart : (soundFrame .verbatim (fun _ => True) Ty.InterRefFree).Inv ⟨Memo.empty, ()⟩ :=
    ⟨trivial, by simp [Memo.Sound, Memo.empty]⟩
  rcases fitIndex_outcome (fun f hm => (hfields f hm).2) hvalue hdepth hstart rfl with
    ⟨hok, hall⟩ | ⟨f, hm, herror, hmisfit⟩
  · refine .inl ⟨by rw [hok], fun _ f hm hfd => ?_⟩
    have hm : f ∈ fs.filter fun f => !f.type.defers := List.mem_filter.mpr ⟨hm, by simp [hfd]⟩
    exact (hagree f hm).mp (hall f hm)
  · exact .inr ⟨f, (hfields f hm).1, by rw [herror], fun h => hmisfit ((hagree f hm).mpr h)⟩

end ShapeCheck
