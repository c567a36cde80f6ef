import ShapeCheck.Proofs.Fit.Asked

/-! A checker whose questions are answered by a relation collects the properties of a type, and
combines an intersection, as the relation says. -/

namespace ShapeCheck
variable {σ : Type} {ctx : Surroundings σ} {F : Frame (CheckState σ)} {ask : Nat → Ask σ}
  {Q R : Ty → Ty → Prop} {H k : Nat} {st : CheckState σ} {a b s t : Ty} {ms : List Ty}
  {fs merged : List (Field Ty)}

theorem eq_map_of_forall₂ {α β : Type} {f : α → β} {xs : List α} {ys : List β}
    (h : List.Forall₂ (fun x y => y = f x) xs ys) : ys = xs.map f := by
  induction h with
  | nil => rfl
  | cons he _ ih => rw [he, ih, List.map_cons]

/-- Questions of some kind about types below some height are answered by the relation, and nothing
goes wrong except that a depth may be exceeded. -/
structure Frame.AnswersBy (F : Frame (CheckState σ)) (ctx : Surroundings σ) (ask : Nat → Ask σ)
    (Q R : Ty → Ty → Prop) (H : Nat) : Prop where
  unwrap : ∀ {t : Ty}, (∀ n, t ≠ .ref n) → ctx.unwrap t = pure t
  deep : F.Err .depthExceeded
  within : ∀ {a b : Ty}, Q a b → Ty.Within .unnamed a ∧ Ty.Within .unnamed b
  judged : ∀ {st : CheckState σ} {a b : Ty}, F.Inv st → Q a b → a.height < H → b.height < H →
    F.Judges (fun d => ask d a b) st (fun _ => R a b) (¬R a b)

namespace Frame.AnswersBy
variable (h : F.AnswersBy ctx ask Q R H)
include h

theorem resolve (ht : Ty.Within .unnamed t) : ctx.resolve t = pure t :=
  Surroundings.resolve_eq (h.unwrap ht.not_ref)

theorem isObjectLike (ht : Ty.Within .unnamed t) :
    Member.isObjectLike ctx t = pure t.isObjectLike := by
  simp only [Member.isObjectLike, h.resolve ht, pure_bind]
  cases t <;> rfl

theorem gives_narrower (hi : F.Inv st) (ha : a.height < H) (hb : b.height < H) (hforth : Q a b)
    (hback : ¬R a b → Q b a) :
    F.Gives (fun d => Member.narrower ctx (ask d) a b) st fun c _ => c = Ty.narrower R a b := by
  obtain ⟨haw, hbw⟩ := h.within hforth
  refine (h.judged hi hforth ha hb).bind ?_ ?_
  · intro st' hi' _ hab
    exact gives_pure hi' (by simp [Ty.narrower, hab])
  intro _ st₁ hi₁ _ hab
  refine (h.judged hi₁ (hback hab) hb ha).bind ?_ ?_
  · intro st' hi' _ hba
    exact gives_pure hi' (by simp [Ty.narrower, hab, hba])
  intro _ st₂ hi₂ _ hba
  simp only [Option.isNone_some, Bool.false_eq_true, if_false, h.isObjectLike haw,
    h.isObjectLike hbw, pure_bind]
  cases hao : a.isObjectLike with
  | false => exact gives_pure hi₂ (by simp [Ty.narrower, hab, hba, hao])
  | true =>
    cases hbo : b.isObjectLike with
    | false => exact gives_pure hi₂ (by simp [Ty.narrower, hab, hba, hbo])
    | true => exact gives_pure hi₂ (by simp [Ty.narrower, hab, hba, hao, hbo])

theorem gives_mergeFields (hi : F.Inv st) (hfs : Field.Apart fs)
    (hmeet : ∀ f ∈ fs, ∀ g, Field.find? merged f.name = some g →
      (g.type.height < H ∧ f.type.height < H) ∧
        Q g.type f.type ∧ (¬R g.type f.type → Q f.type g.type)) :
    F.Gives (fun d => Member.mergeFields ctx (ask d) merged fs) st fun r _ =>
      r = Member.mergedFields R merged fs := by
  induction fs generalizing st merged with
  | nil => exact gives_pure hi rfl
  | cons f fs ih =>
    obtain ⟨hnew, hfs⟩ := List.nodup_cons.mp hfs
    obtain ⟨hhere, hrest⟩ := List.forall_mem_cons.mp hmeet
    have hother : ∀ e ∈ fs, f.name ≠ e.name := fun e he hn =>
      hnew (List.mem_map.mpr ⟨e, he, hn.symm⟩)
    simp only [Member.mergeFields, Member.mergedFields]
    cases hg : Field.find? merged f.name with
    | none =>
      refine ih hi hfs fun e he g hfind => hrest e he g ?_
      simpa [Field.find?_append, Field.find?_cons, hother e he, Field.find?] using hfind
    | some g =>
      have hname : (g.mergeWith R f).name = f.name := (Field.find?_eq_some hg).2
      obtain ⟨⟨hgt, hft⟩, hforth, hback⟩ := hhere g hg
      refine (h.gives_narrower hi hgt hft hforth hback).bind ?_
      rintro _ st' hi' - rfl
      refine ih hi' hfs fun e he d hfind => hrest e he d ?_
      have hput : Field.find? (Field.put (g.mergeWith R f) merged) e.name = some d := hfind
      rwa [Field.find?_put, hname, if_neg (hother e he)] at hput

/-- Members are merged in turn: those before are merged already. -/
theorem gives_mergeMembers {fieldsOf : Nat → Ty → CheckM σ (Option (List (Field Ty)))}
    {before : List Ty} (hi : F.Inv st) (ht : Ty.Within .unnamed (.inter (before ++ ms)))
    (hH : (Ty.inter (before ++ ms)).height ≤ H)
    (hmerges : ∀ a b, Ty.Merges R (.inter (before ++ ms)) a b → Q a b)
    (hfields : ∀ u ∈ ms, ∀ st', F.Inv st' →
      F.Gives (fun d => fieldsOf d u) st' fun r _ => r = u.offersBy R) :
    F.Gives (fun d => Member.mergeMembers ctx (ask d) (fieldsOf d)
      ((Ty.inter before).offersBy R) ms) st fun r _ =>
      r = (Ty.inter (before ++ ms)).offersBy R := by
  induction ms generalizing st before with
  | nil =>
    simp only [List.append_nil]
    exact gives_pure hi rfl
  | cons u us ih =>
    obtain ⟨hfield, hfields⟩ := List.forall_mem_cons.mp hfields
    simp only [List.append_cons before u us] at ht hH hmerges ⊢
    have hbefore : before ++ [u] <+: before ++ [u] ++ us := List.prefix_append _ _
    have hmem : u ∈ before ++ [u] ++ us := by simp
    simp only [Member.mergeMembers]
    refine (hfield st hi).bind ?_
    rintro _ st₁ hi₁ - rfl
    have hsnoc := Ty.offersBy_snoc R before u
    cases ho : u.offersBy R with
    | none =>
      rw [ho] at hsnoc
      simp only [Member.mergedMembers] at hsnoc
      rw [← hsnoc]
      exact ih hi₁ ht hH hmerges hfields
    | some gs =>
      rw [ho] at hsnoc
      simp only [Member.mergedMembers] at hsnoc
      have hgs := (Ty.closed_unnamed.offersBy (ht.child hmem) ho).mono
        ((Ty.height_le_of_child (t := .inter (before ++ [u] ++ us)) hmem).trans hH)
      refine (h.gives_mergeFields hi₁ hgs.apart fun f hf g hg => ?_).bind ?_
      · cases hacc : (Ty.inter before).offersBy R with
        | none =>
          rw [hacc] at hg
          cases hg
        | some acc =>
          rw [hacc] at hg
          have hgt := (Ty.closed_unnamed.prefix_gathered ht
            ((List.prefix_append before [u]).trans hbefore) hacc).mono hH
          exact ⟨⟨(hgt.type g (Field.mem_of_find? hg)).2, (hgs.type f hf).2⟩,
            hmerges _ _ (.forth hbefore hacc ho hf hg),
            fun hno => hmerges _ _ (.back hbefore hacc ho hf hg hno)⟩
      rintro _ st₂ hi₂ - rfl
      rw [← hsnoc]
      exact ih hi₂ ht hH hmerges hfields

theorem gives_fieldsOf (hi : F.Inv st) (ht : Ty.Within .unnamed t) (hH : t.height ≤ H)
    (hmerges : ∀ a b, Ty.Merges R t a b → Q a b) :
    F.Gives (fun d => Member.fieldsOf ctx (ask d) k t) st fun r _ => r = t.offersBy R := by
  induction k generalizing st t with
  | zero => exact gives_throw h.deep
  | succ k ih =>
    simp only [Member.fieldsOf, h.resolve ht, pure_bind]
    cases t with
    | union ms =>
      have hall : F.Gives (fun d => ms.mapM (Member.fieldsOf ctx (ask d) k)) st fun rs _ =>
          List.Forall₂ (fun m r => r = Ty.offersBy R m) ms rs :=
        gives_mapM ms (fun _ _ _ _ _ => id) hi fun m hm st' hi' _ =>
          ih hi' (ht.child hm) ((Ty.height_le_of_child (t := .union ms) hm).trans hH)
            fun a b hab => hmerges a b (.variant hm hab)
      refine hall.bind fun rs st' hi' _ hrs => gives_pure hi' ?_
      simp only [Ty.offersBy, Ty.offersListBy_eq_map, eq_map_of_forall₂ hrs]
    | inter ms =>
      have hmembers : F.Gives (fun d => Member.mergeMembers ctx (ask d)
          (Member.fieldsOf ctx (ask d) k) ((Ty.inter []).offersBy R) ms) st fun r _ =>
          r = (Ty.inter ([] ++ ms)).offersBy R :=
        h.gives_mergeMembers hi ht hH hmerges fun m hm st' hi' =>
          ih hi' (ht.child hm) ((Ty.height_le_of_child (t := .inter ms) hm).trans hH)
            fun a b hab => hmerges a b (.member hm hab)
      exact hmembers
    | _ => exact gives_pure hi rfl

theorem gives_indexOf (hi : F.Inv st) (ht : Ty.Within .unnamed t) :
    F.Gives (fun _ => Member.indexOf ctx k t) st fun r _ => r = t.soleIndex := by
  induction k generalizing st t with
  | zero => exact gives_throw h.deep
  | succ k ih =>
    simp only [Member.indexOf, h.resolve ht, pure_bind]
    cases t with
    | inter ms =>
      have hall : F.Gives (fun _ => ms.mapM (Member.indexOf ctx k)) st fun rs _ =>
          List.Forall₂ (fun m r => r = Ty.soleIndex m) ms rs :=
        gives_mapM ms (fun _ _ _ _ _ => id) hi fun m hm st' hi' _ =>
          ih hi' (ht.child hm)
      refine hall.bind fun rs st' hi' _ hrs => ?_
      have hmap : rs.filterMap id = Ty.soleIndexes ms := by
        rw [eq_map_of_forall₂ hrs, Ty.soleIndexes_eq_filterMap, List.filterMap_map]
        rfl
      simp only [hmap, Ty.soleIndex]
      rcases Ty.soleIndexes ms with _ | ⟨i, _ | ⟨j, js⟩⟩
      · exact gives_pure hi' rfl
      · exact gives_pure hi' rfl
      · exact gives_pure hi' rfl
    | _ => exact gives_pure hi rfl

theorem gives_fittingIndex {i : Option (Index Ty)} (hi : F.Inv st)
    (hfit : ∀ j, i = some j → j.value.height < H ∧
      ∀ f ∈ fs, f.type.height < H ∧ Q f.type j.value) :
    F.Gives (fun d => Member.fittingIndex (ask d) fs i) st fun r _ =>
      r = Ty.keptIndex R fs i := by
  cases i with
  | none => exact gives_pure hi (by simp [Ty.keptIndex])
  | some j =>
    have hall := judges_firstMisfit (f := fun d (g : Field Ty) => ask d g.type j.value) fs
      (fun _ _ _ _ => id) hi fun f hm st' hi' _ =>
        h.judged hi' ((hfit j rfl).2 f hm).2 ((hfit j rfl).2 f hm).1 (hfit j rfl).1
    refine hall.bind ?_ ?_
    · intro st' hi' _ hfit
      refine gives_pure hi' ?_
      have hkept : ∀ j', some j = some j' → ∀ f ∈ fs, R f.type j'.value := by
        rintro _ ⟨rfl⟩
        exact hfit
      simp only [Ty.keptIndex, if_pos hkept]
    · rintro _ st' hi' - ⟨f, hm, hno⟩
      refine gives_pure hi' ?_
      have hdropped : ¬∀ j', some j = some j' → ∀ f ∈ fs, R f.type j'.value :=
        fun hkept => hno (hkept j rfl f hm)
      simp only [Ty.keptIndex, if_neg hdropped]

/-- A type is combined as the relation says, if the object can be built. -/
theorem gives_combinedObject (hi : F.Inv st) (ht : Ty.Within .unnamed t) (hH : t.height ≤ H)
    (hmerges : ∀ a b, Ty.Merges R t a b → Q a b)
    (hindex : ∀ fs j, t.offersBy R = some fs → t.soleIndex = some j → ∀ f ∈ fs, Q f.type j.value)
    (hbuild : ∀ {fs : List (Field Ty)} {i : Option (Index Ty)},
      t.combinedBy R = some (.object fs i none) →
      ctx.objectOf fs i = .ok (.object fs i none) ∨ ctx.objectOf fs i = .error .depthExceeded) :
    F.Gives (fun d => Member.combinedObject ctx (ask d) k t) st fun r _ =>
      r = t.combinedBy R := by
  refine (h.gives_fieldsOf hi ht hH hmerges).bind ?_
  rintro _ st₁ hi₁ - rfl
  cases ho : t.offersBy R with
  | none => exact gives_pure hi₁ (by simp [Ty.combinedBy, ho])
  | some fs =>
    have hfs := (Ty.closed_unnamed.offersBy ht ho).mono hH
    have hfit : ∀ j, t.soleIndex = some j → j.value.height < H ∧
        ∀ f ∈ fs, f.type.height < H ∧ Q f.type j.value := fun j hj =>
      ⟨((Ty.closed_unnamed (R := R)).soleIndex ht hj).2.trans_le hH,
        fun f hf => ⟨(hfs.type f hf).2, hindex fs j ho hj f hf⟩⟩
    refine (h.gives_indexOf hi₁ ht).bind ?_
    rintro _ st₂ hi₂ - rfl
    refine (h.gives_fittingIndex hi₂ hfit).bind ?_
    rintro _ st₃ hi₃ - rfl
    have hshape : t.combinedBy R = some (.object fs (Ty.keptIndex R fs t.soleIndex) none) := by
      simp [Ty.combinedBy, ho]
    rw [hshape]
    rcases hbuild hshape with hok | herror
    · rw [hok]
      exact gives_pure hi₃ rfl
    · rw [herror]
      exact gives_throw h.deep

end Frame.AnswersBy

end ShapeCheck
