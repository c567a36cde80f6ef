import ShapeCheck.Proofs.Fit.Interchange

/-! Assignability under assumptions: what it unfolds to, and when an assumption may be dropped. -/

namespace ShapeCheck.Reading
variable {rd : Reading} {Adm : Ty → Prop} {qs ps : List Question} {s t : Ty}

theorem AssignableUnder.unfold (h : rd.AssignableUnder qs s t) :
    Assumed qs (rd.look s) (rd.look t) ∨
      rd.FitsBy (rd.AssignableUnder qs) (rd.look s) (rd.look t) := by
  obtain ⟨R, hst, hR⟩ := h
  rcases hR s t hst with ha | hf
  · exact .inl ha
  · exact .inr (hf.mono fun a b hab => ⟨R, hab, hR⟩)

theorem AssignableUnder.fold (h : rd.FitsBy (rd.AssignableUnder qs) (rd.look s) (rd.look t)) :
    rd.AssignableUnder qs s t := by
  refine ⟨fun a b => rd.AssignableUnder qs a b ∨ a = s ∧ b = t, .inr ⟨rfl, rfl⟩, ?_⟩
  rintro a b (hab | ⟨rfl, rfl⟩)
  · exact hab.unfold.imp_right fun hf => hf.mono fun _ _ => .inl
  · exact .inr (h.mono fun _ _ => .inl)

theorem AssignableUnder.assumed (h : Assumed qs (rd.look s) (rd.look t)) :
    rd.AssignableUnder qs s t :=
  ⟨fun a b => a = s ∧ b = t, ⟨rfl, rfl⟩, by rintro a b ⟨rfl, rfl⟩; exact .inl h⟩

theorem AssignableUnder.weaken (hq : qs ⊆ ps) (h : rd.AssignableUnder qs s t) :
    rd.AssignableUnder ps s t := by
  obtain ⟨R, hst, hR⟩ := h
  refine ⟨R, hst, fun a b hab => (hR a b hab).imp_left ?_⟩
  rintro ⟨q, hm, hq'⟩
  exact ⟨q, hq hm, hq'⟩

theorem assignableUnder_nil : rd.AssignableUnder [] s t ↔ rd.Assignable s t := by
  constructor
  · rintro ⟨R, hst, hR⟩
    refine ⟨R, fun a b hab => ?_, hst⟩
    rcases hR a b hab with ⟨q, hq, _⟩ | hf
    · cases hq
    · exact hf
  · rintro ⟨R, hR, hst⟩
    exact ⟨R, hst, fun a b hab => .inr (hR a b hab)⟩

theorem assignableUnder_nil_eq : rd.AssignableUnder [] = rd.Assignable :=
  funext₂ fun _ _ => propext assignableUnder_nil

theorem assignable_iff : rd.Assignable s t ↔ rd.FitsBy rd.Assignable (rd.look s) (rd.look t) := by
  rw [← assignableUnder_nil_eq]
  constructor
  · intro h
    rcases h.unfold with ⟨q, hq, _⟩ | hf
    · cases hq
    · exact hf
  · exact AssignableUnder.fold

theorem assignable_refl (t : Ty) : rd.Assignable t t :=
  assignable_iff.mpr (.equal (Ty.same_refl _))

/-- A relation closed under equality, from one that need not be. -/
def UpToSame (Adm : Ty → Prop) (R : Ty → Ty → Prop) (s t : Ty) : Prop :=
  Adm s ∧ Adm t ∧ ∃ a b, Adm a ∧ Adm b ∧ a.same s ∧ b.same t ∧ R a b

theorem respects_upToSame (R : Ty → Ty → Prop) : Respects Adm (UpToSame Adm R) := by
  rintro a a' b b' - ha' - hb' h h' ⟨-, -, c, d, hc, hd, hca, hdb, hR⟩
  exact ⟨ha', hb', c, d, hc, hd, Ty.same_trans hca h, Ty.same_trans hdb h', hR⟩

theorem upToSame_of {R : Ty → Ty → Prop} (hs : Adm s) (ht : Adm t) (h : R s t) :
    UpToSame Adm R s t :=
  ⟨hs, ht, s, t, hs, ht, Ty.same_refl s, Ty.same_refl t, h⟩

theorem FitsBy.upToSame (hf : rd.Faithful Adm) {R : Ty → Ty → Prop} {s' t' : Ty} (hs : Adm s)
    (hs' : Adm s') (ht : Adm t) (ht' : Adm t') (h : s.same s') (h' : t.same t')
    (hfit : rd.FitsBy R s t) : rd.FitsBy (UpToSame Adm R) s' t' :=
  (hfit.imp hf.toPreserves hs ht fun _ _ => upToSame_of).same hf (respects_upToSame R) hs hs' ht ht'
    h h'

theorem respects_assignableUnder (hf : rd.Faithful Adm) (qs : List Question) :
    Respects Adm (rd.AssignableUnder qs) := by
  intro a a' b b' ha ha' hb hb' h h' hab
  refine ⟨UpToSame Adm (rd.AssignableUnder qs), ⟨ha', hb', a, b, ha, hb, h, h', hab⟩, ?_⟩
  rintro s t ⟨hs, ht, c, d, hc, hd, hcs, hdt, hcd⟩
  have hl := hf.look_same hcs
  have hl' := hf.look_same hdt
  rcases hcd.unfold with ⟨q, hq, hqc, hqd⟩ | hfit
  · exact .inl ⟨q, hq, Ty.same_trans hqc hl, Ty.same_trans hqd hl'⟩
  · exact .inr (hfit.upToSame hf (hf.look hc) (hf.look hs) (hf.look hd) (hf.look ht) hl hl')

theorem respects_assignable (hf : rd.Faithful Adm) : Respects Adm rd.Assignable :=
  assignableUnder_nil_eq ▸ respects_assignableUnder hf []

/-- A question whose rule was met under the assumption that it holds itself does hold. -/
theorem AssignableUnder.discharge (hf : rd.Faithful Adm) {q : Question} (hs : Adm q.source)
    (ht : Adm q.target) (hls : rd.look q.source = q.source) (hlt : rd.look q.target = q.target)
    (h : rd.FitsBy (rd.AssignableUnder (q :: qs)) q.source q.target) :
    rd.AssignableUnder qs q.source q.target := by
  have hq : rd.AssignableUnder (q :: qs) q.source q.target := .fold (by rwa [hls, hlt])
  refine ⟨UpToSame Adm (rd.AssignableUnder (q :: qs)), upToSame_of hs ht hq, ?_⟩
  rintro s t ⟨hsa, hta, c, d, hc, hd, hcs, hdt, hcd⟩
  have hl := hf.look_same hcs
  have hl' := hf.look_same hdt
  rcases hcd.unfold with ⟨p, hp, hpc, hpd⟩ | hfit
  · have hps := Ty.same_trans hpc hl
    have hpt := Ty.same_trans hpd hl'
    rcases List.mem_cons.mp hp with rfl | hp
    · exact .inr (h.upToSame hf hs (hf.look hsa) ht (hf.look hta) hps hpt)
    · exact .inl ⟨p, hp, hps, hpt⟩
  · exact .inr (hfit.upToSame hf (hf.look hc) (hf.look hsa) (hf.look hd) (hf.look hta) hl hl')

end ShapeCheck.Reading
