import ShapeCheck.Proofs.Ty.Same

/-! Lists of types of which some absorb others. What absorbs a type is not absorbed itself, so what
is left does not depend on when the absorbed ones are dropped. -/

namespace ShapeCheck.Ty
variable {absorbs : Ty → Ty → Prop} {t u : Ty} {ls ms ps qs xs ys : List Ty}

/-- The same types up to equality, in any order and number. -/
structure SameMembers (xs ys : List Ty) : Prop where
  into : ∀ x ∈ xs, ∃ y ∈ ys, x.same y
  back : ∀ y ∈ ys, ∃ x ∈ xs, y.same x

theorem SameMembers.length_eq (h : SameMembers xs ys)
    (hx : xs.Pairwise fun a b => a.same b = false) (hy : ys.Pairwise fun a b => a.same b = false)
    (hpx : ∀ x ∈ xs, x.Proper) (hpy : ∀ y ∈ ys, y.Proper) : xs.length = ys.length := by
  obtain ⟨f, hf, _⟩ := exists_partners hx (fun a ha b _ => same_symm (hpx a ha)) h.into
  obtain ⟨g, hg, _⟩ := exists_partners hy (fun a ha b _ => same_symm (hpy a ha)) h.back
  have hle := hf.length_le
  have hge := hg.length_le
  simp only [List.length_map] at hle hge
  omega

theorem SameMembers.flatMap {f : Ty → List Ty}
    (hf : ∀ {a b p : Ty}, a.same b → p ∈ f a → ∃ q ∈ f b, p.same q) (h : SameMembers xs ys) :
    SameMembers (xs.flatMap f) (ys.flatMap f) := by
  have hone : ∀ {xs ys : List Ty}, (∀ x ∈ xs, ∃ y ∈ ys, x.same y) →
      ∀ p ∈ xs.flatMap f, ∃ q ∈ ys.flatMap f, p.same q := by
    intro xs ys h p hp
    obtain ⟨x, hx, hpx⟩ := List.mem_flatMap.mp hp
    obtain ⟨y, hy, hxy⟩ := h x hx
    obtain ⟨q, hq, hpq⟩ := hf hxy hpx
    exact ⟨q, List.mem_flatMap.mpr ⟨y, hy, hq⟩, hpq⟩
  exact ⟨hone h.into, hone h.back⟩

/-- A relation by which types make others superfluous. -/
structure Absorption (absorbs : Ty → Ty → Prop) : Prop where
  same : ∀ {a b p q : Ty}, a.same b → p.same q → absorbs a p → absorbs b q
  stays : ∀ {a b p : Ty}, absorbs a p → ¬absorbs b a

/-- Each type of the first list is in the second, or absorbed by one there. -/
def Subsumed (absorbs : Ty → Ty → Prop) (ps qs : List Ty) : Prop :=
  ∀ p ∈ ps, ∃ q ∈ qs, p.same q ∨ absorbs q p

theorem SameMembers.subsumed (h : SameMembers ps qs) : Subsumed absorbs ps qs := by
  intro p hp
  obtain ⟨q, hq, hpq⟩ := h.into p hp
  exact ⟨q, hq, .inl hpq⟩

theorem SameMembers.symm (h : SameMembers ps qs) : SameMembers qs ps := ⟨h.back, h.into⟩

theorem Subsumed.append (h : Subsumed absorbs ps qs) (rs : List Ty) :
    Subsumed absorbs (ps ++ rs) (qs ++ rs) := by
  intro p hp
  rcases List.mem_append.mp hp with hp | hp
  · obtain ⟨q, hq, hpq⟩ := h p hp
    exact ⟨q, List.mem_append_left rs hq, hpq⟩
  · exact ⟨p, List.mem_append_right qs hp, .inl (same_refl p)⟩

/-- A primitive that nothing absorbs stays. -/
theorem Subsumed.mem_prim {k : Prim} (h : Subsumed absorbs ps qs)
    (hk : ∀ q, ¬absorbs q (.prim k)) (hp : .prim k ∈ ps) : .prim k ∈ qs := by
  obtain ⟨q, hq, hs | ha⟩ := h _ hp
  · rwa [same_prim_iff.mp hs] at hq
  · exact (hk q ha).elim

/-- What no type of a list absorbs is not absorbed by one of a list that says no more. -/
theorem Subsumed.free (ha : Absorption absorbs) (h : Subsumed absorbs qs ps)
    (hfree : ∀ p ∈ ps, ¬absorbs p t) : ∀ q ∈ qs, ¬absorbs q t := by
  intro q hq hqt
  obtain ⟨p, hp, hqp | hpq⟩ := h q hq
  · exact hfree p hp (ha.same hqp (same_refl t) hqt)
  · exact ha.stays hqt hpq

/-- Each type that none of the others absorbs, once. -/
structure Leaves (absorbs : Ty → Ty → Prop) (ps ls : List Ty) : Prop where
  apart : ls.Pairwise fun a b => a.same b = false
  given : ∀ l ∈ ls, l ∈ ps
  free : ∀ l ∈ ls, ∀ p ∈ ps, ¬absorbs p l
  every : ∀ p ∈ ps, (∀ q ∈ ps, ¬absorbs q p) → ∃ l ∈ ls, l.same p

namespace Leaves

theorem subsumed (h : Leaves absorbs ps ls) : Subsumed absorbs ls ps :=
  fun l hl => ⟨l, h.given l hl, .inl (same_refl l)⟩

variable (ha : Absorption absorbs) (hps : ∀ p ∈ ps, p.Proper)
include ha hps

theorem subsumes (h : Leaves absorbs ps ls) : Subsumed absorbs ps ls := by
  intro p hp
  by_cases hfree : ∀ q ∈ ps, ¬absorbs q p
  · obtain ⟨l, hl, hlp⟩ := h.every p hp hfree
    exact ⟨l, hl, .inl (same_symm (hps l (h.given l hl)) hlp)⟩
  · -- what absorbs the type is itself left
    push Not at hfree
    obtain ⟨q, hq, hqp⟩ := hfree
    obtain ⟨l, hl, hlq⟩ := h.every q hq fun r _ => ha.stays hqp
    have hql := same_symm (hps l (h.given l hl)) hlq
    exact ⟨l, hl, .inr (ha.same hql (same_refl p) hqp)⟩

/-- Some of the types may be simplified before the others are added. -/
theorem regroup {bs rs : List Ty} (h : Leaves absorbs ps ls)
    (hb : ∀ b, b ∈ bs ↔ b ∈ ls ++ rs) :
    Subsumed absorbs bs (ps ++ rs) ∧ Subsumed absorbs (ps ++ rs) bs := by
  constructor
  · intro b hmem
    exact h.subsumed.append rs b ((hb b).mp hmem)
  · intro p hp
    obtain ⟨q, hq, hpq⟩ := (h.subsumes ha hps).append rs p hp
    exact ⟨q, (hb q).mpr hq, hpq⟩

variable (hqs : ∀ q ∈ qs, q.Proper) (hpq : Subsumed absorbs ps qs) (hqp : Subsumed absorbs qs ps)
include hqs hpq hqp

theorem included (hl : Leaves absorbs ps ls) (hm : Leaves absorbs qs ms) :
    ∀ l ∈ ls, ∃ m ∈ ms, l.same m := by
  intro l hmem
  have hgiven := hl.given l hmem
  have hfree := hqp.free ha (hl.free l hmem)
  obtain ⟨q, hq, hlq | habs⟩ := hpq l hgiven
  · have hql := same_symm (hps l hgiven) hlq
    obtain ⟨m, hm', hmq⟩ := hm.every q hq fun r hr hrq =>
      hfree r hr (ha.same (same_refl r) hql hrq)
    exact ⟨m, hm', same_trans hlq (same_symm (hqs m (hm.given m hm')) hmq)⟩
  · exact (hfree q hq habs).elim

theorem sameMembers (hl : Leaves absorbs ps ls) (hm : Leaves absorbs qs ms) : SameMembers ls ms :=
  ⟨included ha hps hqs hpq hqp hl hm, included ha hqs hps hqp hpq hm hl⟩

end Leaves

/-- How one type is made of several: a single one is taken as it is, and of none there is a type of
its own. -/
inductive Gathers (empty : Ty) (blend : List Ty → Ty) (ls : List Ty) : Ty → Prop
  | none (h : ls = []) : Gathers empty blend ls empty
  | one {t : Ty} (h : ls = [t]) : Gathers empty blend ls t
  | many {ms : List Ty} (h : 2 ≤ ls.length) (hp : ms.Perm ls) : Gathers empty blend ls (blend ms)

namespace Gathers
variable {empty : Ty} {blend : List Ty → Ty}

/-- Taken apart again, a type gives what it was made of. -/
theorem mem_parts (parts : Ty → List Ty) (hb : ∀ ms, parts (blend ms) = ms)
    (hl : ∀ l ∈ ls, parts l = [l]) (ht : Gathers empty blend ls t) :
    ls = [] ∧ t = empty ∨ ∀ p, p ∈ parts t ↔ p ∈ ls := by
  cases ht with
  | none hnil => exact .inl ⟨hnil, rfl⟩
  | one hone =>
    subst hone
    simp [hl t (by simp)]
  | many _ hp => exact .inr fun p => by rw [hb, hp.mem_iff]

variable (hb : ∀ as bs : List Ty, as.length = bs.length → (∀ a ∈ as, ∃ b ∈ bs, a.same b) →
  (blend as).same (blend bs))
include hb

theorem same_of_sameMembers (hl : ls.length = ms.length) (h : SameMembers ls ms)
    (ht : Gathers empty blend ls t) (hu : Gathers empty blend ms u) : t.same u := by
  cases ht with
  | none hnil =>
    subst hnil
    cases hu with
    | none => exact same_refl _
    | one hone => simp [hone] at hl
    | many hlen => rw [← hl] at hlen; simp at hlen
  | one hone =>
    subst hone
    cases hu with
    | none hnil => simp [hnil] at hl
    | one hone => simpa [hone] using h.into
    | many hlen => rw [← hl] at hlen; simp at hlen
  | many hlen hp =>
    cases hu with
    | none hnil => rw [hl, hnil] at hlen; simp at hlen
    | one hone => rw [hl, hone] at hlen; simp at hlen
    | many _ hp' =>
      refine hb _ _ (by rw [hp.length_eq, hp'.length_eq, hl]) fun a ha => ?_
      obtain ⟨b, hb, hab⟩ := h.into a (hp.mem_iff.mp ha)
      exact ⟨b, hp'.mem_iff.mpr hb, hab⟩

/-- Types made of what is left of two lists are equal if neither list says more than the other. -/
theorem same (ha : Absorption absorbs) (hps : ∀ p ∈ ps, p.Proper) (hqs : ∀ q ∈ qs, q.Proper)
    (hpq : Subsumed absorbs ps qs) (hqp : Subsumed absorbs qs ps) (hl : Leaves absorbs ps ls)
    (hm : Leaves absorbs qs ms) (ht : Gathers empty blend ls t) (hu : Gathers empty blend ms u) :
    t.same u := by
  have hsame := Leaves.sameMembers ha hps hqs hpq hqp hl hm
  refine same_of_sameMembers hb ?_ hsame ht hu
  exact hsame.length_eq hl.apart hm.apart (fun l h => hps l (hl.given l h))
    fun m h => hqs m (hm.given m h)

end Gathers
end ShapeCheck.Ty
