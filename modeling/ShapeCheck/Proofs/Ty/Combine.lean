import Mathlib.Data.List.Perm.Subperm
import ShapeCheck.Proofs.Ty.Same
import ShapeCheck.Ty.Combine

/-! Unions and intersections of any types: what they are made of. -/

namespace ShapeCheck

namespace Text
variable {α : Type}

theorem insertByKey_perm (x : String × α) (xs : List (String × α)) :
    (insertByKey x xs).Perm (x :: xs) := by
  fun_induction insertByKey x xs with
  | case1 => rfl
  | case2 y ys _ ih => exact (ih.cons y).trans (.swap x y ys)
  | case3 => rfl

theorem sortByKey_perm (xs : List (String × α)) : (sortByKey xs).Perm xs := by
  induction xs with
  | nil => rfl
  | cons x xs ih => exact (insertByKey_perm x _).trans (ih.cons x)

theorem sortOn_perm (key : α → String) (xs : List α) : (sortOn key xs).Perm xs := by
  have h := (sortByKey_perm (xs.map fun x => (key x, x))).map Prod.snd
  simpa [sortOn, Function.comp_def] using h

theorem pairwise_insertByKey (x : String × α) {xs : List (String × α)}
    (h : xs.Pairwise fun a b => a.1 ≤ b.1) : (insertByKey x xs).Pairwise fun a b => a.1 ≤ b.1 := by
  fun_induction insertByKey x xs with
  | case1 => exact List.pairwise_singleton _ _
  | case2 y ys hlt ih =>
    obtain ⟨hy, hys⟩ := List.pairwise_cons.mp h
    refine List.pairwise_cons.mpr ⟨fun z hz => ?_, ih hys⟩
    rcases List.mem_cons.mp ((insertByKey_perm x ys).mem_iff.mp hz) with rfl | hz
    · exact String.not_lt.mp (String.lt_asymm hlt)
    · exact hy z hz
  | case3 y ys hle =>
    have hxy : x.1 ≤ y.1 := String.not_lt.mp hle
    refine List.pairwise_cons.mpr ⟨fun z hz => ?_, h⟩
    rcases List.mem_cons.mp hz with rfl | hz
    · exact hxy
    · exact String.le_trans hxy ((List.pairwise_cons.mp h).1 z hz)

/-- What is sorted by a text stands in the order of that text. -/
theorem pairwise_sortOn (key : α → String) (xs : List α) :
    (sortOn key xs).Pairwise fun a b => key a ≤ key b := by
  have hsorted : ∀ ps : List (String × α), (sortByKey ps).Pairwise fun a b => a.1 ≤ b.1 := by
    intro ps
    induction ps with
    | nil => exact .nil
    | cons p ps ih => exact pairwise_insertByKey p ih
  have hkey : ∀ p ∈ sortByKey (xs.map fun x => (key x, x)), p.1 = key p.2 := by
    intro p hp
    obtain ⟨x, _, rfl⟩ := List.mem_map.mp ((sortByKey_perm _).mem_iff.mp hp)
    rfl
  rw [sortOn, List.pairwise_map]
  refine (hsorted _).imp_of_mem fun ha hb hab => ?_
  rwa [← hkey _ ha, ← hkey _ hb]

end Text

namespace Ty
variable {t u : Ty} {ts : List Ty} {p : Ty → Prop}

theorem distinct_sublist (ts : List Ty) : (distinct ts).Sublist ts := by
  induction ts with
  | nil => exact .slnil
  | cons t ts ih => exact (List.filter_sublist.trans ih).cons_cons t

theorem nodup_distinct (ts : List Ty) : (distinct ts).Nodup := by
  induction ts with
  | nil => exact .nil
  | cons t ts ih =>
    refine List.nodup_cons.mpr ⟨fun hm => ?_, ih.filter _⟩
    have hd := (List.mem_filter.mp hm).2
    simp [same_refl] at hd

/-- Some of the distinct types, in order: no type twice, and none that was not given. -/
theorem arrange_some {ms : List Ty} (h : ms.Sublist (distinct ts)) :
    (arrange ms).Nodup ∧ (arrange ms).Subperm ts :=
  have hp : (arrange ms).Perm ms := Text.sortOn_perm spelling ms
  ⟨hp.nodup_iff.mpr (h.nodup (nodup_distinct ts)),
    hp.subperm.trans (h.trans (distinct_sublist ts)).subperm⟩

theorem pairwise_distinct (ts : List Ty) :
    (distinct ts).Pairwise fun a b => a.same b = false := by
  induction ts with
  | nil => exact .nil
  | cons t ts ih =>
    refine List.pairwise_cons.mpr ⟨fun u hu => ?_, ih.filter _⟩
    simpa using (List.mem_filter.mp hu).2

/-- Types that differ in the order in which they were given differ in any order. -/
theorem pairwise_arrange {ms : List Ty} (h : ms.Sublist (distinct ts)) (hp : ∀ t ∈ ts, t.Proper) :
    (arrange ms).Pairwise fun a b => a.same b = false := by
  have hboth : ms.Pairwise fun a b => a.same b = false ∧ b.same a = false := by
    refine ((pairwise_distinct ts).sublist h).imp_of_mem fun {a b} _ hb hab => ⟨hab, ?_⟩
    by_contra hba
    have hback := same_symm (hp b ((distinct_sublist ts).subset (h.subset hb))) (by simpa using hba)
    rw [hab] at hback
    cases hback
  have hperm : (arrange ms).Perm ms := Text.sortOn_perm spelling ms
  exact ((hperm.pairwise_iff fun h => ⟨h.2, h.1⟩).mpr hboth).imp And.left

theorem mem_unionParts (h : u ∈ unionParts t) : u = t ∨ ∃ ms, t = .union ms ∧ u ∈ ms := by
  cases t with
  | union ms => exact .inr ⟨ms, rfl, h⟩
  | _ => exact .inl (List.mem_singleton.mp h)

theorem mem_interParts (h : u ∈ interParts t) : u = t ∨ ∃ ms, t = .inter ms ∧ u ∈ ms := by
  cases t with
  | inter ms => exact .inr ⟨ms, rfl, h⟩
  | _ => exact .inl (List.mem_singleton.mp h)

theorem eq_any_of_isAny (h : t.isAny) : t = any := by
  cases t with
  | prim k => cases k <;> first | rfl | cases h
  | _ => cases h

theorem two_le_length {α : Type} {xs : List α} (h₀ : xs = [] → False)
    (h₁ : ∀ x, xs = [x] → False) : 2 ≤ xs.length := by
  rcases xs with _ | ⟨x, _ | ⟨y, ys⟩⟩
  · exact (h₀ rfl).elim
  · exact (h₁ x rfl).elim
  · simp

/-- A union is one of its parts, `never`, or made of several parts. -/
theorem join_cases (ts : List Ty) :
    join ts ∈ ts.flatMap unionParts ∨ join ts = never ∨
      ∃ ms, join ts = .union ms ∧ 2 ≤ ms.length ∧ ms.Nodup ∧
        ms.Subperm (ts.flatMap unionParts) := by
  unfold join
  generalize ts.flatMap unionParts = parts
  dsimp only
  split
  · rename_i h
    obtain ⟨t, ht, ha⟩ := List.any_eq_true.mp h
    exact .inl (eq_any_of_isAny ha ▸ ht)
  · have hsub : ∀ ms, ms.Sublist (distinct (parts.filter fun t => !t.isNever)) →
        (arrange ms).Nodup ∧ (arrange ms).Subperm parts := fun ms h =>
      (arrange_some h).imp_right fun hp => hp.trans List.filter_sublist.subperm
    split
    · exact .inr (.inl rfl)
    · rename_i t h
      have hm : t ∈ distinct (parts.filter fun t => !t.isNever) :=
        List.mem_of_mem_filter (h ▸ List.mem_singleton_self t)
      exact .inl (List.mem_of_mem_filter ((distinct_sublist _).subset hm))
    · rename_i h₀ h₁
      refine .inr (.inr ⟨_, rfl, ?_, hsub _ List.filter_sublist⟩)
      rw [arrange, (Text.sortOn_perm spelling _).length_eq]
      exact two_le_length h₀ h₁

/-- An intersection is one of its parts, `never`, `any`, or made of several parts. -/
theorem meet_cases (ts : List Ty) :
    meet ts ∈ ts.flatMap interParts ∨ meet ts = never ∨ meet ts = any ∨
      ∃ ms, meet ts = .inter ms ∧ ms.Nodup ∧ ms.Subperm (ts.flatMap interParts) := by
  unfold meet
  generalize ts.flatMap interParts = parts
  dsimp only
  split
  · exact .inr (.inl rfl)
  split
  · exact .inr (.inr (.inl rfl))
  split
  · exact .inr (.inl rfl)
  split
  · exact .inr (.inr (.inl rfl))
  · rename_i t h
    have hk : [t].Sublist (distinct parts) := by
      rw [← h]
      split
      · exact .refl _
      · exact List.filter_sublist
    exact .inl ((distinct_sublist parts).subset (hk.subset (List.mem_singleton_self t)))
  · refine .inr (.inr (.inr ⟨_, rfl, arrange_some ?_⟩))
    split
    · exact .refl _
    · exact List.filter_sublist

/-- What holds of a union or an intersection exactly if it holds of all members holds of what such
types are joined or met to. -/
theorem join_meet_hold {Q : Ty → Prop} (hprim : ∀ k, Q (.prim k))
    (hblend : ∀ {t ms}, t = .union ms ∨ t = .inter ms → (Q t ↔ ∀ m ∈ ms, Q m))
    (h : ∀ t ∈ ts, Q t) : Q (join ts) ∧ Q (meet ts) := by
  have hparts : ∀ u, u ∈ ts.flatMap unionParts ∨ u ∈ ts.flatMap interParts → Q u := by
    simp only [List.mem_flatMap]
    rintro u (⟨t, ht, hu⟩ | ⟨t, ht, hu⟩)
    · rcases mem_unionParts hu with rfl | ⟨ms, rfl, hm⟩
      · exact h u ht
      · exact (hblend (.inl rfl)).mp (h _ ht) u hm
    · rcases mem_interParts hu with rfl | ⟨ms, rfl, hm⟩
      · exact h u ht
      · exact (hblend (.inr rfl)).mp (h _ ht) u hm
  constructor
  · rcases join_cases ts with hm | he | ⟨ms, he, _, _, hs⟩
    · exact hparts _ (.inl hm)
    · exact he ▸ hprim _
    · exact (hblend (.inl he)).mpr fun u hu => hparts u (.inl (hs.subset hu))
  · rcases meet_cases ts with hm | he | he | ⟨ms, he, _, hs⟩
    · exact hparts _ (.inr hm)
    · exact he ▸ hprim _
    · exact he ▸ hprim _
    · exact (hblend (.inr he)).mpr fun u hu => hparts u (.inr (hs.subset hu))

theorem wellShaped_join (hp : ∀ t ∈ ts.flatMap unionParts, t.Proper) : (join ts).WellShaped := by
  unfold join
  generalize ts.flatMap unionParts = parts at hp
  dsimp only
  split
  · trivial
  split
  · trivial
  · rename_i t h
    have hm : t ∈ distinct (parts.filter fun t => !t.isNever) :=
      List.mem_of_mem_filter (h ▸ List.mem_singleton_self t)
    exact (hp t (List.mem_of_mem_filter ((distinct_sublist _).subset hm))).here
  · rename_i h₀ h₁
    refine ⟨?_, pairwise_arrange List.filter_sublist fun t ht => hp t (List.mem_of_mem_filter ht)⟩
    rw [arrange, (Text.sortOn_perm spelling _).length_eq]
    exact two_le_length h₀ h₁

theorem wellShaped_meet (hp : ∀ t ∈ ts.flatMap interParts, t.Proper) : (meet ts).WellShaped := by
  unfold meet
  generalize ts.flatMap interParts = parts at hp
  dsimp only
  split
  · trivial
  split
  · trivial
  split
  · trivial
  split
  · trivial
  · rename_i t h
    have hm : t ∈ distinct parts := by
      split at h
      · exact h ▸ List.mem_singleton_self t
      · exact List.mem_of_mem_filter (h ▸ List.mem_singleton_self t)
    exact (hp t ((distinct_sublist parts).subset hm)).here
  · rename_i h₀ h₁
    refine ⟨?_, pairwise_arrange ?_ hp⟩
    · rw [arrange, (Text.sortOn_perm spelling _).length_eq]
      exact two_le_length h₀ h₁
    · split
      · exact .refl _
      · exact List.filter_sublist

theorem Everywhere.unionPart (h : Everywhere p t) (hu : u ∈ unionParts t) : Everywhere p u := by
  rcases mem_unionParts hu with rfl | ⟨ms, rfl, hm⟩
  · exact h
  · exact h.child hm

theorem Everywhere.interPart (h : Everywhere p t) (hu : u ∈ interParts t) : Everywhere p u := by
  rcases mem_interParts hu with rfl | ⟨ms, rfl, hm⟩
  · exact h
  · exact h.child hm

theorem Everywhere.join (hn : p never) (hu : ∀ ms, p (.union ms))
    (h : ∀ t ∈ ts, Everywhere p t) : Everywhere p (Ty.join ts) := by
  have hparts : ∀ u ∈ ts.flatMap unionParts, Everywhere p u := by
    intro u hu
    obtain ⟨t, ht, hut⟩ := List.mem_flatMap.mp hu
    exact (h t ht).unionPart hut
  rcases join_cases ts with hm | he | ⟨ms, he, _, _, hs⟩
  · exact hparts _ hm
  · exact he ▸ .leaf hn rfl
  · exact he ▸ .mk (hu ms) fun m hm => hparts m (hs.subset hm)

theorem Everywhere.meet (hn : p never) (ha : p any) (hi : ∀ ms, p (.inter ms))
    (h : ∀ t ∈ ts, Everywhere p t) : Everywhere p (Ty.meet ts) := by
  have hparts : ∀ u ∈ ts.flatMap interParts, Everywhere p u := by
    intro u hu
    obtain ⟨t, ht, hut⟩ := List.mem_flatMap.mp hu
    exact (h t ht).interPart hut
  rcases meet_cases ts with hm | he | he | ⟨ms, he, _, hs⟩
  · exact hparts _ hm
  · exact he ▸ .leaf hn rfl
  · exact he ▸ .leaf ha rfl
  · exact he ▸ .mk (hi ms) fun m hm => hparts m (hs.subset hm)

end Ty
end ShapeCheck
