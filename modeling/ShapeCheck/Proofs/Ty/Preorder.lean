import ShapeCheck.Proofs.Ty.Combine
import ShapeCheck.Proofs.Ty.Fields
import ShapeCheck.Ty.Walk

/-! The walk through a type keeps a stack of what is still to be visited. It visits what the
recursion over the type lists, in the same order, and it leaves nothing out. -/

namespace ShapeCheck.Ty
variable {t u : Ty} {ts : List Ty}

mutual
/-- A type before what stands in it: properties before the index, the receiver before the
signatures, parameters before the result. -/
def preorder : Ty → List Ty
  | .prim k => [.prim k]
  | .literal l => [.literal l]
  | .array e => .array e :: e.preorder
  | .tuple es => .tuple es :: preorderList es
  | .object fs none name => .object fs none name :: preorderFields fs
  | .object fs (some ⟨k, v⟩) name =>
    .object fs (some ⟨k, v⟩) name :: (preorderFields fs ++ v.preorder)
  | .union ms => .union ms :: preorderList ms
  | .inter ms => .inter ms :: preorderList ms
  | .func ss none => .func ss none :: preorderSignatures ss
  | .func ss (some r) => .func ss (some r) :: (r.preorder ++ preorderSignatures ss)
  | .ctor ss => .ctor ss :: preorderSignatures ss
  | .ref n => [.ref n]

def preorderList : List Ty → List Ty
  | [] => []
  | t :: ts => t.preorder ++ preorderList ts

def preorderFields : List (Field Ty) → List Ty
  | [] => []
  | ⟨_, t, _⟩ :: fs => t.preorder ++ preorderFields fs

def preorderParams : List (Param Ty) → List Ty
  | [] => []
  | ⟨_, t, _, _⟩ :: ps => t.preorder ++ preorderParams ps

def preorderSignatures : List (Signature Ty) → List Ty
  | [] => []
  | ⟨ps, r⟩ :: ss => preorderParams ps ++ r.preorder ++ preorderSignatures ss
end

theorem preorderList_eq (ts : List Ty) : preorderList ts = ts.flatMap preorder := by
  induction ts with
  | nil => rfl
  | cons t ts ih => rw [preorderList, ih, List.flatMap_cons]

theorem preorderFields_eq (fs : List (Field Ty)) :
    preorderFields fs = (fs.map (·.type)).flatMap preorder := by
  induction fs with
  | nil => rfl
  | cons f fs ih => rw [preorderFields, ih, List.map_cons, List.flatMap_cons]

theorem preorderParams_eq (ps : List (Param Ty)) :
    preorderParams ps = (ps.map (·.type)).flatMap preorder := by
  induction ps with
  | nil => rfl
  | cons p ps ih => rw [preorderParams, ih, List.map_cons, List.flatMap_cons]

theorem preorderSignatures_eq (ss : List (Signature Ty)) :
    preorderSignatures ss = (ss.flatMap (·.parts)).flatMap preorder := by
  induction ss with
  | nil => rfl
  | cons s ss ih =>
    rw [preorderSignatures, ih, preorderParams_eq, List.flatMap_cons, List.flatMap_append,
      Signature.parts, List.flatMap_append, List.flatMap_singleton]

/-- The recursion goes through the children and nothing else. -/
theorem preorder_eq (t : Ty) : t.preorder = t :: t.children.flatMap preorder := by
  cases t with
  | prim k | literal l | ref n => rfl
  | array e => simp [preorder, children]
  | tuple es | union es | inter es => simp [preorder, children, preorderList_eq]
  | object fs index name =>
    cases index <;> simp [preorder, children, preorderFields_eq]
  | func ss receiver =>
    cases receiver <;> simp [preorder, children, preorderSignatures_eq]
  | ctor ss => simp [preorder, children, preorderSignatures_eq]

/-- What the walk has yet to visit are the preorders of the types on the stack, one after the
other. However many steps it is given, it visits as many of these and stops after the last. -/
theorem walkStack_eq_take (fuel : Nat) (stack : List Ty) :
    walkStack fuel stack = (stack.flatMap preorder).take fuel := by
  induction fuel generalizing stack with
  | zero => rfl
  | succ fuel ih =>
    cases stack with
    | nil => rfl
    | cons t stack =>
      rw [walkStack, ih, List.flatMap_append, List.flatMap_cons, preorder_eq t, List.cons_append,
        List.take_succ_cons]

/-- A type has one more than its parts have together. -/
theorem sum_size_children (t : Ty) : (t.children.map size).sum + 1 = t.size := by
  have hlist : ∀ ts : List Ty, (ts.map size).sum = sizeList ts := by
    intro ts
    induction ts with
    | nil => rfl
    | cons t ts ih => simp [sizeList, ih]
  have hfields : ∀ fs : List (Field Ty), ((fs.map (·.type)).map size).sum = sizeFields fs := by
    intro fs
    induction fs with
    | nil => rfl
    | cons f fs ih =>
      rw [List.map_cons, List.map_cons, List.sum_cons, ih]
      rfl
  have hparams : ∀ ps : List (Param Ty), ((ps.map (·.type)).map size).sum = sizeParams ps := by
    intro ps
    induction ps with
    | nil => rfl
    | cons p ps ih =>
      rw [List.map_cons, List.map_cons, List.sum_cons, ih]
      rfl
  have hsigs : ∀ ss : List (Signature Ty),
      ((ss.flatMap (·.parts)).map size).sum = sizeSignatures ss := by
    intro ss
    induction ss with
    | nil => rfl
    | cons s ss ih =>
      rw [List.flatMap_cons, List.map_append, List.sum_append, ih, Signature.parts,
        List.map_append, List.sum_append, hparams]
      simp [sizeSignatures]
  cases t with
  | prim k | literal l | ref n => rfl
  | array e => simp [children, size]
  | tuple es | union es | inter es => simp [children, size, hlist]
  | object fs index name => cases index <;> simp [children, size, ← hfields]
  | func ss r => cases r <;> simp [children, size, ← hsigs]
  | ctor ss => simp [children, size, ← hsigs]

theorem length_preorder (t : Ty) : t.preorder.length = t.size := by
  induction t using child_induction with
  | step t ih =>
    rw [preorder_eq, List.length_cons, List.length_flatMap, List.map_congr_left ih,
      sum_size_children]

theorem walk_eq_preorder (t : Ty) : t.walk = t.preorder := by
  rw [walk, walkStack_eq_take, List.flatMap_singleton, ← length_preorder, List.take_length]

theorem mem_preorder_iff : u ∈ t.preorder ↔ Inside t u := by
  induction t using child_induction with
  | step t ih =>
    rw [preorder_eq, List.mem_cons, List.mem_flatMap]
    constructor
    · rintro (rfl | ⟨v, hv, hu⟩)
      · exact .here u
      · exact .child hv ((ih v hv).mp hu)
    · intro h
      cases h with
      | here => exact .inl rfl
      | child hv hu => exact .inr ⟨_, hv, (ih _ hv).mpr hu⟩

theorem mem_walk_iff : u ∈ t.walk ↔ Inside t u := by
  rw [walk_eq_preorder, mem_preorder_iff]

/-! Where types stand in a type, place by place. -/

/-- The first type stands directly in the second: as an element, as the type of a property or of
an index, as a member, as a receiver, or as the type of a parameter or of a result. -/
inductive PartOf : Ty → Ty → Prop
  | element (e : Ty) : PartOf e (.array e)
  | entry {e : Ty} {es : List Ty} (h : e ∈ es) : PartOf e (.tuple es)
  | property {f : Field Ty} {fs : List (Field Ty)} (h : f ∈ fs) (index : Option (Index Ty))
    (name : Option String) : PartOf f.type (.object fs index name)
  | index (fs : List (Field Ty)) (i : Index Ty) (name : Option String) :
    PartOf i.value (.object fs (some i) name)
  | variant {m : Ty} {ms : List Ty} (h : m ∈ ms) : PartOf m (.union ms)
  | constituent {m : Ty} {ms : List Ty} (h : m ∈ ms) : PartOf m (.inter ms)
  | receiver (ss : List (Signature Ty)) (r : Ty) : PartOf r (.func ss (some r))
  | param {s : Signature Ty} {ss : List (Signature Ty)} {p : Param Ty} (hs : s ∈ ss)
    (hp : p ∈ s.params) (receiver : Option Ty) : PartOf p.type (.func ss receiver)
  | result {s : Signature Ty} {ss : List (Signature Ty)} (hs : s ∈ ss) (receiver : Option Ty) :
    PartOf s.result (.func ss receiver)
  | newParam {s : Signature Ty} {ss : List (Signature Ty)} {p : Param Ty} (hs : s ∈ ss)
    (hp : p ∈ s.params) : PartOf p.type (.ctor ss)
  | newResult {s : Signature Ty} {ss : List (Signature Ty)} (hs : s ∈ ss) :
    PartOf s.result (.ctor ss)

theorem PartOf.mem_children (h : PartOf u t) : u ∈ t.children := by
  cases h with
  | element => exact List.mem_singleton_self u
  | entry h | variant h | constituent h => exact h
  | property h => exact field_mem_children h
  | index => exact value_mem_children rfl
  | receiver => exact receiver_mem_children rfl
  | param hs hp => exact part_mem_children_func hs (mem_parts.mpr (.inl ⟨_, hp, rfl⟩))
  | result hs => exact part_mem_children_func hs (mem_parts.mpr (.inr rfl))
  | newParam hs hp => exact part_mem_children_ctor hs (mem_parts.mpr (.inl ⟨_, hp, rfl⟩))
  | newResult hs => exact part_mem_children_ctor hs (mem_parts.mpr (.inr rfl))

theorem partOf_of_mem_children (h : u ∈ t.children) : PartOf u t := by
  cases t with
  | prim k | literal l | ref n => cases h
  | array e =>
    cases List.mem_singleton.mp h
    exact .element u
  | tuple es => exact .entry h
  | union ms => exact .variant h
  | inter ms => exact .constituent h
  | object fs index name =>
    rcases mem_children_object.mp h with ⟨f, hf, rfl⟩ | ⟨i, rfl, rfl⟩
    · exact .property hf index name
    · exact .index fs i name
  | func ss receiver =>
    rcases mem_children_func.mp h with rfl | ⟨s, hs, hu⟩
    · exact .receiver ss u
    · rcases mem_parts.mp hu with ⟨p, hp, rfl⟩ | rfl
      · exact .param hs hp receiver
      · exact .result hs receiver
  | ctor ss =>
    obtain ⟨s, hs, hu⟩ := mem_children_ctor.mp h
    rcases mem_parts.mp hu with ⟨p, hp, rfl⟩ | rfl
    · exact .newParam hs hp
    · exact .newResult hs

/-- A type stands in another at some depth if steps from a part to its whole lead there. -/
theorem inside_iff_partOf : Inside t u ↔ Relation.ReflTransGen PartOf u t := by
  constructor
  · intro h
    induction h with
    | here => exact .refl
    | child h _ ih => exact ih.tail (partOf_of_mem_children h)
  · intro h
    induction h with
    | refl => exact .here u
    | tail _ h ih => exact .child h.mem_children ih

theorem isDeferring_iff : t.isDeferring = true ↔
    (∃ n, t = .ref n) ∨ (∃ ss receiver, t = .func ss receiver) ∨ ∃ ss, t = .ctor ss := by
  cases t <;> simp [isDeferring]

theorem defers_iff : t.defers = true ↔ ∃ u, Inside t u ∧ u.isDeferring = true := by
  simp only [defers, List.any_eq_true, mem_walk_iff]

/-- A union or intersection has the given members without repetition, by their spelling. -/
theorem children_of_combined (h : unionOf ts = .ok t ∨ interOf ts = .ok t) :
    t.children = arrange (distinct ts) := by
  unfold unionOf interOf at h
  by_cases hl : (distinct ts).length < 2
  · simp [hl] at h
  · simp only [hl, if_false, Except.ok.injEq] at h
    rcases h with rfl | rfl <;> rfl

/-- For any number of steps the walk visits as many types of the preorder, so it comes to an end,
and it takes the whole preorder: the type itself and then the preorders of its children, which for
a union or intersection are the members in the order of their spelling. A check of an index is put
off exactly if a reference or a callable stands somewhere in the type. -/
theorem walk_preorder (t : Ty) :
    (∀ steps, walkStack steps [t] = t.preorder.take steps) ∧ t.walk = t.preorder ∧
      t.preorder = t :: t.children.flatMap preorder ∧
      (∀ ts, unionOf ts = .ok t ∨ interOf ts = .ok t → t.children.Perm (distinct ts) ∧
        t.children.Pairwise fun a b => a.spelling ≤ b.spelling) ∧
      (t.defers = true ↔ ∃ u, Relation.ReflTransGen PartOf u t ∧
        ((∃ n, u = .ref n) ∨ (∃ ss receiver, u = .func ss receiver) ∨ ∃ ss, u = .ctor ss)) := by
  refine ⟨fun steps => ?_, walk_eq_preorder t, preorder_eq t, fun ts h => ?_, ?_⟩
  · rw [walkStack_eq_take, List.flatMap_singleton]
  · rw [children_of_combined h]
    exact ⟨Text.sortOn_perm _ _, Text.pairwise_sortOn _ _⟩
  · simp only [defers_iff, inside_iff_partOf, isDeferring_iff]

namespace Method

def keyed : Ty := .object [⟨"a", any, false⟩] (some ⟨.string, .prim .string⟩) none

/-- A function that is called on the object. -/
def call : Ty := .func [⟨[⟨"x", .ref "T", false, false⟩], void⟩] (some keyed)

def either : Ty := .union [call, keyed]

/-- A union given in another order than that of spelling. The receiver is visited before the
parameter, and the value of an index after the property. -/
theorem walk_preorder_either :
    unionOf [keyed, call] = .ok either ∧
      (either.children.Pairwise fun a b => a.spelling ≤ b.spelling) ∧
      either.walk = [either, call, keyed, any, .prim .string, .ref "T", void, keyed, any,
        .prim .string] ∧
      either.defers = true := by
  obtain ⟨-, hwalk, -, hmembers, hdefers⟩ := walk_preorder either
  have hunion : unionOf [keyed, call] = .ok either := rfl
  have hcall : PartOf call either := .variant List.mem_cons_self
  exact ⟨hunion, (hmembers _ (.inl hunion)).2, hwalk,
    hdefers.mpr ⟨call, .single hcall, .inr (.inl ⟨_, _, rfl⟩)⟩⟩

end Method
end ShapeCheck.Ty
