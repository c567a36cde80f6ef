import ShapeCheck.Ty.Basic

/-!
Equality of types: same shape, whatever the display names. The order of fields counts; members
of unions and intersections are compared as sets, and since neither holds a member twice, equal
length and inclusion decide it.
-/

namespace ShapeCheck.Ty

mutual
def same : Ty → Ty → Bool
  | .prim a, .prim b => a == b
  | .literal a, .literal b => a.same b
  | .array a, .array b => a.same b
  | .tuple as, .tuple bs => sameList as bs
  | .object fs none _, .object gs none _ => sameFields fs gs
  | .object fs (some ⟨j, a⟩) _, .object gs (some ⟨k, b⟩) _ =>
    sameFields fs gs && j == k && a.same b
  | .union as, .union bs => as.length == bs.length && includedIn as bs
  | .inter as, .inter bs => as.length == bs.length && includedIn as bs
  | .func ss none, .func us none => sameSignatures ss us
  | .func ss (some a), .func us (some b) => sameSignatures ss us && a.same b
  | .ctor ss, .ctor us => sameSignatures ss us
  | .ref a, .ref b => a == b
  | _, _ => false
termination_by structural x => x

def sameList : List Ty → List Ty → Bool
  | [], [] => true
  | a :: as, b :: bs => a.same b && sameList as bs
  | _, _ => false
termination_by structural x => x

/-- Every type of the first list equals one of the second. -/
def includedIn : List Ty → List Ty → Bool
  | [], _ => true
  | a :: as, bs => bs.any (fun b => a.same b) && includedIn as bs
termination_by structural x => x

def sameFields : List (Field Ty) → List (Field Ty) → Bool
  | [], [] => true
  | ⟨m, a, o⟩ :: fs, ⟨n, b, p⟩ :: gs => m == n && o == p && a.same b && sameFields fs gs
  | _, _ => false
termination_by structural x => x

def sameParams : List (Param Ty) → List (Param Ty) → Bool
  | [], [] => true
  | ⟨m, a, o, r⟩ :: ps, ⟨n, b, p, s⟩ :: qs =>
    m == n && o == p && r == s && a.same b && sameParams ps qs
  | _, _ => false
termination_by structural x => x

def sameSignatures : List (Signature Ty) → List (Signature Ty) → Bool
  | [], [] => true
  | ⟨ps, a⟩ :: ss, ⟨qs, b⟩ :: us => sameParams ps qs && a.same b && sameSignatures ss us
  | _, _ => false
termination_by structural x => x
end

/-- Absent types are equal to each other only. -/
def sameOption : Option Ty → Option Ty → Bool
  | none, none => true
  | some a, some b => a.same b
  | _, _ => false

end ShapeCheck.Ty
