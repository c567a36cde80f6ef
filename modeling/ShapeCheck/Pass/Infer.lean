import ShapeCheck.Fit.Members
import ShapeCheck.Pass.Basic

/-! The types of expressions. An expression at fault has type `never`, or `any` for an unknown
name. -/

namespace ShapeCheck.Pass
variable [Lookup]

/-- The type of an expression and, for a property access, the type of its object. -/
structure Typed where
  type : Ty
  owner : Option Ty

/-- Records the type of a node once it is known. -/
def recorded (kind : NodeKind) (act : PassM Typed) : PassM Typed := do
  let typed ← act
  record kind typed.type
  pure typed

def ofType (t : Ty) : Typed := ⟨t, none⟩

/-- The type of a literal value. -/
def literalType : Value → PassM Ty
  | .null => pure (.prim .null)
  | v =>
    match Literal.ofValue v with
    | .ok l => pure (.literal l)
    | .error d => throw (.defect d)

/-- The type of a name: what it is bound to, or else `undefined` for that word. -/
def identifierType (name : String) (span : Option Span) : PassM Ty := do
  match (← get).scope.lookup name with
  | some t => pure t
  | none =>
    if name = "undefined" then pure Ty.undefined
    else
      report (Env.unknownName name span)
      pure Ty.any

def accessType (s : Setting) (owner : Ty) (name : String) (span : Option Span) : PassM Ty := do
  match ← checking (Member.propertyType s.surroundings s.ask s.depth owner name) with
  | some t => pure t
  | none =>
    report
      { kind := .typeMismatch
        message := "Property '" ++ name ++ "' does not exist on type '" ++ owner.display ++ "'."
        span := span
        expected := none
        actual := some owner
        notes := [] }
    pure Ty.never

/-- The result of the first signature that accepts the arguments. -/
def choose (s : Setting) (signatures : List (Signature Ty)) (args : List Ty) (callee : String)
    (receiver : Option Ty) (span : Option Span) : PassM Ty := do
  let resolution ← checking (Call.resolve s.ask signatures args)
  match resolution.chosen with
  | some (_, signature) => pure signature.result
  | none =>
    report (Call.noMatch callee resolution args span receiver)
    pure Ty.never

/-- A callee that cannot be used as it is. -/
def notUsable (message : String) (t : Ty) (span : Option Span) : PassM Ty := do
  report
    { kind := .typeMismatch
      message := message
      span := span
      expected := none
      actual := some t
      notes := [] }
  pure Ty.never

def reportReceiver (span : Option Span) : Option ReceiverViolation → PassM Unit
  | none => pure ()
  | some v =>
    report
      { kind := .thisContextUnsatisfied
        message := v.message
        span := span
        expected := some v.required
        actual := v.bound
        notes := (v.mismatch.map (·.message)).toList }

/-- The type of a call, from the types of its parts. -/
def callType (s : Setting) (callee : Expr) (calleeType : Ty) (bound : Option Ty) (args : List Ty)
    (span : Option Span) : PassM Ty := do
  match ← checking (s.surroundings.resolve calleeType) with
  | .prim .any => pure Ty.any
  | .prim .never => pure Ty.never
  | .func signatures receiver =>
    reportReceiver span (← checking (Call.checkReceiver s.ask receiver bound))
    choose s signatures args callee.calleeName receiver span
  | t =>
    notUsable
      ("This expression is not callable. Type '" ++ t.display ++ "' has no call signatures.")
      t (callee.span <|> span)

/-- The type of a construction, from the types of its parts. -/
def constructType (s : Setting) (callee : Expr) (calleeType : Ty) (args : List Ty)
    (span : Option Span) : PassM Ty := do
  match ← checking (s.surroundings.resolve calleeType) with
  | .prim .any => pure Ty.any
  | .prim .never => pure Ty.never
  | .ctor signatures => choose s signatures args callee.calleeName none span
  | t =>
    notUsable
      ("This expression is not constructable. Type '" ++ t.display
        ++ "' has no construct signatures.")
      t (callee.span <|> span)

mutual
/-- The type of an expression; its parts come first, from left to right. -/
def infer (s : Setting) : Expr → PassM Typed
  | .literal v _ => recorded .literalExpr do return ofType (← literalType v)
  | .identifier name span => recorded .identifier do return ofType (← identifierType name span)
  | .object assignments span => recorded .objectLiteral do
    return ofType (.object (← inferAssignments s span [] assignments) none none)
  | .array elements _ => recorded .arrayLiteral do
    return ofType (.tuple ((← inferAll s elements).map Ty.widen))
  | .access object name span => recorded .propertyAccess do
    let owner := (← infer s object).type
    return ⟨← accessType s owner name span, some owner⟩
  | .call callee args none span => recorded .callExpr do
    let fn ← infer s callee
    let argTypes ← inferAll s args
    return ofType (← callType s callee fn.type fn.owner argTypes span)
  | .call callee args (some receiver) span => recorded .callExpr do
    let fn ← infer s callee
    let bound ← infer s receiver
    let argTypes ← inferAll s args
    return ofType (← callType s callee fn.type (some bound.type) argTypes span)
  | .construct callee args span => recorded .newExpr do
    let ctor ← infer s callee
    let argTypes ← inferAll s args
    return ofType (← constructType s callee ctor.type argTypes span)
  | .misplaced node => throw (.misplaced .expression node)

def inferAll (s : Setting) : List Expr → PassM (List Ty)
  | [] => pure []
  | e :: es => do
    let t := (← infer s e).type
    return t :: (← inferAll s es)

/-- The fields of an object literal. A name given twice is reported; its last value counts, in
its first place. -/
def inferAssignments (s : Setting) (span : Option Span) (fs : List (Field Ty)) :
    List (Assignment Expr) → PassM (List (Field Ty))
  | [] => pure fs
  | ⟨name, value, place⟩ :: rest => do
    let t := (← infer s value).type.widen
    if (Field.find? fs name).isSome then
      report (.plain .typeMismatch
        ("An object literal cannot have multiple properties with the same name '" ++ name ++ "'.")
        (place <|> span))
    inferAssignments s span (Field.put ⟨name, t, false⟩ fs) rest
end

end ShapeCheck.Pass
