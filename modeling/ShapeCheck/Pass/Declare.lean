import ShapeCheck.Pass.Infer

/-! Declarations: first all names are registered and functions bound, then each is checked in
its turn. -/

namespace ShapeCheck.Pass
variable [Lookup]

/-- Defines a type name; a second definition is reported and left out. -/
def defineType (name : String) (recipe : Recipe Ty) (span : Option Span) : PassM Unit := do
  if (← get).env.isDefined name then
    report (.plain .typeMismatch ("Duplicate identifier '" ++ name ++ "'.") span)
  else naming (Env.define name recipe span)

/-- Registers aliases and interfaces, without looking at what they are. -/
def registerTypes : List Decl → PassM Unit
  | [] => pure ()
  | .typeAlias name body span :: ds => do
    defineType name (Build.ofAlias name body) span
    registerTypes ds
  | .interface name properties index bases span :: ds => do
    defineType name (Build.ofInterface name properties index bases span) span
    registerTypes ds
  | _ :: ds => registerTypes ds

/-- Binds every declared function, so that it can be used before its declaration. -/
def hoistFunctions : List Decl → PassM Unit
  | [] => pure ()
  | .func name signatures receiver span :: ds => do
    let t ← following (Build.ofFunc signatures receiver)
    record .functionDecl t
    bindValue name t span
    hoistFunctions ds
  | _ :: ds => hoistFunctions ds

/-- The problem of an initializer that does not fit its declared type. -/
def misfitReport (m : Mismatch) (source target : Ty) (span : Option Span) : Diagnostic :=
  match m.flaw with
  | .unfit =>
    { kind := .typeMismatch
      message :=
        "Type '" ++ source.display ++ "' is not assignable to type '" ++ target.display ++ "'."
      span := span
      expected := some target
      actual := some source
      notes := if m.path.isEmpty && m.detail.isNone then [] else [m.message] }
  | flaw =>
    { kind := flaw.kind
      message := m.message
      span := span
      expected := m.expected
      actual := m.actual
      notes := if 1 < m.path.length then ["at '" ++ m.location ++ "'"] else [] }

/-- The type a value is bound to when it has an initializer. -/
def initialized (s : Setting) (binding : Binding) (declared : Option Ty) (initializer : Expr)
    (span : Option Span) : PassM Ty := do
  let actual := (← infer s initializer).type
  match declared with
  | some target =>
    match ← checking (s.ask actual target) with
    | none => pure ()
    | some m => report (misfitReport m actual target (initializer.span <|> span))
    pure target
  | none =>
    if binding = .letBinding && s.config.widenLet.holds then pure actual.widen else pure actual

/-- A declared type, read at once. -/
def declaredType : Option TypeExpr → PassM (Option Ty)
  | none => pure none
  | some e => some <$> following (Build.type true none e)

def declareValue (s : Setting) (name : String) (binding : Binding) (declared : Option TypeExpr)
    (initializer : Option Expr) (span : Option Span) : PassM Unit := do
  let declared ← declaredType declared
  let bound ← match initializer with
    | none => pure (declared.getD Ty.any)
    | some e => initialized s binding declared e span
  record .valueDecl bound
  bindValue name bound span

/-- Resolves a type name where it is declared. -/
def declareName (kind : NodeKind) (name : String) (span : Option Span) : PassM Unit := do
  let t ← naming (Lookup.resolve name span)
  noteAlias name t
  record kind t

def declare (s : Setting) : Decl → PassM Unit
  | .typeAlias name _ span => declareName .typeAliasDecl name span
  | .interface name _ _ _ span => declareName .interfaceDecl name span
  | .func _ _ _ _ => pure ()
  | .value name binding declared initializer span =>
    declareValue s name binding declared initializer span
  | .statement e => do record .exprStmt (← infer s e).type
  | .misplaced node => throw (.misplaced .declaration node)

def declareAll (s : Setting) : List Decl → PassM Unit
  | [] => pure ()
  | d :: ds => do declare s d; declareAll s ds

end ShapeCheck.Pass
