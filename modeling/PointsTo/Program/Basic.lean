import PointsTo.Program.Hierarchy

/-!
# Programs

A program is a class hierarchy together with the bodies of its methods and the arenas of fields,
variables, call sites and allocation sites that the bodies speak of. For every variable the program
also lists the statements that dereference it, so that an object reaching the variable finds them
without a search.
-/

namespace PointsTo

structure FieldInfo where
  name : String
  cls : ClassId
  isStatic : Bool := false
  deriving DecidableEq, Repr

/-- A store `v.field = rhs`, as the base variable sees it. -/
structure FieldStore where
  field : FieldId
  rhs : VarId
  deriving DecidableEq, Repr

/-- A load `lhs = v.field`, as the base variable sees it. -/
structure FieldLoad where
  lhs : VarId
  field : FieldId
  deriving DecidableEq, Repr

/-- The statements that dereference a variable or call through it, in building order. -/
structure VarIndex where
  storeFields : List FieldStore := []
  loadFields : List FieldLoad := []
  storeArrays : List VarId := []
  loadArrays : List VarId := []
  /-- Calls whose receiver the variable is. -/
  invokes : List CallSiteId := []
  /-- Calls that pass the variable, each once. -/
  argOf : List CallSiteId := []
  deriving DecidableEq, Repr

structure VarInfo where
  name : String
  method : MethodId
  index : VarIndex := {}
  deriving DecidableEq, Repr

structure CallSite where
  kind : CallKind
  target : MethodRef
  receiver : Option VarId
  args : List VarId
  result : Option VarId
  /-- The method in which the call stands. -/
  container : MethodId
  deriving DecidableEq, Repr

structure AllocSite where
  cls : ClassId
  /-- The method in which the allocation stands. -/
  container : MethodId
  deriving DecidableEq, Repr

structure MethodBody where
  this : Option VarId := none
  params : List VarId := []
  /-- The variables returned, each once. -/
  returnVars : List VarId := []
  stmts : List Stmt := []
  callSites : List CallSiteId := []
  deriving DecidableEq, Repr

structure Program where
  hierarchy : Hierarchy := {}
  fields : Array FieldInfo := #[]
  vars : Array VarInfo := #[]
  callSites : Array CallSite := #[]
  allocSites : Array AllocSite := #[]
  /-- One entry per method; abstract and unfinished methods have no body. -/
  bodies : Array (Option MethodBody) := #[]
  deriving DecidableEq, Repr

namespace Program

def field (p : Program) (f : FieldId) : Except UnknownId FieldInfo := f.lookup p.fields

def var (p : Program) (v : VarId) : Except UnknownId VarInfo := v.lookup p.vars

def callSite (p : Program) (c : CallSiteId) : Except UnknownId CallSite := c.lookup p.callSites

def allocSite (p : Program) (a : AllocSiteId) : Except UnknownId AllocSite := a.lookup p.allocSites

def body (p : Program) (m : MethodId) : Option MethodBody := (p.bodies[m.index]?).join

/-- The receiver variable of a method with a body. -/
def thisVar (p : Program) (m : MethodId) : Option VarId := (p.body m).bind (·.this)

/-- The calls in the body of `m`; none without a body. -/
def callSitesIn (p : Program) (m : MethodId) : List CallSiteId :=
  ((p.body m).map (·.callSites)).getD []

def callSiteIds (p : Program) : List CallSiteId := Id.upTo .callSite p.callSites.size

def fieldIds (p : Program) : List FieldId := Id.upTo .field p.fields.size

def varIds (p : Program) : List VarId := Id.upTo .var p.vars.size

/-- A variable is shown under its method, `<Main: main()>/x`. -/
def varName (p : Program) (v : VarId) : Except UnknownId String := do
  let info ← p.var v
  let owner ← p.hierarchy.signature info.method
  pure (owner ++ "/" ++ info.name)

/-- The method of that subsignature in the latest class of that name. -/
def methodNamed (p : Program) (className : String) (s : Subsignature) : Option MethodId :=
  (p.hierarchy.classNamed className).bind (p.hierarchy.declared? · s)

/-! ## Calls resolved from the hierarchy alone -/

/-- Every method that a call may reach, in order of discovery. -/
def targets (p : Program) (c : CallSiteId) : Except UnknownId (List MethodId) := do
  let site ← p.callSite c
  let h := p.hierarchy
  match site.kind with
  | .static => pure (← h.resolve site.target).toList
  | .special => pure (← h.dispatch site.target.cls site.target.subsignature).toList
  | .virtual | .interface => h.dispatchBelow site.target.cls site.target.subsignature
  | .dynamic => pure []

/-- The one method that a call reaches on a receiver of class `receiver`. Without a receiver class, a
virtual call is resolved only if it has a single target. -/
def callee (p : Program) (receiver : Option ClassId) (c : CallSiteId) :
    Except UnknownId (Option MethodId) := do
  let site ← p.callSite c
  let h := p.hierarchy
  match site.kind, receiver with
  | .static, _ => h.resolve site.target
  | .special, _ => h.dispatch site.target.cls site.target.subsignature
  | .virtual, some k | .interface, some k => h.dispatch k site.target.subsignature
  | .virtual, none | .interface, none =>
    match ← p.targets c with
    | [m] => pure (some m)
    | _ => pure none
  | .dynamic, _ => pure none

end Program

end PointsTo
