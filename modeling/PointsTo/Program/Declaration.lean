import PointsTo.Program.Basic

/-!
# Building programs

A program is built from a list of declarations. A method comes with its items, in order: variables
and parameters, which take the next free numbers, and statements over variables declared so far by
anyone. Every use of a variable as the base of an access, as a receiver or as an argument is entered
into the variable's index at once, and fails if there is no such variable; other mentions of unknown
variables, fields or classes go unnoticed until something asks for them.
-/

namespace PointsTo

/-- One step of writing a method. -/
inductive Item where
  | var (name : String)
  | param (name : String)
  /-- The receiver variable, created by its first mention. -/
  | this
  | alloc (lhs : VarId) (cls : ClassId)
  | copy (lhs rhs : VarId)
  | loadStatic (lhs : VarId) (field : FieldId)
  | storeStatic (field : FieldId) (rhs : VarId)
  | loadField (lhs base : VarId) (field : FieldId)
  | storeField (base : VarId) (field : FieldId) (rhs : VarId)
  | loadArray (lhs base : VarId)
  | storeArray (base rhs : VarId)
  | ret (value : Option VarId)
  | nop
  | call (kind : CallKind) (result receiver : Option VarId) (target : MethodRef) (args : List VarId)
  deriving DecidableEq, Repr

structure MethodDecl where
  cls : ClassId
  subsignature : Subsignature
  isStatic : Bool := false
  isAbstract : Bool := false
  /-- A method that is never finished keeps its variables and sites, but has neither flags nor body. -/
  isFinished : Bool := true
  items : List Item := []
  deriving DecidableEq, Repr

inductive Declaration where
  | cls (decl : ClassDecl)
  | field (decl : FieldInfo)
  | method (decl : MethodDecl)
  deriving DecidableEq, Repr

/-- A program in which one method is being written. -/
structure Draft where
  program : Program
  method : MethodId
  body : MethodBody := {}

namespace Draft

def newVar (d : Draft) (name : String) : Draft × VarId :=
  ({ d with program.vars := d.program.vars.push { name, method := d.method } },
    ⟨d.program.vars.size⟩)

def addLocal (d : Draft) (name : String) : Draft := (d.newVar name).1

def addParam (d : Draft) (name : String) : Draft :=
  let (d, v) := d.newVar name
  { d with body.params := d.body.params ++ [v] }

def addThis (d : Draft) : Draft :=
  match d.body.this with
  | some _ => d
  | none =>
    let (d, v) := d.newVar "this"
    { d with body.this := some v }

def addStmt (d : Draft) (s : Stmt) : Draft := { d with body.stmts := d.body.stmts ++ [s] }

def addAlloc (d : Draft) (lhs : VarId) (cls : ClassId) : Draft :=
  let site : AllocSiteId := ⟨d.program.allocSites.size⟩
  let sites := d.program.allocSites.push { cls, container := d.method }
  { d with program.allocSites := sites }.addStmt (.alloc lhs site)

def addReturn (d : Draft) (value : Option VarId) : Draft :=
  let old := d.body.returnVars
  let new := value.toList.filter (· ∉ old)
  { d with body.returnVars := old ++ new }.addStmt (.ret value)

/-- Changes the index of `v`. -/
def reindex (d : Draft) (v : VarId) (f : VarIndex → VarIndex) : Except UnknownId Draft := do
  let vars ← v.update d.program.vars fun info ↦ { info with index := f info.index }
  pure { d with program.vars := vars }

def addCall (d : Draft) (kind : CallKind) (result receiver : Option VarId) (target : MethodRef)
    (args : List VarId) : Except UnknownId Draft := do
  let c : CallSiteId := ⟨d.program.callSites.size⟩
  let sites := d.program.callSites.push
    { kind, target, receiver, args, result, container := d.method }
  let d := { d with program.callSites := sites }
  let d ← receiver.toList.foldlM
    (fun d v ↦ d.reindex v fun ix ↦ { ix with invokes := ix.invokes ++ [c] }) d
  let d ← args.foldlM
    (fun d v ↦ d.reindex v fun ix ↦
      if c ∈ ix.argOf then ix else { ix with argOf := ix.argOf ++ [c] }) d
  pure ({ d with body.callSites := d.body.callSites ++ [c] }.addStmt (.invoke c))

def add (d : Draft) : Item → Except UnknownId Draft
  | .var name => pure (d.addLocal name)
  | .param name => pure (d.addParam name)
  | .this => pure d.addThis
  | .alloc lhs cls => pure (d.addAlloc lhs cls)
  | .copy lhs rhs => pure (d.addStmt (.copy lhs rhs))
  | .loadStatic lhs field => pure (d.addStmt (.loadStatic lhs field))
  | .storeStatic field rhs => pure (d.addStmt (.storeStatic field rhs))
  | .loadField lhs base field => do
    let d ← d.reindex base fun ix ↦ { ix with loadFields := ix.loadFields ++ [⟨lhs, field⟩] }
    pure (d.addStmt (.loadField lhs base field))
  | .storeField base field rhs => do
    let d ← d.reindex base fun ix ↦ { ix with storeFields := ix.storeFields ++ [⟨field, rhs⟩] }
    pure (d.addStmt (.storeField base field rhs))
  | .loadArray lhs base => do
    let d ← d.reindex base fun ix ↦ { ix with loadArrays := ix.loadArrays ++ [lhs] }
    pure (d.addStmt (.loadArray lhs base))
  | .storeArray base rhs => do
    let d ← d.reindex base fun ix ↦ { ix with storeArrays := ix.storeArrays ++ [rhs] }
    pure (d.addStmt (.storeArray base rhs))
  | .ret value => pure (d.addReturn value)
  | .nop => pure (d.addStmt .nop)
  | .call kind result receiver target args => d.addCall kind result receiver target args

/-- Closes the method. An instance method that is not abstract has a receiver variable even if no
item mentions it. -/
def finish (d : Draft) (isStatic isAbstract : Bool) : Except UnknownId Program := do
  let d := if isStatic || isAbstract then d else d.addThis
  let hierarchy ← d.program.hierarchy.setMethodFlags d.method isStatic isAbstract
  let body := if isAbstract then none else some d.body
  pure { d.program with hierarchy, bodies := d.program.bodies.set! d.method.index body }

end Draft

namespace Program

def addMethod (p : Program) (m : MethodDecl) : Except UnknownId Program := do
  let (hierarchy, method) ← p.hierarchy.addMethod { cls := m.cls, subsignature := m.subsignature }
  let d : Draft := { program := { p with hierarchy, bodies := p.bodies.push none }, method }
  let d ← m.items.foldlM Draft.add d
  if m.isFinished then d.finish m.isStatic m.isAbstract else pure d.program

def declare (p : Program) : Declaration → Except UnknownId Program
  | .cls decl => do
    let (hierarchy, _) ← p.hierarchy.addClass decl
    pure { p with hierarchy }
  | .field decl => pure { p with fields := p.fields.push decl }
  | .method decl => p.addMethod decl

/-- The program that a list of declarations builds. -/
def ofDeclarations (ds : List Declaration) : Except UnknownId Program := ds.foldlM declare {}

end Program

end PointsTo
