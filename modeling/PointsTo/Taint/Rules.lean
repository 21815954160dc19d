import PointsTo.Program.Basic

/-!
# Taint rules

Rules name methods and classes as a user would write them. A *source* lets foreign data in through
the result of a call, a *sink* must not receive it in one of its arguments, and a *transfer* hands it
on between the operands of a call. A `TaintPlan` is what is left of the rules in a given program: rules
that name something unknown have no effect.
-/

namespace PointsTo

/-- An operand of a call. -/
inductive TransferPoint where
  | base
  | result
  | arg (index : UInt64)
  deriving DecidableEq, Repr

namespace TransferPoint

def text : TransferPoint → String
  | base => "base"
  | result => "result"
  | arg index => "arg" ++ toString index.toNat

/-- The variable that stands at a point of a call on `receiver`. -/
def operand (site : CallSite) (receiver : Option VarId) : TransferPoint → Option VarId
  | base => receiver
  | result => site.result
  | arg index => site.args[index.toNat]?

end TransferPoint

/-- The result of calling the method is foreign data of class `type`. -/
structure SourceRule where
  cls : String
  method : String
  type : String
  deriving DecidableEq, Repr

/-- Foreign data must not reach the argument at `index`. -/
structure SinkRule where
  cls : String
  method : String
  index : UInt64
  deriving DecidableEq, Repr

/-- Calling the method hands taint on from one operand to another, there as data of class `type`. -/
structure TransferRule where
  cls : String
  method : String
  source : TransferPoint
  target : TransferPoint
  type : String
  deriving DecidableEq, Repr

structure TaintRules where
  sources : List SourceRule := []
  sinks : List SinkRule := []
  transfers : List TransferRule := []
  deriving DecidableEq, Repr

namespace TaintRules

def isEmpty (r : TaintRules) : Bool := r.sources.isEmpty && r.sinks.isEmpty && r.transfers.isEmpty

end TaintRules

/-- A transfer rule whose class is known. -/
structure Transfer where
  source : TransferPoint
  target : TransferPoint
  cls : ClassId
  deriving DecidableEq, Repr

/-- Taint rules in the terms of one program, each list in the order of the rules. -/
structure TaintPlan where
  sources : List (MethodId × ClassId) := []
  sinks : List (MethodId × Nat) := []
  transfers : List (MethodId × Transfer) := []
  deriving DecidableEq, Repr

namespace TaintPlan

def resolve (p : Program) (r : TaintRules) : TaintPlan where
  sources := r.sources.filterMap fun rule ↦ do
    let method ← p.methodNamed rule.cls ⟨rule.method⟩
    let cls ← p.hierarchy.classNamed rule.type
    pure (method, cls)
  sinks := r.sinks.filterMap fun rule ↦ do
    let method ← p.methodNamed rule.cls ⟨rule.method⟩
    pure (method, rule.index.toNat)
  transfers := r.transfers.filterMap fun rule ↦ do
    let method ← p.methodNamed rule.cls ⟨rule.method⟩
    let cls ← p.hierarchy.classNamed rule.type
    pure (method, ⟨rule.source, rule.target, cls⟩)

/-- The class of what a source lets in. Of several rules for a method the last one holds. -/
def sourceClass? (t : TaintPlan) (m : MethodId) : Option ClassId := t.sources.reverse.lookup m

/-- The arguments that a sink guards. -/
def guarded (t : TaintPlan) (m : MethodId) : List Nat :=
  (t.sinks.filter (·.1 = m)).map Prod.snd

def transfersOf (t : TaintPlan) (m : MethodId) : List Transfer :=
  (t.transfers.filter (·.1 = m)).map Prod.snd

end TaintPlan

end PointsTo
