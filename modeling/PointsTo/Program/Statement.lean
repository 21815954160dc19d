import PointsTo.Id

/-!
# Statements and calls

The statements that matter to a points-to analysis: allocation, copying, loads and stores through
static fields, instance fields and arrays, calls, returns. Control flow between them is ignored.
-/

namespace PointsTo

/-- How a call finds its callee. -/
inductive CallKind where
  | static
  | special
  | virtual
  | interface
  | dynamic
  deriving DecidableEq, Repr

namespace CallKind

def all : List CallKind := [static, special, virtual, interface, dynamic]

def name : CallKind → String
  | static => "static"
  | special => "special"
  | virtual => "virtual"
  | interface => "interface"
  | dynamic => "dynamic"

/-- The name in capitals, as call edges are labelled. -/
def label : CallKind → String
  | static => "STATIC"
  | special => "SPECIAL"
  | virtual => "VIRTUAL"
  | interface => "INTERFACE"
  | dynamic => "DYNAMIC"

/-- Whether calls of this kind are made on an object. -/
def hasReceiver : CallKind → Bool
  | special | virtual | interface => true
  | static | dynamic => false

end CallKind

/-- A method's name and parameter types, `add(Object)`. -/
structure Subsignature where
  text : String
  deriving DecidableEq, Repr

/-- What stands before the first opening parenthesis. -/
def Subsignature.name (s : Subsignature) : String :=
  String.ofList (s.text.toList.takeWhile (· ≠ '('))

/-- The method that a call names, by the class it names it in. -/
structure MethodRef where
  cls : ClassId
  subsignature : Subsignature
  deriving DecidableEq, Repr

inductive Stmt where
  | alloc (lhs : VarId) (site : AllocSiteId)
  | copy (lhs rhs : VarId)
  | loadStatic (lhs : VarId) (field : FieldId)
  | storeStatic (field : FieldId) (rhs : VarId)
  | loadField (lhs base : VarId) (field : FieldId)
  | storeField (base : VarId) (field : FieldId) (rhs : VarId)
  | loadArray (lhs base : VarId)
  | storeArray (base rhs : VarId)
  | invoke (site : CallSiteId)
  | ret (value : Option VarId)
  | nop
  deriving DecidableEq, Repr

namespace Stmt

/-- The variable that a statement assigns. The result of a call belongs to its call site. -/
def target : Stmt → Option VarId
  | alloc lhs _ | copy lhs _ | loadStatic lhs _ | loadField lhs _ _ | loadArray lhs _ => some lhs
  | _ => none

/-- The variables that a statement reads, the base of an access first. -/
def uses : Stmt → List VarId
  | copy _ rhs | storeStatic _ rhs => [rhs]
  | loadField _ base _ | loadArray _ base => [base]
  | storeField base _ rhs | storeArray base rhs => [base, rhs]
  | ret value => value.toList
  | _ => []

end Stmt

end PointsTo
