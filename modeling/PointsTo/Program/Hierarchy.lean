import PointsTo.Closure
import PointsTo.Program.Statement

/-!
# Class hierarchies

Classes and interfaces with the methods they declare. A class may only name classes that were added
before it, so the hierarchy has no cycles and every walk along superclasses or interfaces ends. Each
class also lists its direct subtypes, kept up to date as classes are added.
-/

namespace PointsTo

/-- What is said about a class or interface when it is added. -/
structure ClassDecl where
  name : String
  superclass : Option ClassId := none
  interfaces : List ClassId := []
  isInterface : Bool := false
  isAbstract : Bool := false
  deriving DecidableEq, Repr

/-- A class with its methods, the latest first, and its direct subtypes in order of addition. -/
structure ClassInfo extends ClassDecl where
  declared : List (Subsignature × MethodId) := []
  subclasses : List ClassId := []
  subinterfaces : List ClassId := []
  implementors : List ClassId := []
  deriving DecidableEq, Repr

structure MethodInfo where
  cls : ClassId
  subsignature : Subsignature
  isStatic : Bool := false
  isAbstract : Bool := false
  deriving DecidableEq, Repr

structure Hierarchy where
  classes : Array ClassInfo := #[]
  methods : Array MethodInfo := #[]
  /-- Class names, the latest first. -/
  names : List (String × ClassId) := []
  deriving DecidableEq, Repr

namespace Hierarchy

/-! ## Building -/

/-- Adds a class, and enters it as a direct subtype of every class that it names. An interface is
always abstract. -/
def addClass (h : Hierarchy) (d : ClassDecl) : Except UnknownId (Hierarchy × ClassId) := do
  let id : ClassId := ⟨h.classes.size⟩
  let classes ← match d.superclass with
    | none => pure h.classes
    | some c => c.update h.classes fun k ↦ { k with subclasses := k.subclasses ++ [id] }
  let enter (k : ClassInfo) : ClassInfo :=
    if d.isInterface then { k with subinterfaces := k.subinterfaces ++ [id] }
    else { k with implementors := k.implementors ++ [id] }
  let classes ← d.interfaces.foldlM (fun classes c ↦ c.update classes enter) classes
  let info : ClassInfo := { d with isAbstract := d.isAbstract || d.isInterface }
  pure ({ h with classes := classes.push info, names := (d.name, id) :: h.names }, id)

/-- Adds a method to its class, where it hides an earlier one of the same subsignature. -/
def addMethod (h : Hierarchy) (m : MethodInfo) : Except UnknownId (Hierarchy × MethodId) := do
  let id : MethodId := ⟨h.methods.size⟩
  let classes ← m.cls.update h.classes fun k ↦
    { k with declared := (m.subsignature, id) :: k.declared }
  pure ({ h with classes, methods := h.methods.push m }, id)

def setMethodFlags (h : Hierarchy) (m : MethodId) (isStatic isAbstract : Bool) :
    Except UnknownId Hierarchy := do
  let methods ← m.update h.methods fun d ↦ { d with isStatic, isAbstract }
  pure { h with methods }

/-! ## Reading -/

def cls (h : Hierarchy) (c : ClassId) : Except UnknownId ClassInfo := c.lookup h.classes

def method (h : Hierarchy) (m : MethodId) : Except UnknownId MethodInfo := m.lookup h.methods

def classIds (h : Hierarchy) : List ClassId := Id.upTo .cls h.classes.size

def methodIds (h : Hierarchy) : List MethodId := Id.upTo .method h.methods.size

/-- The latest class of that name. -/
def classNamed (h : Hierarchy) (name : String) : Option ClassId := h.names.lookup name

/-- A class and a subsignature in angle brackets, `<Shape: area()>`. -/
def signatureText (className : String) (s : Subsignature) : String :=
  "<" ++ className ++ ": " ++ s.text ++ ">"

def signature (h : Hierarchy) (m : MethodId) : Except UnknownId String := do
  let decl ← h.method m
  let owner ← h.cls decl.cls
  pure (signatureText owner.name decl.subsignature)

/-- The latest method of `c` itself with that subsignature. -/
def declared? (h : Hierarchy) (c : ClassId) (s : Subsignature) : Option MethodId :=
  (h.classes[c.index]?).bind fun k ↦ k.declared.lookup s

def declaredMethod (h : Hierarchy) (c : ClassId) (s : Subsignature) :
    Except UnknownId (Option MethodId) := do
  let k ← h.cls c
  pure (k.declared.lookup s)

def superclassOf (h : Hierarchy) (c : ClassId) : Except UnknownId (Option ClassId) := do
  let k ← h.cls c
  pure k.superclass

def isConcrete (h : Hierarchy) (m : MethodId) : Bool := (h.methods[m.index]?).any (!·.isAbstract)

/-! ## Walks -/

/-- The first `n` classes on the way from `c` up along superclasses. -/
def chain (h : Hierarchy) : Nat → ClassId → List ClassId
  | 0, _ => []
  | n + 1, c =>
    c :: match (h.classes[c.index]?).bind (·.superclass) with
      | none => []
      | some p => h.chain n p

/-- `c` and its superclasses, nearest first. Superclasses have smaller numbers, so there are at most
as many as the number of `c` allows. -/
def ancestry (h : Hierarchy) (c : ClassId) : List ClassId := h.chain (c.index + 1) c

def interfacesOf (h : Hierarchy) (c : ClassId) : List ClassId :=
  ((h.classes[c.index]?).map (·.interfaces)).getD []

/-- The interfaces of `c` and its superclasses, and all that those extend, by breadth. -/
def superinterfaces (h : Hierarchy) (c : ClassId) : List ClassId :=
  Closure.order h.interfacesOf h.classes.size ((h.ancestry c).flatMap h.interfacesOf)

/-- The direct subtypes that can stand in for `c`: subclasses of a class, extending interfaces and
implementing classes of an interface. -/
def directSubtypes (h : Hierarchy) (c : ClassId) : List ClassId :=
  match h.classes[c.index]? with
  | none => []
  | some k => if k.isInterface then k.subinterfaces ++ k.implementors else k.subclasses

/-- `c` and all its subtypes, by breadth. -/
def subtypes (h : Hierarchy) (c : ClassId) : List ClassId :=
  Closure.order h.directSubtypes h.classes.size [c]

/-- The declaration that a reference means: the nearest along superclasses, else the nearest among
their interfaces. -/
def resolve (h : Hierarchy) (r : MethodRef) : Except UnknownId (Option MethodId) := do
  let _ ← h.cls r.cls
  pure <| ((h.ancestry r.cls).findSome? (h.declared? · r.subsignature)).or
    ((h.superinterfaces r.cls).findSome? (h.declared? · r.subsignature))

/-- The method that runs for `s` on an object of class `c`: the nearest along superclasses that is not
abstract. -/
def dispatch (h : Hierarchy) (c : ClassId) (s : Subsignature) : Except UnknownId (Option MethodId) := do
  let _ ← h.cls c
  pure <| (h.ancestry c).findSome? fun a ↦ (h.declared? a s).filter h.isConcrete

/-- The methods that may run for `s` on an object of class `c` or a subtype, each once. -/
def dispatchBelow (h : Hierarchy) (c : ClassId) (s : Subsignature) : Except UnknownId (List MethodId) := do
  let targets ← (h.subtypes c).mapM (h.dispatch · s)
  pure (targets.reduceOption.eraseDups)

end Hierarchy

end PointsTo
