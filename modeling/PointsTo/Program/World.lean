import PointsTo.Program.Basic

/-!
# Worlds

A world is a program with an entry method, checked once before any analysis: the entry can run, every
method that can run has a body, and every call that is not dynamic names a method which takes as many
arguments as the call passes.
-/

namespace PointsTo

/-- Why a program and an entry do not make a world. -/
inductive WorldError where
  | unknownId (id : UnknownId)
  | unknownEntry (entry : MethodId)
  | abstractEntry (signature : String)
  | missingBody (signature : String)
  | unresolvedCall (site : CallSiteId) (caller reference : String)
  | arityMismatch (site : CallSiteId) (caller callee : String) (expected found : Nat)
  deriving DecidableEq, Repr

namespace WorldError

/-- The wording of an error; an unknown identifier has none. -/
def message : WorldError → Option String
  | unknownId _ => none
  | unknownEntry entry => some ("Invalid entry method " ++ entry.text ++ ": unknown method")
  | abstractEntry signature =>
    some ("Invalid entry method " ++ signature ++ ": method is abstract")
  | missingBody signature => some ("Concrete method " ++ signature ++ " has no body")
  | unresolvedCall site caller reference =>
    some ("Unresolvable method reference " ++ reference ++ " at " ++ site.text ++ " in " ++ caller)
  | arityMismatch site caller callee expected found =>
    some ("Arity mismatch at " ++ site.text ++ " in " ++ caller ++ ": " ++ callee ++ " expects "
      ++ toString expected ++ " argument(s), got " ++ toString found)

end WorldError

structure World where
  program : Program
  entry : MethodId

namespace World

/-- A failure to read the program, as an error of the check. -/
def read {α : Type} (x : Except UnknownId α) : Except WorldError α := x.mapError .unknownId

def checkEntry (p : Program) (entry : MethodId) : Except WorldError Unit := do
  match p.hierarchy.methods[entry.index]? with
  | none => .error (.unknownEntry entry)
  | some m =>
    if m.isAbstract then .error (.abstractEntry (← read (p.hierarchy.signature entry))) else pure ()

def checkBody (p : Program) (m : MethodId) : Except WorldError Unit := do
  if p.hierarchy.isConcrete m && (p.body m).isNone then
    .error (.missingBody (← read (p.hierarchy.signature m)))

/-- A target without a body has no parameters to compare with. -/
def checkCall (p : Program) (c : CallSiteId) : Except WorldError Unit := do
  let site ← read (p.callSite c)
  if site.kind = .dynamic then pure ()
  else
    let h := p.hierarchy
    let named ← read (h.cls site.target.cls)
    let caller ← read (h.signature site.container)
    match ← read (h.resolve site.target) with
    | none =>
      .error (.unresolvedCall c caller (Hierarchy.signatureText named.name site.target.subsignature))
    | some m =>
      match p.body m with
      | none => pure ()
      | some body =>
        if body.params.length = site.args.length then pure ()
        else
          let callee ← read (h.signature m)
          .error (.arityMismatch c caller callee body.params.length site.args.length)

/-- The world of a program and an entry. The entry is checked first, then bodies, then calls. -/
def of (p : Program) (entry : MethodId) : Except WorldError World := do
  checkEntry p entry
  p.hierarchy.methodIds.forM (checkBody p)
  p.callSiteIds.forM (checkCall p)
  pure ⟨p, entry⟩

end World

end PointsTo
