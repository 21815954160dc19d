import PointsTo.Program.Basic
import PointsTo.Qualified

/-!
# Call graphs

The methods found reachable and the call edges found between them, in order of discovery and each
once. The same structure serves plain methods and methods under contexts. Adding tells whether the
addition was new, which is how the solvers know that there is more work to do.
-/

namespace PointsTo

/-- A call edge; edges that differ in the kind alone are different. -/
structure Edge (C : Type) where
  kind : CallKind
  site : SiteIn C
  callee : MethodIn C
  deriving DecidableEq, Repr

namespace Edge

variable {C : Type} [Contextual C]

def kindCode : CallKind → Nat
  | .static => 0
  | .special => 1
  | .virtual => 2
  | .interface => 3
  | .dynamic => 4

theorem kindCode_inj {k l : CallKind} (h : kindCode k = kindCode l) : k = l := by
  cases k <;> cases l <;> first | rfl | cases h

instance : Coded (Edge C) where
  code e := kindCode e.kind :: e.site.id.index :: e.callee.id.index ::
    (Coded.code e.site.ctx).length :: (Coded.code e.site.ctx ++ Coded.code e.callee.ctx)
  code_inj {a b} h := by
    obtain ⟨k, ⟨c, i⟩, ⟨d, j⟩⟩ := a
    obtain ⟨k', ⟨c', i'⟩, ⟨d', j'⟩⟩ := b
    simp only [List.cons.injEq, Id.index_inj] at h
    obtain ⟨hk, rfl, rfl, hl, happ⟩ := h
    obtain ⟨hc, hd⟩ := List.append_inj happ hl
    rw [kindCode_inj hk, Coded.code_inj hc, Coded.code_inj hd]

end Edge

structure CallGraph (C : Type) [Contextual C] where
  entries : List (MethodIn C) := []
  reachable : Table (MethodIn C) Unit := ∅
  edges : Table (Edge C) Unit := ∅
  /-- The callees of each call site that has some, each once. -/
  callees : Table (SiteIn C) (List (MethodIn C)) := ∅
  /-- The call sites of each method that has some, each once. -/
  callers : Table (MethodIn C) (List (SiteIn C)) := ∅

namespace CallGraph

variable {C : Type} [Contextual C]

/-- Appends `a` unless the list has it. -/
def enter {α : Type} [DecidableEq α] (a : α) (as : List α) : List α := if a ∈ as then as else as ++ [a]

def addEntry (g : CallGraph C) (m : MethodIn C) : CallGraph C :=
  { g with entries := enter m g.entries }

/-- Makes `m` reachable; the flag tells whether it was not before. -/
def addReachable (g : CallGraph C) (m : MethodIn C) : CallGraph C × Bool :=
  ({ g with reachable := (g.reachable.intern m ()).1 }, !g.reachable.contains m)

def contains (g : CallGraph C) (m : MethodIn C) : Bool := g.reachable.contains m

/-- Adds a call edge; the flag tells whether it is new. -/
def addEdge (g : CallGraph C) (e : Edge C) : CallGraph C × Bool :=
  if g.edges.contains e then (g, false)
  else
    ({ g with
        edges := (g.edges.intern e ()).1
        callees := g.callees.alter e.site [] (enter e.callee)
        callers := g.callers.alter e.callee [] (enter e.site) },
      true)

/-- The reachable methods in order of discovery. -/
def methods (g : CallGraph C) : List (MethodIn C) := g.reachable.keys

/-- The edges in order of discovery. -/
def edgeList (g : CallGraph C) : List (Edge C) := g.edges.keys

def calleesOf (g : CallGraph C) (s : SiteIn C) : List (MethodIn C) := (g.callees.get? s).getD []

def callersOf (g : CallGraph C) (m : MethodIn C) : List (SiteIn C) := (g.callers.get? m).getD []

end CallGraph

/-- The call sites of a method, under its context. -/
def Program.sitesIn {C : Type} (p : Program) (m : MethodIn C) : List (SiteIn C) :=
  (p.callSitesIn m.id).map fun c ↦ ⟨m.ctx, c⟩

/-- The method that contains a call site, under its context. -/
def Program.callerOf {C : Type} (p : Program) (s : SiteIn C) : Except UnknownId (MethodIn C) := do
  let site ← p.callSite s.id
  pure ⟨s.ctx, site.container⟩

/-- A method's signature, marked by its context. -/
def Program.methodLabel {C : Type} [Contextual C] (p : Program) (m : MethodIn C) :
    Except UnknownId String := do
  let signature ← p.hierarchy.signature m.id
  pure (Contextual.mark m.ctx ++ signature)

end PointsTo
