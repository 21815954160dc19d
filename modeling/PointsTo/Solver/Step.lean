import PointsTo.Solver.Naming
import PointsTo.Solver.State
import PointsTo.Taint.Rules

/-!
# Steps of a solver

What one item of pending work entails. Looking at a method sends the objects it allocates, links the
pointers it assigns and makes its static calls. An object that arrives at a variable links the fields
and array slots accessed through the variable, and makes the calls on it. With a taint plan, calls of
sources send taint marks to their results, and transfers are repeated whenever taint arrives at an
operand.
-/

namespace PointsTo

/-- What stays fixed while a solver runs. -/
structure Setup (C : Type) (e : Entity) (σ : Type) where
  program : Program
  naming : Naming C e σ
  taint : Option TaintPlan := none

namespace Setup

variable {C : Type} [Contextual C] {e : Entity} {σ : Type}

/-- The flows of a call: arguments to parameters, then returned variables to the result. -/
def callFlows (S : Setup C e σ) (site : CallSite) (ctx : C) (callee : MethodIn C) :
    List (Pointer C e × Pointer C e) :=
  match S.program.body callee.id with
  | none => []
  | some body =>
    (site.args.zip body.params).map (fun (a, q) ↦ (.var ctx a, .var callee.ctx q)) ++
      match site.result with
      | none => []
      | some r => body.returnVars.map fun v ↦ (.var callee.ctx v, .var ctx r)

/-- The flows that an object `o` entails when it arrives at a variable with the given index. -/
def accessFlows (index : VarIndex) (ctx : C) (o : Id e) : List (Pointer C e × Pointer C e) :=
  index.storeFields.map (fun s ↦ (.var ctx s.rhs, .instanceField o s.field)) ++
  index.loadFields.map (fun l ↦ (.instanceField o l.field, .var ctx l.lhs)) ++
  index.storeArrays.map (fun rhs ↦ (.var ctx rhs, .arrayIndex o)) ++
  index.loadArrays.map (fun lhs ↦ (.arrayIndex o, .var ctx lhs))

/-! ## Taint -/

/-- Sends the taint mark of a call to its result, if the callee is a source. -/
def letIn (S : Setup C e σ) (id : SiteIn C) (site : CallSite) (callee : MethodId) (s : State C e σ) :
    State C e σ :=
  match S.taint.bind (·.sourceClass? callee), site.result with
  | some cls, some result =>
    let (names, o) := S.naming.mark s.names id.id cls
    { s with names }.seed (.var id.ctx result) o
  | _, _ => s

/-- Hands the mark `o` on to a variable, as an object of class `cls`; other objects stay behind. -/
def handOn (S : Setup C e σ) (ctx : C) (target : VarId) (cls : ClassId) (s : State C e σ)
    (o : Id e) : Except UnknownId (State C e σ) := do
  match ← S.naming.sourceOf s.names o with
  | none => pure s
  | some source =>
    let (names, mark) := S.naming.mark s.names source cls
    pure ({ s with names }.seed (.var ctx target) mark)

/-- Hands on the taint of a call by one rule. -/
def applyTransfer (S : Setup C e σ) (t : TransferSite C) (site : CallSite) (s : State C e σ)
    (rule : Transfer) : Except UnknownId (State C e σ) :=
  match rule.source.operand site t.base, rule.target.operand site t.base with
  | some source, some target =>
    (s.varPointsTo t.site.ctx source).toList.foldlM (S.handOn t.site.ctx target rule.cls) s
  | _, _ => .ok s

/-- Hands on the taint of a call by all rules for its callee, and watches its operands. -/
def transfer (S : Setup C e σ) (t : TransferSite C) (s : State C e σ) :
    Except UnknownId (State C e σ) := do
  match S.taint with
  | none => pure s
  | some plan =>
    let site ← S.program.callSite t.site.id
    let s := s.watch t (site.args ++ t.base.toList)
    (plan.transfersOf t.callee).foldlM (S.applyTransfer t site) s

/-- Looks again at the calls that watch a variable, if one of the objects arriving there is a mark. -/
def taintArrives (S : Setup C e σ) (ctx : C) (v : VarId) (added : PointsToSet e) (s : State C e σ) :
    Except UnknownId (State C e σ) := do
  match S.taint with
  | none => pure s
  | some _ =>
    let sources ← added.toList.mapM (S.naming.sourceOf s.names)
    if sources.any Option.isSome then
      ((s.watchers.get? ⟨ctx, v⟩).getD []).foldlM (fun s t ↦ S.transfer t s) s
    else pure s

/-! ## Calls and statements -/

/-- Enters a call edge. A new one makes the callee reachable and binds its parameters and result. -/
def connect (S : Setup C e σ) (id : SiteIn C) (site : CallSite) (callee : MethodIn C)
    (s : State C e σ) : State C e σ :=
  let (calls, fresh) := s.calls.addEdge ⟨site.kind, id, callee⟩
  let s := { s with calls }
  if fresh then (s.reach callee).linkAll (S.callFlows site id.ctx callee) else s

/-- Sends the receiver of a call, if there is one, to the callee. -/
def sendReceiver (S : Setup C e σ) (callee : MethodIn C) (receiver : Option (Id e))
    (s : State C e σ) : State C e σ :=
  match receiver, S.program.thisVar callee.id with
  | some o, some this => s.seed (.var callee.ctx this) o
  | _, _ => s

/-- Makes a call on a known callee, with the variable called through and the receiver if there is one:
the receiver is sent to the callee first, then comes the mark of a source, then the call edge. -/
def call (S : Setup C e σ) (id : SiteIn C) (callee : MethodId) (receiver : Option (VarId × Id e))
    (s : State C e σ) : Except UnknownId (State C e σ) := do
  let site ← S.program.callSite id.id
  let (names, ctx) ← S.naming.calleeContext S.program s.names id (receiver.map Prod.snd)
  let s := S.sendReceiver ⟨ctx, callee⟩ (receiver.map Prod.snd) { s with names }
  let s := S.connect id site ⟨ctx, callee⟩ (S.letIn id site callee s)
  S.transfer ⟨id, callee, receiver.map Prod.fst⟩ s

/-- Makes a call that needs no receiver, if it resolves. -/
def staticCall (S : Setup C e σ) (id : SiteIn C) (s : State C e σ) : Except UnknownId (State C e σ) := do
  match ← S.program.callee none id.id with
  | none => pure s
  | some callee => S.call id callee none s

/-- Makes a call on an object of class `cls` that arrived at `v`, if it resolves. -/
def receiverCall (S : Setup C e σ) (ctx : C) (v : VarId) (o : Id e) (cls : ClassId) (s : State C e σ)
    (c : CallSiteId) : Except UnknownId (State C e σ) := do
  match ← S.program.callee (some cls) c with
  | none => pure s
  | some callee => S.call ⟨ctx, c⟩ callee (some (v, o)) s

/-- Looks at a statement of a method. Accesses and calls that need an object wait for one. -/
def processStmt (S : Setup C e σ) (m : MethodIn C) (s : State C e σ) :
    Stmt → Except UnknownId (State C e σ)
  | .alloc lhs site => do
    let (names, o) ← S.naming.allocate S.program s.names m site
    pure ({ s with names }.seed (.var m.ctx lhs) o)
  | .copy lhs rhs => pure (s.link (.var m.ctx rhs) (.var m.ctx lhs))
  | .loadStatic lhs field => pure (s.link (.staticField field) (.var m.ctx lhs))
  | .storeStatic field rhs => pure (s.link (.var m.ctx rhs) (.staticField field))
  | .invoke c => do
    let site ← S.program.callSite c
    if site.kind = .static then S.staticCall ⟨m.ctx, c⟩ s else pure s
  | _ => pure s

def processMethod (S : Setup C e σ) (m : MethodIn C) (s : State C e σ) :
    Except UnknownId (State C e σ) :=
  match S.program.body m.id with
  | none => .ok s
  | some body => body.stmts.foldlM (S.processStmt m) s

/-- An object arrives at a variable. -/
def objectArrives (S : Setup C e σ) (ctx : C) (v : VarId) (s : State C e σ) (o : Id e) :
    Except UnknownId (State C e σ) := do
  let info ← S.program.var v
  let s := s.linkAll (accessFlows info.index ctx o)
  let cls ← S.naming.classOf s.names o
  info.index.invokes.foldlM (S.receiverCall ctx v o cls) s

/-- Objects on their way to a pointer arrive. Those that are new there are sent on to its successors
before anything else. -/
def processObjects (S : Setup C e σ) (i : PointerId) (delta : PointsToSet e) (s : State C e σ) :
    Except UnknownId (State C e σ) := do
  let (flow, added) ← s.flow.propagate i delta
  let (pointer, node) ← flow.entry i
  let s := { s with flow }
  if added.isEmpty then pure s
  else
    let pending := node.succs.foldl (fun w j ↦ w.push (.propagate j added)) s.pending
    let s := { s with pending, propagations := s.propagations + 1 }
    match pointer with
    | .var ctx v =>
      let s ← added.toList.foldlM (S.objectArrives ctx v) s
      S.taintArrives ctx v added s
    | _ => pure s

/-- Does one piece of work. -/
def process (S : Setup C e σ) (s : State C e σ) : WorkItem C e → Except UnknownId (State C e σ)
  | .propagate i delta => S.processObjects i delta s
  | .reach m => S.processMethod m s

end Setup

end PointsTo
