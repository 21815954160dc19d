import PointsTo.Context.Basic
import PointsTo.Heap

/-!
# Context selection

A selector decides under which context a callee is analysed and under which heap context an object is
allocated. Heap contexts are always the last `hk` elements of the allocating method's context.

* `insensitive`: no contexts at all.
* `callSite`: the caller's context followed by the call site.
* `object`: the receiver's heap context followed by the receiver.
* `type`: the receiver's heap context followed by the class whose method allocated the receiver.

A static call has no receiver; under `object` and `type` its callee inherits the caller's context.
-/

namespace PointsTo

/-- What the elements of contexts are. -/
inductive Strategy where
  | insensitive
  | callSite
  | object
  | type
  deriving DecidableEq, Repr

/-- A strategy with the lengths of method contexts and of heap contexts. -/
structure Selector where
  strategy : Strategy
  k : Nat
  hk : Nat
  deriving DecidableEq, Repr

namespace Selector

/-- The context of an object allocated by a method under the context `caller`. -/
def heapContext (s : Selector) (t : ContextTable) (caller : ContextId) :
    Except UnknownId (ContextTable × ContextId) :=
  match s.strategy with
  | .insensitive => .ok (t, .empty)
  | _ => t.truncate caller s.hk

/-- The class of the method that allocated an object, or the object's own class if none did. -/
def allocator (p : Program) (heap : Heap) (o : ObjectId) : Except UnknownId ClassId := do
  let object ← heap.object o
  match object.container with
  | some m => pure (← p.hierarchy.method m).cls
  | none => pure object.cls

/-- The context of the callee of a call. -/
def calleeContext (s : Selector) (p : Program) (heap : Heap) (t : ContextTable)
    (site : SiteIn ContextId) (receiver : Option CsObject) :
    Except UnknownId (ContextTable × ContextId) := do
  match s.strategy, receiver with
  | .insensitive, _ => pure (t, .empty)
  | .callSite, _ => t.append site.ctx (.callSite site.id) s.k
  | .object, some o => t.append o.ctx (.object o.id) s.k
  | .type, some o => t.append o.ctx (.cls (← allocator p heap o.id)) s.k
  | .object, none | .type, none => pure (t, site.ctx)

end Selector

end PointsTo
