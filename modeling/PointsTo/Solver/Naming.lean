import PointsTo.Context.Selector

/-!
# How a solver names contexts and objects

One solver serves analyses with and without contexts. What differs is which contexts there are, how
objects are named, and how a call chooses the context of its callee; a `Naming` collects just that.
The names given so far are a value of type `σ`, which the solver hands through.
-/

namespace PointsTo

/-- Contexts `C`, objects of kind `e`, and the names `σ` given to them so far. -/
structure Naming (C : Type) (e : Entity) (σ : Type) where
  /-- The context of the entry method. -/
  start : C
  /-- The object that a method allocates at a site. -/
  allocate : Program → σ → MethodIn C → AllocSiteId → Except UnknownId (σ × Id e)
  /-- The context of the callee of a call, given the receiver if there is one. -/
  calleeContext : Program → σ → SiteIn C → Option (Id e) → Except UnknownId (σ × C)
  classOf : σ → Id e → Except UnknownId ClassId
  /-- The taint mark of a source call, as an object of the given class. -/
  mark : σ → CallSiteId → ClassId → σ × Id e
  /-- The source call of a taint mark; `none` for other objects. -/
  sourceOf : σ → Id e → Except UnknownId (Option CallSiteId)

/-- Naming without contexts: objects are named by the heap. -/
def Naming.plain : Naming Unit .object Heap where
  start := ()
  allocate p heap _ site := heap.allocated p site
  calleeContext _ heap _ _ := .ok (heap, ())
  classOf heap o := do
    let object ← heap.object o
    pure object.cls
  mark heap source cls := heap.taint source cls
  sourceOf heap o := heap.sourceOf o

/-- A heap together with the names of contexts and of objects under contexts. -/
structure CsHeap extends CsNames where
  heap : Heap

namespace CsHeap

def allocate (s : Selector) (p : Program) (h : CsHeap) (m : MethodIn ContextId) (site : AllocSiteId) :
    Except UnknownId (CsHeap × CsObjectId) := do
  let (heap, o) ← h.heap.allocated p site
  let (contexts, ctx) ← s.heapContext h.contexts m.ctx
  let (names, i) := CsNames.intern { h.toCsNames with contexts } ⟨ctx, o⟩
  pure (⟨names, heap⟩, i)

def calleeContext (s : Selector) (p : Program) (h : CsHeap) (site : SiteIn ContextId)
    (receiver : Option CsObjectId) : Except UnknownId (CsHeap × ContextId) := do
  let receiver ← receiver.mapM h.object
  let (contexts, ctx) ← s.calleeContext p h.heap h.contexts site receiver
  pure ({ h with contexts }, ctx)

def classOf (h : CsHeap) (i : CsObjectId) : Except UnknownId ClassId := do
  let named ← h.object i
  let object ← h.heap.object named.id
  pure object.cls

/-- Taint marks carry no heap context. -/
def mark (h : CsHeap) (source : CallSiteId) (cls : ClassId) : CsHeap × CsObjectId :=
  let (heap, o) := h.heap.taint source cls
  let (names, i) := h.toCsNames.intern ⟨.empty, o⟩
  (⟨names, heap⟩, i)

def sourceOf (h : CsHeap) (i : CsObjectId) : Except UnknownId (Option CallSiteId) := do
  let named ← h.object i
  h.heap.sourceOf named.id

end CsHeap

/-- Naming with the contexts that a selector chooses. -/
def Naming.selected (s : Selector) : Naming ContextId .csObject CsHeap where
  start := .empty
  allocate := CsHeap.allocate s
  calleeContext := CsHeap.calleeContext s
  classOf := CsHeap.classOf
  mark := CsHeap.mark
  sourceOf := CsHeap.sourceOf

end PointsTo
