import PointsTo.Proofs.FlowGraph
import PointsTo.Proofs.Inference
import PointsTo.Result.View

/-!
# What a solver's numbers mean

A run gives numbers to objects and contexts in the order in which it meets them. A `Meaning` reads
them back: which context and which object a number stands for, given the names handed out so far.
`State.facts` are the facts that a solver state amounts to when its numbers are read that way; they
are what two runs with different numbers can be compared by.

`Meaning.Lawful` says that a naming does what a domain says: names are unambiguous, never change
their meaning, and every operation on names answers and means what the domain's operation gives.
-/

namespace PointsTo

/-- How the numbers of contexts and objects are read, given the names `σ`. -/
structure Meaning (C : Type) (e : Entity) (σ K O : Type) where
  ctx : σ → C → Option K
  obj : σ → Id e → Option O

namespace Meaning

variable {C : Type} {e : Entity} {σ K O : Type}

/-- The place that a pointer stands for. -/
def place (M : Meaning C e σ K O) (n : σ) : Pointer C e → Option (Place K O)
  | .var c v => (M.ctx n c).map (.var · v)
  | .staticField f => some (.staticField f)
  | .instanceField o f => (M.obj n o).map (.instanceField · f)
  | .arrayIndex o => (M.obj n o).map .arrayIndex

/-- Every name of `n` means the same in `n'`. -/
structure Grows (M : Meaning C e σ K O) (n n' : σ) : Prop where
  ctx : ∀ {c k}, M.ctx n c = some k → M.ctx n' c = some k
  obj : ∀ {o x}, M.obj n o = some x → M.obj n' o = some x

variable {M : Meaning C e σ K O} {n n' n'' : σ}

theorem Grows.refl (M : Meaning C e σ K O) (n : σ) : M.Grows n n := ⟨id, id⟩

theorem Grows.trans (h : M.Grows n n') (h' : M.Grows n' n'') : M.Grows n n'' :=
  ⟨fun hc ↦ h'.ctx (h.ctx hc), fun ho ↦ h'.obj (h.obj ho)⟩

theorem Grows.place (h : M.Grows n n') {p : Pointer C e} {P : Place K O}
    (hp : M.place n p = some P) : M.place n' p = some P := by
  cases p with
  | var c v =>
    obtain ⟨k, hk, rfl⟩ := Option.map_eq_some_iff.1 hp
    exact Option.map_eq_some_iff.2 ⟨k, h.ctx hk, rfl⟩
  | staticField f => exact hp
  | instanceField o f =>
    obtain ⟨x, hx, rfl⟩ := Option.map_eq_some_iff.1 hp
    exact Option.map_eq_some_iff.2 ⟨x, h.obj hx, rfl⟩
  | arrayIndex o =>
    obtain ⟨x, hx, rfl⟩ := Option.map_eq_some_iff.1 hp
    exact Option.map_eq_some_iff.2 ⟨x, h.obj hx, rfl⟩

theorem place_var_iff {c : C} {v : VarId} {P : Place K O} :
    M.place n (.var c v) = some P ↔ ∃ k, M.ctx n c = some k ∧ P = .var k v := by
  simp [place, eq_comm]

theorem place_var {c : C} {v : VarId} {k : K} (h : M.ctx n c = some k) :
    M.place n (.var c v) = some (.var k v) :=
  place_var_iff.2 ⟨k, h, rfl⟩

theorem place_instanceField {o : Id e} {f : FieldId} {x : O} (h : M.obj n o = some x) :
    M.place n (.instanceField o f) = some (.instanceField x f) := by
  simp [place, h]

theorem place_arrayIndex {o : Id e} {x : O} (h : M.obj n o = some x) :
    M.place n (.arrayIndex o) = some (.arrayIndex x) := by
  simp [place, h]

/-- The receiver of a call, if there is one, means `x`. -/
def Receives (M : Meaning C e σ K O) (n : σ) (o : Option (Id e)) (x : Option O) : Prop :=
  o.map (M.obj n) = x.map some

theorem Receives.some_iff {o : Id e} {x : O} :
    M.Receives n (some o) (some x) ↔ M.obj n o = some x := by
  simp [Receives]

theorem receives_none : M.Receives n none none := rfl

theorem Receives.mono (h : M.Grows n n') {o : Option (Id e)} {x : Option O}
    (hr : M.Receives n o x) : M.Receives n' o x := by
  cases o with
  | none => exact hr
  | some o =>
    cases x with
    | none => simp [Receives] at hr
    | some x => exact some_iff.2 (h.obj (some_iff.1 hr))

/-- The naming `N` does for the program `p` what the domain `D` says, as long as names are valid. -/
structure Lawful (M : Meaning C e σ K O) (N : Naming C e σ) (p : Program) (D : Domain K O)
    (Valid : σ → Prop) : Prop where
  ctx_inj : ∀ {n c c' k}, Valid n → M.ctx n c = some k → M.ctx n c' = some k → c = c'
  obj_inj : ∀ {n o o' x}, Valid n → M.obj n o = some x → M.obj n o' = some x → o = o'
  start : ∀ {n}, Valid n → M.ctx n N.start = some D.start
  allocate : ∀ {n m a k site}, Valid n → M.ctx n m.ctx = some k → p.allocSite a = .ok site →
    ∃ n' o, N.allocate p n m a = .ok (n', o) ∧ Valid n' ∧ M.Grows n n' ∧
      M.obj n' o = some (D.allocate k a site)
  calleeContext : ∀ {n id k receiver x}, Valid n → M.ctx n id.ctx = some k →
    M.Receives n receiver x →
    ∃ n' c, N.calleeContext p n id receiver = .ok (n', c) ∧ Valid n' ∧ M.Grows n n' ∧
      M.ctx n' c = some (D.calleeContext k id.id x)
  classOf : ∀ {n o x}, Valid n → M.obj n o = some x → N.classOf n o = .ok (D.classOf x)
  mark : ∀ {n} (source cls), Valid n → Valid (N.mark n source cls).1 ∧
    M.Grows n (N.mark n source cls).1 ∧
    M.obj (N.mark n source cls).1 (N.mark n source cls).2 = some (D.mark source cls)
  sourceOf : ∀ {n o x}, Valid n → M.obj n o = some x → N.sourceOf n o = .ok (D.sourceOf x)

/-- Two pointers that stand for the same place are the same. -/
theorem Lawful.place_inj {N : Naming C e σ} {p : Program} {D : Domain K O} {Valid : σ → Prop}
    (laws : M.Lawful N p D Valid) (hn : Valid n) {a b : Pointer C e} {P : Place K O}
    (ha : M.place n a = some P) (hb : M.place n b = some P) : a = b := by
  cases a <;> cases b <;>
    simp only [place, Option.map_eq_some_iff, Option.some.injEq] at ha hb
  case var.var c v c' v' =>
    obtain ⟨k, hk, rfl⟩ := ha
    obtain ⟨k', hk', heq⟩ := hb
    obtain ⟨rfl, rfl⟩ := Place.var.inj heq
    rw [laws.ctx_inj hn hk hk']
  case staticField.staticField f f' =>
    obtain rfl := Place.staticField.inj (ha.trans hb.symm)
    rfl
  case instanceField.instanceField o f o' f' =>
    obtain ⟨x, hx, rfl⟩ := ha
    obtain ⟨x', hx', heq⟩ := hb
    obtain ⟨rfl, rfl⟩ := Place.instanceField.inj heq
    rw [laws.obj_inj hn hx hx']
  case arrayIndex.arrayIndex o o' =>
    obtain ⟨x, hx, rfl⟩ := ha
    obtain ⟨x', hx', heq⟩ := hb
    obtain rfl := Place.arrayIndex.inj heq
    rw [laws.obj_inj hn hx hx']
  all_goals grind

end Meaning

namespace State

variable {C : Type} [Contextual C] {e : Entity} {σ K O : Type}

/-- The facts that a state amounts to. -/
def facts (M : Meaning C e σ K O) (s : State C e σ) : Facts K O where
  pts P x := ∃ p o, M.place s.names p = some P ∧ M.obj s.names o = some x ∧ s.flow.Points p o
  reaches m := ∃ c, M.ctx s.names c = some m.ctx ∧ s.calls.contains ⟨c, m.id⟩ = true
  calls e := ∃ c c', M.ctx s.names c = some e.site.ctx ∧ M.ctx s.names c' = some e.callee.ctx ∧
    s.calls.edges.contains ⟨e.kind, ⟨c, e.site.id⟩, ⟨c', e.callee.id⟩⟩ = true

end State

/-! ## The two readings -/

/-- The object that a number stands for in a heap. -/
def Heap.get? (h : Heap) (o : ObjectId) : Option AbstractObject := h.objects.value? o.index

/-- Without contexts, a number stands for an object of the heap. -/
def Meaning.plain : Meaning Unit .object Heap Unit AbstractObject where
  ctx _ c := some c
  obj := Heap.get?

namespace ContextElem

/-- An element of a context, with the object in place of its number. -/
def step (heap : Heap) : ContextElem → Option ContextStep
  | callSite c => some (.callSite c)
  | object o => (heap.get? o).map .object
  | cls c => some (.cls c)

end ContextElem

namespace CsHeap

/-- The sequence that a context stands for. -/
def steps (n : CsHeap) (c : ContextId) : Option (List ContextStep) :=
  (n.contexts.sequences.key? c.index).bind fun es ↦ es.mapM (ContextElem.step n.heap)

/-- The object that a number stands for, together with its heap context. -/
def heapObject (n : CsHeap) (i : CsObjectId) : Option HeapObject :=
  (n.objects.key? i.index).bind fun named ↦
    (n.steps named.ctx).bind fun ctx ↦ (n.heap.get? named.id).map fun object ↦ ⟨ctx, object⟩

end CsHeap

/-- With contexts, a number stands for a sequence, or for an object under a heap context. -/
def Meaning.selected : Meaning ContextId .csObject CsHeap (List ContextStep) HeapObject where
  ctx := CsHeap.steps
  obj := CsHeap.heapObject

end PointsTo
