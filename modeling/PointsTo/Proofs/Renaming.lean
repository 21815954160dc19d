import PointsTo.Proofs.State
import Mathlib.Data.List.Basic

/-!
# States up to renaming

Two solvers may give the same numbers to different things: one to objects and one to objects under
contexts, one to methods and one to methods under contexts. If the things of one are those of the other
renamed, whatever is done to both alike keeps them so. `State.Renames` says it of states, with the
names themselves compared by a relation `ρ`; it is built from the same statement about tables, flow
graphs, call graphs and worklists.
-/

namespace PointsTo

/-! ## Renaming -/

/-- The same number, of another kind. -/
def Id.recast {e : Entity} (e' : Entity) (i : Id e) : Id e' := ⟨i.index⟩

theorem Id.recast_injective (e e' : Entity) : Function.Injective (Id.recast e' : Id e → Id e') := by
  intro i j h
  obtain ⟨n⟩ := i
  obtain ⟨m⟩ := j
  exact congrArg Id.mk (Id.mk.inj h)

section

variable {C C' : Type} {e : Entity} (f : C → C') (e' : Entity)

def Qualified.rename (q : Qualified C e) : Qualified C' e := ⟨f q.ctx, q.id⟩

def Edge.rename (edge : Edge C) : Edge C' := ⟨edge.kind, edge.site.rename f, edge.callee.rename f⟩

def Pointer.rename : Pointer C e → Pointer C' e'
  | .var c v => .var (f c) v
  | .staticField field => .staticField field
  | .instanceField o field => .instanceField (o.recast e') field
  | .arrayIndex o => .arrayIndex (o.recast e')

def PointsToSet.recast (s : PointsToSet e) : PointsToSet e' := ⟨s.ids⟩

def FlowNode.recast (n : FlowNode e) : FlowNode e' := ⟨n.pts.recast e', n.succs⟩

def WorkItem.rename : WorkItem C e → WorkItem C' e'
  | .propagate i delta => .propagate i (delta.recast e')
  | .reach m => .reach (m.rename f)

variable {f}

theorem Qualified.rename_injective (hf : Function.Injective f) :
    Function.Injective (Qualified.rename f : Qualified C e → Qualified C' e) := by
  intro a b h
  obtain ⟨hctx, hid⟩ := Qualified.mk.inj h
  obtain ⟨c, i⟩ := a
  obtain ⟨d, j⟩ := b
  exact congr (congrArg Qualified.mk (hf hctx)) hid

theorem Edge.rename_injective (hf : Function.Injective f) : Function.Injective (Edge.rename f) := by
  intro a b h
  obtain ⟨hkind, hsite, hcallee⟩ := Edge.mk.inj h
  obtain ⟨k, s, m⟩ := a
  obtain ⟨k', s', m'⟩ := b
  obtain rfl : k = k' := hkind
  obtain rfl : s = s' := Qualified.rename_injective hf hsite
  obtain rfl : m = m' := Qualified.rename_injective hf hcallee
  rfl

theorem Pointer.rename_injective (hf : Function.Injective f) :
    Function.Injective (Pointer.rename f e' : Pointer C e → Pointer C' e') := by
  intro a b h
  cases a <;> cases b <;> simp only [rename, Pointer.var.injEq, Pointer.staticField.injEq,
    Pointer.instanceField.injEq, Pointer.arrayIndex.injEq, reduceCtorEq] at h
  case var.var c v d w => rw [hf h.1, h.2]
  case staticField.staticField => rw [h]
  case instanceField.instanceField o g o' g' => rw [Id.recast_injective e e' h.1, h.2]
  case arrayIndex.arrayIndex => rw [Id.recast_injective e e' h]

theorem PointsToSet.toList_recast (s : PointsToSet e) :
    (s.recast e').toList = s.toList.map (Id.recast e') := by
  simp [toList, recast, Id.recast]

end

/-! ## Tables -/

namespace Table

variable {κ κ' ν ν' : Type} [Coded κ] [Coded κ']

/-- The table `t'` has the entries of `t`, renamed and in the same order. -/
def Renames (h : κ → κ') (g : ν → ν') (t : Table κ ν) (t' : Table κ' ν') : Prop :=
  t'.toList = t.toList.map (Prod.map h g)

theorem nth?_eq_getElem? (t : Table κ ν) (i : Nat) : t.nth? i = t.toList[i]? := by
  simp [nth?, toList]

variable {h : κ → κ'} {g : ν → ν'} {t : Table κ ν} {t' : Table κ' ν'}

theorem renames_iff : Renames h g t t' ↔ ∀ i, t'.nth? i = (t.nth? i).map (Prod.map h g) := by
  unfold Renames
  rw [List.ext_getElem?_iff]
  simp only [nth?_eq_getElem?, List.getElem?_map]

theorem renames_empty : Renames h g (∅ : Table κ ν) (∅ : Table κ' ν') :=
  renames_iff.2 fun i ↦ by simp

namespace Renames

variable (hr : Renames h g t t')

include hr

theorem size : t'.size = t.size := by
  have hlength := congrArg List.length (show t'.toList = t.toList.map (Prod.map h g) from hr)
  simpa [toList, Table.size] using hlength

theorem key? (i : Nat) : t'.key? i = (t.key? i).map h := by
  unfold Table.key?
  rw [renames_iff.1 hr i, Option.map_map, Option.map_map]
  rfl

theorem keys : t'.keys = t.keys.map h := by
  unfold Table.keys
  rw [show t'.toList = t.toList.map (Prod.map h g) from hr, List.map_map, List.map_map]
  rfl

variable (hinj : Function.Injective h)

include hinj

theorem find? (k : κ) : t'.find? (h k) = t.find? k := by
  apply Option.ext
  intro i
  rw [find?_eq_some_iff, find?_eq_some_iff, hr.key?, Option.map_eq_some_iff]
  constructor
  · rintro ⟨k', hk', heq⟩
    rwa [← hinj heq]
  · intro hk
    exact ⟨k, hk, rfl⟩

theorem contains (k : κ) : t'.contains (h k) = t.contains k := by
  unfold Table.contains
  rw [hr.find? hinj]

theorem get? (k : κ) : t'.get? (h k) = (t.get? k).map g := by
  unfold Table.get?
  rw [hr.find? hinj, Option.map_bind]
  congr 1
  funext i
  simp only [value?, renames_iff.1 hr i, Option.map_map, Function.comp_def, Prod.map_snd]

/-- Interning gives the same number in both tables. -/
theorem intern (k : κ) (v : ν) :
    Renames h g (t.intern k v).1 (t'.intern (h k) (g v)).1 ∧
      (t'.intern (h k) (g v)).2 = (t.intern k v).2 := by
  have hfind := hr.find? hinj k
  cases hk : t.find? k with
  | some i =>
    rw [hk] at hfind
    rw [intern_of_find? hk, intern_of_find? hfind]
    exact ⟨hr, rfl⟩
  | none =>
    rw [hk] at hfind
    rw [intern_of_fresh hk, intern_of_fresh hfind]
    refine ⟨?_, hr.size⟩
    unfold Renames
    rw [toList_push, toList_push, List.map_append, show t'.toList = _ from hr]
    rfl

omit hinj in
theorem modify (i : Nat) {u : ν → ν} {u' : ν' → ν'} (hu : ∀ v, g (u v) = u' (g v)) :
    Renames h g (t.modify i u) (t'.modify i u') := by
  rw [renames_iff]
  intro j
  rw [nth?_modify, nth?_modify, renames_iff.1 hr, Option.map_map, Option.map_map]
  congr 1
  funext entry
  by_cases hij : i = j
  · simp [hij, hu]
  · simp [hij]

theorem alter (k : κ) (v : ν) {u : ν → ν} {u' : ν' → ν'} (hu : ∀ v, g (u v) = u' (g v)) :
    Renames h g (t.alter k v u) (t'.alter (h k) (g v) u') := by
  obtain ⟨hintern, hnumber⟩ := hr.intern hinj k v
  change Renames h g ((t.intern k v).1.modify (t.intern k v).2 u)
    ((t'.intern (h k) (g v)).1.modify (t'.intern (h k) (g v)).2 u')
  rw [hnumber]
  exact hintern.modify _ hu

end Renames

end Table

/-! ## Worklists -/

namespace WorkList

variable {α β : Type} (g : α → β)

/-- The same items in the same order, renamed. -/
def map (w : WorkList α) : WorkList β := ⟨w.order, w.front.map g, w.back.map g⟩

theorem map_push (w : WorkList α) (a : α) : (w.push a).map g = (w.map g).push (g a) := by
  simp [map, push]

theorem poll_map (w : WorkList α) : (w.map g).poll = w.poll.map (Prod.map g (map g)) := by
  obtain ⟨order, front, back⟩ := w
  cases order with
  | fifo =>
    cases front with
    | cons a front => rfl
    | nil =>
      simp only [map, poll, takeFirst, List.map_nil, ← List.map_reverse]
      cases back.reverse with
      | nil => rfl
      | cons a front => rfl
  | lifo =>
    cases back with
    | cons a back => rfl
    | nil =>
      simp only [map, poll, takeLast, List.map_nil, ← List.map_reverse]
      cases front.reverse with
      | nil => rfl
      | cons a back => rfl

end WorkList

/-! ## Flow graphs -/

section

variable {C C' : Type} [Contextual C] [Contextual C'] {e e' : Entity} {f : C → C'}

/-- The nodes of `g'` are those of `g`, renamed, with the same numbers. -/
def FlowGraph.Renames (f : C → C') (g : FlowGraph C e) (g' : FlowGraph C' e') : Prop :=
  g.nodes.Renames (Pointer.rename f e') (FlowNode.recast e') g'.nodes

namespace FlowGraph.Renames

variable {g : FlowGraph C e} {g' : FlowGraph C' e'} (hg : g.Renames f g')

include hg

theorem entry (i : PointerId) :
    g'.entry i = (g.entry i).map (Prod.map (Pointer.rename f e') (FlowNode.recast e')) := by
  unfold FlowGraph.entry
  rw [Table.renames_iff.1 hg]
  cases g.nodes.nth? i.index <;> rfl

theorem toList : g'.toList = g.toList.map (Prod.map (Pointer.rename f e') (PointsToSet.recast e')) := by
  unfold FlowGraph.toList
  rw [show g'.nodes.toList = _ from hg, List.map_map, List.map_map]
  rfl

theorem nodeCount : g'.nodeCount = g.nodeCount := Table.Renames.size hg

theorem edgeCount : g'.edgeCount = g.edgeCount := by
  unfold FlowGraph.edgeCount
  rw [show g'.nodes.toList = _ from hg, List.foldl_map]
  rfl

/-- Adding an edge succeeds in both graphs or in none, and is new in both or in none. -/
theorem addEdge (i j : PointerId) :
    (∃ k k' b, g.addEdge i j = .ok (k, b) ∧ g'.addEdge i j = .ok (k', b) ∧ k.Renames f k') ∨
      ∃ u, g.addEdge i j = .error u ∧ g'.addEdge i j = .error u := by
  have hentry := hg.entry i
  unfold FlowGraph.addEdge FlowGraph.succsOf
  cases hn : g.entry i with
  | error u =>
    rw [hn] at hentry
    exact .inr ⟨u, rfl, by rw [hentry]; rfl⟩
  | ok n =>
    rw [hn] at hentry
    rw [hentry]
    by_cases hj : j ∈ n.2.succs
    · refine .inl ⟨g, g', false, ?_, ?_, hg⟩
      · simp [hj, bind, Except.bind, pure, Except.pure]
      · simp [hj, Except.map, FlowNode.recast, bind, Except.bind, pure, Except.pure]
    · refine .inl ⟨⟨g.nodes.modify i.index fun n ↦ { n with succs := n.succs ++ [j] }⟩,
        ⟨g'.nodes.modify i.index fun n ↦ { n with succs := n.succs ++ [j] }⟩, true, ?_, ?_,
        Table.Renames.modify hg i.index fun n ↦ rfl⟩
      · simp [hj, bind, Except.bind, pure, Except.pure]
      · simp [hj, Except.map, FlowNode.recast, bind, Except.bind, pure, Except.pure]

variable (hf : Function.Injective f)

include hf

theorem node (p : Pointer C e) : (g.node p).1.Renames f (g'.node (p.rename f e')).1 ∧
    (g'.node (p.rename f e')).2 = (g.node p).2 := by
  obtain ⟨hnodes, hnumber⟩ := Table.Renames.intern hg (Pointer.rename_injective e' hf) p {}
  exact ⟨hnodes, congrArg Id.mk hnumber⟩

theorem pts? (p : Pointer C e) :
    g'.pts? (p.rename f e') = (g.pts? p).map (PointsToSet.recast e') := by
  unfold FlowGraph.pts?
  rw [Table.Renames.get? hg (Pointer.rename_injective e' hf), Option.map_map, Option.map_map]
  rfl

theorem connect (p q : Pointer C e) :
    (g.connect p q).1.Renames f (g'.connect (p.rename f e') (q.rename f e')).1 ∧
      (g'.connect (p.rename f e') (q.rename f e')).2.1 = (g.connect p q).2.1 ∧
      (g'.connect (p.rename f e') (q.rename f e')).2.2 = (g.connect p q).2.2.recast e' := by
  obtain ⟨hp, hi⟩ := hg.node hf p
  obtain ⟨hq, hj⟩ := node hp hf q
  unfold FlowGraph.connect
  simp only [hi, hj]
  rcases hq.addEdge (g.node p).2 ((g.node p).1.node q).2 with ⟨k, k', b, hk, hk', hr⟩ | ⟨u, hk, hk'⟩
  · rw [hk, hk']
    cases b with
    | false => exact ⟨hq, rfl, rfl⟩
    | true =>
      refine ⟨hr, rfl, ?_⟩
      simp only [hq.pts? hf]
      cases ((g.node p).1.node q).1.pts? p <;> rfl
  · rw [hk, hk']
    exact ⟨hq, rfl, rfl⟩

end FlowGraph.Renames

/-! ## Call graphs -/

/-- The methods and edges of `g'` are those of `g`, renamed and in the same order. -/
structure CallGraph.Renames (f : C → C') (g : CallGraph C) (g' : CallGraph C') : Prop where
  entries : g'.entries = g.entries.map (Qualified.rename f)
  reachable : g.reachable.Renames (Qualified.rename f) id g'.reachable
  edges : g.edges.Renames (Edge.rename f) id g'.edges
  callees : g.callees.Renames (Qualified.rename f) (List.map (Qualified.rename f)) g'.callees
  callers : g.callers.Renames (Qualified.rename f) (List.map (Qualified.rename f)) g'.callers

theorem CallGraph.map_enter {α β : Type} [DecidableEq α] [DecidableEq β] {g : α → β}
    (hg : Function.Injective g) (a : α) (as : List α) :
    (enter a as).map g = enter (g a) (as.map g) := by
  unfold enter
  by_cases ha : a ∈ as
  · rw [if_pos ha, if_pos (List.mem_map_of_mem ha)]
  · have hga : g a ∉ as.map g := fun h ↦ ha ((List.mem_map_of_injective hg).1 h)
    rw [if_neg ha, if_neg hga, List.map_append, List.map_singleton]

namespace CallGraph.Renames

variable {g : CallGraph C} {g' : CallGraph C'} (hg : g.Renames f g') (hf : Function.Injective f)

include hg hf

theorem addEntry (m : MethodIn C) : (g.addEntry m).Renames f (g'.addEntry (m.rename f)) where
  entries := by
    unfold CallGraph.addEntry
    rw [map_enter (Qualified.rename_injective hf), hg.entries]
  reachable := hg.reachable
  edges := hg.edges
  callees := hg.callees
  callers := hg.callers

theorem addReachable (m : MethodIn C) :
    (g.addReachable m).1.Renames f (g'.addReachable (m.rename f)).1 ∧
      (g'.addReachable (m.rename f)).2 = (g.addReachable m).2 := by
  have hinj : Function.Injective (Qualified.rename f : MethodIn C → MethodIn C') :=
    Qualified.rename_injective hf
  refine ⟨?_, congrArg not (hg.reachable.contains hinj m)⟩
  exact
    { entries := hg.entries
      reachable := (hg.reachable.intern hinj m ()).1
      edges := hg.edges
      callees := hg.callees
      callers := hg.callers }

theorem addEdge (edge : Edge C) :
    (g.addEdge edge).1.Renames f (g'.addEdge (edge.rename f)).1 ∧
      (g'.addEdge (edge.rename f)).2 = (g.addEdge edge).2 := by
  have hcontains := hg.edges.contains (Edge.rename_injective hf) edge
  unfold CallGraph.addEdge
  rw [hcontains]
  cases g.edges.contains edge with
  | true => exact ⟨hg, rfl⟩
  | false =>
    refine ⟨?_, rfl⟩
    exact
      { entries := hg.entries
        reachable := hg.reachable
        edges := (hg.edges.intern (Edge.rename_injective hf) edge ()).1
        callees := hg.callees.alter (Qualified.rename_injective hf) edge.site []
          (map_enter (Qualified.rename_injective hf) edge.callee)
        callers := hg.callers.alter (Qualified.rename_injective hf) edge.callee []
          (map_enter (Qualified.rename_injective hf) edge.site) }

end CallGraph.Renames

/-! ## States -/

variable {σ σ' : Type}

/-- The state `t` is `s`, renamed: the same numbers, the same pending work in the same order, the same
counts. -/
structure State.Renames (f : C → C') (ρ : σ → σ' → Prop) (s : State C e σ) (t : State C' e' σ') :
    Prop where
  names : ρ s.names t.names
  flow : s.flow.Renames f t.flow
  calls : s.calls.Renames f t.calls
  pending : t.pending = s.pending.map (WorkItem.rename f e')
  iterations : t.iterations = s.iterations
  propagations : t.propagations = s.propagations

namespace State.Renames

variable {ρ : σ → σ' → Prop} {s : State C e σ} {t : State C' e' σ'} (h : s.Renames f ρ t)

include h

theorem withNames {n : σ} {n' : σ'} (hn : ρ n n') :
    { s with names := n }.Renames f ρ { t with names := n' } :=
  { h with names := hn }

theorem push {item : WorkItem C e} {item' : WorkItem C' e'} (hitem : item' = item.rename f e') :
    (s.push item).Renames f ρ (t.push item') :=
  { h with
    pending := by
      unfold State.push
      rw [WorkList.map_push, h.pending, hitem] }

/-- Objects are sent on to the same pointers. -/
theorem pushAll (succs : List PointerId) (added : PointsToSet e) :
    succs.foldl (fun w j ↦ w.push (.propagate j (added.recast e'))) t.pending =
      (succs.foldl (fun w j ↦ w.push (.propagate j added)) s.pending).map (WorkItem.rename f e') := by
  rw [h.pending]
  generalize s.pending = w
  induction succs generalizing w with
  | nil => rfl
  | cons j succs ih =>
    rw [List.foldl_cons, List.foldl_cons, ← ih, WorkList.map_push]
    rfl

variable (hf : Function.Injective f)

include hf

theorem reach (m : MethodIn C) : (s.reach m).Renames f ρ (t.reach (m.rename f)) := by
  obtain ⟨hcalls, hfresh⟩ := h.calls.addReachable hf m
  have h' : { s with calls := (s.calls.addReachable m).1 }.Renames f ρ
      { t with calls := (t.calls.addReachable (m.rename f)).1 } := { h with calls := hcalls }
  unfold State.reach
  simp only [hfresh]
  cases (s.calls.addReachable m).2 with
  | false => exact h'
  | true => exact h'.push rfl

theorem seed (p : Pointer C e) (o : Id e) :
    (s.seed p o).Renames f ρ (t.seed (p.rename f e') (o.recast e')) := by
  obtain ⟨hflow, hi⟩ := h.flow.node hf p
  have h' : { s with flow := (s.flow.node p).1 }.Renames f ρ
      { t with flow := (t.flow.node (p.rename f e')).1 } := { h with flow := hflow }
  unfold State.seed
  simp only [hi]
  exact h'.push rfl

theorem link (p q : Pointer C e) :
    (s.link p q).Renames f ρ (t.link (p.rename f e') (q.rename f e')) := by
  obtain ⟨hflow, hi, hsent⟩ := h.flow.connect hf p q
  have h' : { s with flow := (s.flow.connect p q).1 }.Renames f ρ
      { t with flow := (t.flow.connect (p.rename f e') (q.rename f e')).1 } := { h with flow := hflow }
  have hempty : ((s.flow.connect p q).2.2.recast e').isEmpty = (s.flow.connect p q).2.2.isEmpty := rfl
  unfold State.link
  simp only [hi, hsent, hempty]
  cases (s.flow.connect p q).2.2.isEmpty with
  | true => exact h'
  | false => exact h'.push rfl

theorem linkAll (flows : List (Pointer C e × Pointer C e)) :
    (s.linkAll flows).Renames f ρ
      (t.linkAll (flows.map (Prod.map (Pointer.rename f e') (Pointer.rename f e')))) := by
  induction flows generalizing s t with
  | nil => exact h
  | cons flow flows ih => exact ih (h.link hf flow.1 flow.2)

end State.Renames

end

end PointsTo
