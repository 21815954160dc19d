import PointsTo.Proofs.Identity

/-!
# Flow graphs by their histories

A flow graph is asked for nodes, edges are drawn in it, and objects arrive at its nodes. Whatever order
this happens in, a node has as its successors the targets that it was linked to, each once and in the
order of the first links, and as its set all that has arrived at it (`FlowGraph.Records`). An addition
changes one node and says truly what was new. Together with objects and names, pointers are thus known
by their numbers (`numbers_keep_identity`).
-/

namespace PointsTo

/-- Setting one item changes a sum by the difference of the old and the new one. -/
theorem sum_map_set {α : Type} (w : α → Nat) {as : List α} {i : Nat} {a : α} (b : α)
    (ha : as[i]? = some a) : ((as.set i b).map w).sum + w a = (as.map w).sum + w b := by
  induction as generalizing i with
  | nil => simp at ha
  | cons c as ih =>
    cases i with
    | zero =>
      obtain rfl : c = a := by simpa using ha
      simp only [List.set_cons_zero, List.map_cons, List.sum_cons]
      omega
    | succ i =>
      have hsum := ih (by simpa using ha)
      simp only [List.set_cons_succ, List.map_cons, List.sum_cons]
      omega

namespace FlowGraph

/-! ## Events -/

/-- What is done to a flow graph, with the answer that it gives. -/
inductive Event (C : Type) (e : Entity) where
  | node (p : Pointer C e) (i : PointerId)
  | edge (source target : PointerId) (isNew : Bool)
  | arrival (i : PointerId) (delta added : PointsToSet e)

section Events

variable {C : Type} {e : Entity} {events : List (Event C e)} {event : Event C e} {i j : PointerId}
  {p : Pointer C e}

namespace Event

/-- The node that is found or changed. -/
def place : Event C e → PointerId
  | node _ i => i
  | edge source _ _ => source
  | arrival i _ _ => i

def node? : Event C e → Option (Pointer C e × PointerId)
  | node p i => some (p, i)
  | edge _ _ _ => none
  | arrival _ _ _ => none

def edge? : Event C e → Option (PointerId × PointerId)
  | node _ _ => none
  | edge source target _ => some (source, target)
  | arrival _ _ _ => none

/-- What arrives at node `i`. -/
def objectsAt (i : PointerId) : Event C e → List (Id e)
  | node _ _ => []
  | edge _ _ _ => []
  | arrival j delta _ => if j = i then delta.toList else []

end Event

/-- The pointers that were asked for, with their nodes. -/
def asked (events : List (Event C e)) : List (Pointer C e × PointerId) :=
  events.filterMap Event.node?

/-- The edges that were drawn, as often as they were. -/
def drawn (events : List (Event C e)) : List (PointerId × PointerId) :=
  events.filterMap Event.edge?

/-- The targets that node `i` was linked to, as often as it was. -/
def targets (events : List (Event C e)) (i : PointerId) : List PointerId :=
  ((drawn events).filter (·.1 = i)).map Prod.snd

/-- What has arrived at node `i`. -/
def arrived (events : List (Event C e)) (i : PointerId) : List (Id e) :=
  events.flatMap (·.objectsAt i)

theorem mem_asked : (p, i) ∈ asked events ↔ .node p i ∈ events := by
  rw [asked, List.mem_filterMap]
  constructor
  · rintro ⟨event, hmem, hevent⟩
    cases event <;> simp_all [Event.node?]
  · intro hmem
    exact ⟨_, hmem, rfl⟩

theorem mem_targets : j ∈ targets events i ↔ (i, j) ∈ drawn events := by
  simp [targets]

theorem targets_concat (events : List (Event C e)) (event : Event C e) (i : PointerId) :
    targets (events ++ [event]) i = targets events i ++ targets [event] i := by
  simp [targets, drawn, List.filterMap_append]

theorem arrived_concat (events : List (Event C e)) (event : Event C e) (i : PointerId) :
    arrived (events ++ [event]) i = arrived events i ++ event.objectsAt i := by
  simp [arrived]

/-- An event at one node is none at the others. -/
theorem nothing_elsewhere (hi : event.place ≠ i) :
    targets [event] i = [] ∧ event.objectsAt i = [] := by
  cases event <;> simp_all [Event.place, targets, drawn, Event.edge?, Event.objectsAt]

/-- At a node where nothing was done, nothing is there. -/
theorem nothing_before (hi : ∀ event ∈ events, event.place ≠ i) :
    targets events i = [] ∧ arrived events i = [] := by
  induction events using List.reverseRecOn with
  | nil => exact ⟨rfl, rfl⟩
  | append_singleton events event ih =>
    obtain ⟨htargets, harrived⟩ := ih fun event hmem ↦ hi event (List.mem_append_left _ hmem)
    obtain ⟨hlast, hobjects⟩ := nothing_elsewhere (hi event (by simp))
    rw [targets_concat, arrived_concat, htargets, harrived, hlast, hobjects]
    exact ⟨rfl, rfl⟩

/-- A node is what was done to it. -/
structure Records (events : List (Event C e)) (i : PointerId) (n : FlowNode e) : Prop where
  succs : FirstOccurrences (targets events i) n.succs
  ascending : n.pts.Ascending
  mem_pts : ∀ {o}, o ∈ n.pts.toList ↔ o ∈ arrived events i

namespace Records

theorem fresh (hi : ∀ event ∈ events, event.place ≠ i) : Records events i {} := by
  obtain ⟨htargets, harrived⟩ := nothing_before hi
  constructor
  case succs =>
    rw [htargets]
    exact .nil
  case ascending => exact PointsToSet.ascending_empty
  case mem_pts =>
    intro o
    rw [harrived]
    exact Iff.rfl

variable {n : FlowNode e} (h : Records events i n)

include h

theorem untouched (htargets : targets [event] i = []) (hobjects : event.objectsAt i = []) :
    Records (events ++ [event]) i n := by
  constructor
  case succs =>
    rw [targets_concat, htargets, List.append_nil]
    exact h.succs
  case ascending => exact h.ascending
  case mem_pts =>
    intro o
    rw [arrived_concat, hobjects, List.append_nil]
    exact h.mem_pts

theorem edge (j : PointerId) (isNew : Bool) :
    Records (events ++ [.edge i j isNew]) i { n with succs := CallGraph.enter j n.succs } := by
  constructor
  case succs =>
    have hlast : targets [(.edge i j isNew : Event C e)] i = [j] := by
      simp [targets, drawn, Event.edge?]
    rw [targets_concat, hlast]
    exact h.succs.enter j
  case ascending => exact h.ascending
  case mem_pts =>
    intro o
    rw [arrived_concat, Event.objectsAt, List.append_nil]
    exact h.mem_pts

theorem arrival {delta : PointsToSet e} (hd : delta.Ascending) (added : PointsToSet e) :
    Records (events ++ [.arrival i delta added]) i { n with pts := (n.pts.addAll delta).1 } := by
  constructor
  case succs =>
    have hnone : targets [(.arrival i delta added : Event C e)] i = [] := rfl
    rw [targets_concat, hnone, List.append_nil]
    exact h.succs
  case ascending => exact PointsToSet.ascending_addAll h.ascending hd
  case mem_pts =>
    intro o
    rw [PointsToSet.mem_addAll, h.mem_pts, arrived_concat, Event.objectsAt, if_pos rfl,
      List.mem_append]

end Records

end Events

/-! ## Nodes by number -/

variable {C : Type} [Contextual C] {e : Entity} {g g' : FlowGraph C e} {i j : PointerId}
  {p : Pointer C e} {n n' : FlowNode e} {delta added : PointsToSet e}

theorem entry_eq_ok_iff {x : Pointer C e × FlowNode e} :
    g.entry i = .ok x ↔ g.nodes.nth? i.index = some x := by
  unfold entry
  split <;> simp_all

theorem nth?_eq_getElem? (g : FlowGraph C e) (i : Nat) : g.nodes.nth? i = g.nodes.toList[i]? := by
  simp [Table.nth?, Table.toList]

theorem pointer_eq_ok_iff : g.pointer i = .ok p ↔ ∃ n, g.entry i = .ok (p, n) := by
  constructor
  · intro h
    obtain ⟨⟨q, n⟩, hn, hq⟩ := bind_eq_ok.1 h
    obtain rfl := Except.ok.inj hq
    exact ⟨n, hn⟩
  · rintro ⟨n, hn⟩
    exact bind_eq_ok.2 ⟨_, hn, rfl⟩

theorem lt_nodeCount (hentry : g.entry i = .ok (p, n)) : i.index < g.nodeCount :=
  Table.key?_lt (Table.key?_of_nth? (entry_eq_ok_iff.1 hentry))

theorem exists_entry (hi : i.index < g.nodeCount) : ∃ p n, g.entry i = .ok (p, n) := by
  have hnth : g.nodes.nth? i.index = some (g.nodes.toList[i.index]) := by
    rw [nth?_eq_getElem?]
    exact List.getElem?_eq_getElem hi
  exact ⟨_, _, entry_eq_ok_iff.2 hnth⟩

theorem entry_node_iff {x : Pointer C e × FlowNode e} :
    (g.node p).1.entry i = .ok x ↔
      g.entry i = .ok x ∨ g.nodes.find? p = none ∧ i.index = g.nodeCount ∧ x = (p, {}) := by
  rw [entry_eq_ok_iff, entry_eq_ok_iff]
  exact Table.nth?_intern_iff

/-- A new node has no edges. -/
theorem edgeCount_node (g : FlowGraph C e) (p : Pointer C e) :
    (g.node p).1.edgeCount = g.edgeCount := by
  change (g.nodes.intern p {}).1.toList.foldl (fun count x ↦ count + x.2.succs.length) 0 = _
  cases h : g.nodes.find? p with
  | some i =>
    rw [Table.intern_of_find? h]
    rfl
  | none =>
    rw [Table.intern_of_fresh h, Table.toList_push, List.foldl_append]
    rfl

theorem entry_of_addEdge {r : FlowGraph C e × Bool} (h : g.addEdge i j = .ok r) :
    ∃ p n, g.entry i = .ok (p, n) := by
  obtain ⟨succs, hsuccs, -⟩ := bind_eq_ok.1 h
  obtain ⟨⟨p, n⟩, hn, -⟩ := bind_eq_ok.1 hsuccs
  exact ⟨p, n, hn⟩

theorem entry_of_propagate {r : FlowGraph C e × PointsToSet e} (h : g.propagate i delta = .ok r) :
    ∃ p n, g.entry i = .ok (p, n) := by
  obtain ⟨pts, hpts, -⟩ := bind_eq_ok.1 h
  obtain ⟨⟨p, n⟩, hn, -⟩ := bind_eq_ok.1 hpts
  exact ⟨p, n, hn⟩

/-- All nodes are as before but node `i`, which is `x` now. -/
def Replaces (g : FlowGraph C e) (i : PointerId) (x : Pointer C e × FlowNode e)
    (g' : FlowGraph C e) : Prop :=
  g'.nodes.toList = g.nodes.toList.set i.index x

theorem replaces_modify (hentry : g.entry i = .ok (p, n)) (f : FlowNode e → FlowNode e) :
    g.Replaces i (p, f n) ⟨g.nodes.modify i.index f⟩ := by
  have hi := entry_eq_ok_iff.1 hentry
  have hlt : i.index < g.nodes.toList.length := lt_nodeCount hentry
  apply List.ext_getElem?
  intro k
  rw [← nth?_eq_getElem? ⟨_⟩, Table.nth?_modify, List.getElem?_set]
  by_cases hk : i.index = k
  · subst hk
    rw [hi, if_pos rfl, if_pos hlt]
    simp
  · rw [if_neg hk, nth?_eq_getElem?]
    simp [hk]

namespace Replaces

variable (hentry : g.entry i = .ok (p, n))

include hentry

theorem refl : g.Replaces i (p, n) g := by
  rw [entry_eq_ok_iff, nth?_eq_getElem?] at hentry
  obtain ⟨hlt, heq⟩ := List.getElem?_eq_some_iff.1 hentry
  rw [Replaces, ← heq, List.set_getElem_self]

variable (h : g.Replaces i (p, n') g')

include h

theorem entry_iff {k : PointerId} {x : Pointer C e × FlowNode e} :
    g'.entry k = .ok x ↔ if i = k then x = (p, n') else g.entry k = .ok x := by
  have hlt : i.index < g.nodes.toList.length := lt_nodeCount hentry
  rw [entry_eq_ok_iff, nth?_eq_getElem?, h, List.getElem?_set, entry_eq_ok_iff, nth?_eq_getElem?]
  by_cases hk : i = k
  · simp [← hk, hlt, eq_comm]
  · rw [if_neg (mt Id.index_inj.1 hk), if_neg hk]

theorem keys : g'.nodes.keys = g.nodes.keys := by
  rw [entry_eq_ok_iff, nth?_eq_getElem?] at hentry
  obtain ⟨hlt, heq⟩ := List.getElem?_eq_some_iff.1 hentry
  have hlt' : i.index < (g.nodes.toList.map Prod.fst).length := by rwa [List.length_map]
  have hp : (g.nodes.toList.map Prod.fst)[i.index] = p := by rw [List.getElem_map, heq]
  rw [Table.keys, h, List.map_set, ← hp, List.set_getElem_self]
  rfl

theorem nodeCount : g'.nodeCount = g.nodeCount := by
  have hlength := congrArg List.length (keys hentry h)
  rw [Table.keys, Table.keys, List.length_map, List.length_map] at hlength
  exact hlength

theorem edgeCount : g'.edgeCount + n.succs.length = g.edgeCount + n'.succs.length := by
  have hsum : ∀ k : FlowGraph C e,
      k.edgeCount = (k.nodes.toList.map fun x ↦ x.2.succs.length).sum := by
    intro k
    rw [List.sum_eq_foldl, List.foldl_map]
    rfl
  rw [entry_eq_ok_iff, nth?_eq_getElem?] at hentry
  rw [hsum, hsum, h]
  exact sum_map_set (fun x : Pointer C e × FlowNode e ↦ x.2.succs.length) (p, n') hentry

end Replaces

/-- A link enters its target into the successors of its source. -/
theorem replaces_of_addEdge {isNew : Bool} (hentry : g.entry i = .ok (p, n))
    (h : g.addEdge i j = .ok (g', isNew)) :
    g.Replaces i (p, { n with succs := CallGraph.enter j n.succs }) g' := by
  by_cases hj : j ∈ n.succs
  · rw [addEdge_of_mem hentry hj] at h
    obtain rfl : g = g' := congrArg Prod.fst (Except.ok.inj h)
    rw [enter_of_mem hj]
    exact .refl hentry
  · rw [addEdge_of_not_mem hentry hj] at h
    obtain rfl : g.extend i j = g' := congrArg Prod.fst (Except.ok.inj h)
    rw [enter_of_not_mem hj]
    exact replaces_modify hentry fun n ↦ { n with succs := n.succs ++ [j] }

theorem replaces_of_propagate (hentry : g.entry i = .ok (p, n))
    (h : g.propagate i delta = .ok (g', added)) :
    g.Replaces i (p, { n with pts := (n.pts.addAll delta).1 }) g' := by
  rw [propagate_of_entry hentry delta] at h
  obtain rfl : _ = g' := congrArg Prod.fst (Except.ok.inj h)
  exact replaces_modify hentry fun m ↦ { m with pts := (n.pts.addAll delta).1 }

/-! ## Histories -/

/-- Something is done to `g`, which makes it `g'`. What arrives is ascending, as all sets are that come
from the operations on sets. -/
inductive Happens (g : FlowGraph C e) : Event C e → FlowGraph C e → Prop
  | node {p : Pointer C e} {i : PointerId} {g' : FlowGraph C e} :
      g.node p = (g', i) → Happens g (.node p i) g'
  | edge {i j : PointerId} {g' : FlowGraph C e} {isNew : Bool} :
      g.addEdge i j = .ok (g', isNew) → Happens g (.edge i j isNew) g'
  | arrival {i : PointerId} {delta added : PointsToSet e} {g' : FlowGraph C e} :
      delta.Ascending → g.propagate i delta = .ok (g', added) →
      Happens g (.arrival i delta added) g'

variable {events later : List (Event C e)} {event : Event C e}

/-- What holds of a graph to which this was done. -/
structure Traces (g : FlowGraph C e) (events : List (Event C e)) : Prop where
  interned : g.nodes.Interned (asked events)
  known : ∀ {event}, event ∈ events → event.place.index < g.nodeCount
  records : ∀ {i p n}, g.entry i = .ok (p, n) → Records events i n
  edgeCount : g.edgeCount = (drawn events).eraseDups.length

namespace Traces

theorem empty : ({} : FlowGraph C e).Traces [] where
  interned := .empty
  known hmem := absurd hmem List.not_mem_nil
  records hentry := by
    rw [entry_eq_ok_iff] at hentry
    simp at hentry
  edgeCount := rfl

variable (ht : g.Traces events)

include ht

theorem mem_succs_iff (hentry : g.entry i = .ok (p, n)) : j ∈ n.succs ↔ (i, j) ∈ drawn events := by
  rw [(ht.records hentry).succs.mem_iff, mem_targets]

/-- Asking for the node of a pointer may add it, with an empty record, and changes no other. -/
theorem node (p : Pointer C e) : (g.node p).1.Traces (events ++ [.node p (g.node p).2]) := by
  constructor
  case interned =>
    have hasked : asked (events ++ [.node p (g.node p).2]) =
        asked events ++ [(p, ⟨(g.nodes.intern p {}).2⟩)] := filterMap_concat _ _ _
    rw [hasked]
    exact ht.interned.intern p {}
  case known =>
    intro event hmem
    rcases List.mem_append.1 hmem with hmem | hmem
    · exact (ht.known hmem).trans_le (Table.toList_isPrefix_intern g.nodes p {}).length_le
    · obtain rfl := List.mem_singleton.1 hmem
      exact Table.key?_lt (stands_node g p)
  case records =>
    intro i q n hentry
    refine Records.untouched ?_ rfl rfl
    rcases entry_node_iff.1 hentry with hentry | ⟨-, hi, heq⟩
    · exact ht.records hentry
    · obtain ⟨rfl, rfl⟩ := Prod.mk.inj heq
      -- the number is free until now, so nothing was done there
      apply Records.fresh
      intro event hmem hplace
      have hlt := ht.known hmem
      rw [hplace, hi] at hlt
      exact absurd hlt (Nat.lt_irrefl _)
  case edgeCount =>
    have hdrawn : drawn (events ++ [.node p (g.node p).2]) = drawn events := by
      simp [drawn, List.filterMap_append, Event.edge?]
    rw [hdrawn, edgeCount_node]
    exact ht.edgeCount

/-- A node was changed as the last event has it. -/
theorem replaces (hentry : g.entry i = .ok (p, n)) (hr : g.Replaces i (p, n') g')
    (hnode : event.node? = none) (hplace : event.place = i)
    (hrecords : Records (events ++ [event]) i n')
    (hcount : g'.edgeCount = (drawn (events ++ [event])).eraseDups.length) :
    g'.Traces (events ++ [event]) := by
  constructor
  case interned =>
    have hasked : asked (events ++ [event]) = asked events := by
      simp [asked, List.filterMap_append, hnode]
    rw [hasked]
    exact ht.interned.congr (hr.keys hentry)
  case known =>
    intro x hmem
    rw [hr.nodeCount hentry]
    rcases List.mem_append.1 hmem with hmem | hmem
    · exact ht.known hmem
    · obtain rfl := List.mem_singleton.1 hmem
      rw [hplace]
      exact lt_nodeCount hentry
  case records =>
    intro k q m hk
    rw [hr.entry_iff hentry] at hk
    by_cases hik : i = k
    · subst hik
      rw [if_pos rfl] at hk
      obtain ⟨-, rfl⟩ := Prod.mk.inj hk
      exact hrecords
    · rw [if_neg hik] at hk
      obtain ⟨htargets, hobjects⟩ := nothing_elsewhere (hplace ▸ hik)
      exact (ht.records hk).untouched htargets hobjects
  case edgeCount => exact hcount

theorem edge {isNew : Bool} (h : g.addEdge i j = .ok (g', isNew)) :
    g'.Traces (events ++ [.edge i j isNew]) := by
  obtain ⟨p, n, hentry⟩ := entry_of_addEdge h
  have hr := replaces_of_addEdge hentry h
  refine ht.replaces hentry hr rfl rfl ((ht.records hentry).edge j isNew) ?_
  have hcount := hr.edgeCount hentry
  have hdrawn : drawn (events ++ [.edge i j isNew]) = drawn events ++ [(i, j)] :=
    filterMap_concat _ _ _
  rw [hdrawn]
  rw [ht.edgeCount] at hcount
  by_cases hj : j ∈ n.succs
  · rw [eraseDups_concat_of_mem ((ht.mem_succs_iff hentry).1 hj)]
    simp only [enter_of_mem hj] at hcount
    omega
  · rw [eraseDups_concat_of_not_mem (mt (ht.mem_succs_iff hentry).2 hj)]
    simp only [enter_of_not_mem hj, List.length_append, List.length_singleton] at hcount ⊢
    omega

theorem arrival (hd : delta.Ascending) (h : g.propagate i delta = .ok (g', added)) :
    g'.Traces (events ++ [.arrival i delta added]) := by
  obtain ⟨p, n, hentry⟩ := entry_of_propagate h
  have hr := replaces_of_propagate hentry h
  refine ht.replaces hentry hr rfl rfl ((ht.records hentry).arrival hd added) ?_
  have hcount := hr.edgeCount hentry
  have hdrawn : drawn (events ++ [.arrival i delta added]) = drawn events := by
    simp [drawn, List.filterMap_append, Event.edge?]
  rw [hdrawn, ← ht.edgeCount]
  exact Nat.add_right_cancel hcount

theorem happens (h : g.Happens event g') : g'.Traces (events ++ [event]) := by
  cases h with
  | @node p i _ h =>
    obtain rfl : _ = g' := congrArg Prod.fst h
    obtain rfl : _ = i := congrArg Prod.snd h
    exact ht.node p
  | edge h => exact ht.edge h
  | arrival hd h => exact ht.arrival hd h

end Traces

theorem traces_of_history (hh : History Happens ({} : FlowGraph C e) events g) :
    g.Traces events := by
  induction hh with
  | start => exact .empty
  | next _ hlast ih => exact ih.happens hlast

/-- Nodes stay, with their objects and successors. -/
def Grows (g g' : FlowGraph C e) : Prop :=
  ∀ {i p n}, g.entry i = .ok (p, n) →
    ∃ n', g'.entry i = .ok (p, n') ∧ n.pts.toList ⊆ n'.pts.toList ∧ n.succs <+: n'.succs

theorem Replaces.grows (hentry : g.entry i = .ok (p, n)) (hr : g.Replaces i (p, n') g')
    (hpts : n.pts.toList ⊆ n'.pts.toList) (hsuccs : n.succs <+: n'.succs) : g.Grows g' := by
  intro k q m hk
  by_cases hik : i = k
  · subst hik
    obtain ⟨rfl, rfl⟩ := Prod.mk.inj (Except.ok.inj (hentry.symm.trans hk))
    exact ⟨n', (hr.entry_iff hentry).2 (by rw [if_pos rfl]), hpts, hsuccs⟩
  · exact ⟨m, (hr.entry_iff hentry).2 (by rwa [if_neg hik]), List.Subset.refl _, List.prefix_rfl⟩

theorem Happens.grows (h : g.Happens event g') : g.Grows g' := by
  cases h with
  | @node p i _ h =>
    obtain rfl : _ = g' := congrArg Prod.fst h
    intro i q n hentry
    exact ⟨n, entry_node_iff.2 (.inl hentry), List.Subset.refl _, List.prefix_rfl⟩
  | @edge i j _ isNew h =>
    obtain ⟨p, n, hentry⟩ := entry_of_addEdge h
    exact (replaces_of_addEdge hentry h).grows hentry (List.Subset.refl _) (prefix_enter j _)
  | @arrival i delta added _ _ h =>
    obtain ⟨p, n, hentry⟩ := entry_of_propagate h
    refine (replaces_of_propagate hentry h).grows hentry ?_ List.prefix_rfl
    intro o ho
    exact PointsToSet.mem_addAll.2 (.inl ho)

theorem grows_of_history (hh : History Happens g later g') : g.Grows g' := by
  refine hh.keeps (R := Grows) ?_ ?_ Happens.grows
  · intro g i p n hentry
    exact ⟨n, hentry, List.Subset.refl _, List.prefix_rfl⟩
  · intro g₁ g₂ g₃ h₁ h₂ i p n hentry
    obtain ⟨n₂, hentry₂, hpts₂, hsuccs₂⟩ := h₁ hentry
    obtain ⟨n₃, hentry₃, hpts₃, hsuccs₃⟩ := h₂ hentry₂
    exact ⟨n₃, hentry₃, List.Subset.trans hpts₂ hpts₃, hsuccs₂.trans hsuccs₃⟩

/-- Pointers have one node each, and every node is what was done to it. -/
structure Identifies (g : FlowGraph C e) (events : List (Event C e)) : Prop where
  interned : g.nodes.Interned (asked events)
  pointer_iff : ∀ {i p}, g.pointer i = .ok p ↔ .node p i ∈ events
  find?_iff : ∀ {p i}, g.find? p = some i ↔ .node p i ∈ events
  records : ∀ {i p n}, g.entry i = .ok (p, n) →
    g.succsOf i = .ok n.succs ∧ g.pointsTo i = .ok n.pts ∧ Records events i n
  edgeCount : g.edgeCount = (drawn events).eraseDups.length
  /-- An edge that was drawn is not added again. -/
  addEdge_old : ∀ {i j}, (i, j) ∈ drawn events → g.addEdge i j = .ok (g, false)
  addEdge_new : ∀ {i j p n}, g.entry i = .ok (p, n) → (i, j) ∉ drawn events →
    ∃ g', g.addEdge i j = .ok (g', true) ∧
      g.Replaces i (p, { n with succs := n.succs ++ [j] }) g'
  /-- What is given back is what was new, and only this one set grows, by just that. -/
  propagate : ∀ {i p n delta}, g.entry i = .ok (p, n) → delta.Ascending →
    ∃ g' all added, g.propagate i delta = .ok (g', added) ∧
      g.Replaces i (p, { n with pts := all }) g' ∧ all.Ascending ∧ added.Ascending ∧
      (∀ o, o ∈ added.toList ↔ o ∈ delta.toList ∧ o ∉ n.pts.toList) ∧
      ∀ o, o ∈ all.toList ↔ o ∈ n.pts.toList ∨ o ∈ added.toList
  listed : FirstOccurrences ((asked events).map Prod.fst) (g.toList.map Prod.fst)
  getElem?_toList : ∀ {i p s}, g.toList[i.index]? = some (p, s) ↔
    ∃ n, g.entry i = .ok (p, n) ∧ n.pts = s
  keeps : ∀ {later g'}, History Happens g later g' → g.Grows g'

/-- What was done to a graph determines its answers, and what is done later takes nothing back. -/
theorem Traces.identifies (ht : g.Traces events) : g.Identifies events := by
  constructor
  case interned => exact ht.interned
  case pointer_iff =>
    intro i p
    rw [pointer_eq_ok_iff, ← mem_asked, ht.interned.number_iff, Table.getElem?_keys,
      Table.key?_eq_some_iff]
    simp only [entry_eq_ok_iff]
  case find?_iff =>
    intro p i
    rw [← mem_asked, ht.interned.number_iff, Table.getElem?_keys, ← Table.find?_eq_some_iff]
    obtain ⟨i⟩ := i
    simp [FlowGraph.find?]
  case records =>
    intro i p n hentry
    exact ⟨bind_eq_ok.2 ⟨_, hentry, rfl⟩, bind_eq_ok.2 ⟨_, hentry, rfl⟩, ht.records hentry⟩
  case edgeCount => exact ht.edgeCount
  case addEdge_old =>
    intro i j hij
    obtain ⟨event, hmem, hevent⟩ := List.mem_filterMap.1 hij
    have hplace : event.place = i := by
      cases event <;> simp_all [Event.edge?, Event.place]
    obtain ⟨p, n, hentry⟩ := exists_entry (hplace ▸ ht.known hmem)
    exact addEdge_of_mem hentry ((ht.mem_succs_iff hentry).2 hij)
  case addEdge_new =>
    intro i j p n hentry hij
    refine ⟨_, addEdge_of_not_mem hentry (mt (ht.mem_succs_iff hentry).1 hij), ?_⟩
    exact replaces_modify hentry fun n ↦ { n with succs := n.succs ++ [j] }
  case propagate =>
    intro i p n delta hentry hd
    have hasc := (ht.records hentry).ascending
    have hr := replaces_of_propagate hentry (propagate_of_entry hentry delta)
    refine ⟨_, _, _, propagate_of_entry hentry delta, hr, PointsToSet.ascending_addAll hasc hd,
      PointsToSet.ascending_addAll_added hasc hd, fun o ↦ PointsToSet.mem_addAll_added hasc hd, ?_⟩
    intro o
    rw [PointsToSet.mem_addAll, PointsToSet.mem_addAll_added hasc hd]
    tauto
  case listed =>
    have hkeys : g.toList.map Prod.fst = g.nodes.keys := by
      simp [FlowGraph.toList, Table.keys]
    rw [hkeys]
    exact ht.interned.keys
  case getElem?_toList =>
    intro i p s
    rw [FlowGraph.toList, List.getElem?_map, ← nth?_eq_getElem?]
    simp [entry_eq_ok_iff]
  case keeps => exact grows_of_history

end FlowGraph

/-! ## Numbers as identities -/

/-- In heaps, among names and in flow graphs, numbers keep their meaning, whatever is done. -/
theorem numbers_keep_identity {abstraction : HeapAbstraction}
    {requests : List (Heap.Request × ObjectId)} {h : Heap} {contexts : ContextTable}
    {named : List (CsObject × CsObjectId)} {n : CsNames} {C : Type} [Contextual C] {e : Entity}
    {events : List (FlowGraph.Event C e)} {g : FlowGraph C e}
    (hh : History Heap.Answers { abstraction } requests h)
    (hn : History CsNames.Names { contexts } named n) (hg : History FlowGraph.Happens {} events g) :
    (h.abstraction = abstraction ∧ h.Identifies requests) ∧ n.Identifies named ∧
      g.Identifies events := by
  have ht := Heap.traces_of_history hh
  obtain rfl := ht.abstraction_eq
  exact ⟨⟨rfl, ht.identifies⟩, CsNames.identifies_of_history hn,
    (FlowGraph.traces_of_history hg).identifies⟩

/-- Two sites that allocate the same class. -/
def pairedSites : Program := { allocSites := #[⟨⟨4⟩, ⟨0⟩⟩, ⟨⟨4⟩, ⟨1⟩⟩] }

/-- Both sites have one object when classes count, apart from the taint mark and the mock object of
that class. -/
def pairedRequests : List (Heap.Request × ObjectId) :=
  [(.site pairedSites ⟨0⟩, ⟨0⟩), (.taint ⟨0⟩ ⟨4⟩, ⟨1⟩), (.mock "" ⟨4⟩, ⟨2⟩),
    (.site pairedSites ⟨1⟩, ⟨0⟩)]

def pairedNames : List (CsObject × CsObjectId) :=
  [(⟨.empty, ⟨0⟩⟩, ⟨0⟩), (⟨.empty, ⟨1⟩⟩, ⟨1⟩), (⟨.empty, ⟨0⟩⟩, ⟨0⟩)]

/-- The second link is an old one, and the second arrival brings one object that is new. -/
def pairedEvents : List (FlowGraph.Event Unit .object) :=
  [.node (.var () ⟨7⟩) ⟨0⟩, .node (.staticField ⟨7⟩) ⟨1⟩, .edge ⟨0⟩ ⟨1⟩ true, .edge ⟨0⟩ ⟨1⟩ false,
    .arrival ⟨0⟩ (.ofList [⟨2⟩, ⟨1⟩]) (.ofList [⟨1⟩, ⟨2⟩]),
    .arrival ⟨0⟩ (.ofList [⟨3⟩, ⟨2⟩]) (.singleton ⟨3⟩)]

theorem pairedRequests_answered :
    ∃ h, History Heap.Answers { abstraction := .allocationType } pairedRequests h := by
  have hasks : (({ abstraction := .allocationType } : Heap).ask (.site pairedSites ⟨0⟩) >>= fun r₁ ↦
      r₁.1.ask (.taint ⟨0⟩ ⟨4⟩) >>= fun r₂ ↦ r₂.1.ask (.mock "" ⟨4⟩) >>= fun r₃ ↦
        r₃.1.ask (.site pairedSites ⟨1⟩) >>= fun r₄ ↦ pure [r₁.2, r₂.2, r₃.2, r₄.2]) =
      .ok [⟨0⟩, ⟨1⟩, ⟨2⟩, ⟨0⟩] := by decide +kernel
  obtain ⟨⟨h₁, i₁⟩, hask₁, hasks⟩ := bind_eq_ok.1 hasks
  obtain ⟨⟨h₂, i₂⟩, hask₂, hasks⟩ := bind_eq_ok.1 hasks
  obtain ⟨⟨h₃, i₃⟩, hask₃, hasks⟩ := bind_eq_ok.1 hasks
  obtain ⟨⟨h₄, i₄⟩, hask₄, hids⟩ := bind_eq_ok.1 hasks
  simp only [pure, Except.pure, Except.ok.injEq, List.cons.injEq] at hids
  obtain ⟨rfl, rfl, rfl, rfl, -⟩ := hids
  exact ⟨h₄, .head hask₁ (.head hask₂ (.head hask₃ (.head hask₄ .start)))⟩

theorem pairedNames_given : ∃ n, History CsNames.Names {} pairedNames n :=
  ⟨_, .head (Prod.ext rfl (by decide +kernel)) (.head (Prod.ext rfl (by decide +kernel))
    (.head (Prod.ext rfl (by decide +kernel)) .start))⟩

theorem pairedEvents_happen :
    ∃ g : FlowGraph Unit .object, History FlowGraph.Happens {} pairedEvents g := by
  let g₀ := (({} : FlowGraph Unit .object).node (.var () ⟨7⟩)).1
  have hadds : ((g₀.node (.staticField ⟨7⟩)).1.addEdge ⟨0⟩ ⟨1⟩ >>= fun r₁ ↦
      r₁.1.addEdge ⟨0⟩ ⟨1⟩ >>= fun r₂ ↦ r₂.1.propagate ⟨0⟩ (.ofList [⟨2⟩, ⟨1⟩]) >>= fun r₃ ↦
        r₃.1.propagate ⟨0⟩ (.ofList [⟨3⟩, ⟨2⟩]) >>= fun r₄ ↦ pure (r₁.2, r₂.2, r₃.2, r₄.2)) =
      .ok (true, false, .ofList [⟨1⟩, ⟨2⟩], .singleton ⟨3⟩) := by decide +kernel
  obtain ⟨⟨g₁, isNew₁⟩, hedge₁, hadds⟩ := bind_eq_ok.1 hadds
  obtain ⟨⟨g₂, isNew₂⟩, hedge₂, hadds⟩ := bind_eq_ok.1 hadds
  obtain ⟨⟨g₃, added₁⟩, harrival₁, hadds⟩ := bind_eq_ok.1 hadds
  obtain ⟨⟨g₄, added₂⟩, harrival₂, hanswers⟩ := bind_eq_ok.1 hadds
  simp only [pure, Except.pure, Except.ok.injEq, Prod.mk.injEq] at hanswers
  obtain ⟨rfl, rfl, rfl, rfl⟩ := hanswers
  have hlast : History FlowGraph.Happens (g₀.node (.staticField ⟨7⟩)).1 (pairedEvents.drop 2) g₄ :=
    .head (.edge hedge₁) (.head (.edge hedge₂)
      (.head (.arrival (PointsToSet.ascending_ofList _) harrival₁)
        (.head (.arrival (PointsToSet.ascending_ofList _) harrival₂) .start)))
  exact ⟨g₄, .head (.node (Prod.ext rfl (by decide +kernel)))
    (.head (.node (Prod.ext rfl (by decide +kernel))) hlast)⟩

theorem numbers_keep_identity_paired :
    ∃ h n g, History Heap.Answers { abstraction := .allocationType } pairedRequests h ∧
      History CsNames.Names {} pairedNames n ∧ History FlowGraph.Happens {} pairedEvents g ∧
      (h.abstraction = .allocationType ∧ h.Identifies pairedRequests) ∧ n.Identifies pairedNames ∧
      g.Identifies pairedEvents := by
  obtain ⟨h, hh⟩ := pairedRequests_answered
  obtain ⟨n, hn⟩ := pairedNames_given
  obtain ⟨g, hg⟩ := pairedEvents_happen
  exact ⟨h, n, g, hh, hn, hg, numbers_keep_identity hh hn hg⟩

end PointsTo
