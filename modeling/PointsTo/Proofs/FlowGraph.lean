import PointsTo.FlowGraph
import PointsTo.Proofs.SparseSet
import PointsTo.Proofs.Table

/-!
# Flow graphs by what they say of pointers

A flow graph numbers its pointers. Here it is read without the numbers: which objects a pointer
refers to (`Points`), which pointers its objects flow on to (`Links`), and which pointer a number
stands for (`Stands`, `Has`). Every operation is described by what it does to these.
-/

namespace PointsTo.FlowGraph

variable {C : Type} [Contextual C] {e : Entity}

/-- The number `i` stands for the pointer `p`. -/
def Stands (g : FlowGraph C e) (i : PointerId) (p : Pointer C e) : Prop :=
  g.nodes.key? i.index = some p

/-- The pointer `p` has a number. -/
def Has (g : FlowGraph C e) (p : Pointer C e) : Prop := ∃ i, g.Stands i p

/-- The pointer `p` refers to the object `o`. -/
def Points (g : FlowGraph C e) (p : Pointer C e) (o : Id e) : Prop :=
  ∃ n, g.nodes.get? p = some n ∧ o ∈ n.pts.toList

/-- What `p` refers to flows on to `q`. -/
def Links (g : FlowGraph C e) (p q : Pointer C e) : Prop :=
  ∃ n j, g.nodes.get? p = some n ∧ j ∈ n.succs ∧ g.Stands j q

/-- Sets are ascending, and successors stand for pointers. -/
structure WellFormed (g : FlowGraph C e) : Prop where
  ascending : ∀ {p n}, g.nodes.get? p = some n → n.pts.Ascending
  stands : ∀ {p n j}, g.nodes.get? p = some n → j ∈ n.succs → ∃ q, g.Stands j q

variable {g : FlowGraph C e} {i j : PointerId} {p q a b : Pointer C e} {o : Id e}

theorem Stands.inj (hi : g.Stands i p) (hj : g.Stands j p) : i = j :=
  Id.index_inj.1 (Table.key?_inj hi hj)

theorem Stands.pointer_inj (hp : g.Stands i p) (hq : g.Stands i q) : p = q :=
  Option.some.inj (hp.symm.trans hq)

theorem Stands.entry (h : g.Stands i p) :
    ∃ n, g.entry i = .ok (p, n) ∧ g.nodes.get? p = some n := by
  obtain ⟨n, hn⟩ := Table.key?_eq_some_iff.1 h
  exact ⟨n, by simp [FlowGraph.entry, hn], Table.get?_eq_some_iff.2 ⟨_, hn⟩⟩

theorem points_iff_mem_pts? : g.Points p o ↔ o ∈ ((g.pts? p).getD ∅).toList := by
  unfold Points pts?
  cases h : g.nodes.get? p with
  | none => simp
  | some n => simp

theorem WellFormed.ascending_pts? (hg : g.WellFormed) (p : Pointer C e) :
    ((g.pts? p).getD ∅).Ascending := by
  unfold pts?
  cases h : g.nodes.get? p with
  | none => exact PointsToSet.ascending_empty
  | some n => exact hg.ascending h

theorem wellFormed_empty : ({} : FlowGraph C e).WellFormed where
  ascending h := by simp at h
  stands h := by simp at h

theorem Points.has (h : g.Points p o) : g.Has p := by
  obtain ⟨n, hn, -⟩ := h
  obtain ⟨i, hi⟩ := Table.get?_eq_some_iff.1 hn
  exact ⟨⟨i⟩, Table.key?_of_nth? hi⟩

theorem Links.has_source (h : g.Links p q) : g.Has p := by
  obtain ⟨n, j, hn, -, -⟩ := h
  obtain ⟨i, hi⟩ := Table.get?_eq_some_iff.1 hn
  exact ⟨⟨i⟩, Table.key?_of_nth? hi⟩

theorem Links.has_target (h : g.Links p q) : g.Has q := by
  obtain ⟨n, j, -, -, hq⟩ := h
  exact ⟨j, hq⟩

theorem not_has_empty : ¬ ({} : FlowGraph C e).Has p := by simp [Has, Stands]

theorem not_points_empty : ¬ ({} : FlowGraph C e).Points p o := by simp [Points]

theorem not_links_empty : ¬ ({} : FlowGraph C e).Links p q := by simp [Links]

/-! ## Nodes -/

theorem Stands.node (h : g.Stands i q) : (g.node p).1.Stands i q :=
  Table.key?_intern_of_key? h

theorem stands_node (g : FlowGraph C e) (p : Pointer C e) : (g.node p).1.Stands (g.node p).2 p :=
  Table.key?_intern_self g.nodes p {}

theorem has_node : (g.node p).1.Has a ↔ g.Has a ∨ a = p := by
  constructor
  · rintro ⟨i, hi⟩
    rcases Table.key?_intern_iff.1 hi with hi | ⟨-, rfl⟩
    · exact .inl ⟨i, hi⟩
    · exact .inr rfl
  · rintro (⟨i, hi⟩ | rfl)
    · exact ⟨i, hi.node⟩
    · exact ⟨_, stands_node g a⟩

/-- A pointer has a node if it had one, or if it is the one that is made a node. -/
theorem get?_node_eq_some {n : FlowNode e} (h : (g.node p).1.nodes.get? a = some n) :
    g.nodes.get? a = some n ∨ n = {} := by
  change (g.nodes.intern p {}).1.get? a = some n at h
  rw [Table.get?_intern] at h
  split at h
  case isFalse => exact .inl h
  case isTrue heq =>
    subst heq
    cases hg : g.nodes.get? a with
    | none => exact .inr (by simpa [hg, eq_comm] using h)
    | some m => exact .inl (by simpa [hg] using h)

theorem get?_node_of_get? {n : FlowNode e} (h : g.nodes.get? a = some n) :
    (g.node p).1.nodes.get? a = some n := by
  change (g.nodes.intern p {}).1.get? a = some n
  rw [Table.get?_intern]
  split
  case isFalse => exact h
  case isTrue heq => simp [← heq, h]

theorem points_node : (g.node p).1.Points a o ↔ g.Points a o := by
  constructor
  · rintro ⟨n, hn, ho⟩
    rcases get?_node_eq_some hn with h | rfl
    · exact ⟨n, h, ho⟩
    · simp at ho
  · rintro ⟨n, hn, ho⟩
    exact ⟨n, get?_node_of_get? hn, ho⟩

theorem Links.node (h : g.Links a b) : (g.node p).1.Links a b := by
  obtain ⟨n, j, hn, hj, hb⟩ := h
  exact ⟨n, j, get?_node_of_get? hn, hj, hb.node⟩

theorem WellFormed.links_node (hg : g.WellFormed) : (g.node p).1.Links a b ↔ g.Links a b := by
  refine ⟨?_, Links.node⟩
  rintro ⟨n, j, hn, hj, hb⟩
  rcases get?_node_eq_some hn with h | rfl
  · -- the number of a successor is not free, so it keeps its pointer
    obtain ⟨b', hb'⟩ := hg.stands h hj
    obtain rfl := hb'.node.pointer_inj hb
    exact ⟨n, j, h, hj, hb'⟩
  · simp at hj

theorem WellFormed.node (hg : g.WellFormed) (p : Pointer C e) : (g.node p).1.WellFormed where
  ascending h := by
    rcases get?_node_eq_some h with h | rfl
    · exact hg.ascending h
    · exact PointsToSet.ascending_empty
  stands h hj := by
    rcases get?_node_eq_some h with h | rfl
    · obtain ⟨q, hq⟩ := hg.stands h hj
      exact ⟨q, hq.node⟩
    · simp at hj

/-! ## Edges -/

theorem mem_succs_iff {n : FlowNode e} (hn : g.nodes.get? p = some n) (hj : g.Stands j q) :
    j ∈ n.succs ↔ g.Links p q := by
  constructor
  · intro h
    exact ⟨n, j, hn, h, hj⟩
  · rintro ⟨n', j', hn', hj', hq⟩
    obtain rfl := Option.some.inj (hn.symm.trans hn')
    rwa [hj.inj hq]

/-- The graph with one more successor at node `i`. -/
def extend (g : FlowGraph C e) (i j : PointerId) : FlowGraph C e :=
  ⟨g.nodes.modify i.index fun n ↦ { n with succs := n.succs ++ [j] }⟩

theorem addEdge_of_mem {n : FlowNode e} (hentry : g.entry i = .ok (p, n)) (hj : j ∈ n.succs) :
    g.addEdge i j = .ok (g, false) := by
  simp [addEdge, succsOf, hentry, hj, bind, Except.bind, pure, Except.pure]

theorem addEdge_of_not_mem {n : FlowNode e} (hentry : g.entry i = .ok (p, n)) (hj : j ∉ n.succs) :
    g.addEdge i j = .ok (g.extend i j, true) := by
  simp [addEdge, succsOf, hentry, hj, bind, Except.bind, pure, Except.pure, extend]

theorem addEdge_of_links (hi : g.Stands i p) (hj : g.Stands j q) (h : g.Links p q) :
    g.addEdge i j = .ok (g, false) := by
  obtain ⟨n, hentry, hn⟩ := hi.entry
  exact addEdge_of_mem hentry ((mem_succs_iff hn hj).2 h)

theorem addEdge_of_not_links (hi : g.Stands i p) (hj : g.Stands j q) (h : ¬ g.Links p q) :
    g.addEdge i j = .ok (g.extend i j, true) := by
  obtain ⟨n, hentry, hn⟩ := hi.entry
  exact addEdge_of_not_mem hentry fun hmem ↦ h ((mem_succs_iff hn hj).1 hmem)

theorem stands_extend {k : PointerId} : (g.extend i j).Stands k a ↔ g.Stands k a := by
  unfold Stands extend
  rw [Table.key?_modify]

theorem get?_extend (hi : g.Stands i p) (a : Pointer C e) :
    (g.extend i j).nodes.get? a =
      if a = p then (g.nodes.get? p).map fun n ↦ { n with succs := n.succs ++ [j] }
      else g.nodes.get? a :=
  Table.get?_modify hi a

theorem points_extend (hi : g.Stands i p) : (g.extend i j).Points a o ↔ g.Points a o := by
  unfold Points
  rw [get?_extend hi]
  split
  case isFalse => exact Iff.rfl
  case isTrue heq =>
    subst heq
    simp only [Option.map_eq_some_iff]
    constructor
    · rintro ⟨n, ⟨m, hm, rfl⟩, ho⟩
      exact ⟨m, hm, ho⟩
    · rintro ⟨m, hm, ho⟩
      exact ⟨_, ⟨m, hm, rfl⟩, ho⟩

theorem links_extend (hi : g.Stands i p) (hj : g.Stands j q) :
    (g.extend i j).Links a b ↔ g.Links a b ∨ a = p ∧ b = q := by
  obtain ⟨n, -, hn⟩ := hi.entry
  unfold Links
  simp only [get?_extend hi, stands_extend]
  by_cases ha : a = p
  · subst ha
    simp only [if_pos, hn, Option.map_some, Option.some.injEq, true_and]
    constructor
    · rintro ⟨m, k, rfl, hk, hb⟩
      rcases List.mem_append.1 hk with hk | hk
      · exact .inl ⟨n, k, rfl, hk, hb⟩
      · obtain rfl := List.mem_singleton.1 hk
        exact .inr (hb.pointer_inj hj)
    · rintro (⟨m, k, rfl, hk, hb⟩ | rfl)
      · exact ⟨_, k, rfl, List.mem_append_left _ hk, hb⟩
      · exact ⟨_, j, rfl, by simp, hj⟩
  · simp [ha]

/-- Nodes that exist may be linked. -/
theorem WellFormed.extend (hg : g.WellFormed) (hi : g.Stands i p) (hj : g.Stands j q) :
    (g.extend i j).WellFormed where
  ascending {a n} h := by
    rw [get?_extend hi] at h
    split at h
    case isFalse => exact hg.ascending h
    case isTrue =>
      obtain ⟨m, hm, rfl⟩ := Option.map_eq_some_iff.1 h
      have hasc : m.pts.Ascending := hg.ascending hm
      exact hasc
  stands {a n k} h hk := by
    simp only [stands_extend]
    rw [get?_extend hi] at h
    split at h
    case isFalse => exact hg.stands h hk
    case isTrue =>
      obtain ⟨m, hm, rfl⟩ := Option.map_eq_some_iff.1 h
      rcases List.mem_append.1 hk with hk | hk
      · exact hg.stands hm hk
      · obtain rfl := List.mem_singleton.1 hk
        exact ⟨q, hj⟩

/-! ## Links between pointers -/

/-- What connecting `source` to `target` comes to: the new graph, the node of the target and what is to
be sent there. -/
structure Connected (g : FlowGraph C e) (source target : Pointer C e)
    (r : FlowGraph C e × PointerId × PointsToSet e) : Prop where
  wellFormed : r.1.WellFormed
  stands : ∀ {i p}, g.Stands i p → r.1.Stands i p
  stands_target : r.1.Stands r.2.1 target
  has : ∀ {p}, r.1.Has p → g.Has p ∨ p = source ∨ p = target
  points : ∀ {p o}, r.1.Points p o ↔ g.Points p o
  links : ∀ {p q}, r.1.Links p q ↔ g.Links p q ∨ p = source ∧ q = target
  sent : ∀ {o}, o ∈ r.2.2.toList ↔ g.Points source o ∧ ¬ g.Links source target
  ascending : r.2.2.Ascending

/-- Both ends get a node. Unless they were linked before, they are linked now, and what the source
has is to be sent. -/
theorem WellFormed.connect (hg : g.WellFormed) (p q : Pointer C e) :
    Connected g p q (g.connect p q) := by
  let h := (g.node p).1
  let k := (h.node q).1
  have hk : k.WellFormed := (hg.node p).node q
  have hi : k.Stands (g.node p).2 p := (stands_node g p).node
  have hj : k.Stands (h.node q).2 q := stands_node h q
  have hlinks : ∀ {a b}, k.Links a b ↔ g.Links a b := fun {a b} ↦
    (hg.node p).links_node.trans hg.links_node
  have hpoints : ∀ {a o}, k.Points a o ↔ g.Points a o := fun {a o} ↦ points_node.trans points_node
  have hhas : ∀ {a}, k.Has a → g.Has a ∨ a = p ∨ a = q := by
    intro a ha
    rcases has_node.1 ha with ha | ha
    · rcases has_node.1 ha with ha | ha
      · exact .inl ha
      · exact .inr (.inl ha)
    · exact .inr (.inr ha)
  by_cases hpq : g.Links p q
  · have heq : g.connect p q = (k, (h.node q).2, ∅) := by
      have hadd : k.addEdge (g.node p).2 (h.node q).2 = .ok (k, false) :=
        addEdge_of_links hi hj (hlinks.2 hpq)
      simp [FlowGraph.connect, h, k, hadd]
    rw [heq]
    exact
      { wellFormed := hk
        stands := fun hs ↦ hs.node.node
        stands_target := hj
        has := hhas
        points := hpoints
        links := by
          intro a b
          rw [hlinks, or_iff_left_of_imp]
          rintro ⟨rfl, rfl⟩
          exact hpq
        sent := by simp [hpq]
        ascending := PointsToSet.ascending_empty }
  · have heq : g.connect p q =
        (k.extend (g.node p).2 (h.node q).2, (h.node q).2, (k.pts? p).getD ∅) := by
      have hadd : k.addEdge (g.node p).2 (h.node q).2 =
          .ok (k.extend (g.node p).2 (h.node q).2, true) :=
        addEdge_of_not_links hi hj fun hl ↦ hpq (hlinks.1 hl)
      simp [FlowGraph.connect, h, k, hadd]
    rw [heq]
    exact
      { wellFormed := hk.extend hi hj
        stands := fun hs ↦ stands_extend.2 hs.node.node
        stands_target := stands_extend.2 hj
        has := by
          intro a ha
          obtain ⟨i, hi⟩ := ha
          exact hhas ⟨i, stands_extend.1 hi⟩
        points := (points_extend hi).trans hpoints
        links := by
          intro a b
          rw [links_extend hi hj, hlinks]
        sent := by
          intro o
          rw [← points_iff_mem_pts?, hpoints]
          simp [hpq]
        ascending := by
          obtain ⟨n, -, hn⟩ := hi.entry
          simpa [pts?, hn] using hk.ascending hn }

/-! ## Propagation -/

/-- What becomes of a graph when `delta` arrives at the pointer `p`: the new graph, what is new to
`p`, and the successors of `p`. -/
structure Arrived (g : FlowGraph C e) (p : Pointer C e) (delta : PointsToSet e) (g' : FlowGraph C e)
    (added : PointsToSet e) (succs : List PointerId) : Prop where
  wellFormed : g'.WellFormed
  stands : ∀ {i a}, g'.Stands i a ↔ g.Stands i a
  points : ∀ {a o}, g'.Points a o ↔ g.Points a o ∨ a = p ∧ o ∈ delta.toList
  links : ∀ {a b}, g'.Links a b ↔ g.Links a b
  added_iff : ∀ {o}, o ∈ added.toList ↔ o ∈ delta.toList ∧ ¬ g.Points p o
  ascending : added.Ascending
  succs_stand : ∀ {j}, j ∈ succs → ∃ q, g.Stands j q
  succs_iff : ∀ {j q}, g.Stands j q → (j ∈ succs ↔ g.Links p q)

theorem propagate_of_entry {n : FlowNode e} (hentry : g.entry i = .ok (p, n))
    (delta : PointsToSet e) :
    g.propagate i delta =
      .ok (⟨g.nodes.modify i.index fun m ↦ { m with pts := (n.pts.addAll delta).1 }⟩,
        (n.pts.addAll delta).2) := by
  simp [FlowGraph.propagate, pointsTo, hentry, bind, Except.bind, pure, Except.pure]

/-- What arrives at a node is merged into its set. No other node changes, so that the rest can be
read off the graph as before. -/
theorem WellFormed.propagate (hg : g.WellFormed) (hi : g.Stands i p) {delta : PointsToSet e}
    (hd : delta.Ascending) :
    ∃ g' added n, g.propagate i delta = .ok (g', added) ∧ g'.entry i = .ok (p, n) ∧
      Arrived g p delta g' added n.succs := by
  obtain ⟨n, hentry, hn⟩ := hi.entry
  have hasc : n.pts.Ascending := hg.ascending hn
  let g' : FlowGraph C e :=
    ⟨g.nodes.modify i.index fun m ↦ { m with pts := (n.pts.addAll delta).1 }⟩
  have hstands : ∀ {j a}, g'.Stands j a ↔ g.Stands j a := by
    intro j a
    unfold Stands
    rw [Table.key?_modify]
  have hget : ∀ a, g'.nodes.get? a =
      if a = p then some { n with pts := (n.pts.addAll delta).1 } else g.nodes.get? a := by
    intro a
    refine (Table.get?_modify hi a).trans ?_
    rw [hn, Option.map_some]
  have hentry' : g'.entry i = .ok (p, { n with pts := (n.pts.addAll delta).1 }) := by
    obtain ⟨m, hm, hm'⟩ := (hstands.2 hi).entry
    rw [hget, if_pos rfl] at hm'
    rw [hm, ← Option.some.inj hm']
  refine ⟨g', (n.pts.addAll delta).2, _, propagate_of_entry hentry delta, hentry', ?_⟩
  have hpoints : g.Points p = fun o ↦ o ∈ n.pts.toList := by
    funext o
    simp [Points, hn]
  exact
    { wellFormed :=
        { ascending := by
            intro a m hm
            rw [hget] at hm
            split at hm
            case isTrue =>
              obtain rfl := Option.some.inj hm
              exact PointsToSet.ascending_addAll hasc hd
            case isFalse => exact hg.ascending hm
          stands := by
            intro a m j hm hj
            simp only [hstands]
            rw [hget] at hm
            split at hm
            case isTrue =>
              obtain rfl := Option.some.inj hm
              exact hg.stands hn hj
            case isFalse => exact hg.stands hm hj }
      stands := hstands
      points := by
        intro a o
        by_cases ha : a = p
        · subst ha
          simp [Points, hget, hn, PointsToSet.mem_addAll]
        · simp [Points, hget, ha]
      links := by
        intro a b
        unfold Links
        simp only [hget, hstands]
        by_cases ha : a = p
        · subst ha
          simp [hn]
        · simp [ha]
      added_iff := by
        intro o
        rw [PointsToSet.mem_addAll_added hasc hd, hpoints]
      ascending := PointsToSet.ascending_addAll_added hasc hd
      succs_stand := fun hj ↦ hg.stands hn hj
      succs_iff := by
        intro j q hj
        have hsuccs : j ∈ n.succs ↔ g.Links p q := mem_succs_iff hn hj
        exact hsuccs }

end PointsTo.FlowGraph
