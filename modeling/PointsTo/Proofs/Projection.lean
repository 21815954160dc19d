import PointsTo.Proofs.FiniteSets
import PointsTo.Proofs.Nodes

/-!
# Views by the facts they show

A view leaves contexts out: a variable refers to whatever it refers to under some context, calls and
methods count whatever the context. Here that is said of facts (`View.Shows`), so that views of
different runs can be compared by comparing facts. A finished run can always be viewed, and its view
shows its facts.
-/

namespace PointsTo

/-! ## Collecting sets by variable -/

namespace VarSets

variable {C : Type} {e : Entity} {sets : VarSets} {v w : VarId} {objects : PointsToSet .object}

/-- The variables stand in ascending order. -/
def Ascending (sets : VarSets) : Prop :=
  (sets.map Prod.fst).Pairwise fun a b ↦ decide (a.index < b.index) = true

theorem mem_vars_add : w ∈ (add sets v objects).map Prod.fst ↔ w ∈ sets.map Prod.fst ∨ w = v :=
  Ordered.mem_keys_alter

theorem Ascending.add (h : Ascending sets) (v : VarId) (objects : PointsToSet .object) :
    Ascending (add sets v objects) := by
  apply Ordered.pairwise_alter
  · intro a b c hab hbc
    simp only [decide_eq_true_eq] at hab hbc ⊢
    omega
  · intro a b hne
    simp only [decide_eq_true_eq]
    have hindex : a.index ≠ b.index := fun heq ↦ hne (Id.index_inj.1 heq)
    omega
  · exact h

theorem Ascending.lookup_add (h : Ascending sets) : (VarSets.add sets v objects).lookup w =
    if w = v then some (((sets.lookup v).getD ∅).addAll objects).1 else sets.lookup w := by
  apply Ordered.lookup_alter
  · intro a b c hab hbc
    simp only [decide_eq_true_eq] at hab hbc ⊢
    omega
  · simp
  · exact h

theorem Ascending.mem_add (h : Ascending sets) {o : ObjectId} :
    o ∈ (((VarSets.add sets v objects).lookup w).getD ∅).toList ↔
      o ∈ ((sets.lookup w).getD ∅).toList ∨ w = v ∧ o ∈ objects.toList := by
  rw [h.lookup_add]
  by_cases hw : w = v
  · simp [hw, PointsToSet.mem_addAll]
  · simp [hw]

/-- The sets hold for each variable what some pointers hold for it, under whatever context. -/
structure Collects (objectOf : Id e → Except UnknownId ObjectId)
    (pointers : List (Pointer C e × PointsToSet e)) (sets : VarSets) : Prop where
  ascending : Ascending sets
  vars : ∀ {v}, v ∈ sets.map Prod.fst ↔ ∃ c set, (.var c v, set) ∈ pointers
  objects : ∀ {v o}, o ∈ ((sets.lookup v).getD ∅).toList ↔
    ∃ c set i, (.var c v, set) ∈ pointers ∧ i ∈ set.toList ∧ objectOf i = .ok o

variable {objectOf : Id e → Except UnknownId ObjectId} {pointers : List (Pointer C e × PointsToSet e)}

/-- One more pointer for a variable. -/
theorem Collects.var (h : Collects objectOf pointers sets) {c : C} {set : PointsToSet e}
    {os : List ObjectId} (hos : ∀ o, o ∈ os ↔ ∃ i ∈ set.toList, objectOf i = .ok o) :
    Collects objectOf (pointers ++ [(.var c v, set)]) (add sets v (.ofList os)) where
  ascending := h.ascending.add v _
  vars := by
    intro w
    rw [mem_vars_add, h.vars]
    constructor
    · rintro (⟨c', set', hmem⟩ | rfl)
      · exact ⟨c', set', List.mem_append_left _ hmem⟩
      · exact ⟨c, set, List.mem_append_right _ List.mem_cons_self⟩
    · rintro ⟨c', set', hmem⟩
      rcases List.mem_append.1 hmem with hmem | hmem
      · exact .inl ⟨c', set', hmem⟩
      · obtain ⟨hvar, -⟩ := Prod.mk.inj (List.mem_singleton.1 hmem)
        exact .inr (Pointer.var.inj hvar).2
  objects := by
    intro w o
    rw [h.ascending.mem_add, h.objects, PointsToSet.mem_ofList, hos]
    constructor
    · rintro (⟨c', set', i, hmem, hi⟩ | ⟨rfl, i, hi⟩)
      · exact ⟨c', set', i, List.mem_append_left _ hmem, hi⟩
      · exact ⟨c, set, i, List.mem_append_right _ List.mem_cons_self, hi⟩
    · rintro ⟨c', set', i, hmem, hi⟩
      rcases List.mem_append.1 hmem with hmem | hmem
      · exact .inl ⟨c', set', i, hmem, hi⟩
      · obtain ⟨hvar, rfl⟩ := Prod.mk.inj (List.mem_singleton.1 hmem)
        exact .inr ⟨(Pointer.var.inj hvar).2, i, hi⟩

/-- Pointers other than variables are passed over. -/
theorem Collects.other (h : Collects objectOf pointers sets) {p : Pointer C e} {set : PointsToSet e}
    (hp : ∀ c v, p ≠ .var c v) : Collects objectOf (pointers ++ [(p, set)]) sets := by
  have hmem : ∀ {c v set'}, (Pointer.var c v, set') ∈ pointers ++ [(p, set)] ↔
      (Pointer.var c v, set') ∈ pointers := by
    intro c v set'
    simp [Ne.symm (hp c v)]
  refine ⟨h.ascending, ?_, ?_⟩
  · intro v
    simp only [hmem]
    exact h.vars
  · intro v o
    simp only [hmem]
    exact h.objects

/-- Each set stands in ascending order. -/
def SetsAscend (sets : VarSets) : Prop := ∀ v, ((sets.lookup v).getD ∅).Ascending

theorem SetsAscend.add (h : SetsAscend sets) (hsets : Ascending sets) (hobjects : objects.Ascending) :
    SetsAscend (add sets v objects) := by
  intro w
  rw [hsets.lookup_add]
  split
  case isTrue => exact PointsToSet.ascending_addAll (h v) hobjects
  case isFalse => exact h w

/-- Every object of a variable is known. -/
def Known (objectOf : Id e → Except UnknownId ObjectId)
    (pointers : List (Pointer C e × PointsToSet e)) : Prop :=
  ∀ {c v set}, (.var c v, set) ∈ pointers → ∀ i ∈ set.toList, ∃ o, objectOf i = .ok o

/-- If every object of a variable is known, the sets can be collected. -/
theorem project_eq_ok (hknown : Known objectOf pointers) :
    ∃ sets, project objectOf pointers = .ok sets ∧ Collects objectOf pointers sets ∧
      SetsAscend sets := by
  induction pointers using List.reverseRecOn with
  | nil => exact ⟨[], rfl, ⟨.nil, by simp, by simp⟩, fun v ↦ PointsToSet.ascending_empty⟩
  | append_singleton pointers entry ih =>
    obtain ⟨sets, hsets, hcollects, hascend⟩ := ih fun h ↦ hknown (List.mem_append_left _ h)
    obtain ⟨p, set⟩ := entry
    unfold project at hsets ⊢
    rw [List.foldlM_append, hsets]
    cases p with
    | var c v =>
      obtain ⟨os, hos, hmem⟩ := mapM_eq_ok (hknown (List.mem_append_right _ List.mem_cons_self))
      refine ⟨add sets v (.ofList os), ?_, hcollects.var hmem,
        hascend.add hcollects.ascending (PointsToSet.ascending_ofList os)⟩
      simp [hos, bind, Except.bind, pure, Except.pure]
    | _ => exact ⟨sets, rfl, hcollects.other fun c v ↦ nofun, hascend⟩

end VarSets

/-! ## Views -/

namespace View

/-- The variable may refer to the object. -/
def Refers (V : View) (v : VarId) (x : AbstractObject) : Prop :=
  ∃ i ∈ V.pointsTo v, V.heap.object i = .ok x

/-- The view shows the facts `F` with contexts left out, also those that `base` leaves out of an
object. -/
structure Shows {K O : Type} (V : View) (p : Program) (F : Facts K O) (base : O → AbstractObject) :
    Prop where
  known : ∀ {v i}, i ∈ V.pointsTo v → ∃ x, V.heap.object i = .ok x
  refers : ∀ {v x}, V.Refers v x ↔ ∃ k y, F.pts (.var k v) y ∧ base y = x
  vars : ∀ {v}, v ∈ V.vars ↔ ∃ k, F.Mentions p (.var k v)
  edges : ∀ {edge}, edge ∈ V.edges ↔ ∃ edge', F.calls edge' ∧ edge'.erase = edge
  methods : ∀ {m}, m ∈ V.methods ↔ ∃ k, F.reaches ⟨k, m⟩

end View

variable {C : Type} [Contextual C] {e : Entity} {σ K O : Type}

theorem FlowGraph.mem_toList_iff {g : FlowGraph C e} {p : Pointer C e} {set : PointsToSet e} :
    (p, set) ∈ g.toList ↔ ∃ n, g.nodes.get? p = some n ∧ n.pts = set := by
  unfold toList
  rw [List.mem_map]
  constructor
  · rintro ⟨⟨p', n⟩, hn, heq⟩
    obtain ⟨rfl, rfl⟩ := Prod.mk.inj heq
    exact ⟨n, Table.mem_toList_iff.1 hn, rfl⟩
  · rintro ⟨n, hn, rfl⟩
    exact ⟨(p, n), Table.mem_toList_iff.2 hn, rfl⟩

theorem FlowGraph.has_iff {g : FlowGraph C e} {p : Pointer C e} :
    g.Has p ↔ ∃ set, (p, set) ∈ g.toList := by
  simp only [mem_toList_iff]
  constructor
  · rintro ⟨i, hi⟩
    obtain ⟨n, -, hn⟩ := hi.entry
    exact ⟨n.pts, n, hn, rfl⟩
  · rintro ⟨set, n, hn, -⟩
    obtain ⟨i, hi⟩ := Table.get?_eq_some_iff.1 hn
    exact ⟨⟨i⟩, Table.key?_of_nth? hi⟩

theorem FlowGraph.points_iff {g : FlowGraph C e} {p : Pointer C e} {o : Id e} :
    g.Points p o ↔ ∃ set, (p, set) ∈ g.toList ∧ o ∈ set.toList := by
  simp only [mem_toList_iff]
  constructor
  · rintro ⟨n, hn, ho⟩
    exact ⟨n.pts, ⟨n, hn, rfl⟩, ho⟩
  · rintro ⟨set, ⟨n, hn, rfl⟩, ho⟩
    exact ⟨n, hn, ho⟩

/-- The view is made of the state, whose objects are read by `objectOf` in `heap`. -/
structure View.Reads (V : View) (s : State C e σ) (objectOf : Id e → Except UnknownId ObjectId)
    (heap : Heap) : Prop where
  heap : V.heap = heap
  sets : VarSets.Collects objectOf s.flow.toList V.sets
  edges : V.edges = s.calls.erasedEdges
  methods : V.methods = s.calls.erasedMethods

namespace View.Reads

variable {V : View} {s : State C e σ} {objectOf : Id e → Except UnknownId ObjectId} {heap : Heap}

theorem mem_vars (h : V.Reads s objectOf heap) {v : VarId} :
    v ∈ V.vars ↔ ∃ c, s.flow.Has (.var c v) := by
  rw [View.vars, h.sets.vars]
  simp only [FlowGraph.has_iff]

theorem mem_methods (h : V.Reads s objectOf heap) {m : MethodId} :
    m ∈ V.methods ↔ ∃ c, s.Reaches ⟨c, m⟩ := by
  rw [h.methods, CallGraph.erasedMethods, List.mem_eraseDups, List.mem_map]
  constructor
  · rintro ⟨m', hm', rfl⟩
    exact ⟨m'.ctx, Table.mem_keys_iff.1 hm'⟩
  · rintro ⟨c, hm⟩
    exact ⟨⟨c, m⟩, Table.mem_keys_iff.2 hm, rfl⟩

theorem mem_edges (h : V.Reads s objectOf heap) {edge : Edge Unit} :
    edge ∈ V.edges ↔ ∃ edge', s.Calls edge' ∧ edge'.erase = edge := by
  rw [h.edges, CallGraph.erasedEdges, List.mem_eraseDups, List.mem_map]
  exact exists_congr fun edge' ↦ and_congr_left fun _ ↦ Table.mem_keys_iff

/-- What a variable refers to in the view comes from the variable under some context. -/
theorem mem_pointsTo (h : V.Reads s objectOf heap) {v : VarId} {i : ObjectId} :
    i ∈ V.pointsTo v ↔ ∃ c o, s.flow.Points (.var c v) o ∧ objectOf o = .ok i := by
  unfold View.pointsTo View.pointsTo?
  rw [h.sets.objects]
  simp only [FlowGraph.points_iff]
  constructor
  · rintro ⟨c, set, o, hset, ho, hi⟩
    exact ⟨c, o, ⟨set, hset, ho⟩, hi⟩
  · rintro ⟨c, o, ⟨set, hset, ho⟩, hi⟩
    exact ⟨c, set, o, hset, ho, hi⟩

end View.Reads

/-- The sets of a state whose objects are known can be collected. -/
theorem State.Faithful.collects {M : Meaning C e σ K O} {s : State C e σ} (h : s.Faithful M)
    {objectOf : Id e → Except UnknownId ObjectId}
    (hobject : ∀ {o x}, M.obj s.names o = some x → ∃ i, objectOf o = .ok i) :
    ∃ sets, VarSets.project objectOf s.flow.toList = .ok sets ∧
      VarSets.Collects objectOf s.flow.toList sets := by
  have hknown : VarSets.Known objectOf s.flow.toList := by
    intro c v set hset o ho
    obtain ⟨-, x, hx⟩ := h.points (FlowGraph.points_iff.2 ⟨set, hset, ho⟩)
    exact hobject hx
  obtain ⟨sets, hsets, hcollects, -⟩ := VarSets.project_eq_ok hknown
  exact ⟨sets, hsets, hcollects⟩

/-- States can be viewed, and the view has for every object what `base` leaves of it. -/
def Meaning.Viewed (M : Meaning C e σ K O) (base : O → AbstractObject)
    (view : State C e σ → Except UnknownId View) : Prop :=
  ∀ {s : State C e σ}, s.Faithful M → ∃ V objectOf heap, view s = .ok V ∧ V.Reads s objectOf heap ∧
    ∀ {o x}, M.obj s.names o = some x → ∃ i, objectOf o = .ok i ∧ heap.object i = .ok (base x)

namespace Interpretation

variable {S : Setup C e σ} {R : Interpretation S K O} {entry : MethodId} {s : State C e σ} {names : σ}
  {U : Facts K O} (h : R.Ready names entry U) {order : WorkOrder}
  (hs : Relation.ReflTransGen S.Step (S.initial names order entry) s) (hfin : s.Finished)

include h hs hfin

/-- A variable has a number under some context if the facts mention it under some. -/
theorem Ready.has_var_iff {v : VarId} : (∃ c, s.flow.Has (.var c v)) ↔
    ∃ k, (s.facts R.meaning).Mentions S.program (.var k v) := by
  constructor
  · rintro ⟨c, hc⟩
    obtain ⟨P, hP, hmentions⟩ := h.mentions_of_has hs hfin hc
    obtain ⟨k, -, rfl⟩ := Meaning.place_var_iff.1 hP
    exact ⟨k, hmentions⟩
  · rintro ⟨k, hk⟩
    obtain ⟨p, hp, hhas⟩ := h.has_of_mentions hs hfin hk
    cases p with
    | var c w =>
      obtain ⟨k', -, heq⟩ := Meaning.place_var_iff.1 hp
      obtain ⟨-, rfl⟩ := Place.var.inj heq
      exact ⟨c, hhas⟩
    | _ => simp [Meaning.place] at hp

/-- A view that is made of a finished run shows the facts of the run. -/
theorem Ready.shows {objectOf : Id e → Except UnknownId ObjectId} {heap : Heap}
    {base : O → AbstractObject}
    (hobject : ∀ {o x}, R.meaning.obj s.names o = some x →
      ∃ i, objectOf o = .ok i ∧ heap.object i = .ok (base x)) {V : View}
    (hV : V.Reads s objectOf heap) : V.Shows S.program (s.facts R.meaning) base := by
  have hfaithful := (h.invariant hs).sound.faithful
  have hpoints : ∀ {p o}, s.flow.Points p o → ∃ x i, R.meaning.obj s.names o = some x ∧
      objectOf o = .ok i ∧ heap.object i = .ok (base x) := by
    intro p o ho
    obtain ⟨-, x, hx⟩ := hfaithful.points ho
    obtain ⟨i, hi, hheap⟩ := hobject hx
    exact ⟨x, i, hx, hi, hheap⟩
  constructor
  case known =>
    intro v i hi
    obtain ⟨c, o, ho, hi⟩ := hV.mem_pointsTo.1 hi
    obtain ⟨x, i', -, hi', hx⟩ := hpoints ho
    obtain rfl := Except.ok.inj (hi.symm.trans hi')
    exact ⟨base x, hV.heap ▸ hx⟩
  case refers =>
    intro v x
    constructor
    · rintro ⟨i, hi, hx⟩
      obtain ⟨c, o, ho, hi⟩ := hV.mem_pointsTo.1 hi
      obtain ⟨y, i', hy, hi', hbase⟩ := hpoints ho
      obtain rfl := Except.ok.inj (hi.symm.trans hi')
      rw [hV.heap, hbase] at hx
      obtain ⟨P, hP⟩ := (hfaithful.points ho).1
      obtain ⟨k, -, rfl⟩ := Meaning.place_var_iff.1 hP
      exact ⟨k, y, ⟨_, o, hP, hy, ho⟩, Except.ok.inj hx⟩
    · rintro ⟨k, y, hpts, rfl⟩
      obtain ⟨c, o, -, hy, ho⟩ := pts_facts_var hpts
      obtain ⟨i, hi, hbase⟩ := hobject hy
      exact ⟨i, hV.mem_pointsTo.2 ⟨c, o, ho, hi⟩, hV.heap ▸ hbase⟩
  case vars =>
    intro v
    rw [← h.has_var_iff hs hfin]
    exact hV.mem_vars
  case edges =>
    intro edge
    rw [hV.mem_edges]
    constructor
    · rintro ⟨edge', hcalls, rfl⟩
      obtain ⟨⟨k, hk⟩, l, hl⟩ := hfaithful.calls hcalls
      exact ⟨⟨edge'.kind, ⟨k, edge'.site.id⟩, ⟨l, edge'.callee.id⟩⟩, ⟨_, _, hk, hl, hcalls⟩, rfl⟩
    · rintro ⟨edge', ⟨c, c', -, -, hcalls⟩, rfl⟩
      exact ⟨_, hcalls, rfl⟩
  case methods =>
    intro m
    rw [hV.mem_methods]
    constructor
    · rintro ⟨c, hreaches⟩
      obtain ⟨k, hk⟩ := hfaithful.reaches hreaches
      exact ⟨k, c, hk, hreaches⟩
    · rintro ⟨k, c, -, hreaches⟩
      exact ⟨c, hreaches⟩

end Interpretation

/-! ## The two kinds of views -/

theorem CiState.object_of_get? {s : CiState} {o : ObjectId} {x : AbstractObject}
    (hx : s.names.get? o = some x) :
    ∃ i, (pure o : Except UnknownId ObjectId) = .ok i ∧ s.names.object i = .ok x :=
  ⟨o, rfl, Heap.object_eq_ok hx⟩

/-- A state without contexts can be viewed at any time. -/
theorem CiState.view_eq_ok {s : CiState} (h : s.Faithful .plain) :
    ∃ V, CiState.view s = .ok V ∧ V.Reads s pure s.names := by
  obtain ⟨sets, hsets, hcollects⟩ := h.collects fun hx ↦
    (CiState.object_of_get? hx).imp fun _ hi ↦ hi.1
  rw [CiState.view, hsets]
  exact ⟨_, rfl, rfl, hcollects, rfl, rfl⟩

theorem CiState.viewed : Meaning.plain.Viewed id CiState.view := by
  intro s hs
  obtain ⟨V, hV, hreads⟩ := CiState.view_eq_ok hs
  exact ⟨V, pure, s.names, hV, hreads, CiState.object_of_get?⟩

theorem CsState.object_of_heapObject {s : CsState} {o : CsObjectId} {x : HeapObject}
    (hx : s.names.heapObject o = some x) :
    ∃ i, CsState.objectOf s o = .ok i ∧ s.names.heap.object i = .ok x.object := by
  obtain ⟨named, hnamed, -, hget⟩ := CsHeap.heapObject_eq_some_iff.1 hx
  refine ⟨named.id, ?_, Heap.object_eq_ok hget⟩
  simp [CsState.objectOf, CsHeap.object_eq_ok hnamed, bind, Except.bind, pure, Except.pure]

/-- A state with contexts can be viewed at any time. -/
theorem CsState.view_eq_ok {s : CsState} (h : s.Faithful .selected) :
    ∃ V, CsState.view s = .ok V ∧ V.Reads s (CsState.objectOf s) s.names.heap := by
  obtain ⟨sets, hsets, hcollects⟩ := h.collects fun hx ↦
    (CsState.object_of_heapObject hx).imp fun _ hi ↦ hi.1
  rw [CsState.view, hsets]
  exact ⟨_, rfl, rfl, hcollects, rfl, rfl⟩

theorem CsState.viewed : Meaning.selected.Viewed HeapObject.object CsState.view := by
  intro s hs
  obtain ⟨V, hV, hreads⟩ := CsState.view_eq_ok hs
  exact ⟨V, CsState.objectOf s, s.names.heap, hV, hreads, CsState.object_of_heapObject⟩

section

variable {w : World} (hp : w.program.Analysable) (abstraction : HeapAbstraction) (order : WorkOrder)

include hp

/-- A run without contexts returns and can be viewed, and the view shows its facts, which are the least
solution. -/
theorem World.shownPlain :
    ∃ (s : CiState) (V : View), w.solvePlain abstraction order = .ok s ∧ s.view = .ok V ∧
      s.Faithful .plain ∧
      IsLeast {F | Rules.Closed
        { program := w.program, domain := .plain abstraction, entry := w.entry } F}
        (s.facts .plain) ∧
      V.Shows w.program (s.facts .plain) id := by
  have hready := World.plain_ready hp abstraction
  obtain ⟨s, hsolve, hsteps, hfin, hfaithful, hleast⟩ := hready.solve_isLeast order
  obtain ⟨V, hview, hreads⟩ := CiState.view_eq_ok hfaithful
  exact ⟨s, V, hsolve, hview, hfaithful, hleast,
    hready.shows hsteps hfin CiState.object_of_get? hreads⟩

/-- So does a run with contexts, the heap contexts of objects being left out as well. -/
theorem World.shownSelected (selector : Selector) :
    ∃ (s : CsState) (V : View),
      w.solveSelected selector abstraction order none = .ok s ∧ s.view = .ok V ∧
      s.Faithful .selected ∧
      IsLeast {F | Rules.Closed
        { program := w.program, domain := .selected w.program abstraction selector,
          entry := w.entry } F} (s.facts .selected) ∧
      V.Shows w.program (s.facts .selected) HeapObject.object := by
  have hnone : ∀ {P : TaintPlan → Prop} plan, (none : Option TaintPlan) = some plan → P plan :=
    fun _ h ↦ nomatch h
  have hready := World.selected_ready hp selector abstraction hnone hnone
  obtain ⟨s, hsolve, hsteps, hfin, hfaithful, hleast⟩ := hready.solve_isLeast order
  obtain ⟨V, hview, hreads⟩ := CsState.view_eq_ok hfaithful
  exact ⟨s, V, hsolve, hview, hfaithful, hleast,
    hready.shows hsteps hfin CsState.object_of_heapObject hreads⟩

theorem World.viewPlain :
    ∃ (s : CiState) (V : View) (F : Facts Unit AbstractObject),
      w.solvePlain abstraction order = .ok s ∧ s.view = .ok V ∧
      IsLeast {F | Rules.Closed
        { program := w.program, domain := .plain abstraction, entry := w.entry } F} F ∧
      V.Shows w.program F id := by
  obtain ⟨s, V, hsolve, hview, -, hleast, hshows⟩ := World.shownPlain hp abstraction order
  exact ⟨s, V, _, hsolve, hview, hleast, hshows⟩

theorem World.viewSelected (selector : Selector) :
    ∃ (s : CsState) (V : View) (F : Facts (List ContextStep) HeapObject),
      w.solveSelected selector abstraction order none = .ok s ∧ s.view = .ok V ∧
      IsLeast {F | Rules.Closed
        { program := w.program, domain := .selected w.program abstraction selector,
          entry := w.entry } F} F ∧
      V.Shows w.program F HeapObject.object := by
  obtain ⟨s, V, hsolve, hview, -, hleast, hshows⟩ := World.shownSelected hp abstraction order selector
  exact ⟨s, V, _, hsolve, hview, hleast, hshows⟩

end

end PointsTo
