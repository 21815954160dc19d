import PointsTo.Config.Basic
import PointsTo.Proofs.Coarsening

/-!
# Precision

What contexts and heap abstractions do to results. Contexts only refine: with them, an analysis finds
nothing that it would not find without them (`selected_includedIn_plain`). Longer contexts refine
shorter ones (`deeper_includedIn_shallower`), and allocation sites refine classes
(`sites_includedIn_classes`). All three compare views, so they hold of results as a client reads them,
whatever the order of work was in either run.
-/

namespace PointsTo

/-- On every accepted program, an analysis with contexts, whichever they are, finds no more than one
without contexts: no further objects of a variable, call edges, reachable methods or variables. -/
theorem selected_includedIn_plain {ds : List Declaration} {p : Program} {entry : MethodId} {w : World}
    (hbuilt : Program.ofDeclarations ds = .ok p) (hworld : World.of p entry = .ok w)
    (hrange : p.InRange) (selector : Selector) (abstraction : HeapAbstraction)
    (order order' : WorkOrder) :
    ∃ (s : CsState) (t : CiState) (V W : View),
      w.solveSelected selector abstraction order none = .ok s ∧ s.view = .ok V ∧
      w.solvePlain abstraction order' = .ok t ∧ t.view = .ok W ∧ V.IncludedIn id W := by
  obtain ⟨rfl, -⟩ := World.of_eq_ok hworld
  have hp : (World.mk p entry).program.Analysable := Program.analysable hbuilt hworld hrange
  obtain ⟨s, V, F, hs, hV, hF, hshows⟩ := World.viewSelected hp abstraction order selector
  obtain ⟨t, W, G, ht, hW, hG, hshows'⟩ := World.viewPlain hp abstraction order'
  let f := Domain.Coarsening.forget p abstraction selector
  exact ⟨s, t, V, W, hs, hV, ht, hW, hshows.includedIn f hshows' (f.le_refine hF hG) fun _ ↦ rfl⟩

theorem selected_includedIn_plain_linked :
    Program.ofDeclarations linkedShapes = .ok linkedProgram ∧
    World.of linkedProgram ⟨2⟩ = .ok linkedWorld ∧ linkedProgram.InRange ∧
    ∃ (s : CsState) (t : CiState) (V W : View),
      linkedWorld.solveSelected ⟨.callSite, 1, 3⟩ .allocationSite .fifo none = .ok s ∧
      s.view = .ok V ∧ linkedWorld.solvePlain .allocationSite .lifo = .ok t ∧ t.view = .ok W ∧
      V.IncludedIn id W :=
  ⟨linkedProgram_built, linkedWorld_accepted, linkedProgram_inRange,
    selected_includedIn_plain linkedProgram_built linkedWorld_accepted linkedProgram_inRange
      ⟨.callSite, 1, 3⟩ .allocationSite .fifo .lifo⟩

/-! ## Depth of contexts -/

/-- Method contexts of length `k`, and heap contexts one shorter. -/
def Selector.ofDepth (strategy : Strategy) (k : Nat) : Selector := ⟨strategy, k, k - 1⟩

/-- That is what a configuration means that leaves heap contexts to the default. -/
theorem Config.selector_eq_ofDepth {c : Config} (h : c.heapContextDepth = none) :
    c.selector = .ofDepth c.context c.contextDepth.toNat := by
  have hdepth : c.heapDepth.toNat = c.contextDepth.toNat - 1 := by
    unfold heapDepth
    rw [h]
    by_cases hzero : c.contextDepth = 0
    · simp [hzero]
    · have hne : c.contextDepth.toNat ≠ 0 := fun heq ↦ hzero (UInt64.toNat_inj.1 heq)
      have hle : (1 : UInt64) ≤ c.contextDepth := by
        rw [UInt64.le_iff_toNat_le]
        exact Nat.one_le_iff_ne_zero.2 hne
      simp only [hzero, if_false]
      rw [UInt64.toNat_sub_of_le _ _ hle]
      rfl
  unfold selector Selector.ofDepth
  rw [hdepth]

/-- On every accepted program, deeper contexts never lose precision: if heap contexts have their
default depth, one less than that of method contexts, then whatever is found with contexts of depth
`j` is found with contexts of any smaller depth `k`. -/
theorem deeper_includedIn_shallower {ds : List Declaration} {p : Program} {entry : MethodId}
    {w : World} (hbuilt : Program.ofDeclarations ds = .ok p) (hworld : World.of p entry = .ok w)
    (hrange : p.InRange) (strategy : Strategy) {k j : Nat} (hdepth : k ≤ j)
    (abstraction : HeapAbstraction) (order order' : WorkOrder) :
    (∀ c : Config, c.heapContextDepth = none →
      c.selector = .ofDepth c.context c.contextDepth.toNat) ∧
    ∃ (s t : CsState) (V W : View),
      w.solveSelected (.ofDepth strategy j) abstraction order none = .ok s ∧ s.view = .ok V ∧
      w.solveSelected (.ofDepth strategy k) abstraction order' none = .ok t ∧ t.view = .ok W ∧
      V.IncludedIn id W := by
  obtain ⟨rfl, -⟩ := World.of_eq_ok hworld
  have hp : (World.mk p entry).program.Analysable := Program.analysable hbuilt hworld hrange
  obtain ⟨s, V, F, hs, hV, hF, hshows⟩ :=
    World.viewSelected hp abstraction order (.ofDepth strategy j)
  obtain ⟨t, W, G, ht, hW, hG, hshows'⟩ :=
    World.viewSelected hp abstraction order' (.ofDepth strategy k)
  have hheap : k - 1 ≤ j - 1 := by omega
  have hshort : k - 1 ≤ k := by omega
  have hlong : k ≤ k - 1 + 1 := by omega
  let f := Domain.Coarsening.truncate p abstraction (s := .ofDepth strategy j)
    (t := .ofDepth strategy k) rfl hdepth hheap hshort hlong
  refine ⟨fun c hc ↦ Config.selector_eq_ofDepth hc, s, t, V, W, hs, hV, ht, hW, ?_⟩
  exact hshows.includedIn f hshows' (f.le_refine hF hG) fun _ ↦ rfl

theorem deeper_includedIn_shallower_linked :
    Program.ofDeclarations linkedShapes = .ok linkedProgram ∧
    World.of linkedProgram ⟨2⟩ = .ok linkedWorld ∧ linkedProgram.InRange ∧ 1 ≤ 2 ∧
    ∃ (s t : CsState) (V W : View),
      linkedWorld.solveSelected (.ofDepth .object 2) .allocationSite .fifo none = .ok s ∧
      s.view = .ok V ∧
      linkedWorld.solveSelected (.ofDepth .object 1) .allocationSite .lifo none = .ok t ∧
      t.view = .ok W ∧ V.IncludedIn id W :=
  ⟨linkedProgram_built, linkedWorld_accepted, linkedProgram_inRange, by decide,
    (deeper_includedIn_shallower linkedProgram_built linkedWorld_accepted linkedProgram_inRange
      .object (by decide) .allocationSite .fifo .lifo).2⟩

/-! ## Abstractions of the heap -/

/-- On every accepted program, merging the heap by classes only coarsens results, without contexts
and with contexts of call sites or receivers: once every object is replaced by the one that stands for
its class, whatever is found with objects for allocation sites is found with objects for classes.
Contexts of allocator classes are an exception, because a merged object has no allocator. -/
theorem sites_includedIn_classes {ds : List Declaration} {p : Program} {entry : MethodId} {w : World}
    (hbuilt : Program.ofDeclarations ds = .ok p) (hworld : World.of p entry = .ok w)
    (hrange : p.InRange) (order order' : WorkOrder) :
    (∃ (s t : CiState) (V W : View),
      w.solvePlain .allocationSite order = .ok s ∧ s.view = .ok V ∧
      w.solvePlain .allocationType order' = .ok t ∧ t.view = .ok W ∧
      V.IncludedIn AbstractObject.merge W) ∧
    ∀ selector : Selector, selector.strategy ≠ .type → ∃ (s t : CsState) (V W : View),
      w.solveSelected selector .allocationSite order none = .ok s ∧ s.view = .ok V ∧
      w.solveSelected selector .allocationType order' none = .ok t ∧ t.view = .ok W ∧
      V.IncludedIn AbstractObject.merge W := by
  obtain ⟨rfl, -⟩ := World.of_eq_ok hworld
  have hp : (World.mk p entry).program.Analysable := Program.analysable hbuilt hworld hrange
  constructor
  · obtain ⟨s, V, F, hs, hV, hF, hshows⟩ := World.viewPlain hp .allocationSite order
    obtain ⟨t, W, G, ht, hW, hG, hshows'⟩ := World.viewPlain hp .allocationType order'
    let f := Domain.Coarsening.mergePlain
    exact ⟨s, t, V, W, hs, hV, ht, hW, hshows.includedIn f hshows' (f.le_refine hF hG) fun _ ↦ rfl⟩
  · intro selector hstrategy
    obtain ⟨s, V, F, hs, hV, hF, hshows⟩ := World.viewSelected hp .allocationSite order selector
    obtain ⟨t, W, G, ht, hW, hG, hshows'⟩ := World.viewSelected hp .allocationType order' selector
    let f := Domain.Coarsening.mergeSelected p selector hstrategy
    exact ⟨s, t, V, W, hs, hV, ht, hW, hshows.includedIn f hshows' (f.le_refine hF hG) fun _ ↦ rfl⟩

theorem sites_includedIn_classes_linked :
    Program.ofDeclarations linkedShapes = .ok linkedProgram ∧
    World.of linkedProgram ⟨2⟩ = .ok linkedWorld ∧ linkedProgram.InRange ∧
    Strategy.object ≠ .type ∧ ∃ (s t : CsState) (V W : View),
      linkedWorld.solveSelected ⟨.object, 2, 1⟩ .allocationSite .lifo none = .ok s ∧
      s.view = .ok V ∧
      linkedWorld.solveSelected ⟨.object, 2, 1⟩ .allocationType .fifo none = .ok t ∧
      t.view = .ok W ∧ V.IncludedIn AbstractObject.merge W :=
  ⟨linkedProgram_built, linkedWorld_accepted, linkedProgram_inRange, by decide,
    (sites_includedIn_classes linkedProgram_built linkedWorld_accepted linkedProgram_inRange
      .lifo .fifo).2 ⟨.object, 2, 1⟩ (by decide)⟩

end PointsTo
