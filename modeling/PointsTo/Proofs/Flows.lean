import Mathlib.Data.List.ReduceOption
import PointsTo.Proofs.Taint
import PointsTo.Taint.Flow

/-!
# Reported taint flows

The flows that are read off a finished run are those that its facts show (`flows_eq_ok`): a mark that
a guarded argument of a sink call refers to, under whatever context. They come sorted and without
repetition, so that the facts alone determine the list (`eq_of_lists`).
-/

namespace PointsTo

/-! ## The order of flows -/

namespace TaintFlow

theorem le_total (f g : TaintFlow) : (f.le g || g.le f) = true := by
  have hswap : compare [g.source.index, g.sink.index, g.index]
      [f.source.index, f.sink.index, f.index] =
        (compare [f.source.index, f.sink.index, f.index]
          [g.source.index, g.sink.index, g.index]).swap := Std.OrientedCmp.eq_swap
  unfold le
  rw [hswap]
  cases compare [f.source.index, f.sink.index, f.index] [g.source.index, g.sink.index, g.index] <;>
    simp

theorem le_trans (f g h : TaintFlow) (hfg : f.le g = true) (hgh : g.le h = true) :
    f.le h = true :=
  Std.TransCmp.isLE_trans hfg hgh

theorem le_antisymm {f g : TaintFlow} (hfg : f.le g = true) (hgf : g.le f = true) : f = g := by
  have hkeys : [f.source.index, f.sink.index, f.index] = [g.source.index, g.sink.index, g.index] :=
    Std.LawfulEqCmp.eq_of_compare (Std.OrientedCmp.isLE_antisymm hfg hgf)
  obtain ⟨⟨a⟩, ⟨b⟩, c⟩ := f
  obtain ⟨⟨a'⟩, ⟨b'⟩, c'⟩ := g
  simp only [List.cons.injEq, and_true] at hkeys
  obtain ⟨rfl, rfl, rfl⟩ := hkeys
  rfl

/-- The list of the flows with a property: sorted, each once. -/
structure Lists (fs : List TaintFlow) (P : TaintFlow → Prop) : Prop where
  sorted : fs.Pairwise (le · ·)
  nodup : fs.Nodup
  mem_iff : ∀ f, f ∈ fs ↔ P f

/-- There is one such list. -/
theorem eq_of_lists {fs gs : List TaintFlow} {P : TaintFlow → Prop} (hf : Lists fs P)
    (hg : Lists gs P) : fs = gs := by
  have hperm : fs.Perm gs :=
    (List.perm_ext_iff_of_nodup hf.nodup hg.nodup).2 fun f ↦ (hf.mem_iff f).trans (hg.mem_iff f).symm
  exact hperm.eq_of_pairwise (fun _ _ _ _ ↦ le_antisymm) hf.sorted hg.sorted

theorem lists_mergeSort (fs : List TaintFlow) : Lists (fs.eraseDups.mergeSort le) (· ∈ fs) where
  sorted := List.pairwise_mergeSort le_trans le_total _
  nodup := (List.mergeSort_perm _ le).nodup_iff.2 (nodup_eraseDups fs)
  mem_iff _ := List.mem_mergeSort.trans List.mem_eraseDups

end TaintFlow

/-- A mark of `f.source` is what the argument `f.index` of the sink call `f.sink` may refer to. -/
def Facts.Flows {K O : Type} (F : Facts K O) (p : Program) (D : Domain K O) (t : TaintPlan)
    (f : TaintFlow) : Prop :=
  ∃ edge site arg o, F.calls edge ∧ edge.site.id = f.sink ∧ f.index ∈ t.guarded edge.callee.id ∧
    p.callSite edge.site.id = .ok site ∧ site.args[f.index]? = some arg ∧
    F.pts (.var edge.site.ctx arg) o ∧ D.sourceOf o = some f.source

/-! ## Reading flows off a state -/

namespace TaintPlan

variable {p : Program} {s : CsState}

/-- A mark of `f.source` is what the argument `f.index` of a call refers to in a state. -/
def Into (s : CsState) (site : SiteIn ContextId) (args : List VarId) (f : TaintFlow) : Prop :=
  f.sink = site.id ∧ ∃ arg o x, args[f.index]? = some arg ∧
    s.flow.Points (.var site.ctx arg) o ∧ s.names.heapObject o = some x ∧
    x.object.kind.source? = some f.source

/-- The source of an object can be read off its name. -/
theorem source_of_heapObject {o : CsObjectId} {x : HeapObject} (hx : s.names.heapObject o = some x) :
    ∃ named, s.names.object o = .ok named ∧
      s.names.heap.sourceOf named.id = .ok x.object.kind.source? := by
  obtain ⟨named, hnamed, -, hobject⟩ := CsHeap.heapObject_eq_some_iff.1 hx
  refine ⟨named, CsHeap.object_eq_ok hnamed, ?_⟩
  simp [Heap.sourceOf, Heap.object_eq_ok hobject, bind, Except.bind, pure, Except.pure]

section

variable (hfaithful : s.Faithful .selected)

include hfaithful

/-- The objects that a pointer refers to, with their sources. -/
theorem pointsTo_eq_ok (q : Pointer ContextId .csObject) :
    ∃ objects, s.pointsTo q = .ok objects ∧ ∀ named, named ∈ objects ↔
      ∃ o x, s.flow.Points q o ∧ s.names.heapObject o = some x ∧ s.names.object o = .ok named ∧
        s.names.heap.sourceOf named.id = .ok x.object.kind.source? := by
  have hobject : ∀ o ∈ ((s.flow.pts? q).getD ∅).toList, ∃ x named, s.names.heapObject o = some x ∧
      s.names.object o = .ok named ∧ s.names.heap.sourceOf named.id = .ok x.object.kind.source? := by
    intro o ho
    obtain ⟨-, x, hx⟩ := hfaithful.points (FlowGraph.points_iff_mem_pts?.2 ho)
    obtain ⟨named, hnamed, hsource⟩ := source_of_heapObject hx
    exact ⟨x, named, hx, hnamed, hsource⟩
  obtain ⟨objects, hobjects, hmem⟩ := mapM_eq_ok fun o ho ↦
    let ⟨_, named, _, hnamed, _⟩ := hobject o ho
    ⟨named, hnamed⟩
  refine ⟨objects, hobjects, fun named ↦ (hmem named).trans ?_⟩
  constructor
  · rintro ⟨o, ho, hnamed⟩
    obtain ⟨x, named', hx, hnamed', hsource⟩ := hobject o ho
    obtain rfl := Except.ok.inj (hnamed.symm.trans hnamed')
    exact ⟨o, x, FlowGraph.points_iff_mem_pts?.2 ho, hx, hnamed, hsource⟩
  · rintro ⟨o, x, hpoints, -, hnamed, -⟩
    exact ⟨o, FlowGraph.points_iff_mem_pts?.1 hpoints, hnamed⟩

/-- The flows into one argument can be read off a faithful state, one for each mark at the argument.
-/
theorem flowsInto_eq_ok (site : SiteIn ContextId) (args : List VarId) (index : Nat) :
    ∃ fs, flowsInto s site args index = .ok fs ∧
      ∀ f, f ∈ fs ↔ f.index = index ∧ Into s site args f := by
  cases harg : args[index]? with
  | none =>
    refine ⟨[], by simp [flowsInto, harg, pure, Except.pure], fun f ↦ ?_⟩
    constructor
    · intro h
      cases h
    · rintro ⟨rfl, -, arg, o, x, h, -⟩
      simp [harg] at h
  | some arg =>
    obtain ⟨objects, hobjects, hmem⟩ := pointsTo_eq_ok hfaithful (.var site.ctx arg)
    obtain ⟨sources, hsources, hsource⟩ := mapM_eq_ok fun (named : CsObject) hin ↦
      let ⟨_, _, _, _, _, h⟩ := (hmem named).1 hin
      ⟨_, h⟩
    have hflows : flowsInto s site args index =
        .ok (sources.reduceOption.map fun source ↦ ⟨source, site.id, index⟩) := by
      simp only [flowsInto, harg, hobjects, hsources, bind, Except.bind, pure, Except.pure]
    refine ⟨_, hflows, fun f ↦ ?_⟩
    simp only [List.mem_map, List.reduceOption_mem_iff, hsource]
    constructor
    · rintro ⟨source, ⟨named, hin, hs⟩, rfl⟩
      obtain ⟨o, x, hpoints, hx, -, hs'⟩ := (hmem named).1 hin
      exact ⟨rfl, rfl, arg, o, x, harg, hpoints, hx, (Except.ok.inj (hs.symm.trans hs')).symm⟩
    · rintro ⟨rfl, hsink, arg', o, x, harg', hpoints, hx, horigin⟩
      obtain rfl := Option.some.inj (harg.symm.trans harg')
      obtain ⟨named, hnamed, hs⟩ := source_of_heapObject hx
      have hin := (hmem named).2 ⟨o, x, hpoints, hx, hnamed, hs⟩
      rw [horigin] at hs
      exact ⟨f.source, ⟨named, hin, hs⟩, by rw [← hsink]⟩

/-- The flows along an edge are those into its guarded arguments. -/
theorem flowsAlong_eq_ok (t : TaintPlan) {e : Edge ContextId} {site : CallSite}
    (hsite : p.callSite e.site.id = .ok site) :
    ∃ fs, t.flowsAlong p s e = .ok fs ∧
      ∀ f, f ∈ fs ↔ f.index ∈ t.guarded e.callee.id ∧ Into s e.site site.args f := by
  cases hguarded : t.guarded e.callee.id with
  | nil => exact ⟨[], by simp [flowsAlong, hguarded, pure, Except.pure], by simp⟩
  | cons i is =>
    obtain ⟨fss, hfss, hmem⟩ := mapM_eq_ok fun index (_ : index ∈ i :: is) ↦
      let ⟨fs, h, _⟩ := flowsInto_eq_ok hfaithful e.site site.args index
      ⟨fs, h⟩
    refine ⟨fss.flatten, by
      simp only [flowsAlong, hguarded, hsite, hfss, bind, Except.bind, pure, Except.pure],
      fun f ↦ ?_⟩
    simp only [List.mem_flatten, hmem]
    constructor
    · rintro ⟨fs, ⟨index, hindex, hfs⟩, hf⟩
      obtain ⟨fs', hfs', hiff⟩ := flowsInto_eq_ok hfaithful e.site site.args index
      obtain rfl := Except.ok.inj (hfs.symm.trans hfs')
      obtain ⟨rfl, hinto⟩ := (hiff f).1 hf
      exact ⟨hindex, hinto⟩
    · rintro ⟨hindex, hinto⟩
      obtain ⟨fs, hfs, hiff⟩ := flowsInto_eq_ok hfaithful e.site site.args f.index
      exact ⟨fs, ⟨f.index, hindex, hfs⟩, (hiff f).2 ⟨rfl, hinto⟩⟩

/-- The flows that are read off a state are those that its facts show. -/
theorem flows_eq_ok (t : TaintPlan) {D : Domain (List ContextStep) HeapObject}
    (hD : ∀ x, D.sourceOf x = x.object.kind.source?)
    (hsites : ∀ e, s.Calls e → ∃ site, p.callSite e.site.id = .ok site) :
    ∃ fs, t.flows p s = .ok fs ∧ TaintFlow.Lists fs ((s.facts .selected).Flows p D t) := by
  have hcalls : ∀ e, e ∈ s.calls.edgeList ↔ s.Calls e := fun _ ↦ Table.mem_keys_iff
  have halong : ∀ e ∈ s.calls.edgeList, ∃ site fs, p.callSite e.site.id = .ok site ∧
      t.flowsAlong p s e = .ok fs ∧
      ∀ f, f ∈ fs ↔ f.index ∈ t.guarded e.callee.id ∧ Into s e.site site.args f := by
    intro e he
    obtain ⟨site, hsite⟩ := hsites e ((hcalls e).1 he)
    obtain ⟨fs, hfs, hmem⟩ := flowsAlong_eq_ok hfaithful t hsite
    exact ⟨site, fs, hsite, hfs, hmem⟩
  obtain ⟨fss, hfss, hmem⟩ := mapM_eq_ok fun e he ↦
    let ⟨_, fs, _, h, _⟩ := halong e he
    ⟨fs, h⟩
  have hlists := TaintFlow.lists_mergeSort fss.flatten
  refine ⟨fss.flatten.eraseDups.mergeSort TaintFlow.le, ?_, hlists.sorted, hlists.nodup,
    fun f ↦ (hlists.mem_iff f).trans ?_⟩
  · simp only [flows, hfss, bind, Except.bind, pure, Except.pure]
  simp only [List.mem_flatten, hmem]
  constructor
  · rintro ⟨fs, ⟨e, he, hfs⟩, hf⟩
    obtain ⟨site, fs', hsite, hfs', hiff⟩ := halong e he
    obtain rfl := Except.ok.inj (hfs.symm.trans hfs')
    obtain ⟨hguarded, hsink, arg, o, x, harg, hpoints, hx, horigin⟩ := (hiff f).1 hf
    obtain ⟨⟨k, hk⟩, l, hl⟩ := hfaithful.calls ((hcalls e).1 he)
    have hedge : (s.facts .selected).calls ⟨e.kind, ⟨k, e.site.id⟩, ⟨l, e.callee.id⟩⟩ :=
      ⟨e.site.ctx, e.callee.ctx, hk, hl, (hcalls e).1 he⟩
    have hpts : (s.facts .selected).pts (.var k arg) x :=
      ⟨_, o, Meaning.place_var hk, hx, hpoints⟩
    exact ⟨_, site, arg, x, hedge, hsink.symm, hguarded, hsite, harg, hpts, (hD x).trans horigin⟩
  · rintro ⟨edge, site, arg, x, ⟨c, c', hc, -, he⟩, hsink, hguarded, hsite, harg,
      ⟨q, o, hq, hx, hpoints⟩, horigin⟩
    -- The variable that the fact is about is the one under the context of the edge.
    obtain rfl := hfaithful.place_inj hq (Meaning.place_var hc)
    obtain ⟨site', fs, hsite', hfs, hiff⟩ := halong _ ((hcalls _).2 he)
    obtain rfl := Except.ok.inj (hsite.symm.trans hsite')
    have hinto : Into s ⟨c, edge.site.id⟩ site.args f :=
      ⟨hsink.symm, arg, o, x, harg, hpoints, hx, (hD x).symm.trans horigin⟩
    exact ⟨fs, ⟨_, (hcalls _).2 he, hfs⟩, (hiff f).2 ⟨hguarded, hinto⟩⟩

end

end TaintPlan

/-! ## The analysis with taint rules -/

namespace World

variable {w : World} (hp : w.program.Analysable) (selector : Selector) (abstraction : HeapAbstraction)

/-- Runs end with any rules, also with such that no configuration accepts. -/
theorem resolved_confined (taint : Option TaintRules) :
    (w.selectedInterpretation hp selector abstraction
      (taint.map (TaintPlan.resolve w.program))).Confined { heap := { abstraction } } w.entry
        ((Domain.selectedBounds hp abstraction selector).allFacts w.entry) := by
  refine selected_confined hp selector abstraction fun plan hplan ↦ ?_
  obtain ⟨rules, -, rfl⟩ := Option.map_eq_some_iff.1 hplan
  exact TaintPlan.known_resolve hp.coherent rules

theorem resolved_ready {taint : Option TaintRules}
    (hvalid : ∀ rules, taint = some rules → rules.validate = .ok ()) :
    (w.selectedInterpretation hp selector abstraction
      (taint.map (TaintPlan.resolve w.program))).Ready { heap := { abstraction } } w.entry
        ((Domain.selectedBounds hp abstraction selector).allFacts w.entry) where
  toConfined := resolved_confined hp selector abstraction taint
  watchable := by
    intro plan hplan
    obtain ⟨rules, hrules, rfl⟩ := Option.map_eq_some_iff.1 hplan
    exact TaintPlan.watchable_resolve (hvalid rules hrules)

/-- The flows of a finished run are those of the least solution, whatever plan they are read for. -/
theorem flows_of_isLeast {taint : Option TaintPlan} {U : Facts (List ContextStep) HeapObject}
    {names : CsHeap}
    (hready : (w.selectedInterpretation hp selector abstraction taint).Ready names w.entry U)
    {s : CsState} (hfaithful : s.Faithful .selected)
    (hleast : IsLeast {F | ((w.selectedInterpretation hp selector abstraction taint).rules
      w.entry).Closed F} (s.facts .selected)) (t : TaintPlan) :
    ∃ fs, t.flows w.program s = .ok fs ∧ TaintFlow.Lists fs
      ((s.facts .selected).Flows w.program (.selected w.program abstraction selector) t) := by
  refine TaintPlan.flows_eq_ok hfaithful t (fun _ ↦ rfl) fun e he ↦ ?_
  obtain ⟨⟨k, hk⟩, l, hl⟩ := hfaithful.calls he
  have hedge : (s.facts .selected).calls ⟨e.kind, ⟨k, e.site.id⟩, ⟨l, e.callee.id⟩⟩ :=
    ⟨e.site.ctx, e.callee.ctx, hk, hl, he⟩
  obtain ⟨receiver, hmakes⟩ := makes_of_calls hleast hedge
  exact (hready.answered.mono (hleast.2 hready.closed)).site hmakes

end World

/-- On every accepted program whose call sites name receivers as their kinds demand, an analysis with
valid taint rules returns exactly the least solution of the inference rules together with those for
taint on call edges, and the flows that it reports are exactly those that this solution shows. -/
theorem solveTainted_isLeast {ds : List Declaration} {p : Program} {entry : MethodId} {w : World}
    {rules : TaintRules} (hbuilt : Program.ofDeclarations ds = .ok p)
    (hworld : World.of p entry = .ok w) (hrange : p.InRange) (hreceivers : p.ReceiversMatch)
    (hrules : rules.validate = .ok ()) (selector : Selector) (abstraction : HeapAbstraction)
    (order : WorkOrder) :
    ∃ s fs, w.solveSelected selector abstraction order (some (.resolve p rules)) = .ok s ∧
      s.Faithful .selected ∧
      IsLeast {F | Rules.TaintClosed
          { program := p, domain := .selected p abstraction selector, entry,
            taint := some (.resolve p rules) } F}
        (s.facts .selected) ∧
      (TaintPlan.resolve p rules).flows p s = .ok fs ∧
      TaintFlow.Lists fs ((s.facts .selected).Flows p (.selected p abstraction selector)
        (.resolve p rules)) := by
  obtain ⟨rfl, -⟩ := World.of_eq_ok hworld
  have hp : (World.mk p entry).program.Analysable := Program.analysable hbuilt hworld hrange
  have hvalid : ∀ rules', some rules = some rules' → rules'.validate = .ok () := by
    rintro _ ⟨⟩
    exact hrules
  have hready := World.resolved_ready hp selector abstraction hvalid
  obtain ⟨s, hsolve, -, -, hfaithful, hleast⟩ := hready.solve_isLeast order
  obtain ⟨fs, hfs, hlists⟩ := World.flows_of_isLeast hp selector abstraction hready hfaithful hleast
    (TaintPlan.resolve p rules)
  exact ⟨s, fs, hsolve, hfaithful, isLeast_taintClosed hp hreceivers hleast, hfs, hlists⟩

/-- What the factory makes is foreign, links hand it on, and it must not be linked to. -/
def linkedRules : TaintRules where
  sources := [⟨"Main", "make()", "Circle"⟩]
  sinks := [⟨"Shape", "link(Shape)", 0⟩]
  transfers := [⟨"Shape", "link(Shape)", .arg 0, .result, "Shape"⟩,
    ⟨"Shape", "link(Shape)", .base, .result, "Circle"⟩]

theorem linkedRules_valid : linkedRules.validate = .ok () := by decide

set_option maxRecDepth 4000 in
theorem linkedProgram_receiversMatch : linkedProgram.ReceiversMatch := by decide

/-- The result for the linked circles, on which the rules mark what comes out of the factory. -/
theorem solveTainted_isLeast_linked :
    Program.ofDeclarations linkedShapes = .ok linkedProgram ∧
    World.of linkedProgram ⟨2⟩ = .ok linkedWorld ∧ linkedProgram.InRange ∧
    linkedProgram.ReceiversMatch ∧ linkedRules.validate = .ok () ∧
    ∃ s fs, linkedWorld.solveSelected ⟨.callSite, 1, 1⟩ .allocationSite .fifo
        (some (.resolve linkedProgram linkedRules)) = .ok s ∧
      s.Faithful .selected ∧
      IsLeast {F | Rules.TaintClosed
          { program := linkedProgram
            domain := .selected linkedProgram .allocationSite ⟨.callSite, 1, 1⟩
            entry := ⟨2⟩
            taint := some (.resolve linkedProgram linkedRules) } F}
        (s.facts .selected) ∧
      (TaintPlan.resolve linkedProgram linkedRules).flows linkedProgram s = .ok fs ∧
      TaintFlow.Lists fs ((s.facts .selected).Flows linkedProgram
        (.selected linkedProgram .allocationSite ⟨.callSite, 1, 1⟩)
        (.resolve linkedProgram linkedRules)) :=
  ⟨linkedProgram_built, linkedWorld_accepted, linkedProgram_inRange, linkedProgram_receiversMatch,
    linkedRules_valid,
    solveTainted_isLeast linkedProgram_built linkedWorld_accepted linkedProgram_inRange
      linkedProgram_receiversMatch linkedRules_valid ⟨.callSite, 1, 1⟩ .allocationSite .fifo⟩

end PointsTo
