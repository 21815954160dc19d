import PointsTo.CallGraph.ClassAnalysis
import PointsTo.Proofs.Dispatch
import PointsTo.Proofs.State
import Mathlib.Data.List.Nodup
import Mathlib.Order.Bounds.Basic

/-!
# Class hierarchy analysis

The call graph that the class hierarchy alone allows, said as rules: the entry may be reached, and a
method that may be reached may make every call in its body to every target (`Program.MayCall`,
`World.MayReach`). The methods that may be reached are the least set that has the entry and the targets
of all calls of its members (`World.mayReach_isLeast`). The analysis returns exactly this
(`World.classCallGraph_of_resolvable`, `classCallGraph_exact`). Its walk over the methods is a
breadth-first closure, and all methods that it meets are declared, so it meets no more than there are.
-/

namespace PointsTo

/-- A call in the body of `m`, to one of its targets. -/
inductive Program.MayCall (p : Program) (m : MethodId) : Edge Unit → Prop
  | intro {c : CallSiteId} {site : CallSite} {ms : List MethodId} {callee : MethodId} :
      c ∈ p.callSitesIn m → p.callSite c = .ok site → p.targets c = .ok ms → callee ∈ ms →
      MayCall p m ⟨site.kind, ⟨(), c⟩, ⟨(), callee⟩⟩

/-- Members make no call to a target outside of `S`. -/
def Program.TargetsClosed (p : Program) (S : Set MethodId) : Prop :=
  ∀ m ∈ S, ∀ c ∈ p.callSitesIn m, ∃ ms, p.targets c = .ok ms ∧ ∀ callee ∈ ms, callee ∈ S

inductive World.MayReach (w : World) : MethodId → Prop
  | entry : w.MayReach w.entry
  | call {m : MethodId} {e : Edge Unit} :
      w.MayReach m → w.program.MayCall m e → w.MayReach e.callee.id

namespace CallGraph

variable {g : CallGraph Unit}

theorem mem_methods_iff {m : MethodIn Unit} : m ∈ g.methods ↔ g.contains m = true :=
  Table.mem_keys_iff

theorem mem_edgeList_iff {e : Edge Unit} : e ∈ g.edgeList ↔ g.edges.contains e = true :=
  Table.mem_keys_iff

theorem methods_foldl_addEdge (edges : List (Edge Unit)) :
    (edges.foldl (fun g e ↦ (g.addEdge e).1) g).methods = g.methods := by
  induction edges generalizing g with
  | nil => rfl
  | cons e edges ih => rw [List.foldl_cons, ih, methods_addEdge]

theorem methods_addReachable_of_fresh {m : MethodIn Unit} (h : m ∉ g.methods) :
    (g.addReachable m).1.methods = g.methods ++ [m] :=
  Table.keys_intern_of_fresh h

theorem contains_edges_foldl_addEdge {edges : List (Edge Unit)} {e : Edge Unit} :
    (edges.foldl (fun g e ↦ (g.addEdge e).1) g).edges.contains e = true ↔
      g.edges.contains e = true ∨ e ∈ edges := by
  induction edges generalizing g with
  | nil => simp
  | cons e' edges ih => rw [List.foldl_cons, ih, contains_edges_addEdge, List.mem_cons, or_assoc]

end CallGraph

/-! ## One method -/

namespace Program

theorem mem_callSitesIn {p : Program} {m : MethodId} {c : CallSiteId} :
    c ∈ p.callSitesIn m ↔ ∃ body, p.body m = some body ∧ c ∈ body.callSites := by
  unfold callSitesIn
  cases p.body m <;> simp

variable {p : Program} {given : MethodId → Item → Prop}

/-- The calls in a body stand in its method. -/
theorem Stems.callSite_of_mem (hs : p.Stems given) {m : MethodId} {c : CallSiteId}
    (hc : c ∈ p.callSitesIn m) : ∃ site, p.callSite c = .ok site ∧ site.container = m := by
  obtain ⟨body, hbody, hc⟩ := mem_callSitesIn.1 hc
  obtain ⟨site, hsite, hcontainer⟩ := (hs.bodies hbody).callSites.1 hc
  exact ⟨site, Id.lookup_eq_ok_iff.2 hsite, hcontainer⟩

variable (hp : p.Resolvable)

include hp

/-- What may be called is a method of the hierarchy. -/
theorem callee_lt_of_mayCall {m : MethodId} {e : Edge Unit} (he : p.MayCall m e) :
    e.callee.id.index < p.hierarchy.methods.size := by
  obtain ⟨-, hsite, hms, hcallee⟩ := he
  exact hp.indexed.lt_of_mem_declaredMethods (hp.mem_of_mem_targets hsite hms hcallee)

variable (hs : p.Stems given)

include hs

/-- The edges from a method can be computed, and are those along which it may call. -/
theorem callsFrom_eq_ok (m : MethodId) :
    ∃ edges, p.callsFrom m = .ok edges ∧ ∀ e, e ∈ edges ↔ p.MayCall m e := by
  have hsites : ∀ c ∈ p.callSitesIn m, ∃ es, (do
      let site ← p.callSite c
      let targets ← p.targets c
      pure (targets.map fun t ↦ (⟨site.kind, ⟨(), c⟩, ⟨(), t⟩⟩ : Edge Unit))) = .ok es := by
    intro c hc
    obtain ⟨site, hsite, -⟩ := hs.callSite_of_mem hc
    obtain ⟨ms, hms⟩ := hp.targets hsite
    exact ⟨_, bind_eq_ok.2 ⟨site, hsite, bind_eq_ok.2 ⟨ms, hms, rfl⟩⟩⟩
  obtain ⟨edges, hedges, hmem⟩ := mapM_eq_ok hsites
  refine ⟨edges.flatten, bind_eq_ok.2 ⟨edges, hedges, rfl⟩, fun e ↦ ?_⟩
  rw [List.mem_flatten]
  constructor
  · intro he
    obtain ⟨es, hes, he⟩ := he
    obtain ⟨c, hc, hes⟩ := (hmem es).1 hes
    obtain ⟨site, hsite, hes⟩ := bind_eq_ok.1 hes
    obtain ⟨ms, hms, hes⟩ := bind_eq_ok.1 hes
    obtain rfl := Except.ok.inj hes
    obtain ⟨callee, hcallee, rfl⟩ := List.mem_map.1 he
    exact .intro hc hsite hms hcallee
  · intro he
    obtain ⟨hc, hsite, hms, hcallee⟩ := he
    refine ⟨_, (hmem _).2 ⟨_, hc, bind_eq_ok.2 ⟨_, hsite, bind_eq_ok.2 ⟨_, hms, rfl⟩⟩⟩, ?_⟩
    exact List.mem_map.2 ⟨_, hcallee, rfl⟩

theorem mem_calledFrom {m callee : MethodId} :
    callee ∈ p.calledFrom m ↔ ∃ e, p.MayCall m e ∧ e.callee.id = callee := by
  obtain ⟨edges, hedges, hmem⟩ := callsFrom_eq_ok hp hs m
  unfold calledFrom
  simp only [hedges, List.mem_map, hmem]

end Program

/-! ## The whole graph -/

namespace World

variable {w : World} {given : MethodId → Item → Prop} (hp : w.program.Resolvable)
  (hs : w.program.Stems given)

include hp hs

theorem reached_iff_mayReach {m : MethodId} :
    Closure.Reached w.program.calledFrom [w.entry] m ↔ w.MayReach m := by
  rw [Closure.reached_singleton]
  constructor
  · intro h
    induction h with
    | refl => exact .entry
    | tail _ hstep ih =>
      obtain ⟨e, he, rfl⟩ := (Program.mem_calledFrom hp hs).1 hstep
      exact .call ih he
  · intro h
    induction h with
    | entry => exact .refl
    | call _ he ih => exact ih.tail ((Program.mem_calledFrom hp hs).2 ⟨_, he, rfl⟩)

theorem mayReach_isLeast :
    IsLeast {S | w.entry ∈ S ∧ w.program.TargetsClosed S} {m | w.MayReach m} := by
  constructor
  · refine ⟨.entry, fun m hm c hc ↦ ?_⟩
    obtain ⟨site, hsite, -⟩ := hs.callSite_of_mem hc
    obtain ⟨ms, hms⟩ := hp.targets hsite
    refine ⟨ms, hms, fun callee hcallee ↦ ?_⟩
    exact .call hm (.intro hc hsite hms hcallee)
  · intro S hS m hm
    obtain ⟨hentry, hclosed⟩ := hS
    induction hm with
    | entry => exact hentry
    | call _ he ih =>
      obtain ⟨hc, -, hms, hcallee⟩ := he
      obtain ⟨ms', hms', hmem⟩ := hclosed _ ih _ hc
      obtain rfl := Except.ok.inj (hms.symm.trans hms')
      exact hmem _ hcallee

/-- Methods are added one after another, each with its calls. -/
theorem addCalls_eq_ok (ms : List MethodId) (g : CallGraph Unit)
    (hnodup : (g.methods ++ ms.map (Qualified.mk ())).Nodup) :
    ∃ g', ms.foldlM (fun g m ↦ do
        let edges ← w.program.callsFrom m
        pure (edges.foldl (fun g e ↦ (g.addEdge e).1) (g.addReachable ⟨(), m⟩).1)) g = .ok g' ∧
      g'.methods = g.methods ++ ms.map (Qualified.mk ()) ∧
      ∀ e, g'.edges.contains e = true ↔
        g.edges.contains e = true ∨ ∃ m ∈ ms, w.program.MayCall m e := by
  induction ms generalizing g with
  | nil => exact ⟨g, rfl, by simp, by simp⟩
  | cons m ms ih =>
    obtain ⟨edges, hedges, hmem⟩ := Program.callsFrom_eq_ok hp hs m
    have hfresh : (⟨(), m⟩ : MethodIn Unit) ∉ g.methods := by
      intro hm
      exact (List.nodup_append.1 hnodup).2.2 _ hm _ (by simp) rfl
    have hadded := CallGraph.methods_addReachable_of_fresh hfresh
    rw [List.map_cons, List.append_cons, ← hadded] at hnodup
    rw [← CallGraph.methods_foldl_addEdge edges] at hnodup hadded
    obtain ⟨g', hg', hmethods, hcalls⟩ := ih _ hnodup
    refine ⟨g', ?_, ?_, fun e ↦ ?_⟩
    · rw [List.foldlM_cons]
      exact bind_eq_ok.2 ⟨_, bind_eq_ok.2 ⟨edges, hedges, rfl⟩, hg'⟩
    · rw [hmethods, hadded, List.map_cons, ← List.append_cons]
    · rw [hcalls, CallGraph.contains_edges_foldl_addEdge, hmem]
      simp [CallGraph.addReachable, or_assoc]

/-- Class hierarchy analysis returns the methods that may be reached, from the entry on, and the calls
that they may make. -/
theorem classCallGraph_of_resolvable (hentry : w.entry.index < w.program.hierarchy.methods.size) :
    ∃ g, w.classCallGraph = .ok g ∧ g.methods.head? = some ⟨(), w.entry⟩ ∧
      (∀ m, m ∈ g.methods ↔ w.MayReach m.id) ∧
      ∀ e, e ∈ g.edgeList ↔ ∃ m, w.MayReach m ∧ w.program.MayCall m e := by
  have hall : ∀ {m}, Closure.Reached w.program.calledFrom [w.entry] m →
      m ∈ w.program.hierarchy.methodIds := by
    intro m hm
    refine hm.mem (fun a ha ↦ ?_) fun a _ b hb ↦ ?_
    · rw [List.mem_singleton.1 ha]
      exact Id.mem_upTo.2 hentry
    · obtain ⟨e, he, rfl⟩ := (Program.mem_calledFrom hp hs).1 hb
      exact Id.mem_upTo.2 (Program.callee_lt_of_mayCall hp he)
  have hbound : w.program.hierarchy.methodIds.length ≤ w.program.hierarchy.methods.size := by
    simp [Hierarchy.methodIds, Id.upTo]
  have hnodup := Closure.nodup_order hall hbound
  have hhead := @Closure.head?_order _ w.program.calledFrom _ _ w.entry
    (Nat.ne_of_gt (Nat.zero_lt_of_lt hentry))
  have horder : ∀ {m}, m ∈ Closure.order w.program.calledFrom w.program.hierarchy.methods.size
      [w.entry] ↔ w.MayReach m := by
    intro m
    rw [Closure.mem_order_iff hall hbound]
    exact reached_iff_mayReach hp hs
  obtain ⟨g, hg, hmethods, hcalls⟩ := addCalls_eq_ok hp hs
    (Closure.order w.program.calledFrom w.program.hierarchy.methods.size [w.entry])
    (CallGraph.addEntry {} ⟨(), w.entry⟩)
    (List.Nodup.map (fun m m' hm ↦ (Qualified.mk.inj hm).2) hnodup)
  refine ⟨g, hg, ?_, fun m ↦ ?_, fun e ↦ ?_⟩
  · rw [hmethods]
    exact (List.head?_map ..).trans (congrArg _ hhead)
  · rw [hmethods, ← horder]
    exact List.mem_map.trans ⟨by rintro ⟨m', hm', rfl⟩; exact hm', fun hm ↦ ⟨m.id, hm, rfl⟩⟩
  · rw [CallGraph.mem_edgeList_iff, hcalls]
    simp [CallGraph.addEntry, horder]

end World

/-- Class hierarchy analysis of a program in which everything that is mentioned exists. -/
theorem World.classCallGraph_eq_ok {w : World} {given : MethodId → Item → Prop}
    (hp : w.program.Analysable) (hi : w.program.hierarchy.Indexed) (hs : w.program.Stems given)
    (hentry : w.entry.index < w.program.hierarchy.methods.size) :
    ∃ g, w.classCallGraph = .ok g ∧ (∀ m, m ∈ g.methods ↔ w.MayReach m.id) ∧
      ∀ e, e ∈ g.edgeList ↔ ∃ m, w.MayReach m ∧ w.program.MayCall m e := by
  obtain ⟨g, hg, -, hgraph⟩ := classCallGraph_of_resolvable (hp.resolvable hi) hs hentry
  exact ⟨g, hg, hgraph⟩

/-! ## Results -/

/-- Class hierarchy analysis of an accepted world returns. The methods of its graph, each once and the
entry first, are the least set that has the entry and the targets of all calls of its members. The
edges, each once, are the calls in these methods with each of their targets. So both ends of an edge are
methods of the graph, and each of these methods but the entry has a caller. -/
theorem classCallGraph_exact {ds : List Declaration} {p : Program} {entry : MethodId} {w : World}
    (hbuilt : Program.ofDeclarations ds = .ok p) (hworld : World.of p entry = .ok w) :
    ∃ g, w.classCallGraph = .ok g ∧
      IsLeast {S | entry ∈ S ∧ p.TargetsClosed S} {m | ⟨(), m⟩ ∈ g.methods} ∧
      g.methods.Nodup ∧ g.methods.head? = some ⟨(), entry⟩ ∧
      (∀ e, e ∈ g.edgeList ↔ ∃ m, ⟨(), m⟩ ∈ g.methods ∧ p.MayCall m e) ∧ g.edgeList.Nodup ∧
      (∀ e ∈ g.edgeList, e.callee ∈ g.methods ∧
        ∃ caller ∈ g.methods, p.callerOf e.site = .ok caller) ∧
      ∀ m ∈ g.methods, m ≠ ⟨(), entry⟩ → ∃ e ∈ g.edgeList, e.callee = m := by
  obtain ⟨rfl, hcalls⟩ := World.of_eq_ok hworld
  have hp : (World.mk p entry).program.Resolvable :=
    ⟨Program.indexed_of_ofDeclarations hbuilt, hcalls⟩
  have hs := Program.stems_of_ofDeclarations hbuilt
  obtain ⟨g, hg, hhead, hmethods, hedges⟩ :=
    World.classCallGraph_of_resolvable hp hs (World.entry_lt hworld)
  have hreached : {m | (⟨(), m⟩ : MethodIn Unit) ∈ g.methods} = {m | (World.mk p entry).MayReach m} :=
    Set.ext fun m ↦ hmethods ⟨(), m⟩
  refine ⟨g, hg, ?_, g.reachable.nodup_keys, hhead, fun e ↦ ?_, g.edges.nodup_keys, fun e he ↦ ?_,
    fun m hm hne ↦ ?_⟩
  · rw [hreached]
    exact World.mayReach_isLeast hp hs
  · rw [hedges]
    exact exists_congr fun m ↦ and_congr_left fun _ ↦ (hmethods ⟨(), m⟩).symm
  · obtain ⟨m, hm, hcall⟩ := (hedges e).1 he
    refine ⟨(hmethods _).2 (.call hm hcall), ⟨(), m⟩, (hmethods _).2 hm, ?_⟩
    obtain ⟨hc, -⟩ := hcall
    obtain ⟨site, hsite, rfl⟩ := hs.callSite_of_mem hc
    exact bind_eq_ok.2 ⟨site, hsite, rfl⟩
  · obtain ⟨⟨⟩, m⟩ := m
    have hreach : (World.mk p entry).MayReach m := (hmethods ⟨(), m⟩).1 hm
    cases hreach with
    | entry => exact absurd rfl hne
    | call hcaller hcall => exact ⟨_, (hedges _).2 ⟨_, hcaller, hcall⟩, rfl⟩

def layeredWorld : World := ⟨layeredProgram, ⟨4⟩⟩

set_option maxRecDepth 4000 in
theorem classCallGraph_exact_layered :
    Program.ofDeclarations layeredShapes = .ok layeredProgram ∧
    World.of layeredProgram ⟨4⟩ = .ok layeredWorld ∧
    ∃ g, layeredWorld.classCallGraph = .ok g ∧
      g.methods = [⟨(), ⟨4⟩⟩, ⟨(), ⟨2⟩⟩, ⟨(), ⟨3⟩⟩] ∧
      IsLeast {S | ⟨4⟩ ∈ S ∧ layeredProgram.TargetsClosed S} {m | ⟨(), m⟩ ∈ g.methods} ∧
      (∀ e, e ∈ g.edgeList ↔ ∃ m, ⟨(), m⟩ ∈ g.methods ∧ layeredProgram.MayCall m e) ∧
      ∀ m ∈ g.methods, m ≠ ⟨(), ⟨4⟩⟩ → ∃ e ∈ g.edgeList, e.callee = m := by
  have hworld : World.of layeredProgram ⟨4⟩ = .ok layeredWorld := by rfl
  obtain ⟨g, hg, hleast, -, -, hedges, -, -, hcallers⟩ :=
    classCallGraph_exact layeredProgram_built hworld
  have hmethods : layeredWorld.classCallGraph.toOption.map CallGraph.methods =
      some [⟨(), ⟨4⟩⟩, ⟨(), ⟨2⟩⟩, ⟨(), ⟨3⟩⟩] := by decide +kernel
  rw [hg] at hmethods
  exact ⟨layeredProgram_built, hworld, g, hg, Option.some.inj hmethods, hleast, hedges, hcallers⟩

end PointsTo
