import PointsTo.Proofs.Flows
import PointsTo.Proofs.OnTheFly
import PointsTo.Proofs.Projection
import PointsTo.Proofs.Reached
import PointsTo.CallGraph.MethodGraph

/-!
# What is shown is reached

Whenever a run is looked at, its variables belong to reachable methods, the ends of its call edges are
reachable, and every reachable method but the first is called by an edge (`State.AboutReached`). So the
variables of a view are those of its methods. A call graph is drawn without the edges that have an end
outside of the drawing, and there are none (`CallGraph.Drawn`): the drawing has one arc for each edge.
-/

namespace PointsTo

variable {C : Type} [Contextual C] {e : Entity} {σ K O : Type}

/-! ## Drawings -/

theorem mapM_forall₂ {α β ε : Type} {f : α → Except ε β} {R : α → β → Prop} {as : List α}
    (h : ∀ a ∈ as, ∃ b, f a = .ok b ∧ R a b) :
    ∃ bs, as.mapM f = .ok bs ∧ List.Forall₂ R as bs := by
  induction as with
  | nil => exact ⟨[], rfl, .nil⟩
  | cons a as ih =>
    obtain ⟨b, hb, hR⟩ := h a List.mem_cons_self
    obtain ⟨bs, hbs, hall⟩ := ih fun a' ha' ↦ h a' (List.mem_cons_of_mem _ ha')
    refine ⟨b :: bs, ?_, .cons hR hall⟩
    rw [List.mapM_cons]
    exact bind_eq_ok.2 ⟨b, hb, bind_eq_ok.2 ⟨bs, hbs, rfl⟩⟩

/-- What is there in every place is all that is kept. -/
theorem forall₂_reduceOption {α β : Type} {R : α → β → Prop} {as : List α} {bs : List (Option β)}
    (h : List.Forall₂ (fun a b ↦ ∃ c, b = some c ∧ R a c) as bs) :
    List.Forall₂ R as bs.reduceOption := by
  induction h with
  | nil => exact .nil
  | cons hab _ ih =>
    obtain ⟨c, rfl, hR⟩ := hab
    rw [List.reduceOption_cons_of_some]
    exact .cons hR ih

namespace CallGraph

variable {g : CallGraph C} {p : Program}

/-- The arc leads from the caller's number to the callee's. -/
structure Draws (g : CallGraph C) (p : Program) (e : Edge C) (a : Arc) : Prop where
  source : ∃ caller, p.callerOf e.site = .ok caller ∧ g.methods[a.source]? = some caller
  target : g.methods[a.target]? = some e.callee
  kind : a.kind = e.kind

/-- The line of an edge in the text of a drawing. -/
def Writes (g : CallGraph C) (p : Program) (e : Edge C) (line : String) : Prop :=
  ∃ a, g.Draws p e a ∧
    line = dotLine (toString a.source ++ " -> " ++ toString a.target) a.kind.label

/-- The graph can be drawn, and every edge is drawn, each once and in order. -/
structure Drawn (g : CallGraph C) (p : Program) : Prop where
  arcs : ∃ arcs, g.arcs p = .ok arcs ∧ List.Forall₂ (g.Draws p) g.edgeList arcs
  dot : ∃ nodes calls : List String,
    g.dot p = .ok ("digraph \x7b\n" ++ String.join nodes ++ String.join calls ++ "\x7d\n") ∧
    nodes.length = g.methods.length ∧ List.Forall₂ (g.Writes p) g.edgeList calls

theorem getElem?_of_find? {m : MethodIn C} {i : Nat} (h : g.reachable.find? m = some i) :
    g.methods[i]? = some m := by
  have hkey := Table.find?_eq_some_iff.1 h
  rw [methods, Table.keys, List.getElem?_map, Table.toList, Array.getElem?_toList]
  exact hkey

/-- An edge between nodes has an arc. -/
theorem arc?_eq_ok {edge : Edge C} {caller : MethodIn C}
    (hsite : p.callerOf edge.site = .ok caller) (hcaller : g.contains caller = true)
    (hcallee : g.contains edge.callee = true) :
    ∃ a, g.arc? p edge = .ok (some a) ∧ g.Draws p edge a := by
  obtain ⟨i, hi⟩ := Option.isSome_iff_exists.1 hcaller
  obtain ⟨j, hj⟩ := Option.isSome_iff_exists.1 hcallee
  refine ⟨⟨i, j, edge.kind⟩, ?_, ⟨caller, hsite, getElem?_of_find? hi⟩, getElem?_of_find? hj, rfl⟩
  unfold arc?
  refine bind_eq_ok.2 ⟨caller, hsite, ?_⟩
  simp only [hi, hj]
  rfl

/-- If both ends of every edge are nodes, and nodes have labels, then all edges are drawn. -/
theorem drawn (hlabels : ∀ m ∈ g.methods, ∃ label, p.methodLabel m = .ok label)
    (hends : ∀ edge ∈ g.edgeList, g.contains edge.callee = true ∧
      ∃ caller, p.callerOf edge.site = .ok caller ∧ g.contains caller = true) : g.Drawn p := by
  have hedges : ∀ edge ∈ g.edgeList, ∃ a?, g.arc? p edge = .ok a? ∧
      ∃ a, a? = some a ∧ g.Draws p edge a := by
    intro edge hedge
    obtain ⟨hcallee, caller, hsite, hcaller⟩ := hends edge hedge
    obtain ⟨a, ha, hdraws⟩ := arc?_eq_ok hsite hcaller hcallee
    exact ⟨some a, ha, a, rfl, hdraws⟩
  obtain ⟨found, hfound, hall⟩ := mapM_forall₂ hedges
  have harcs : g.arcs p = .ok found.reduceOption := bind_eq_ok.2 ⟨found, hfound, rfl⟩
  have hdraws := forall₂_reduceOption hall
  refine ⟨⟨_, harcs, hdraws⟩, ?_⟩
  obtain ⟨labels, hlabels, hnodes⟩ := mapM_forall₂ (R := fun _ _ ↦ True) fun m hm ↦
    (hlabels m hm).imp fun _ hlabel ↦ ⟨hlabel, trivial⟩
  refine ⟨_, _, bind_eq_ok.2 ⟨labels, hlabels, bind_eq_ok.2 ⟨_, harcs, rfl⟩⟩, ?_, ?_⟩
  · rw [List.length_map, List.length_zipIdx]
    exact hnodes.length_eq.symm
  · rw [List.forall₂_map_right_iff]
    exact hdraws.imp fun edge a ha ↦ ⟨a, ha, rfl⟩

end CallGraph

/-! ## Looking at a run -/

/-- What is known is about methods that are reachable, `m₀` being the first of them. -/
structure State.AboutReached (p : Program) (m₀ : MethodIn C) (s : State C e σ) : Prop where
  first : s.Reaches m₀
  vars : ∀ {c v}, s.flow.Has (.var c v) → s.Home p c v
  callers : ∀ {edge}, s.Calls edge →
    ∃ caller, p.callerOf edge.site = .ok caller ∧ s.Reaches caller
  callees : ∀ {edge}, s.Calls edge → s.Reaches edge.callee
  called : ∀ {m}, s.Reaches m → m = m₀ ∨ ∃ edge, s.Calls edge ∧ edge.callee = m

/-- Runs return, and whenever a run is looked at, what it knows, the view of it and the drawing of its
calls are about reachable methods. -/
structure Setup.ShowsReached (S : Setup C e σ) (names : σ) (order : WorkOrder) (entry : MethodId)
    (view : State C e σ → Except UnknownId View) : Prop where
  returns : ∃ s, S.solve names order entry = .ok s ∧
    Relation.ReflTransGen S.Step (S.initial names order entry) s
  states : ∀ {s}, Relation.ReflTransGen S.Step (S.initial names order entry) s →
    s.AboutReached S.program ⟨S.naming.start, entry⟩
  views : ∀ {s}, Relation.ReflTransGen S.Step (S.initial names order entry) s →
    ∃ V, view s = .ok V ∧ ∀ v ∈ V.vars, ∃ m ∈ V.methods, S.program.owner? v = some m
  drawings : ∀ {s}, Relation.ReflTransGen S.Step (S.initial names order entry) s →
    s.calls.Drawn S.program

theorem Setup.reaches_start {S : Setup C e σ} {names : σ} {order : WorkOrder} {entry : MethodId}
    {s : State C e σ} (hs : Relation.ReflTransGen S.Step (S.initial names order entry) s) :
    s.Reaches ⟨S.naming.start, entry⟩ :=
  (steps_induction (I := fun s ↦ s.Reaches ⟨S.naming.start, entry⟩) (reaches_initial.2 rfl)
    (fun _ h htakes ↦ (Takes.grows htakes).reaches h)
    (fun htracked h hc ↦ (hc.grows htracked).reaches h) hs).2

theorem State.Chain.eq_or_called {p : Program} {s : State C e σ} {m₀ m : MethodIn C}
    {cs : List CallSiteId} (h : s.Chain p m₀ cs m) :
    m = m₀ ∨ ∃ edge, s.Calls edge ∧ edge.callee = m := by
  cases h with
  | nil => exact .inl rfl
  | snoc _ hcalls _ => exact .inr ⟨_, hcalls, rfl⟩

namespace Interpretation

variable {S : Setup C e σ} {R : Interpretation S K O} {names : σ} {entry : MethodId}
  {order : WorkOrder} {s : State C e σ}

/-- Variables are met because something is sent to them or they are ends of links, and in either
case their methods are reachable. -/
theorem Confined.aboutReached {U : Facts K O} (h : R.Confined names entry U)
    (hp : S.program.Owned) (hreturns : S.program.ReturnsOwned)
    (hs : Relation.ReflTransGen S.Step (S.initial names order entry) s) :
    s.AboutReached S.program ⟨S.naming.start, entry⟩ := by
  obtain ⟨htracked, hrooted⟩ := hp.rooted hs
  constructor
  case first => exact Setup.reaches_start hs
  case vars =>
    intro c v hhas
    -- A variable has a number because something is sent to it or because it is an end of a link.
    rcases h.anchored hs _ hhas with ⟨o, ho⟩ | ⟨q, hq⟩ | ⟨q, hq⟩
    · exact hrooted.delivers ho
    · exact (hrooted.atHome_flows hp htracked (htracked.links hq)).1 hreturns
    · exact (hrooted.atHome_flows hp htracked (htracked.links hq)).2
  case callers =>
    intro edge hedge
    obtain ⟨site, hsite, hcaller⟩ := hrooted.callers hp htracked hedge
    exact ⟨_, bind_eq_ok.2 ⟨site, hsite, rfl⟩, hcaller⟩
  case callees => exact htracked.callees
  case called =>
    intro m hm
    obtain ⟨cs, hcs⟩ := hrooted.chains hm
    exact hcs.eq_or_called

variable {B : R.domain.Bounds S.program} (h : R.Confined names entry (B.allFacts entry))
  (hi : S.program.hierarchy.Indexed) (hentry : entry.index < S.program.hierarchy.methods.size)

include h hi hentry

/-- Reachable methods exist. -/
theorem Confined.lt_of_reaches (hs : Relation.ReflTransGen S.Step (S.initial names order entry) s)
    {m : MethodIn C} (hm : s.Reaches m) : m.id.index < S.program.hierarchy.methods.size := by
  obtain ⟨k, -, -, hid⟩ := (h.sound h.closed hs).reaches hm
  rcases List.mem_cons.1 hid with heq | hdeclared
  · exact heq ▸ hentry
  · exact hi.lt_of_mem_declaredMethods hdeclared

/-- What is known in a state is about reachable methods, and views and drawings show no more than
that. -/
theorem Confined.showsReached (hp : S.program.Owned) (hreturns : S.program.ReturnsOwned)
    {base : O → AbstractObject} {view : State C e σ → Except UnknownId View}
    (hview : R.meaning.Viewed base view) : S.ShowsReached names order entry view := by
  constructor
  case returns =>
    obtain ⟨s, hsolve, hsteps, -⟩ := h.solve_finishes order
    exact ⟨s, hsolve, hsteps⟩
  case states => exact fun hs ↦ h.aboutReached hp hreturns hs
  case views =>
    intro s hs
    obtain ⟨V, objectOf, heap, hV, hreads, -⟩ := hview (h.sound h.closed hs).faithful
    refine ⟨V, hV, fun v hv ↦ ?_⟩
    obtain ⟨c, hhas⟩ := hreads.mem_vars.1 hv
    obtain ⟨m, howner, hm⟩ := (h.aboutReached hp hreturns hs).vars hhas
    exact ⟨m, hreads.mem_methods.2 ⟨c, hm⟩, howner⟩
  case drawings =>
    intro s hs
    have habout := h.aboutReached hp hreturns hs
    refine CallGraph.drawn (fun m hm ↦ ?_) fun edge hedge ↦ ?_
    · obtain ⟨text, htext⟩ := hi.signature_eq_ok (h.lt_of_reaches hi hentry hs (Table.mem_keys_iff.1 hm))
      exact ⟨_, bind_eq_ok.2 ⟨text, htext, rfl⟩⟩
    · have hcalls : s.Calls edge := Table.mem_keys_iff.1 hedge
      exact ⟨habout.callees hcalls, habout.callers hcalls⟩

end Interpretation

/-! ## Results -/

/-- On every accepted program whose methods mention and return their own variables only, with and
without contexts, whatever the taint rules, all that is known at any time of a run, the view of it and
the drawing of its calls are about reachable methods, and no call is missing in the drawing. -/
theorem shown_of_reached {ds : List Declaration} {p : Program} {entry : MethodId} {w : World}
    (hbuilt : Program.ofDeclarations ds = .ok p) (hworld : World.of p entry = .ok w)
    (hrange : p.InRange) (hown : p.MentionsOwn ds) (hreturns : p.ReturnsOwn ds)
    (abstraction : HeapAbstraction) (order : WorkOrder) :
    w.plainSetup.ShowsReached { abstraction } order entry CiState.view ∧
    ∀ (selector : Selector) (taint : Option TaintRules),
      (w.selectedSetup selector (taint.map (.resolve p))).ShowsReached { heap := { abstraction } }
        order entry CsState.view := by
  obtain ⟨rfl, -⟩ := World.of_eq_ok hworld
  have hp : (World.mk p entry).program.Analysable := Program.analysable hbuilt hworld hrange
  have hi := Program.indexed_of_ofDeclarations hbuilt
  have hentry := World.entry_lt hworld
  have howned := Program.owned_of_mentionsOwn hbuilt hown
  have hreturned : p.ReturnsOwned := Program.returnsOwned_of_returnsOwn hbuilt hreturns
  constructor
  · exact (World.plain_ready hp abstraction).showsReached hi hentry howned hreturned CiState.viewed
  · intro selector taint
    exact (World.resolved_confined hp selector abstraction taint).showsReached hi hentry howned
      hreturned CsState.viewed

set_option maxRecDepth 4000 in
theorem shown_of_reached_drawn :
    Program.ofDeclarations drawnShapes = .ok drawnProgram ∧
    World.of drawnProgram ⟨3⟩ = .ok drawnWorld ∧ drawnProgram.InRange ∧
    drawnProgram.MentionsOwn drawnShapes ∧ drawnProgram.ReturnsOwn drawnShapes ∧
    drawnWorld.plainSetup.ShowsReached { abstraction := .allocationSite } .lifo ⟨3⟩ CiState.view ∧
    ∀ (selector : Selector) (taint : Option TaintRules),
      (drawnWorld.selectedSetup selector (taint.map (.resolve drawnProgram))).ShowsReached
        { heap := { abstraction := .allocationSite } } .lifo ⟨3⟩ CsState.view := by
  have hbuilt : Program.ofDeclarations drawnShapes = .ok drawnProgram := by rfl
  have hworld : World.of drawnProgram ⟨3⟩ = .ok drawnWorld := by rfl
  have hrange : drawnProgram.InRange := by decide
  have hown : drawnProgram.MentionsOwn drawnShapes := by decide
  have hreturns : drawnProgram.ReturnsOwn drawnShapes := by decide
  exact ⟨hbuilt, hworld, hrange, hown, hreturns,
    shown_of_reached hbuilt hworld hrange hown hreturns .allocationSite .lifo⟩

end PointsTo
