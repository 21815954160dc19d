import PointsTo.Proofs.Exactness
import PointsTo.Proofs.Origins

/-!
# Receivers under object sensitivity

Under object sensitivity the context of a method tells on what it was called: it ends in the receiver,
preceded by the receiver's heap context. Calls establish this, and nothing disturbs it as long as
receiver variables are not assigned. A static call hands its own context on but has no receiver, and
arguments go to parameters, of which a receiver variable is none. So in every state that a run goes
through, whatever `this` refers to agrees with the context (`this_matches_context`). If contexts are longer
than heap contexts, then the receiver with its heap context is all there, and `this` refers to one
object only.
-/

namespace PointsTo

namespace Program

variable {p : Program}

/-- The receiver variables of all bodies. -/
def thisVars (p : Program) : List VarId := p.bodies.toList.reduceOption.filterMap (·.this)

/-- The variables that something is assigned to, by a statement or as the result of a call. Loads count
wherever they are listed, as those of a discarded body stay with their bases. -/
def assigned (p : Program) : List VarId :=
  p.bodies.toList.reduceOption.flatMap (fun body ↦ body.stmts.filterMap Stmt.target) ++
  p.vars.toList.flatMap (fun info ↦ info.index.loadFields.map (·.lhs) ++ info.index.loadArrays) ++
  p.callSites.toList.filterMap (·.result)

/-- Nothing is assigned to a receiver variable. -/
def ThisUnassigned (p : Program) : Prop := ∀ v ∈ p.assigned, v ∉ p.thisVars

instance (p : Program) : Decidable p.ThisUnassigned :=
  inferInstanceAs (Decidable (∀ v ∈ p.assigned, v ∉ p.thisVars))

theorem mem_thisVars {v : VarId} : v ∈ p.thisVars ↔ ∃ m, p.thisVar m = some v := by
  unfold thisVars thisVar
  rw [List.mem_filterMap]
  constructor
  · intro h
    obtain ⟨body, hbody, hv⟩ := h
    obtain ⟨entry, hentry, rfl⟩ := List.mem_filterMap.1 hbody
    obtain ⟨i, hi, hget⟩ := Array.mem_iff_getElem.1 (Array.mem_toList_iff.1 hentry)
    refine ⟨⟨i⟩, Option.bind_eq_some_iff.2 ⟨body, ?_, hv⟩⟩
    rw [Program.body, Array.getElem?_eq_getElem hi, hget]
    rfl
  · intro h
    obtain ⟨m, hm⟩ := h
    obtain ⟨body, hbody, hv⟩ := Option.bind_eq_some_iff.1 hm
    exact ⟨body, mem_bodies hbody, hv⟩

theorem mem_assigned_of_stmt {m : MethodId} {body : MethodBody} (hbody : p.body m = some body)
    {stmt : Stmt} (hstmt : stmt ∈ body.stmts) {v : VarId} (hv : stmt.target = some v) :
    v ∈ p.assigned := by
  refine List.mem_append_left _ (List.mem_append_left _ ?_)
  exact List.mem_flatMap.2 ⟨body, mem_bodies hbody, List.mem_filterMap.2 ⟨stmt, hstmt, hv⟩⟩

theorem mem_assigned_of_loadField {v : VarId} {info : VarInfo} (hinfo : p.var v = .ok info)
    {load : FieldLoad} (hload : load ∈ info.index.loadFields) : load.lhs ∈ p.assigned := by
  refine List.mem_append_left _ (List.mem_append_right _ ?_)
  refine List.mem_flatMap.2 ⟨info, mem_vars hinfo, List.mem_append_left _ ?_⟩
  exact List.mem_map_of_mem hload

theorem mem_assigned_of_loadArray {v lhs : VarId} {info : VarInfo} (hinfo : p.var v = .ok info)
    (hlhs : lhs ∈ info.index.loadArrays) : lhs ∈ p.assigned := by
  refine List.mem_append_left _ (List.mem_append_right _ ?_)
  exact List.mem_flatMap.2 ⟨info, mem_vars hinfo, List.mem_append_right _ hlhs⟩

theorem mem_assigned_of_result {c : CallSiteId} {site : CallSite} (hsite : p.callSite c = .ok site)
    {v : VarId} (hv : site.result = some v) : v ∈ p.assigned :=
  List.mem_append_right _ (List.mem_filterMap.2 ⟨site, mem_callSites hsite, hv⟩)

/-- Parameters and receiver variables are told apart, also across methods. -/
theorem Stems.param_not_mem {given : MethodId → Item → Prop} (hp : p.Stems given) {m : MethodId}
    {body : MethodBody} (hbody : p.body m = some body) {v : VarId} (hv : v ∈ body.params) :
    v ∉ p.thisVars := by
  intro hthis
  obtain ⟨m', hm'⟩ := mem_thisVars.1 hthis
  obtain ⟨body', hbody', hv'⟩ := Option.bind_eq_some_iff.1 hm'
  obtain ⟨howner', hnot⟩ := (hp.bodies hbody').this hv'
  have howner := (hp.bodies hbody).params hv
  obtain rfl := Option.some.inj (howner.symm.trans howner')
  obtain rfl := Option.some.inj (hbody.symm.trans hbody')
  exact hnot hv

end Program

/-! ## Contexts that end in the receiver -/

/-- All objects under heap contexts of at most `hk` steps, receiver variables referring only to what
their context ends in. -/
def receiverFacts (p : Program) (k hk : Nat) : Facts (List ContextStep) HeapObject where
  pts P x := x.ctx.length ≤ hk ∧ ∀ c v, P = .var c v → v ∈ p.thisVars →
    c = .rtake (x.ctx ++ [.object x.object]) k
  reaches _ := True
  calls _ := True

section

variable {p : Program} {k hk : Nat}

/-- What is said of receiver variables does not concern other variables. -/
theorem pts_receiverFacts {c : List ContextStep} {v : VarId} {x : HeapObject}
    (hx : x.ctx.length ≤ hk) (hv : v ∉ p.thisVars) : (receiverFacts p k hk).pts (.var c v) x := by
  refine ⟨hx, ?_⟩
  rintro _ _ ⟨⟩ hthis
  exact absurd hthis hv

theorem includes_receiverFacts {P : Place (List ContextStep) HeapObject} {c : List ContextStep}
    {v : VarId} (hv : v ∉ p.thisVars) : (receiverFacts p k hk).Includes P (.var c v) :=
  fun _ hx ↦ pts_receiverFacts hx.1 hv

/-- No rule but the one for calls on a receiver says anything about receiver variables. -/
theorem closed_receiverFacts {given : MethodId → Item → Prop} (hp : p.Stems given)
    (hthis : p.ThisUnassigned) (abstraction : HeapAbstraction) (entry : MethodId) :
    Rules.Closed { program := p, domain := .selected p abstraction ⟨.object, k, hk⟩, entry }
      (receiverFacts p k hk) where
  entry := trivial
  alloc _ hbody hs _ := pts_receiverFacts (length_rtake_le hk _)
    (hthis _ (Program.mem_assigned_of_stmt hbody hs rfl))
  copy _ hbody hs := includes_receiverFacts (hthis _ (Program.mem_assigned_of_stmt hbody hs rfl))
  loadStatic _ hbody hs :=
    includes_receiverFacts (hthis _ (Program.mem_assigned_of_stmt hbody hs rfl))
  storeStatic _ _ _ _ hx := ⟨hx.1, fun _ _ h ↦ nomatch h⟩
  storeField _ _ _ _ hx := ⟨hx.1, fun _ _ h ↦ nomatch h⟩
  loadField _ hv hload :=
    includes_receiverFacts (hthis _ (Program.mem_assigned_of_loadField hv hload))
  storeArray _ _ _ _ hx := ⟨hx.1, fun _ _ h ↦ nomatch h⟩
  loadArray _ hv hload :=
    includes_receiverFacts (hthis _ (Program.mem_assigned_of_loadArray hv hload))
  edge _ _ := trivial
  this hmakes _ := by
    cases hmakes with
    | receiver ho _ _ _ =>
      refine ⟨ho.1, ?_⟩
      rintro _ _ ⟨⟩ _
      rfl
  callee _ := trivial
  argument _ _ hbody harg := includes_receiverFacts (hp.param_not_mem hbody (List.of_mem_zip harg).2)
  result _ hsite _ hr _ :=
    includes_receiverFacts (hthis _ (Program.mem_assigned_of_result hsite hr))
  source ht := nomatch ht
  transfer ht := nomatch ht

end

/-! ## Back to numbers -/

/-- In numbers too, the context is what the receiver's heap context and the receiver end in. -/
theorem CsHeap.Valid.elements_receiver {n : CsHeap} {p : Program} {abstraction : HeapAbstraction}
    (hn : n.Valid p abstraction) {c : ContextId} {i : CsObjectId} {x : HeapObject} {k : Nat}
    (hi : n.heapObject i = some x)
    (hc : n.steps c = some (.rtake (x.ctx ++ [.object x.object]) k)) :
    ∃ o hs, n.object i = .ok o ∧ n.contexts.elements o.ctx = .ok hs ∧
      n.contexts.elements c = .ok (.rtake (hs ++ [.object o.id]) k) := by
  obtain ⟨o, ho, hctx, hobject⟩ := heapObject_eq_some_iff.1 hi
  obtain ⟨hs, hhs, hsteps⟩ := steps_eq_some_iff.1 hctx
  obtain ⟨es, hes, hess⟩ := steps_eq_some_iff.1 hc
  have hlast : ((hs ++ [ContextElem.object o.id]).rtake k).map (ContextElem.step n.heap) =
      ((x.ctx ++ [ContextStep.object x.object]).rtake k).map some := by
    have hreceiver : ContextElem.step n.heap (.object o.id) = some (.object x.object) :=
      Option.map_eq_some_iff.2 ⟨x.object, hobject, rfl⟩
    rw [map_rtake, map_rtake, List.map_append, List.map_append, hsteps, List.map_singleton,
      List.map_singleton, hreceiver]
  obtain rfl := ContextElem.map_step_inj hn.keyed hess hlast
  exact ⟨o, hs, object_eq_ok ho, elements_eq_ok hhs, elements_eq_ok hes⟩

/-- The receiver variable of `m` refers to `i` under the context `c`. -/
def State.OnReceiver {C : Type} [Contextual C] {e : Entity} {σ : Type} (p : Program)
    (s : State C e σ) (m : MethodId) (c : C) (i : Id e) : Prop :=
  ∃ this, p.thisVar m = some this ∧ i ∈ (s.varPointsTo c this).toList

theorem Interpretation.Sound.onReceiver {w : World} {hp : w.program.Analysable} {k hk : Nat}
    {abstraction : HeapAbstraction} {s : CsState}
    (hs : (w.selectedInterpretation hp ⟨.object, k, hk⟩ abstraction none).Sound
      (receiverFacts w.program k hk) s) {m : MethodId} {c : ContextId} {i : CsObjectId}
    (hi : s.OnReceiver w.program m c i) :
    ∃ x, s.names.heapObject i = some x ∧ x.ctx.length ≤ hk ∧
      s.names.steps c = some (.rtake (x.ctx ++ [.object x.object]) k) := by
  obtain ⟨this, hthis, hi⟩ := hi
  obtain ⟨P, x, hP, hx, hpts⟩ := hs.delivers (.inl (FlowGraph.points_iff_mem_pts?.2 hi))
  obtain ⟨xs, hxs, rfl⟩ := Meaning.place_var_iff.1 hP
  obtain ⟨hlength, hcontext⟩ := hpts
  obtain rfl := hcontext xs this rfl (Program.mem_thisVars.2 ⟨m, hthis⟩)
  exact ⟨x, hx, hlength, hxs⟩

/-- Under object sensitivity, in every state that a run on an accepted program goes through, the
context of a method is the end of what its receiver says, heap context first, as long as nothing is
assigned to a receiver variable. Where heap contexts are shorter than contexts, a method has one
receiver in each context. -/
theorem this_matches_context {ds : List Declaration} {p : Program} {entry : MethodId} {w : World}
    (hbuilt : Program.ofDeclarations ds = .ok p) (hworld : World.of p entry = .ok w)
    (hrange : p.InRange) (hthis : p.ThisUnassigned) (k hk : Nat) (abstraction : HeapAbstraction)
    (order : WorkOrder) {s : CsState}
    (hs : Relation.ReflTransGen (w.selectedSetup ⟨.object, k, hk⟩ none).Step
      ((w.selectedSetup ⟨.object, k, hk⟩ none).initial { heap := { abstraction } } order entry) s) :
    (∀ m c i, s.OnReceiver p m c i →
      ∃ o hs, s.names.object i = .ok o ∧ s.names.contexts.elements o.ctx = .ok hs ∧
        s.names.contexts.elements c = .ok (.rtake (hs ++ [.object o.id]) k)) ∧
    (hk < k → ∀ m c i j, s.OnReceiver p m c i → s.OnReceiver p m c j → i = j) := by
  obtain ⟨rfl, -⟩ := World.of_eq_ok hworld
  have hp : (World.mk p entry).program.Analysable := Program.analysable hbuilt hworld hrange
  have hknown : ∀ plan, (none : Option TaintPlan) = some plan → plan.Known p := fun _ h ↦ nomatch h
  have hsound := (World.selected_confined hp ⟨.object, k, hk⟩ abstraction hknown).sound
    (closed_receiverFacts (Program.stems_of_ofDeclarations hbuilt) hthis abstraction entry) hs
  constructor
  · intro m c i hi
    obtain ⟨x, hx, -, hc⟩ := hsound.onReceiver hi
    exact hsound.valid.elements_receiver hx hc
  · intro hlt m c i j hi hj
    obtain ⟨x, hx, hxlength, hxc⟩ := hsound.onReceiver hi
    obtain ⟨y, hy, hylength, hyc⟩ := hsound.onReceiver hj
    -- Nothing is cut off, so both receivers can be read off the context.
    have hfull : ∀ {z : HeapObject}, z.ctx.length ≤ hk →
        (z.ctx ++ [ContextStep.object z.object]).rtake k = z.ctx ++ [.object z.object] := by
      intro z hz
      apply rtake_of_length_le
      rw [List.length_append, List.length_singleton]
      omega
    have heq := Option.some.inj (hxc.symm.trans hyc)
    rw [hfull hxlength, hfull hylength] at heq
    obtain ⟨hctx, hobject⟩ := List.append_inj' heq rfl
    obtain rfl : x = y := by
      cases x
      cases y
      simp_all
    exact hsound.valid.heapObject_inj hx hy

set_option maxRecDepth 4000 in
theorem knottedProgram_thisUnassigned : knottedProgram.ThisUnassigned := by decide

/-- The last of the nodes is called on under a context that starts with the first. -/
theorem this_matches_context_knotted :
    Program.ofDeclarations knottedNodes = .ok knottedProgram ∧
    World.of knottedProgram ⟨1⟩ = .ok knottedWorld ∧ knottedProgram.InRange ∧
    knottedProgram.ThisUnassigned ∧
    ∃ s, Relation.ReflTransGen (knottedWorld.selectedSetup ⟨.object, 2, 1⟩ none).Step
        ((knottedWorld.selectedSetup ⟨.object, 2, 1⟩ none).initial
          { heap := { abstraction := .allocationSite } } .fifo ⟨1⟩) s ∧
      s.OnReceiver knottedProgram ⟨0⟩ ⟨2⟩ ⟨1⟩ ∧
      (∀ m c i, s.OnReceiver knottedProgram m c i →
        ∃ o hs, s.names.object i = .ok o ∧ s.names.contexts.elements o.ctx = .ok hs ∧
          s.names.contexts.elements c = .ok (.rtake (hs ++ [.object o.id]) 2)) ∧
      ∀ m c i j, s.OnReceiver knottedProgram m c i → s.OnReceiver knottedProgram m c j → i = j := by
  have hrun : ((knottedWorld.selectedSetup ⟨.object, 2, 1⟩ none).runFor 117
      ((knottedWorld.selectedSetup ⟨.object, 2, 1⟩ none).initial
        { heap := { abstraction := .allocationSite } } .fifo ⟨1⟩) >>= fun s ↦
      .ok (s.varPointsTo ⟨2⟩ ⟨0⟩).toList) = .ok [⟨1⟩] := by decide +kernel
  obtain ⟨s, hs, hthis⟩ := bind_eq_ok.1 hrun
  have hreceiver : s.OnReceiver knottedProgram ⟨0⟩ ⟨2⟩ ⟨1⟩ := by
    refine ⟨⟨0⟩, rfl, ?_⟩
    rw [Except.ok.inj hthis]
    exact List.mem_cons_self
  have hsteps := Setup.steps_of_runFor hs
  have h := this_matches_context knottedProgram_built knottedWorld_accepted knottedProgram_inRange
    knottedProgram_thisUnassigned 2 1 .allocationSite .fifo hsteps
  exact ⟨knottedProgram_built, knottedWorld_accepted, knottedProgram_inRange,
    knottedProgram_thisUnassigned, s, hsteps, hreceiver, h.1, h.2 (by decide)⟩

end PointsTo
