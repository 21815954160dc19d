import PointsTo.Proofs.Drawing
import PointsTo.Result.AliasIndex
import PointsTo.Result.Summary

/-!
# Nothing is looked up in vain

Variables, sites, classes and methods are numbers, and so are the pointers, objects and contexts of a
run. On a program that was built and accepted and whose variables and instantiated classes exist
(`Program.InBounds`), every number that an analysis looks up has been given out: steps succeed in
whatever order they are taken, states can be viewed, views inverted and summarized, and taint flows
read off (`Setup.StaysInBounds`). Fields need not be declared, and classes that only dynamic calls name
need not exist.

Walks along the hierarchy and new links of the flow graph pass over what they do not find, so that
their success says nothing. That there is always something to find is stated for them on its own.
-/

namespace PointsTo

/-! ## Hierarchies -/

namespace Hierarchy

variable {h : Hierarchy} {c x : ClassId}

/-- Walks from a class that exists meet only classes and methods that exist. -/
structure StaysInBounds (h : Hierarchy) : Prop where
  ancestry : ∀ {c x}, c.index < h.classes.size → x ∈ h.ancestry c → x.index < h.classes.size
  superinterfaces : ∀ {c x}, x ∈ h.superinterfaces c → x.index < h.classes.size
  declared : ∀ {c s m}, h.declared? c s = some m → m.index < h.methods.size

namespace Indexed

variable (hi : h.Indexed)

include hi

theorem lt_of_mem_chain {n : Nat} (hc : c.index < h.classes.size) (hx : x ∈ h.chain n c) :
    x.index < h.classes.size := by
  induction n generalizing c with
  | zero => cases hx
  | succ n ih =>
    rw [chain, List.mem_cons] at hx
    rcases hx with rfl | hx
    · exact hc
    · split at hx
      case h_1 => cases hx
      case h_2 p hp =>
        obtain ⟨k, hk, hsuper⟩ := Option.bind_eq_some_iff.1 hp
        have hlt : p.index < c.index := hi.earlier hk (ClassDecl.mem_supers.2 (.inl hsuper))
        exact ih (hlt.trans hc) hx

theorem lt_of_mem_interfacesOf (hx : x ∈ h.interfacesOf c) : x.index < h.classes.size := by
  unfold interfacesOf at hx
  cases hk : h.classes[c.index]? with
  | none => simp [hk] at hx
  | some k =>
    rw [hk] at hx
    have hlt : x.index < c.index := hi.earlier hk (ClassDecl.mem_supers.2 (.inr hx))
    exact hlt.trans (Array.getElem?_eq_some_iff.1 hk).1

theorem mem_classIds_of_reached
    (hx : Closure.Reached h.interfacesOf ((h.ancestry c).flatMap h.interfacesOf) x) :
    x ∈ h.classIds := by
  apply hx.mem
  · intro a ha
    obtain ⟨a', -, ha⟩ := List.mem_flatMap.1 ha
    exact Id.mem_upTo.2 (hi.lt_of_mem_interfacesOf ha)
  · intro a _ a' ha'
    exact Id.mem_upTo.2 (hi.lt_of_mem_interfacesOf ha')

theorem mem_superinterfaces_iff : x ∈ h.superinterfaces c ↔
    Closure.Reached h.interfacesOf ((h.ancestry c).flatMap h.interfacesOf) x :=
  Closure.mem_order_iff hi.mem_classIds_of_reached (by simp [classIds, Id.upTo])

theorem lt_of_mem_superinterfaces (hx : x ∈ h.superinterfaces c) : x.index < h.classes.size :=
  Id.mem_upTo.1 (hi.mem_classIds_of_reached (hi.mem_superinterfaces_iff.1 hx))

theorem staysInBounds : h.StaysInBounds where
  ancestry := hi.lt_of_mem_chain
  superinterfaces := hi.lt_of_mem_superinterfaces
  declared hm := hi.lt_of_mem_declaredMethods (mem_of_declared? hm)

end Indexed

end Hierarchy

/-! ## Programs and facts -/

namespace Program

/-- Every variable that is mentioned exists, and so does every class that is instantiated. An access
counts if it is listed with the variable it goes through, also if its method has no body. -/
structure InBounds (p : Program) : Prop extends p.InRange where
  uses : ∀ body ∈ p.bodies.toList.reduceOption, ∀ stmt ∈ body.stmts, ∀ v ∈ stmt.uses,
    v.index < p.vars.size
  returns : ∀ body ∈ p.bodies.toList.reduceOption, ∀ v ∈ body.returnVars, v.index < p.vars.size
  stores : ∀ info ∈ p.vars.toList,
    (∀ store ∈ info.index.storeFields, store.rhs.index < p.vars.size) ∧
      ∀ rhs ∈ info.index.storeArrays, rhs.index < p.vars.size

instance (p : Program) : Decidable p.InBounds :=
  decidable_of_iff
    (p.InRange ∧
      (∀ body ∈ p.bodies.toList.reduceOption, ∀ stmt ∈ body.stmts, ∀ v ∈ stmt.uses,
        v.index < p.vars.size) ∧
      (∀ body ∈ p.bodies.toList.reduceOption, ∀ v ∈ body.returnVars, v.index < p.vars.size) ∧
      ∀ info ∈ p.vars.toList,
        (∀ store ∈ info.index.storeFields, store.rhs.index < p.vars.size) ∧
          ∀ rhs ∈ info.index.storeArrays, rhs.index < p.vars.size)
    ⟨fun h ↦ ⟨h.1, h.2.1, h.2.2.1, h.2.2.2⟩, fun h ↦ ⟨h.1, h.2, h.3, h.4⟩⟩

end Program

/-- If the place is a variable, then one of the program. -/
def Place.Known {K O : Type} (p : Program) : Place K O → Prop
  | .var _ v => v.index < p.vars.size
  | _ => True

/-- What is fed and what feeds it exist, since each is named by a statement or by a site. -/
theorem Facts.Feeds.known {K O : Type} {p : Program} {F : Facts K O} {P Q : Place K O}
    (h : F.Feeds p P Q) (hp : p.Analysable) (hb : p.InBounds) : P.Known p ∧ Q.Known p := by
  cases h with
  | copy _ hbody hstmt =>
    have hbody := Program.mem_bodies hbody
    exact ⟨hb.uses _ hbody _ hstmt _ List.mem_cons_self, hb.targets _ hbody _ hstmt _ rfl⟩
  | loadStatic _ hbody hstmt =>
    exact ⟨trivial, hb.targets _ (Program.mem_bodies hbody) _ hstmt _ rfl⟩
  | storeStatic _ hbody hstmt =>
    exact ⟨hb.uses _ (Program.mem_bodies hbody) _ hstmt _ List.mem_cons_self, trivial⟩
  | storeField _ hinfo hstore =>
    exact ⟨(hb.stores _ (Program.mem_vars hinfo)).1 _ hstore, trivial⟩
  | loadField _ hinfo hload => exact ⟨trivial, (hb.loads _ (Program.mem_vars hinfo)).1 _ hload⟩
  | storeArray _ hinfo hrhs => exact ⟨(hb.stores _ (Program.mem_vars hinfo)).2 _ hrhs, trivial⟩
  | loadArray _ hinfo hlhs => exact ⟨trivial, (hb.loads _ (Program.mem_vars hinfo)).2 _ hlhs⟩
  | argument _ hsite hbody harg =>
    obtain ⟨harg, hparam⟩ := List.of_mem_zip harg
    exact ⟨Program.var_eq_ok_iff.1 (hp.arg hsite harg), Program.var_eq_ok_iff.1 (hp.param hbody hparam)⟩
  | result _ hsite hbody hresult hv =>
    exact ⟨hb.returns _ (Program.mem_bodies hbody) _ hv,
      hb.results _ (Program.mem_callSites hsite) _ hresult⟩

/-! ## Flow graphs -/

/-- Two pointers that have just been entered can be linked. -/
theorem FlowGraph.addEdge_eq_ok {C : Type} [Contextual C] {e : Entity} (g : FlowGraph C e)
    (source target : Pointer C e) :
    ∃ linked, ((g.node source).1.node target).1.addEdge (g.node source).2
      ((g.node source).1.node target).2 = .ok linked := by
  have hi := (stands_node g source).node (p := target)
  have hj := stands_node (g.node source).1 target
  by_cases hlinks : ((g.node source).1.node target).1.Links source target
  · exact ⟨_, addEdge_of_links hi hj hlinks⟩
  · exact ⟨_, addEdge_of_not_links hi hj hlinks⟩

/-! ## Alias indices -/

namespace VarSets.Ascending

variable {sets : VarSets} (h : Ascending sets) {v : VarId}

include h

theorem lookup_of_mem {set : PointsToSet .object} (hset : (v, set) ∈ sets) :
    sets.lookup v = some set := by
  induction sets with
  | nil => cases hset
  | cons entry rest ih =>
    obtain ⟨hbelow, hrest⟩ := List.pairwise_cons.1 h
    rw [Ordered.lookup_cons]
    rcases List.mem_cons.1 hset with rfl | hset
    · exact if_pos rfl
    · have hlt := hbelow v (List.mem_map_of_mem hset)
      have hne : v ≠ entry.1 := fun heq ↦ by simp [heq] at hlt
      rw [if_neg hne]
      exact ih hrest hset

theorem mem_lookup_iff {o : ObjectId} :
    o ∈ ((sets.lookup v).getD ∅).toList ↔ ∃ set, (v, set) ∈ sets ∧ o ∈ set.toList := by
  constructor
  · intro ho
    cases hlookup : sets.lookup v with
    | none => simp [hlookup] at ho
    | some set =>
      rw [hlookup] at ho
      exact ⟨set, mem_of_lookup hlookup, ho⟩
  · rintro ⟨set, hset, ho⟩
    rw [h.lookup_of_mem hset]
    exact ho

end VarSets.Ascending

namespace AliasIndex

variable {v w : VarId} {o : ObjectId}

theorem mem_enterAll {os : List ObjectId} {t : Table ObjectId (List VarId)} :
    w ∈ ((os.foldl (fun t o ↦ t.alter o [] (· ++ [v])) t).get? o).getD [] ↔
      w ∈ (t.get? o).getD [] ∨ w = v ∧ o ∈ os := by
  induction os generalizing t with
  | nil => simp
  | cons a os ih =>
    rw [List.foldl_cons, ih, Table.get?_alter]
    by_cases ho : o = a
    · rw [if_pos ho, ho, Option.getD_some, List.mem_append, List.mem_singleton, or_assoc]
      simp only [List.mem_cons, and_or_left, and_true]
    · simp [ho]

theorem mem_enter {ix : AliasIndex} {objects : PointsToSet .object} :
    w ∈ (ix.enter v objects).varsPointingTo o ↔
      w ∈ ix.varsPointingTo o ∨ w = v ∧ o ∈ objects.toList := by
  unfold enter
  split
  case isTrue hempty => simp [PointsToSet.isEmpty_iff.1 hempty]
  case isFalse => exact mem_enterAll

theorem mem_ofSets {sets : VarSets} {ix : AliasIndex} :
    v ∈ (sets.foldl (fun ix s ↦ ix.enter s.1 s.2) ix).varsPointingTo o ↔
      v ∈ ix.varsPointingTo o ∨ ∃ set, (v, set) ∈ sets ∧ o ∈ set.toList := by
  induction sets generalizing ix with
  | nil => simp
  | cons entry rest ih =>
    rw [List.foldl_cons, ih, mem_enter, or_assoc]
    apply or_congr_right
    constructor
    · rintro (⟨rfl, ho⟩ | ⟨set, hset, ho⟩)
      · exact ⟨entry.2, List.mem_cons_self, ho⟩
      · exact ⟨set, List.mem_cons_of_mem _ hset, ho⟩
    · rintro ⟨set, hset, ho⟩
      rcases List.mem_cons.1 hset with rfl | hset
      · exact .inl ⟨rfl, ho⟩
      · exact .inr ⟨set, hset, ho⟩

/-- The index of a view is the view turned around. -/
theorem mem_varsPointingTo_ofView {V : View} (hV : V.sets.Ascending) :
    v ∈ (ofView V).varsPointingTo o ↔ o ∈ V.pointsTo v := by
  have hempty : v ∉ ({} : AliasIndex).varsPointingTo o := by simp [varsPointingTo]
  rw [ofView, mem_ofSets, or_iff_right hempty]
  exact hV.mem_lookup_iff.symm

end AliasIndex

/-! ## Views -/

namespace View

variable {V : View} {p : Program}

/-- Whatever the view shows is there to be described. -/
structure Known (V : View) (p : Program) : Prop where
  methods : ∀ m ∈ V.methods, m.index < p.hierarchy.methods.size
  callSites : ∀ edge ∈ V.edges, ∃ site, p.callSite edge.site.id = .ok site
  callees : ∀ edge ∈ V.edges, edge.callee.id.index < p.hierarchy.methods.size
  vars : ∀ v ∈ V.vars, v.index < p.vars.size
  objects : ∀ {v o}, o ∈ V.pointsTo v →
    ∃ object, V.heap.object o = .ok object ∧ object.cls.index < p.hierarchy.classes.size

namespace Known

variable (h : V.Known p) (hi : p.hierarchy.Indexed) {given : MethodId → Item → Prop}
  (hstems : p.Stems given)

include h

theorem describe_eq_ok {v : VarId} {o : ObjectId} (ho : o ∈ V.pointsTo v) :
    ∃ text, V.describe p o = .ok text := by
  obtain ⟨object, hobject, hcls⟩ := h.objects ho
  obtain ⟨cls, hcls⟩ := Hierarchy.cls_eq_ok hcls
  exact ⟨_, bind_eq_ok.2 ⟨object, hobject, bind_eq_ok.2 ⟨cls, hcls, rfl⟩⟩⟩

include hi hstems

theorem summarizeEdge_eq_ok {edge : Edge Unit} (hedge : edge ∈ V.edges) :
    ∃ summary, summarizeEdge p edge = .ok summary := by
  obtain ⟨site, hsite⟩ := h.callSites edge hedge
  obtain ⟨caller, hcaller⟩ := hi.signature_eq_ok (hstems.containers (Id.lookup_eq_ok_iff.1 hsite))
  obtain ⟨callee, hcallee⟩ := hi.signature_eq_ok (h.callees edge hedge)
  exact ⟨_, bind_eq_ok.2 ⟨site, hsite, bind_eq_ok.2 ⟨caller, hcaller,
    bind_eq_ok.2 ⟨callee, hcallee, rfl⟩⟩⟩⟩

theorem summarizeVar_eq_ok {v : VarId} (hv : v ∈ V.vars) (entries : List (String × List String)) :
    ∃ entries', V.summarizeVar p entries v = .ok entries' := by
  obtain ⟨objects, hobjects, -⟩ := mapM_eq_ok fun o ho ↦ h.describe_eq_ok (v := v) ho
  obtain ⟨info, hinfo⟩ := Program.var_eq_ok_iff.2 (h.vars v hv)
  have howner : p.owner? v = some info.method := by
    rw [Program.owner?, Id.lookup_eq_ok_iff.1 hinfo]
    rfl
  obtain ⟨owner, hsignature⟩ := hi.signature_eq_ok (hstems.owners howner)
  have hname : p.varName v = .ok (owner ++ "/" ++ info.name) :=
    bind_eq_ok.2 ⟨info, hinfo, bind_eq_ok.2 ⟨owner, hsignature, rfl⟩⟩
  exact ⟨_, bind_eq_ok.2 ⟨objects, hobjects, bind_eq_ok.2 ⟨_, hname, rfl⟩⟩⟩

theorem summary_eq_ok (flows : List TaintFlow) : ∃ summary, V.summary p flows = .ok summary := by
  obtain ⟨methods, hmethods, -⟩ := mapM_eq_ok fun m hm ↦ hi.signature_eq_ok (h.methods m hm)
  obtain ⟨edges, hedges, -⟩ := mapM_eq_ok fun edge hedge ↦ h.summarizeEdge_eq_ok hi hstems hedge
  obtain ⟨entries, hentries⟩ :=
    foldlM_eq_ok (fun v hv entries ↦ h.summarizeVar_eq_ok hi hstems hv entries) []
  exact ⟨_, bind_eq_ok.2 ⟨methods, hmethods, bind_eq_ok.2 ⟨edges, hedges,
    bind_eq_ok.2 ⟨entries, hentries, rfl⟩⟩⟩⟩

end Known

end View

/-! ## Runs -/

variable {C : Type} [Contextual C] {e : Entity} {σ K O : Type}

/-- Runs return, and at any time of a run every pending item can be done, the state can be viewed, and
the view can be turned around and summarized, whatever flows are reported. -/
structure Setup.StaysInBounds (S : Setup C e σ) (names : σ) (order : WorkOrder) (entry : MethodId)
    (view : State C e σ → Except UnknownId View) : Prop where
  returns : ∃ s, S.solve names order entry = .ok s ∧
    Relation.ReflTransGen S.Step (S.initial names order entry) s
  steps : ∀ {s}, Relation.ReflTransGen S.Step (S.initial names order entry) s →
    ∀ {item : WorkItem C e} {rest : WorkList (WorkItem C e)},
      (item :: rest.toList).Perm s.pending.toList → ∃ s', S.process (s.taken rest) item = .ok s'
  links : ∀ (g : FlowGraph C e) (source target : Pointer C e),
    ∃ linked, ((g.node source).1.node target).1.addEdge (g.node source).2
      ((g.node source).1.node target).2 = .ok linked
  views : ∀ {s}, Relation.ReflTransGen S.Step (S.initial names order entry) s →
    ∃ V, view s = .ok V ∧ V.Known S.program ∧
      (∀ {v o}, v ∈ (AliasIndex.ofView V).varsPointingTo o ↔ o ∈ V.pointsTo v) ∧
      ∀ flows, ∃ summary, V.summary S.program flows = .ok summary

/-- At any time of a run the taint flows of any plan can be read off. -/
def Setup.ReportsInBounds (S : Setup ContextId .csObject CsHeap) (names : CsHeap) (order : WorkOrder)
    (entry : MethodId) : Prop :=
  ∀ {s : CsState}, Relation.ReflTransGen S.Step (S.initial names order entry) s →
    ∀ plan : TaintPlan, ∃ flows, plan.flows S.program s = .ok flows

namespace Interpretation

variable {S : Setup C e σ} {R : Interpretation S K O} {names : σ} {entry : MethodId}
  {order : WorkOrder} {s : State C e σ} {B : R.domain.Bounds S.program}
  (h : R.Confined names entry (B.allFacts entry))

include h

/-- Variables that have a number exist. -/
theorem Confined.lt_of_has (hp : S.program.Analysable) (hb : S.program.InBounds)
    (hs : Relation.ReflTransGen S.Step (S.initial names order entry) s) {c : C} {v : VarId}
    (hhas : s.flow.Has (.var c v)) : v.index < S.program.vars.size := by
  have hsound := h.sound h.closed hs
  have hknown : ∀ {P}, R.meaning.place s.names (.var c v) = some P → P.Known S.program →
      v.index < S.program.vars.size := by
    intro P hP hknown
    obtain ⟨k, -, rfl⟩ := Meaning.place_var_iff.1 hP
    exact hknown
  -- A variable has a number because something is sent to it or because it is an end of a link.
  rcases h.anchored hs _ hhas with ⟨o, ho⟩ | ⟨q, hq⟩ | ⟨q, hq⟩
  · obtain ⟨P, x, hP, -, hwithin, -⟩ := hsound.delivers ho
    obtain ⟨k, -, rfl⟩ := Meaning.place_var_iff.1 hP
    exact Program.var_eq_ok_iff.1 hwithin.2
  · obtain ⟨P, Q, hP, -, hfeeds⟩ := hsound.links hq
    exact hknown hP (hfeeds.known hp hb).1
  · obtain ⟨P, Q, -, hQ, hfeeds⟩ := hsound.links hq
    exact hknown hQ (hfeeds.known hp hb).2

section

variable (hp : S.program.Analysable) (hb : S.program.InBounds) (hi : S.program.hierarchy.Indexed)
  (hentry : entry.index < S.program.hierarchy.methods.size) {base : O → AbstractObject}
  (hbase : ∀ x, R.domain.classOf x = (base x).cls)

include hp hb hi hentry hbase

/-- What a view shows was met in some state of a run, where only what the program has can be met. -/
theorem Confined.known_view (hs : Relation.ReflTransGen S.Step (S.initial names order entry) s)
    {V : View} {objectOf : Id e → Except UnknownId ObjectId} {heap : Heap}
    (hreads : V.Reads s objectOf heap)
    (hobject : ∀ {o x}, R.meaning.obj s.names o = some x →
      ∃ i, objectOf o = .ok i ∧ heap.object i = .ok (base x)) : V.Known S.program := by
  have hsound := h.sound h.closed hs
  have htracked := Setup.tracked_of_steps hs
  constructor
  case methods =>
    intro m hm
    obtain ⟨c, hm⟩ := hreads.mem_methods.1 hm
    exact h.lt_of_reaches hi hentry hs hm
  case callSites =>
    intro edge hedge
    obtain ⟨edge', hcalls, rfl⟩ := hreads.mem_edges.1 hedge
    exact htracked.callSite hcalls
  case callees =>
    intro edge hedge
    obtain ⟨edge', hcalls, rfl⟩ := hreads.mem_edges.1 hedge
    exact h.lt_of_reaches hi hentry hs (htracked.callees hcalls)
  case vars =>
    intro v hv
    obtain ⟨c, hhas⟩ := hreads.mem_vars.1 hv
    exact h.lt_of_has hp hb hs hhas
  case objects =>
    intro v i hv
    obtain ⟨c, o, hpoints, hi⟩ := hreads.mem_pointsTo.1 hv
    obtain ⟨P, x, -, hx, -, hmem⟩ := hsound.delivers (.inl hpoints)
    obtain ⟨i', hi', hheap⟩ := hobject hx
    obtain rfl := Except.ok.inj (hi.symm.trans hi')
    obtain ⟨info, hinfo⟩ := B.classOf hmem
    refine ⟨base x, hreads.heap ▸ hheap, ?_⟩
    rw [← hbase]
    exact (Array.getElem?_eq_some_iff.1 (Id.lookup_eq_ok_iff.1 hinfo)).1

theorem Confined.staysInBounds {given : MethodId → Item → Prop} (hstems : S.program.Stems given)
    {view : State C e σ → Except UnknownId View} (hview : R.meaning.Viewed base view) :
    S.StaysInBounds names order entry view := by
  constructor
  case returns =>
    obtain ⟨s, hsolve, hsteps, -⟩ := h.solve_finishes order
    exact ⟨s, hsolve, hsteps⟩
  case steps =>
    intro s hs item rest hperm
    obtain ⟨s', hprocess, -⟩ := (h.attended hs).toUnderway.take h.closed h.answered hperm
    exact ⟨s', hprocess⟩
  case links => exact FlowGraph.addEdge_eq_ok
  case views =>
    intro s hs
    obtain ⟨V, objectOf, heap, hV, hreads, hobject⟩ := hview (h.sound h.closed hs).faithful
    have hknown := h.known_view hp hb hi hentry hbase hs hreads hobject
    exact ⟨V, hV, hknown, AliasIndex.mem_varsPointingTo_ofView hreads.sets.ascending,
      hknown.summary_eq_ok hi hstems⟩

end

end Interpretation

/-! ## Results -/

/-- On every accepted program whose variables and instantiated classes exist, with and without contexts,
whatever the selector, the abstraction of the heap, the taint rules and the order of work, nothing is
looked up that does not exist, be it by the analysis, by the index of aliases, by the summary or by the
report of taint flows. -/
theorem stays_in_bounds {ds : List Declaration} {p : Program} {entry : MethodId} {w : World}
    (hbuilt : Program.ofDeclarations ds = .ok p) (hworld : World.of p entry = .ok w)
    (hbounds : p.InBounds) (abstraction : HeapAbstraction) (order : WorkOrder) :
    p.hierarchy.StaysInBounds ∧
    w.plainSetup.StaysInBounds { abstraction } order entry CiState.view ∧
    ∀ (selector : Selector) (taint : Option TaintRules),
      (w.selectedSetup selector (taint.map (.resolve p))).StaysInBounds { heap := { abstraction } }
        order entry CsState.view ∧
      (w.selectedSetup selector (taint.map (.resolve p))).ReportsInBounds { heap := { abstraction } }
        order entry := by
  obtain ⟨rfl, -⟩ := World.of_eq_ok hworld
  have hp : (World.mk p entry).program.Analysable :=
    Program.analysable hbuilt hworld hbounds.toInRange
  have hi := Program.indexed_of_ofDeclarations hbuilt
  have hentry := World.entry_lt hworld
  have hstems := Program.stems_of_ofDeclarations hbuilt
  refine ⟨hi.staysInBounds, ?_, fun selector taint ↦ ?_⟩
  · exact (World.plain_ready hp abstraction).staysInBounds hp hbounds hi hentry (fun _ ↦ rfl) hstems
      CiState.viewed
  · have hconfined := World.resolved_confined hp selector abstraction taint
    refine ⟨hconfined.staysInBounds hp hbounds hi hentry (fun _ ↦ rfl) hstems CsState.viewed,
      fun {s} hs plan ↦ ?_⟩
    have hfaithful := (hconfined.sound hconfined.closed hs).faithful
    have htracked := Setup.tracked_of_steps hs
    obtain ⟨flows, hflows, -⟩ := TaintPlan.flows_eq_ok hfaithful plan
      (D := .selected p abstraction selector) (fun _ ↦ rfl) fun edge hedge ↦ htracked.callSite hedge
    exact ⟨flows, hflows⟩

/-- No field is declared, one call names a class that does not exist, and the load in the last method is
listed with a variable of another while the method itself has no body. -/
def strayShapes : List Declaration :=
  [ .cls { name := "Shape", isAbstract := true },
    .cls { name := "Circle", superclass := some ⟨0⟩ },
    .method { cls := ⟨1⟩, subsignature := ⟨"join(Shape)"⟩, items :=
      [.this, .param "other", .storeField ⟨0⟩ ⟨40⟩ ⟨1⟩, .loadField ⟨1⟩ ⟨0⟩ ⟨40⟩, .ret (some ⟨1⟩)] },
    .method { cls := ⟨1⟩, subsignature := ⟨"main()"⟩, isStatic := true, items :=
      [.var "shape", .var "shapes", .alloc ⟨2⟩ ⟨1⟩, .alloc ⟨3⟩ ⟨1⟩, .storeArray ⟨3⟩ ⟨2⟩,
        .loadArray ⟨2⟩ ⟨3⟩, .storeStatic ⟨41⟩ ⟨2⟩, .loadStatic ⟨3⟩ ⟨41⟩,
        .call .dynamic (some ⟨2⟩) (some ⟨3⟩) ⟨⟨99⟩, ⟨"any()"⟩⟩ [⟨2⟩],
        .call .virtual (some ⟨2⟩) (some ⟨2⟩) ⟨⟨0⟩, ⟨"join(Shape)"⟩⟩ [⟨3⟩]] },
    .method { cls := ⟨0⟩, subsignature := ⟨"join(Shape)"⟩, isAbstract := true, items :=
      [.param "other", .loadField ⟨4⟩ ⟨2⟩ ⟨42⟩, .ret (some ⟨4⟩)] } ]

def strayProgram : Program := (Program.ofDeclarations strayShapes).toOption.getD {}

def strayWorld : World := ⟨strayProgram, ⟨1⟩⟩

set_option maxRecDepth 4000 in
theorem stays_in_bounds_stray :
    Program.ofDeclarations strayShapes = .ok strayProgram ∧
    World.of strayProgram ⟨1⟩ = .ok strayWorld ∧ strayProgram.InBounds ∧
    strayProgram.hierarchy.StaysInBounds ∧
    strayWorld.plainSetup.StaysInBounds { abstraction := .allocationSite } .lifo ⟨1⟩ CiState.view ∧
    ∀ (selector : Selector) (taint : Option TaintRules),
      (strayWorld.selectedSetup selector (taint.map (.resolve strayProgram))).StaysInBounds
        { heap := { abstraction := .allocationSite } } .lifo ⟨1⟩ CsState.view ∧
      (strayWorld.selectedSetup selector (taint.map (.resolve strayProgram))).ReportsInBounds
        { heap := { abstraction := .allocationSite } } .lifo ⟨1⟩ := by
  have hbuilt : Program.ofDeclarations strayShapes = .ok strayProgram := by rfl
  have hworld : World.of strayProgram ⟨1⟩ = .ok strayWorld := by rfl
  have hbounds : strayProgram.InBounds := by decide
  exact ⟨hbuilt, hworld, hbounds, stays_in_bounds hbuilt hworld hbounds .allocationSite .lifo⟩

end PointsTo
