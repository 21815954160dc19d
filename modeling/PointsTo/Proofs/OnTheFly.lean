import PointsTo.Proofs.ClassAnalysis
import PointsTo.Proofs.Exactness

/-!
# Call graphs found on the fly

An analysis without contexts finds calls while it follows objects, and dispatches on the class of each
object that arrives at a receiver. It looks up calls where they are listed with variables and not in
bodies. The call graph it ends with is part of the one that the class hierarchy allows nevertheless
(`plainCalls_subset_classCalls`), given that receivers refer to objects of the classes that calls name, and
that methods mention their own variables. By the latter, objects only arrive at variables of methods
that have a body and may be reached (`World.Live`), so a call listed with such a variable stands in the
body of such a method.

The proof restricts the least solution of the rules to what the hierarchy allows, and shows that what is
left is still closed.
-/

namespace PointsTo

/-- Receivers of dispatched calls refer to objects of the classes that the calls name, or of subtypes. -/
def Facts.ReceiversTyped {K O : Type} (F : Facts K O) (p : Program) (D : Domain K O) : Prop :=
  ∀ ⦃c site v k o⦄, p.callSite c = .ok site → site.Dispatched → site.receiver = some v →
    F.pts (.var k v) o → p.hierarchy.IsSubtype (D.classOf o) site.target.cls

/-- The site of a call that is made exists. -/
theorem Facts.Makes.site {K O : Type} {p : Program} {D : Domain K O} {F : Facts K O} {id : SiteIn K}
    {callee : MethodId} {receiver : Option (VarId × O)} (hm : F.Makes p D id callee receiver)
    (hp : p.Analysable) : ∃ site, p.callSite id.id = .ok site := by
  cases hm with
  | static _ _ _ hsite => exact ⟨_, hsite⟩
  | receiver _ hinfo hc =>
    obtain ⟨site, hsite, -⟩ := hp.invokes hinfo hc
    exact ⟨site, hsite⟩

namespace World

variable {w : World}

/-- The variable belongs to a method that has a body and may be reached. -/
def Live (w : World) (v : VarId) : Prop :=
  ∃ m body, w.program.owner? v = some m ∧ w.program.body m = some body ∧ w.MayReach m

/-- The facts that the class hierarchy allows. -/
def classFacts (w : World) : Facts Unit AbstractObject where
  pts P _ := ∀ k v, P = .var k v → w.Live v
  reaches m := w.MayReach m.id
  calls e := ∃ m, w.MayReach m ∧ w.program.MayCall m e

theorem Live.pts {v : VarId} (h : w.Live v) (o : AbstractObject) : w.classFacts.pts (.var () v) o := by
  rintro k _ ⟨⟩
  exact h

theorem live_of_pts {v : VarId} {o : AbstractObject} (h : w.classFacts.pts (.var () v) o) : w.Live v :=
  h () v rfl

/-! ## Live variables -/

section Live

variable {given : MethodId → Item → Prop} (hs : w.program.Stems given)

include hs

theorem live_of_param {m : MethodId} {body : MethodBody} (hm : w.MayReach m)
    (hbody : w.program.body m = some body) {v : VarId} (hv : v ∈ body.params) : w.Live v :=
  ⟨m, body, (hs.bodies hbody).params hv, hbody, hm⟩

theorem live_of_this {m : MethodId} (hm : w.MayReach m) {v : VarId}
    (hv : w.program.thisVar m = some v) : w.Live v := by
  obtain ⟨body, hbody, hthis⟩ := Option.bind_eq_some_iff.1 hv
  exact ⟨m, body, ((hs.bodies hbody).this hthis).1, hbody, hm⟩

end Live

section Own

variable {ds : List Declaration} (hs : w.program.Stems (Gives ds)) (hown : w.program.MentionsOwn ds)

include hs hown

theorem live_of_stmt {m : MethodId} {body : MethodBody} (hm : w.MayReach m)
    (hbody : w.program.body m = some body) {stmt : Stmt} (hstmt : stmt ∈ body.stmts) {v : VarId}
    (hv : v ∈ stmt.vars) : w.Live v := by
  obtain ⟨item, hitem, hvars⟩ := (hs.bodies hbody).stmts hstmt
  exact ⟨m, body, hown.owner hitem (hvars v hv), hbody, hm⟩

/-- An access and its base belong to the same method. -/
theorem live_of_lists {v : VarId} (hv : w.Live v) {item : Item} (hlists : w.program.Lists v item)
    {u : VarId} (hbase : v ∈ item.vars) (hu : u ∈ item.vars) : w.Live u := by
  obtain ⟨m, body, howner, hbody, hm⟩ := hv
  obtain ⟨m', hitem⟩ := hs.listed hlists
  obtain rfl := Option.some.inj (howner.symm.trans (hown.owner hitem hbase))
  exact ⟨m, body, hown.owner hitem hu, hbody, hm⟩

theorem live_of_result {m : MethodId} (hm : w.MayReach m) {e : Edge Unit}
    (he : w.program.MayCall m e) {site : CallSite} (hsite : w.program.callSite e.site.id = .ok site)
    {v : VarId} (hv : site.result = some v) : w.Live v := by
  obtain ⟨hc, -, -, -⟩ := he
  obtain ⟨body, hbody, hc⟩ := Program.mem_callSitesIn.1 hc
  obtain ⟨site', hsite', rfl⟩ := (hs.bodies hbody).callSites.1 hc
  obtain rfl : site = site' := Option.some.inj ((Id.lookup_eq_ok_iff.1 hsite).symm.trans hsite')
  refine ⟨site.container, body, hown.owner (hs.calls hsite') ?_, hbody, hm⟩
  simp [CallSite.item, Item.vars, hv]

/-- A call that is listed with a live variable stands in the body of the variable's method. -/
theorem mem_callSitesIn_of_live (hp : w.program.Analysable) {v : VarId} (hv : w.Live v)
    {info : VarInfo} (hinfo : w.program.var v = .ok info) {c : CallSiteId}
    (hc : c ∈ info.index.invokes) : ∃ m, w.MayReach m ∧ c ∈ w.program.callSitesIn m := by
  obtain ⟨m, body, howner, hbody, hm⟩ := hv
  obtain ⟨site, hsite, hreceiver⟩ := hp.invokes hinfo hc
  have hsite' := Id.lookup_eq_ok_iff.1 hsite
  have hmem : v ∈ site.item.vars := by simp [CallSite.item, Item.vars, hreceiver]
  obtain rfl := Option.some.inj (howner.symm.trans (hown.owner (hs.calls hsite') hmem))
  refine ⟨site.container, hm, Program.mem_callSitesIn.2 ⟨body, hbody, ?_⟩⟩
  exact (hs.bodies hbody).callSites.2 ⟨site, hsite', rfl⟩

/-! ## The restricted solution -/

variable (hp : w.program.Analysable) (hi : w.program.hierarchy.Indexed)
  (hw : w.program.hierarchy.WellFormed) {abstraction : HeapAbstraction}
  {F : Facts Unit AbstractObject} (htyped : F.ReceiversTyped w.program (.plain abstraction))

include hp hi hw htyped

/-- The hierarchy allows the calls that are made at live variables and in methods that may be
reached. -/
theorem mayCall_of_makes {id : SiteIn Unit} {callee : MethodId}
    {receiver : Option (VarId × AbstractObject)} {site : CallSite}
    (hm : (F.inter w.classFacts).Makes w.program (.plain abstraction) id callee receiver)
    (hsite : w.program.callSite id.id = .ok site) :
    ∃ m, w.MayReach m ∧ w.program.MayCall m ⟨site.kind, id, ⟨(), callee⟩⟩ := by
  cases hm with
  | @static m body c site' _ hreaches hbody hc hsite' hkind hcallee =>
    obtain rfl := Except.ok.inj (hsite.symm.trans hsite')
    have htargets : w.program.targets c = .ok [callee] := by
      simp [Program.targets, hsite, hkind, hcallee, bind, Except.bind, pure, Except.pure]
    have hmem := Program.mem_callSitesIn.2 ⟨body, hbody, (hs.bodies hbody).invokes hc⟩
    exact ⟨m.id, hreaches.2, .intro hmem hsite htargets (List.mem_singleton_self callee)⟩
  | receiver hpts hinfo hc hcallee =>
    obtain ⟨m, hm, hmem⟩ := mem_callSitesIn_of_live hs hown hp (live_of_pts hpts.2) hinfo hc
    obtain ⟨site', hsite', hreceiver⟩ := hp.invokes hinfo hc
    obtain rfl := Except.ok.inj (hsite.symm.trans hsite')
    obtain ⟨ms, hms, hcallee⟩ := (hp.resolvable hi).callee_mem_targets hsite hcallee fun hd ↦
      hw.reflTransGen_narrows_iff.2 (htyped hsite hd hreceiver hpts.1)
    exact ⟨m, hm, .intro hmem hsite hms hcallee⟩

/-- What a closed set of facts and the hierarchy agree on is closed. -/
theorem closed_inter_classFacts
    (hF : Rules.Closed { program := w.program, domain := .plain abstraction, entry := w.entry } F) :
    Rules.Closed { program := w.program, domain := .plain abstraction, entry := w.entry }
      (F.inter w.classFacts) := by
  have hle := F.inter_le_left w.classFacts
  constructor
  case entry => exact ⟨hF.entry, .entry⟩
  case alloc =>
    intro m body lhs a site hm hbody hstmt hsite
    have hlive := live_of_stmt hs hown hm.2 hbody hstmt List.mem_cons_self
    exact ⟨hF.alloc hm.1 hbody hstmt hsite, hlive.pts _⟩
  case copy =>
    intro m body lhs rhs hm hbody hstmt o ho
    have hlive := live_of_stmt hs hown hm.2 hbody hstmt List.mem_cons_self
    exact ⟨hF.copy hm.1 hbody hstmt o ho.1, hlive.pts o⟩
  case loadStatic =>
    intro m body lhs field hm hbody hstmt o ho
    have hlive := live_of_stmt hs hown hm.2 hbody hstmt List.mem_cons_self
    exact ⟨hF.loadStatic hm.1 hbody hstmt o ho.1, hlive.pts o⟩
  case storeStatic =>
    intro m body field rhs hm hbody hstmt o ho
    exact ⟨hF.storeStatic hm.1 hbody hstmt o ho.1, fun k v h ↦ nomatch h⟩
  case storeField =>
    intro k v o info store hv hinfo hstore o' ho'
    exact ⟨hF.storeField hv.1 hinfo hstore o' ho'.1, fun k v h ↦ nomatch h⟩
  case loadField =>
    intro k v o info load hv hinfo hload o' ho'
    have hlists : w.program.Lists v (.loadField load.lhs v load.field) :=
      ⟨info, Id.lookup_eq_ok_iff.1 hinfo, .loadField hload⟩
    have hlive := live_of_lists hs hown (live_of_pts hv.2) hlists (by simp [Item.vars])
      List.mem_cons_self
    exact ⟨hF.loadField hv.1 hinfo hload o' ho'.1, hlive.pts o'⟩
  case storeArray =>
    intro k v o info rhs hv hinfo hstore o' ho'
    exact ⟨hF.storeArray hv.1 hinfo hstore o' ho'.1, fun k v h ↦ nomatch h⟩
  case loadArray =>
    intro k v o info lhs hv hinfo hload o' ho'
    have hlists : w.program.Lists v (.loadArray lhs v) :=
      ⟨info, Id.lookup_eq_ok_iff.1 hinfo, .loadArray hload⟩
    have hlive := live_of_lists hs hown (live_of_pts hv.2) hlists (by simp [Item.vars])
      List.mem_cons_self
    exact ⟨hF.loadArray hv.1 hinfo hload o' ho'.1, hlive.pts o'⟩
  case edge =>
    intro id callee receiver site hm hsite
    exact ⟨hF.edge (hm.mono hle) hsite, mayCall_of_makes hs hown hp hi hw htyped hm hsite⟩
  case this =>
    intro id callee v o this hm hthis
    obtain ⟨site, hsite⟩ := hm.site hp
    obtain ⟨m, hreaches, hcall⟩ := mayCall_of_makes hs hown hp hi hw htyped hm hsite
    exact ⟨hF.this (hm.mono hle) hthis, (live_of_this hs (.call hreaches hcall) hthis).pts o⟩
  case callee =>
    intro e he
    obtain ⟨m, hm, hcall⟩ := he.2
    exact ⟨hF.callee he.1, .call hm hcall⟩
  case argument =>
    intro e site body arg param he hsite hbody harg o ho
    obtain ⟨m, hm, hcall⟩ := he.2
    have hlive := live_of_param hs (.call hm hcall) hbody (List.of_mem_zip harg).2
    exact ⟨hF.argument he.1 hsite hbody harg o ho.1, hlive.pts o⟩
  case result =>
    intro e site body v result he hsite hbody hresult hv o ho
    obtain ⟨m, hm, hcall⟩ := he.2
    have hlive := live_of_result hs hown hm hcall hsite hresult
    exact ⟨hF.result he.1 hsite hbody hresult hv o ho.1, hlive.pts o⟩
  case source => exact fun ht ↦ nomatch ht
  case transfer => exact fun ht ↦ nomatch ht

end Own

end World

/-! ## Instantiated classes -/

/-- The classes that a program has an allocation of. -/
def Program.instantiated (p : Program) : List ClassId := p.allocSites.toList.map (·.cls)

/-- All facts about objects of instantiated classes. -/
def Program.instanceFacts (p : Program) : Facts Unit AbstractObject where
  pts _ o := o.cls ∈ p.instantiated
  reaches _ := True
  calls _ := True

/-- Allocations are the only rule that brings up an object, and all other rules pass objects on. -/
theorem Program.closed_instanceFacts (p : Program) (abstraction : HeapAbstraction)
    (entry : MethodId) :
    Rules.Closed { program := p, domain := .plain abstraction, entry } p.instanceFacts := by
  constructor
  case alloc =>
    intro m body lhs a site _ _ _ hsite
    refine List.mem_map.2 ⟨site, Program.mem_allocSites hsite, ?_⟩
    exact (Program.cls_object abstraction a site).symm
  case this =>
    intro id callee v o this hm _
    cases hm with
    | receiver hpts => exact hpts
  case source => exact fun ht ↦ nomatch ht
  case transfer => exact fun ht ↦ nomatch ht
  case entry => trivial
  case edge => exact fun _ _ ↦ trivial
  case callee => exact fun _ ↦ trivial
  -- What flows on stays of its class.
  all_goals
    intros
    exact fun _ ho ↦ ho

/-- Receivers are typed if every instantiated class is a subtype of every class that dispatched calls
name. -/
theorem Program.Analysable.receiversTyped {p : Program} (hp : p.Analysable)
    (hi : p.hierarchy.Indexed) (hw : p.hierarchy.WellFormed) {abstraction : HeapAbstraction}
    {entry : MethodId} {F : Facts Unit AbstractObject}
    (hF : IsLeast {F | Rules.Closed { program := p, domain := .plain abstraction, entry } F} F)
    (h : ∀ site ∈ p.callSites.toList, site.Dispatched → ∀ c ∈ p.instantiated,
      c ∈ p.hierarchy.subtypes site.target.cls) : F.ReceiversTyped p (.plain abstraction) := by
  intro c site v k o hsite hd _ ho
  have hcls : o.cls ∈ p.instantiated :=
    (Facts.le_iff.1 (hF.2 (p.closed_instanceFacts abstraction entry))).1 _ o ho
  have hmem := h site (Program.mem_callSites hsite) hd o.cls hcls
  exact (hi.mem_subtypes_iff ((hp.resolvable hi).target_lt hsite hd) hw).1 hmem

/-! ## Results -/

/-- On every accepted program whose methods mention their own variables and whose hierarchy is well
formed, both analyses return. If the objects that receivers refer to are of the classes that calls name,
or of subtypes, then every call that the analysis without contexts finds is one of class hierarchy
analysis, and so is every method that it reaches. -/
theorem plainCalls_subset_classCalls {ds : List Declaration} {p : Program} {entry : MethodId} {w : World}
    (hbuilt : Program.ofDeclarations ds = .ok p) (hworld : World.of p entry = .ok w)
    (hrange : p.InRange) (hown : p.MentionsOwn ds) (hwf : p.hierarchy.WellFormed)
    (abstraction : HeapAbstraction) (order : WorkOrder) :
    ∃ (s : CiState) (g : CallGraph Unit),
      w.solvePlain abstraction order = .ok s ∧ w.classCallGraph = .ok g ∧ s.Faithful .plain ∧
      ((s.facts .plain).ReceiversTyped p (.plain abstraction) →
        s.calls.edgeList ⊆ g.edgeList ∧ s.calls.methods ⊆ g.methods) := by
  obtain ⟨rfl, -⟩ := World.of_eq_ok hworld
  have hp : (World.mk p entry).program.Analysable := Program.analysable hbuilt hworld hrange
  have hi := Program.indexed_of_ofDeclarations hbuilt
  have hs := Program.stems_of_ofDeclarations hbuilt
  obtain ⟨s, hsolve, -, -, hfaithful, hleast⟩ := (World.plain_ready hp abstraction).solve_isLeast order
  obtain ⟨g, hg, hmethods, hedges⟩ := World.classCallGraph_eq_ok hp hi hs (World.entry_lt hworld)
  refine ⟨s, g, hsolve, hg, hfaithful, fun htyped ↦ ?_⟩
  have hclosed := World.closed_inter_classFacts hs hown hp hi hwf htyped hleast.1
  obtain ⟨-, hreaches, hcalls⟩ := Facts.le_iff.1 (hleast.2 hclosed)
  constructor
  · intro e he
    have hfact : (s.facts .plain).calls e :=
      ⟨e.site.ctx, e.callee.ctx, rfl, rfl, CallGraph.mem_edgeList_iff.1 he⟩
    exact (hedges e).2 (hcalls e hfact).2
  · intro m hm
    have hfact : (s.facts .plain).reaches m := ⟨m.ctx, rfl, CallGraph.mem_methods_iff.1 hm⟩
    exact (hmethods m).2 (hreaches m hfact).2

/-- Only circles are drawn, and they are drawn as shapes are. The hierarchy allows squares, which draw
twins. What drawing has as a body in the interface is discarded. -/
def drawnShapes : List Declaration :=
  [ .cls { name := "Main" },
    .cls { name := "Drawable", isInterface := true },
    .cls { name := "Shape", interfaces := [⟨1⟩] },
    .cls { name := "Circle", superclass := some ⟨2⟩ },
    .cls { name := "Square", superclass := some ⟨2⟩ },
    .method { cls := ⟨1⟩, subsignature := ⟨"draw()"⟩, isAbstract := true, items :=
      [.this, .var "again", .call .interface (some ⟨1⟩) (some ⟨0⟩) ⟨⟨1⟩, ⟨"draw()"⟩⟩ []] },
    .method { cls := ⟨2⟩, subsignature := ⟨"draw()"⟩, items := [.this, .ret (some ⟨2⟩)] },
    .method { cls := ⟨4⟩, subsignature := ⟨"draw()"⟩, items :=
      [.this, .var "twin", .alloc ⟨4⟩ ⟨4⟩,
        .call .special none (some ⟨4⟩) ⟨⟨2⟩, ⟨"draw()"⟩⟩ [], .ret (some ⟨4⟩)] },
    .method { cls := ⟨0⟩, subsignature := ⟨"main()"⟩, isStatic := true, items :=
      [.var "shape", .var "drawn", .alloc ⟨5⟩ ⟨3⟩,
        .call .interface (some ⟨6⟩) (some ⟨5⟩) ⟨⟨1⟩, ⟨"draw()"⟩⟩ [],
        .call .virtual none (some ⟨6⟩) ⟨⟨2⟩, ⟨"draw()"⟩⟩ []] } ]

def drawnProgram : Program := (Program.ofDeclarations drawnShapes).toOption.getD {}

def drawnWorld : World := ⟨drawnProgram, ⟨3⟩⟩

set_option maxRecDepth 4000 in
/-- The calls that circles lead to are among those that shapes of any class allow. -/
theorem plainCalls_subset_classCalls_drawn :
    Program.ofDeclarations drawnShapes = .ok drawnProgram ∧
    World.of drawnProgram ⟨3⟩ = .ok drawnWorld ∧ drawnProgram.InRange ∧
    drawnProgram.MentionsOwn drawnShapes ∧ drawnProgram.hierarchy.WellFormed ∧
    ∃ (s : CiState) (g : CallGraph Unit),
      drawnWorld.solvePlain .allocationSite .fifo = .ok s ∧ drawnWorld.classCallGraph = .ok g ∧
      (s.facts .plain).ReceiversTyped drawnProgram (.plain .allocationSite) ∧
      s.calls.edgeList ⊆ g.edgeList ∧ s.calls.methods ⊆ g.methods := by
  have hbuilt : Program.ofDeclarations drawnShapes = .ok drawnProgram := by rfl
  have hworld : World.of drawnProgram ⟨3⟩ = .ok drawnWorld := by rfl
  have hrange : drawnProgram.InRange := by decide
  have hown : drawnProgram.MentionsOwn drawnShapes := by decide
  have hwf : drawnProgram.hierarchy.WellFormed := by decide
  have hp : drawnWorld.program.Analysable := Program.analysable hbuilt hworld hrange
  have hi := Program.indexed_of_ofDeclarations hbuilt
  obtain ⟨s, g, hsolve, hg, -, hincluded⟩ :=
    plainCalls_subset_classCalls hbuilt hworld hrange hown hwf .allocationSite .fifo
  obtain ⟨s', hsolve', -, -, -, hleast⟩ := (World.plain_ready hp .allocationSite).solve_isLeast .fifo
  obtain rfl := Except.ok.inj (hsolve.symm.trans hsolve')
  have htyped := hp.receiversTyped hi hwf hleast (by decide)
  exact ⟨hbuilt, hworld, hrange, hown, hwf, s, g, hsolve, hg, htyped, hincluded htyped⟩

end PointsTo
