import PointsTo.Proofs.Changes
import PointsTo.Proofs.Nodes
import PointsTo.Proofs.Origins

/-!
# Code that is reached

If methods mention their own variables only (`Program.Owned`), then whatever a solver knows is about code
that it has reached. In every state that a run goes through, an object is at a variable or on its way
there only if the variable's method is reachable under the same context; the same is true of the ends
of links. Calls are made by reachable methods, and lead from the entry method to every method that is
reachable (`Setup.Rooted`).
-/

namespace PointsTo

/-! ## Methods that mention their own variables -/

/-- The variable that an item returns. -/
def Item.returned : Item → List VarId
  | .ret value => value.toList
  | _ => []

namespace Program

variable {p : Program}

/-- Whatever is given to a method returns only variables of this method. -/
def ReturnsOwn (p : Program) (ds : List Declaration) : Prop :=
  ∀ entry ∈ numberedMethods ds, ∀ item ∈ entry.1.items, ∀ v ∈ item.returned,
    p.owner? v = some ⟨entry.2⟩

instance (p : Program) (ds : List Declaration) : Decidable (p.ReturnsOwn ds) :=
  inferInstanceAs (Decidable (∀ entry ∈ numberedMethods ds, ∀ item ∈ entry.1.items,
    ∀ v ∈ item.returned, p.owner? v = some ⟨entry.2⟩))

/-- Bodies, accesses and calls are about variables of the methods that they stand in. -/
structure Owned (p : Program) : Prop where
  stmts : ∀ {m body stmt v}, p.body m = some body → stmt ∈ body.stmts → v ∈ stmt.vars →
    p.owner? v = some m
  params : ∀ {m body v}, p.body m = some body → v ∈ body.params → p.owner? v = some m
  this : ∀ {m v}, p.thisVar m = some v → p.owner? v = some m
  invokes : ∀ {m body c site}, p.body m = some body → .invoke c ∈ body.stmts →
    p.callSite c = .ok site → site.container = m
  /-- The variables of an access belong where its base does. -/
  listed : ∀ {v w item}, p.Lists v item → w ∈ item.vars → p.owner? w = p.owner? v
  operands : ∀ {c site v}, p.callSite c = .ok site → v ∈ site.item.vars →
    p.owner? v = some site.container
  receivers : ∀ {v info c site}, p.var v = .ok info → c ∈ info.index.invokes →
    p.callSite c = .ok site → p.owner? v = some site.container

/-- Bodies return variables of their methods. -/
def ReturnsOwned (p : Program) : Prop :=
  ∀ {m body v}, p.body m = some body → v ∈ body.returnVars → p.owner? v = some m

section

variable {ds : List Declaration} (hbuilt : ofDeclarations ds = .ok p)

include hbuilt

/-- Everything stems from items, and so mentions no variables of other methods if items do not. -/
theorem owned_of_mentionsOwn (hown : p.MentionsOwn ds) : p.Owned := by
  have hstems := stems_of_ofDeclarations hbuilt
  have hcoherent := coherent_of_ofDeclarations hbuilt
  have hoperands : ∀ {c site v}, p.callSite c = .ok site → v ∈ site.item.vars →
      p.owner? v = some site.container := by
    intro c site v hsite hv
    exact hown.owner (hstems.calls (Id.lookup_eq_ok_iff.1 hsite)) hv
  constructor
  case stmts =>
    intro m body stmt v hbody hstmt hv
    obtain ⟨item, hitem, hvars⟩ := (hstems.bodies hbody).stmts hstmt
    exact hown.owner hitem (hvars v hv)
  case params =>
    intro m body v hbody hv
    exact (hstems.bodies hbody).params hv
  case this =>
    intro m v hv
    obtain ⟨body, hbody, hv⟩ := Option.bind_eq_some_iff.1 hv
    exact ((hstems.bodies hbody).this hv).1
  case invokes =>
    intro m body c site hbody hc hsite
    obtain ⟨site', hsite', hm⟩ :=
      (hstems.bodies hbody).callSites.1 ((hstems.bodies hbody).invokes hc)
    obtain rfl := Option.some.inj ((Id.lookup_eq_ok_iff.1 hsite).symm.trans hsite')
    exact hm
  case listed =>
    intro v w item hlists hw
    obtain ⟨m, hitem⟩ := hstems.listed hlists
    have hv : v ∈ item.vars := by
      obtain ⟨info, -, hlists⟩ := hlists
      cases hlists <;> simp [Item.vars]
    rw [hown.owner hitem hw, hown.owner hitem hv]
  case operands => exact hoperands
  case receivers =>
    intro v info c site hinfo hc hsite
    obtain ⟨site', hsite', hreceiver⟩ := hcoherent.invokes (Id.lookup_eq_ok_iff.1 hinfo) hc
    obtain rfl := Option.some.inj ((Id.lookup_eq_ok_iff.1 hsite).symm.trans hsite')
    refine hoperands hsite ?_
    simp [CallSite.item, Item.vars, hreceiver]

theorem returnsOwned_of_returnsOwn (hown : p.ReturnsOwn ds) : p.ReturnsOwned := by
  intro m body v hbody hv
  obtain ⟨decl, hdecl, hitem⟩ := ((stems_of_ofDeclarations hbuilt).bodies hbody).returns hv
  exact hown _ hdecl _ hitem v (by simp [Item.returned])

end

/-- An operand of a call is its receiver or one of the variables of its site. -/
theorem Owned.operand (hp : p.Owned) {point : TransferPoint} {c : CallSiteId} {site : CallSite}
    (hsite : p.callSite c = .ok site) {base : Option VarId} {v : VarId}
    (hv : point.operand site base = some v) : base = some v ∨ p.owner? v = some site.container := by
  cases point with
  | base => exact .inl hv
  | result =>
    refine .inr (hp.operands hsite ?_)
    have hresult : site.result = some v := hv
    simp [CallSite.item, Item.vars, hresult]
  | arg index =>
    refine .inr (hp.operands hsite ?_)
    simp [CallSite.item, Item.vars, List.mem_of_getElem? hv]

end Program

variable {C : Type} [Contextual C] {e : Entity} {σ : Type}

/-! ## Variables at home -/

namespace State

variable {s s' : State C e σ} {p : Program}

/-- The variable belongs to a method that is reachable under the context `c`. -/
def Home (p : Program) (s : State C e σ) (c : C) (v : VarId) : Prop :=
  ∃ m, p.owner? v = some m ∧ s.Reaches ⟨c, m⟩

/-- If the pointer is a variable, then it is at home. -/
def AtHome (p : Program) (s : State C e σ) : Pointer C e → Prop
  | .var c v => s.Home p c v
  | _ => True

/-- Calls lead from `m₀` to `m`: each stands in the method that the one before enters, under the same
context. -/
inductive Chain (p : Program) (s : State C e σ) (m₀ : MethodIn C) :
    List CallSiteId → MethodIn C → Prop
  | nil : Chain p s m₀ [] m₀
  | snoc {cs : List CallSiteId} {edge : Edge C} {site : CallSite} :
      Chain p s m₀ cs ⟨edge.site.ctx, site.container⟩ → s.Calls edge →
      p.callSite edge.site.id = .ok site → Chain p s m₀ (cs ++ [edge.site.id]) edge.callee

theorem Home.grows {c : C} {v : VarId} (h : s.Home p c v) (hs : s.Grows s') : s'.Home p c v := by
  obtain ⟨m, howner, hm⟩ := h
  exact ⟨m, howner, hs.reaches hm⟩

theorem AtHome.grows {q : Pointer C e} (h : s.AtHome p q) (hs : s.Grows s') : s'.AtHome p q := by
  cases q with
  | var c v => exact Home.grows h hs
  | _ => trivial

theorem Chain.grows {m₀ m : MethodIn C} {cs : List CallSiteId} (h : s.Chain p m₀ cs m)
    (hs : s.Grows s') : s'.Chain p m₀ cs m := by
  induction h with
  | nil => exact .nil
  | snoc _ hcalls hsite ih => exact .snoc ih (hs.calls hcalls) hsite

end State

/-- Whatever the state knows is about code that calls lead to from the entry method. -/
structure Setup.Rooted (S : Setup C e σ) (entry : MethodId) (s : State C e σ) : Prop where
  delivers : ∀ {q o}, s.Delivers q o → s.AtHome S.program q
  chains : ∀ {m}, s.Reaches m → ∃ cs, s.Chain S.program ⟨S.naming.start, entry⟩ cs m

namespace Setup.Rooted

variable {S : Setup C e σ} {entry : MethodId} {s s₁ s' : State C e σ}

/-- If what is new is about code that is reached, then all is. -/
theorem grows (h : S.Rooted entry s) (hgrows : s.Grows s')
    (hdelivers : ∀ {q o}, s'.Delivers q o → s.Delivers q o ∨ s'.AtHome S.program q)
    (hreaches : ∀ {m}, s'.Reaches m → s.Reaches m ∨
      ∃ cs, s'.Chain S.program ⟨S.naming.start, entry⟩ cs m) : S.Rooted entry s' where
  delivers hd := (hdelivers hd).elim (fun hd ↦ (h.delivers hd).grows hgrows) fun hq ↦ hq
  chains hm := by
    rcases hreaches hm with hm | hcs
    · obtain ⟨cs, hcs⟩ := h.chains hm
      exact ⟨cs, hcs.grows hgrows⟩
    · exact hcs

/-- Sending objects to where they are at home changes nothing about code that is reached. -/
theorem sent (h : S.Rooted entry s) {P : Pointer C e → Id e → Prop} (hsent : s.Sent P s')
    (hP : ∀ {q o}, P q o → s.AtHome S.program q) : S.Rooted entry s' := by
  refine h.grows hsent.grows (fun hd ↦ ?_) fun hm ↦ .inl ?_
  · exact (hsent.origin hd).imp_right fun hq ↦ (hP hq).grows hsent.grows
  · rwa [State.Reaches, hsent.calls] at hm

variable (hp : S.program.Owned)

include hp in
/-- Arguments, parameters and results are at home, and so is what is returned if methods return their
own variables. -/
theorem atHome_callFlows {id : SiteIn C} {site : CallSite}
    (hsite : S.program.callSite id.id = .ok site) {callee : MethodIn C}
    (hcaller : s.Reaches ⟨id.ctx, site.container⟩) (hcallee : s.Reaches callee) {q r : Pointer C e}
    (hflow : (q, r) ∈ S.callFlows site id.ctx callee) :
    (S.program.ReturnsOwned → s.AtHome S.program q) ∧ s.AtHome S.program r := by
  obtain ⟨body, hbody, ⟨arg, param, harg, heq⟩ | ⟨v, hv, result, hresult, heq⟩⟩ :=
    Setup.mem_callFlows.1 hflow
  · obtain ⟨rfl, rfl⟩ := Prod.mk.inj heq
    obtain ⟨harg, hparam⟩ := List.of_mem_zip harg
    refine ⟨fun _ ↦ ⟨site.container, hp.operands hsite ?_, hcaller⟩, callee.id,
      hp.params hbody hparam, hcallee⟩
    simp [CallSite.item, Item.vars, harg]
  · obtain ⟨rfl, rfl⟩ := Prod.mk.inj heq
    refine ⟨fun hreturns ↦ ⟨callee.id, hreturns hbody hv, hcallee⟩, site.container,
      hp.operands hsite ?_, hcaller⟩
    simp [CallSite.item, Item.vars, hresult]

section

variable (h : S.Rooted entry s)

include hp h

/-- A call stands in a reachable method. -/
theorem reaches_caller {id : SiteIn C} {callee : MethodId} {receiver : Option (VarId × Id e)}
    (hmakes : S.Makes s id callee receiver) {site : CallSite}
    (hsite : S.program.callSite id.id = .ok site) : s.Reaches ⟨id.ctx, site.container⟩ := by
  cases hmakes with
  | static hm hbody hc _ _ _ =>
    rw [hp.invokes hbody hc hsite]
    exact hm
  | receiver hpoints hinfo hc _ =>
    obtain ⟨m, howner, hm⟩ := h.delivers (.inl hpoints)
    obtain rfl := Option.some.inj (howner.symm.trans (hp.receivers hinfo hc hsite))
    exact hm

/-- The operands of a call are at home. -/
theorem home_operand {t : TransferSite C} (hmade : S.Made s t) {site : CallSite}
    (hsite : S.program.callSite t.site.id = .ok site) {point : TransferPoint} {v : VarId}
    (hv : point.operand site t.base = some v) : s.Home S.program t.site.ctx v := by
  obtain ⟨receiver, hmakes, hbase⟩ := hmade
  rcases hp.operand hsite hv with heq | howner
  · obtain ⟨⟨w, o⟩, rfl, rfl⟩ := Option.map_eq_some_iff.1 (hbase.trans heq)
    exact h.delivers (.inl hmakes.points)
  · exact ⟨_, howner, h.reaches_caller hp hmakes hsite⟩

variable (hs : S.Tracked s)

include hs

theorem callers {edge : Edge C} (he : s.Calls edge) :
    ∃ site, S.program.callSite edge.site.id = .ok site ∧
      s.Reaches ⟨edge.site.ctx, site.container⟩ := by
  obtain ⟨site, receiver, hsite, -, hmakes⟩ := hs.edges he
  exact ⟨site, hsite, h.reaches_caller hp hmakes hsite⟩

/-- Both ends of a flow are at home. -/
theorem atHome_flows {q r : Pointer C e} (hflows : S.Flows s q r) :
    (S.program.ReturnsOwned → s.AtHome S.program q) ∧ s.AtHome S.program r := by
  cases hflows with
  | @stmt m body stmt _ _ hm hbody hstmt hflow =>
    have hvar : ∀ v ∈ stmt.vars, s.Home S.program m.ctx v :=
      fun v hv ↦ ⟨m.id, hp.stmts hbody hstmt hv, hm⟩
    cases stmt with
    | copy lhs rhs =>
      obtain ⟨rfl, rfl⟩ := Prod.mk.inj (List.mem_singleton.1 hflow)
      exact ⟨fun _ ↦ hvar rhs (by simp [Stmt.vars, Stmt.uses]),
        hvar lhs (by simp [Stmt.vars, Stmt.target])⟩
    | loadStatic lhs field =>
      obtain ⟨rfl, rfl⟩ := Prod.mk.inj (List.mem_singleton.1 hflow)
      exact ⟨fun _ ↦ trivial, hvar lhs (by simp [Stmt.vars, Stmt.target])⟩
    | storeStatic field rhs =>
      obtain ⟨rfl, rfl⟩ := Prod.mk.inj (List.mem_singleton.1 hflow)
      exact ⟨fun _ ↦ hvar rhs (by simp [Stmt.vars, Stmt.uses]), trivial⟩
    | _ => cases hflow
  | @access ctx v o info _ _ hpoints hinfo hflow =>
    obtain ⟨m, howner, hm⟩ := h.delivers (.inl hpoints)
    have hvar : ∀ {item w}, info.index.Lists v item → w ∈ item.vars → s.Home S.program ctx w := by
      intro item w hlists hw
      exact ⟨m, (hp.listed ⟨info, Id.lookup_eq_ok_iff.1 hinfo, hlists⟩ hw).trans howner, hm⟩
    simp only [Setup.accessFlows, List.mem_append, List.mem_map] at hflow
    rcases hflow with ((⟨x, hx, heq⟩ | ⟨x, hx, heq⟩) | ⟨x, hx, heq⟩) | ⟨x, hx, heq⟩ <;>
      obtain ⟨rfl, rfl⟩ := Prod.mk.inj heq
    · exact ⟨fun _ ↦ hvar (.storeField hx) (by simp [Item.vars]), trivial⟩
    · exact ⟨fun _ ↦ trivial, hvar (.loadField hx) (by simp [Item.vars])⟩
    · exact ⟨fun _ ↦ hvar (.storeArray hx) (by simp [Item.vars]), trivial⟩
    · exact ⟨fun _ ↦ trivial, hvar (.loadArray hx) (by simp [Item.vars])⟩
  | call he hsite hflow =>
    obtain ⟨site, hsite', hcaller⟩ := h.callers hp hs he
    obtain rfl := Except.ok.inj (hsite.symm.trans hsite')
    exact atHome_callFlows hp hsite hcaller (hs.callees he) hflow

/-- Taking an item brings objects only to where they were sent. -/
theorem takes (htakes : s.Takes s₁) : S.Rooted entry s₁ := by
  have hgrows := Takes.grows htakes
  cases htakes with
  | method hperm =>
    exact h.grows hgrows (fun hd ↦ .inl (State.delivers_of_delivers_taken hperm hd)) .inl
  | objects hprop =>
    refine h.grows hgrows (fun hd ↦ ?_) fun hm ↦ .inl ?_
    · refine (hprop.origin hd).imp_right fun ⟨hlink, _⟩ ↦ ?_
      exact (h.atHome_flows hp hs (hs.links hlink)).2.grows hgrows
    · rwa [State.Reaches, hprop.calls] at hm

/-- Every change keeps to code that is reached. -/
theorem change (hc : S.Change s s') : S.Rooted entry s' := by
  have hgrows := hc.grows hs
  cases hc with
  | @alloc m body lhs a n o hm hbody hstmt _ =>
    have hsent := hs.wellFormed.sent_seed (P := fun q _ ↦ q = .var m.ctx lhs) n (o := o) rfl
    refine h.sent hsent fun {q x} hq ↦ hq ▸ ⟨m.id, hp.stmts hbody hstmt ?_, hm⟩
    simp [Stmt.vars, Stmt.target]
  | @link q r hflows =>
    refine h.grows hgrows (fun hd ↦ ?_) fun hm ↦ .inl ?_
    · rcases hs.wellFormed.delivers_link.1 hd with hd | ⟨rfl, -, -⟩
      · exact .inl hd
      · exact .inr ((h.atHome_flows hp hs hflows).2.grows hgrows)
    · rwa [State.Reaches, State.calls_link] at hm
  | @call id site callee receiver n ctx hmakes hsite _ =>
    have hc := (hs.withNames n).callEntered id site ⟨ctx, callee⟩ (receiver.map Prod.snd)
    have hcaller := h.reaches_caller hp hmakes hsite
    have hcallee := hc.reaches.2 (.inr rfl)
    refine h.grows hgrows (fun hd ↦ ?_) fun hm ↦ ?_
    · rcases hc.origin hd with hd | ⟨this, -, hthis, rfl⟩ | ⟨-, result, hresult, rfl, -⟩ |
        ⟨q', hq', -⟩
      · exact .inl hd
      · exact .inr ⟨callee, hp.this hthis, hcallee⟩
      · refine .inr ⟨site.container, hp.operands hsite ?_, hgrows.reaches hcaller⟩
        simp [CallSite.item, Item.vars, hresult]
      · exact .inr (atHome_callFlows hp hsite (hgrows.reaches hcaller) hcallee hq').2
    · rcases hc.reaches.1 hm with hm | rfl
      · exact .inl hm
      · obtain ⟨cs, hcs⟩ := h.chains hcaller
        exact .inr ⟨_, .snoc (hcs.grows hgrows) (hc.calls.2 (.inr rfl)) hsite⟩
  | watch _ _ => exact h.grows hgrows .inl .inl
  | @handOn t plan site rule source target o origin _ hmade hsite _ _ htarget _ _ =>
    have hsent := hs.wellFormed.sent_seed (P := fun q _ ↦ q = .var t.site.ctx target)
      (S.naming.mark s.names origin rule.cls).1 (o := (S.naming.mark s.names origin rule.cls).2) rfl
    exact h.sent hsent fun {q x} hq ↦ hq ▸ h.home_operand hp hmade hsite htarget

end

theorem initial (names : σ) (order : WorkOrder) (entry : MethodId) :
    S.Rooted entry (S.initial names order entry) where
  delivers hd := absurd hd not_delivers_initial
  chains hm := by
    rw [reaches_initial.1 hm]
    exact ⟨[], .nil⟩

end Setup.Rooted

/-- Along every run of a program whose methods mention their own variables only, what is known is about
code that is reached. -/
theorem Program.Owned.rooted {S : Setup C e σ} (hp : S.program.Owned) {names : σ}
    {order : WorkOrder} {entry : MethodId} {s : State C e σ}
    (hs : Relation.ReflTransGen S.Step (S.initial names order entry) s) :
    S.Tracked s ∧ S.Rooted entry s :=
  Setup.steps_induction (.initial names order entry) (fun hs h htakes ↦ h.takes hp hs htakes)
    (fun hs h hc ↦ h.change hp hs hc) hs

end PointsTo
