import PointsTo.Proofs.Termination

/-!
# What a step can change

A step takes an item (`State.Takes`) and goes on by changes (`Setup.Change`), each of which has its
reason in the state itself: a method that is reachable allocates and assigns, an object at a variable
is accessed and called on, a call that was made is watched and hands taint on. No closed set of facts
stands behind these reasons, so they also tell what a state between two steps may contain.

What every run keeps follows by `Setup.steps_induction`, from what taking an item and a single change
keep.
-/

namespace PointsTo

variable {C : Type} [Contextual C] {e : Entity} {σ : Type}

/-- The flows of a statement that does not wait for an object. -/
def Stmt.flows (ctx : C) : Stmt → List (Pointer C e × Pointer C e)
  | .copy lhs rhs => [(.var ctx rhs, .var ctx lhs)]
  | .loadStatic lhs field => [(.staticField field, .var ctx lhs)]
  | .storeStatic field rhs => [(.var ctx rhs, .staticField field)]
  | _ => []

namespace Setup

/-! ## Reasons -/

/-- The flows that a state gives a reason for. -/
inductive Flows (S : Setup C e σ) (s : State C e σ) : Pointer C e → Pointer C e → Prop
  | stmt {m : MethodIn C} {body : MethodBody} {stmt : Stmt} {p q : Pointer C e} :
      s.Reaches m → S.program.body m.id = some body → stmt ∈ body.stmts →
      (p, q) ∈ stmt.flows m.ctx → Flows S s p q
  | access {ctx : C} {v : VarId} {o : Id e} {info : VarInfo} {p q : Pointer C e} :
      s.flow.Points (.var ctx v) o → S.program.var v = .ok info →
      (p, q) ∈ accessFlows info.index ctx o → Flows S s p q
  | call {edge : Edge C} {site : CallSite} {p q : Pointer C e} :
      s.Calls edge → S.program.callSite edge.site.id = .ok site →
      (p, q) ∈ S.callFlows site edge.site.ctx edge.callee → Flows S s p q

/-- The calls that a state gives a reason for, each with its callee, and with the variable called
through and the receiver if there is one. -/
inductive Makes (S : Setup C e σ) (s : State C e σ) :
    SiteIn C → MethodId → Option (VarId × Id e) → Prop
  | static {m : MethodIn C} {body : MethodBody} {c : CallSiteId} {site : CallSite}
      {callee : MethodId} :
      s.Reaches m → S.program.body m.id = some body → .invoke c ∈ body.stmts →
      S.program.callSite c = .ok site → site.kind = .static →
      S.program.callee none c = .ok (some callee) → Makes S s ⟨m.ctx, c⟩ callee none
  | receiver {ctx : C} {v : VarId} {o : Id e} {info : VarInfo} {c : CallSiteId} {cls : ClassId}
      {callee : MethodId} :
      s.flow.Points (.var ctx v) o → S.program.var v = .ok info → c ∈ info.index.invokes →
      S.program.callee (some cls) c = .ok (some callee) → Makes S s ⟨ctx, c⟩ callee (some (v, o))

/-- The edge stands for a call that was made. -/
def Entered (S : Setup C e σ) (s : State C e σ) (edge : Edge C) : Prop :=
  ∃ site receiver, S.program.callSite edge.site.id = .ok site ∧ edge.kind = site.kind ∧
    S.Makes s edge.site edge.callee.id receiver

/-- The call `t` was made. -/
def Made (S : Setup C e σ) (s : State C e σ) (t : TransferSite C) : Prop :=
  ∃ receiver, S.Makes s t.site t.callee receiver ∧ receiver.map Prod.fst = t.base

/-- What making a call changes, transfers apart. -/
def enterCall (S : Setup C e σ) (id : SiteIn C) (site : CallSite) (callee : MethodIn C)
    (receiver : Option (Id e)) (s : State C e σ) : State C e σ :=
  S.connect id site callee (S.letIn id site callee.id (S.sendReceiver callee receiver s))

/-- One change of a state, with the reason for it. -/
inductive Change (S : Setup C e σ) (s : State C e σ) : State C e σ → Prop
  | alloc {m : MethodIn C} {body : MethodBody} {lhs : VarId} {a : AllocSiteId} {n : σ} {o : Id e} :
      s.Reaches m → S.program.body m.id = some body → .alloc lhs a ∈ body.stmts →
      S.naming.allocate S.program s.names m a = .ok (n, o) →
      Change S s ({ s with names := n }.seed (.var m.ctx lhs) o)
  | link {p q : Pointer C e} : S.Flows s p q → Change S s (s.link p q)
  | call {id : SiteIn C} {site : CallSite} {callee : MethodId} {receiver : Option (VarId × Id e)}
      {n : σ} {ctx : C} :
      S.Makes s id callee receiver → S.program.callSite id.id = .ok site →
      S.naming.calleeContext S.program s.names id (receiver.map Prod.snd) = .ok (n, ctx) →
      Change S s (S.enterCall id site ⟨ctx, callee⟩ (receiver.map Prod.snd) { s with names := n })
  | watch {t : TransferSite C} {site : CallSite} :
      S.Made s t → S.program.callSite t.site.id = .ok site →
      Change S s (s.watch t (site.args ++ t.base.toList))
  | handOn {t : TransferSite C} {plan : TaintPlan} {site : CallSite} {rule : Transfer}
      {source target : VarId} {o : Id e} {origin : CallSiteId} :
      S.taint = some plan → S.Made s t → S.program.callSite t.site.id = .ok site →
      rule ∈ plan.transfersOf t.callee → rule.source.operand site t.base = some source →
      rule.target.operand site t.base = some target → s.flow.Points (.var t.site.ctx source) o →
      S.naming.sourceOf s.names o = .ok (some origin) →
      Change S s ({ s with names := (S.naming.mark s.names origin rule.cls).1 }.seed
        (.var t.site.ctx target) (S.naming.mark s.names origin rule.cls).2)

/-- Any number of changes. -/
abbrev Changes (S : Setup C e σ) : State C e σ → State C e σ → Prop := Relation.ReflTransGen S.Change

end Setup

/-! ## Reasons stay -/

namespace State

/-- What is known in `s` is known in `s'`. -/
structure Grows (s s' : State C e σ) : Prop where
  points : ∀ {p o}, s.flow.Points p o → s'.flow.Points p o
  reaches : ∀ {m}, s.Reaches m → s'.Reaches m
  calls : ∀ {edge}, s.Calls edge → s'.Calls edge

variable {s s₁ s' : State C e σ}

theorem Grows.refl (s : State C e σ) : s.Grows s := ⟨id, id, id⟩

theorem Grows.trans (h : s.Grows s₁) (h' : s₁.Grows s') : s.Grows s' :=
  ⟨fun hp ↦ h'.points (h.points hp), fun hm ↦ h'.reaches (h.reaches hm),
    fun he ↦ h'.calls (h.calls he)⟩

end State

namespace Setup

variable {S : Setup C e σ} {s s' : State C e σ}

theorem Flows.grows {p q : Pointer C e} (h : S.Flows s p q) (hs : s.Grows s') : S.Flows s' p q := by
  cases h with
  | stmt hm hbody hstmt hflow => exact .stmt (hs.reaches hm) hbody hstmt hflow
  | access hp hinfo hflow => exact .access (hs.points hp) hinfo hflow
  | call he hsite hflow => exact .call (hs.calls he) hsite hflow

theorem Makes.grows {id : SiteIn C} {callee : MethodId} {receiver : Option (VarId × Id e)}
    (h : S.Makes s id callee receiver) (hs : s.Grows s') : S.Makes s' id callee receiver := by
  cases h with
  | static hm hbody hc hsite hkind hcallee =>
    exact .static (hs.reaches hm) hbody hc hsite hkind hcallee
  | receiver hp hinfo hc hcallee => exact .receiver (hs.points hp) hinfo hc hcallee

theorem Makes.points {id : SiteIn C} {callee : MethodId} {v : VarId} {o : Id e}
    (h : S.Makes s id callee (some (v, o))) : s.flow.Points (.var id.ctx v) o := by
  cases h with
  | receiver hp _ _ _ => exact hp

theorem Entered.grows {edge : Edge C} (h : S.Entered s edge) (hs : s.Grows s') :
    S.Entered s' edge := by
  obtain ⟨site, receiver, hsite, hkind, hmakes⟩ := h
  exact ⟨site, receiver, hsite, hkind, hmakes.grows hs⟩

theorem Made.grows {t : TransferSite C} (h : S.Made s t) (hs : s.Grows s') : S.Made s' t := by
  obtain ⟨receiver, hmakes, hbase⟩ := h
  exact ⟨receiver, hmakes.grows hs, hbase⟩

/-- What is pending, called, linked and watched has its reasons, and calls lead to reachable methods. -/
structure Tracked (S : Setup C e σ) (s : State C e σ) : Prop where
  wellFormed : s.WellFormed
  awaited : ∀ {m}, m ∈ s.awaited → s.Reaches m
  callees : ∀ {edge}, s.Calls edge → s.Reaches edge.callee
  edges : ∀ {edge}, s.Calls edge → S.Entered s edge
  links : ∀ {p q}, s.flow.Links p q → S.Flows s p q
  watches : ∀ {c v t}, s.Watches c v t → S.Made s t

theorem Tracked.callSite (hs : S.Tracked s) {edge : Edge C} (he : s.Calls edge) :
    ∃ site, S.program.callSite edge.site.id = .ok site := by
  obtain ⟨site, -, hsite, -⟩ := hs.edges he
  exact ⟨site, hsite⟩

/-- If what is new has its reasons, then all has. -/
theorem Tracked.grows (hs : S.Tracked s) (hgrows : s.Grows s') (hwf : s'.WellFormed)
    (hawaited : ∀ {m}, m ∈ s'.awaited → m ∈ s.awaited ∨ s'.Reaches m)
    (hcalls : ∀ {edge}, s'.Calls edge → s.Calls edge ∨ s'.Reaches edge.callee ∧ S.Entered s' edge)
    (hlinks : ∀ {p q}, s'.flow.Links p q → s.flow.Links p q ∨ S.Flows s' p q)
    (hwatches : ∀ {c v t}, s'.Watches c v t → s.Watches c v t ∨ S.Made s' t) : S.Tracked s' where
  wellFormed := hwf
  awaited hm := (hawaited hm).elim (fun hm ↦ hgrows.reaches (hs.awaited hm)) fun hm ↦ hm
  callees he := (hcalls he).elim (fun he ↦ hgrows.reaches (hs.callees he)) And.left
  edges he := (hcalls he).elim (fun he ↦ (hs.edges he).grows hgrows) And.right
  links hl := (hlinks hl).elim (fun hl ↦ (hs.links hl).grows hgrows) fun hl ↦ hl
  watches hw := (hwatches hw).elim (fun hw ↦ (hs.watches hw).grows hgrows) fun hw ↦ hw

/-! ## Making a call -/

theorem sendReceiver_cases (S : Setup C e σ) (callee : MethodIn C) (receiver : Option (Id e))
    (s : State C e σ) :
    S.sendReceiver callee receiver s = s ∨ ∃ o this, receiver = some o ∧
      S.program.thisVar callee.id = some this ∧
      S.sendReceiver callee receiver s = s.seed (.var callee.ctx this) o := by
  unfold sendReceiver
  split
  · next o this hthis => exact .inr ⟨o, this, rfl, hthis, rfl⟩
  · exact .inl rfl

theorem letIn_cases (S : Setup C e σ) (id : SiteIn C) (site : CallSite) (callee : MethodId)
    (s : State C e σ) :
    S.letIn id site callee s = s ∨ ∃ plan cls result, S.taint = some plan ∧
      plan.sourceClass? callee = some cls ∧ site.result = some result ∧
      S.letIn id site callee s = { s with names := (S.naming.mark s.names id.id cls).1 }.seed
        (.var id.ctx result) (S.naming.mark s.names id.id cls).2 := by
  unfold letIn
  split
  · next cls result hcls hresult =>
    obtain ⟨plan, hplan, hcls⟩ := Option.bind_eq_some_iff.1 hcls
    exact .inr ⟨plan, cls, result, hplan, hcls, hresult, rfl⟩
  · exact .inl rfl

end Setup

namespace State

variable {s s₁ s' : State C e σ} {P Q : Pointer C e → Id e → Prop}

/-- From `s` to `s'` nothing happened but that objects were sent, as `P` tells, and named. -/
structure Sent (s : State C e σ) (P : Pointer C e → Id e → Prop) (s' : State C e σ) : Prop where
  wellFormed : s'.WellFormed
  calls : s'.calls = s.calls
  watchers : s'.watchers = s.watchers
  awaited : s'.awaited = s.awaited
  points : ∀ {p o}, s'.flow.Points p o ↔ s.flow.Points p o
  links : ∀ {p q}, s'.flow.Links p q ↔ s.flow.Links p q
  origin : ∀ {p o}, s'.Delivers p o → s.Delivers p o ∨ P p o

theorem WellFormed.withNames (hs : s.WellFormed) (n : σ) : { s with names := n }.WellFormed :=
  ⟨hs.flow, hs.pending⟩

theorem WellFormed.sent (hs : s.WellFormed) : s.Sent P s where
  wellFormed := hs
  calls := rfl
  watchers := rfl
  awaited := rfl
  points := .rfl
  links := .rfl
  origin := .inl

theorem WellFormed.sent_seed (hs : s.WellFormed) (n : σ) {p : Pointer C e} {o : Id e} (h : P p o) :
    s.Sent P ({ s with names := n }.seed p o) where
  wellFormed := (hs.withNames n).seed p o
  calls := rfl
  watchers := rfl
  awaited := awaited_seed
  points := points_seed
  links := (hs.withNames n).links_seed
  origin hd := by
    rcases (hs.withNames n).delivers_seed.1 hd with hd | ⟨rfl, rfl⟩
    · exact .inl hd
    · exact .inr h

theorem Sent.trans (h : s.Sent P s₁) (h' : s₁.Sent Q s') :
    s.Sent (fun p o ↦ P p o ∨ Q p o) s' where
  wellFormed := h'.wellFormed
  calls := h'.calls.trans h.calls
  watchers := h'.watchers.trans h.watchers
  awaited := h'.awaited.trans h.awaited
  points := h'.points.trans h.points
  links := h'.links.trans h.links
  origin hd := by
    rcases h'.origin hd with hd | hq
    · exact (h.origin hd).imp_right .inl
    · exact .inr (.inr hq)

theorem Sent.grows (h : s.Sent P s') : s.Grows s' where
  points := h.points.2
  reaches hm := by rwa [Reaches, h.calls]
  calls he := by rwa [Calls, h.calls]

end State

namespace Setup

variable {S : Setup C e σ} {s s' : State C e σ}

/-- The receiver `o` of a call is sent to `p`. -/
def ToThis (S : Setup C e σ) (callee : MethodIn C) (receiver : Option (Id e)) (p : Pointer C e)
    (o : Id e) : Prop :=
  ∃ this, receiver = some o ∧ S.program.thisVar callee.id = some this ∧ p = .var callee.ctx this

/-- The mark `o` of a call is let in through its result, which is `p`; the names are `n'` then. -/
def ToResult (S : Setup C e σ) (id : SiteIn C) (site : CallSite) (n n' : σ) (p : Pointer C e)
    (o : Id e) : Prop :=
  ∃ cls result, site.result = some result ∧ p = .var id.ctx result ∧
    n' = (S.naming.mark n id.id cls).1 ∧ o = (S.naming.mark n id.id cls).2

/-- What making a call leaves as it was, and what it adds. -/
structure CallEntered (S : Setup C e σ) (id : SiteIn C) (site : CallSite) (callee : MethodIn C)
    (receiver : Option (Id e)) (s s' : State C e σ) : Prop where
  wellFormed : s'.WellFormed
  watchers : s'.watchers = s.watchers
  names : s'.names = s.names ∨ ∃ cls, s'.names = (S.naming.mark s.names id.id cls).1
  points : ∀ {p o}, s'.flow.Points p o ↔ s.flow.Points p o
  calls : ∀ {edge}, s'.Calls edge ↔ s.Calls edge ∨ edge = ⟨site.kind, id, callee⟩
  reaches : ∀ {m}, s'.Reaches m ↔ s.Reaches m ∨ m = callee
  awaited : ∀ {m}, m ∈ s'.awaited → m ∈ s.awaited ∨ m = callee
  links : ∀ {p q}, s'.flow.Links p q → s.flow.Links p q ∨ (p, q) ∈ S.callFlows site id.ctx callee
  origin : ∀ {p o}, s'.Delivers p o → s.Delivers p o ∨ S.ToThis callee receiver p o ∨
    S.ToResult id site s.names s'.names p o ∨
    ∃ q, (q, p) ∈ S.callFlows site id.ctx callee ∧ s.flow.Points q o

theorem CallEntered.grows {id : SiteIn C} {site : CallSite} {callee : MethodIn C}
    {receiver : Option (Id e)} (h : S.CallEntered id site callee receiver s s') : s.Grows s' where
  points := h.points.2
  reaches hm := h.reaches.2 (.inl hm)
  calls he := h.calls.2 (.inl he)

theorem sent_sendReceiver (hs : s.WellFormed) (callee : MethodIn C) (receiver : Option (Id e)) :
    s.Sent (S.ToThis callee receiver) (S.sendReceiver callee receiver s) ∧
      (S.sendReceiver callee receiver s).names = s.names := by
  rcases S.sendReceiver_cases callee receiver s with heq | ⟨o, this, rfl, hthis, heq⟩ <;> rw [heq]
  · exact ⟨hs.sent, rfl⟩
  · exact ⟨hs.sent_seed s.names ⟨this, rfl, hthis, rfl⟩, rfl⟩

theorem sent_letIn (hs : s.WellFormed) (id : SiteIn C) (site : CallSite) (callee : MethodId) :
    s.Sent (S.ToResult id site s.names (S.letIn id site callee s).names) (S.letIn id site callee s) ∧
      ((S.letIn id site callee s).names = s.names ∨
        ∃ cls, (S.letIn id site callee s).names = (S.naming.mark s.names id.id cls).1) := by
  rcases S.letIn_cases id site callee s with heq | ⟨plan, cls, result, -, -, hresult, heq⟩ <;> rw [heq]
  · exact ⟨hs.sent, .inl rfl⟩
  · exact ⟨hs.sent_seed _ ⟨cls, result, hresult, rfl, rfl, rfl⟩, .inr ⟨cls, rfl⟩⟩

/-- Entering a call sends the receiver, lets in a mark where the callee is a source, and connects
the operands unless the edge was there before. -/
theorem Tracked.callEntered (hs : S.Tracked s) (id : SiteIn C) (site : CallSite)
    (callee : MethodIn C) (receiver : Option (Id e)) :
    S.CallEntered id site callee receiver s (S.enterCall id site callee receiver s) := by
  obtain ⟨hthis, hnames₁⟩ := sent_sendReceiver (S := S) hs.wellFormed callee receiver
  obtain ⟨hresult, hnames₂⟩ := sent_letIn (S := S) hthis.wellFormed id site callee.id
  rw [hnames₁] at hresult hnames₂
  have hsent := hthis.trans hresult
  unfold enterCall
  generalize S.letIn id site callee.id (S.sendReceiver callee receiver s) = s₂ at hsent hnames₂
  by_cases hnew : s₂.Calls ⟨site.kind, id, callee⟩
  · rw [State.connect_of_calls hnew]
    have hcalls : s.Calls ⟨site.kind, id, callee⟩ := by rwa [State.Calls, hsent.calls] at hnew
    exact
      { wellFormed := hsent.wellFormed
        watchers := hsent.watchers
        names := hnames₂
        points := hsent.points
        calls := by
          intro edge
          rw [State.Calls, hsent.calls]
          exact ⟨.inl, fun h ↦ h.elim (fun h ↦ h) fun heq ↦ heq ▸ hcalls⟩
        reaches := by
          intro m
          rw [State.Reaches, hsent.calls]
          exact ⟨.inl, fun h ↦ h.elim (fun h ↦ h) fun heq ↦ heq ▸ hs.callees hcalls⟩
        awaited := fun hm ↦ .inl (hsent.awaited ▸ hm)
        links := fun hl ↦ .inl (hsent.links.1 hl)
        origin := fun hd ↦ (hsent.origin hd).imp_right (Or.imp_right .inl) }
  · have hc := hsent.wellFormed.connect (S := S) hnew
    exact
      { wellFormed := hc.wellFormed
        watchers := hc.watchers.trans hsent.watchers
        names := by rwa [hc.names]
        points := hc.points.trans hsent.points
        calls := by
          intro edge
          rw [hc.calls, State.Calls, hsent.calls]
          rfl
        reaches := by
          intro m
          rw [hc.reaches, State.Reaches, hsent.calls]
          rfl
        awaited := by
          intro m hm
          by_cases hr : s₂.Reaches callee
          · rw [hc.awaited_of_reaches hr, hsent.awaited] at hm
            exact .inl hm
          · rw [hc.awaited_of_not_reaches hr, hsent.awaited, List.mem_append,
              List.mem_singleton] at hm
            exact hm
        links := fun hl ↦ (hc.links.1 hl).imp_left hsent.links.1
        origin := by
          intro p o hd
          rw [hc.names]
          rcases hc.origin hd with hd | ⟨q, hq, ho⟩
          · exact (hsent.origin hd).imp_right (Or.imp_right .inl)
          · exact .inr (.inr (.inr ⟨q, hq, hsent.points.1 ho⟩)) }

/-! ## Single changes -/

theorem Tracked.withNames (hs : S.Tracked s) (n : σ) : S.Tracked { s with names := n } :=
  hs.grows ⟨id, id, id⟩ (hs.wellFormed.withNames n) .inl .inl .inl .inl

theorem Tracked.sent (hs : S.Tracked s) {P : Pointer C e → Id e → Prop} (h : s.Sent P s') :
    S.Tracked s' := by
  refine hs.grows h.grows h.wellFormed (fun hm ↦ .inl (h.awaited ▸ hm)) (fun he ↦ .inl ?_)
    (fun hl ↦ .inl (h.links.1 hl)) fun hw ↦ .inl ?_
  · rwa [State.Calls, h.calls] at he
  · rwa [State.Watches, h.watchers] at hw

theorem Change.grows (hs : S.Tracked s) (h : S.Change s s') : s.Grows s' := by
  cases h with
  | alloc _ _ _ _ => exact (hs.wellFormed.sent_seed (P := fun _ _ ↦ True) _ trivial).grows
  | link _ =>
    exact
      { points := hs.wellFormed.points_link.2
        reaches := fun hm ↦ by rwa [State.Reaches, State.calls_link]
        calls := fun he ↦ by rwa [State.Calls, State.calls_link] }
  | @call id site callee receiver n ctx _ _ _ =>
    have hc := (hs.withNames n).callEntered id site ⟨ctx, callee⟩ (receiver.map Prod.snd)
    exact ⟨hc.grows.points, hc.grows.reaches, hc.grows.calls⟩
  | watch _ _ => exact ⟨id, id, id⟩
  | handOn _ _ _ _ _ _ _ _ => exact (hs.wellFormed.sent_seed (P := fun _ _ ↦ True) _ trivial).grows

/-- Whatever a change adds has a reason, which is the one given with the change. -/
theorem Change.tracked (hs : S.Tracked s) (h : S.Change s s') : S.Tracked s' := by
  have hgrows := h.grows hs
  cases h with
  | alloc _ _ _ _ => exact hs.sent (hs.wellFormed.sent_seed (P := fun _ _ ↦ True) _ trivial)
  | link hflows =>
    refine hs.grows hgrows (hs.wellFormed.link _ _) (fun hm ↦ .inl ?_) (fun he ↦ .inl ?_)
      (fun hl ↦ ?_) fun hw ↦ .inl ?_
    · rwa [State.awaited_link] at hm
    · rwa [State.Calls, State.calls_link] at he
    · rcases hs.wellFormed.links_link.1 hl with hl | ⟨rfl, rfl⟩
      · exact .inl hl
      · exact .inr (hflows.grows hgrows)
    · rwa [State.Watches, State.watchers_link] at hw
  | @call id site callee receiver n ctx hmakes hsite _ =>
    have hc := (hs.withNames n).callEntered id site ⟨ctx, callee⟩ (receiver.map Prod.snd)
    refine hs.grows hgrows hc.wellFormed (fun hm ↦ ?_) (fun he ↦ ?_) (fun hl ↦ ?_) fun hw ↦ .inl ?_
    · exact (hc.awaited hm).imp_right fun heq ↦ hc.reaches.2 (.inr heq)
    · rcases hc.calls.1 he with he | rfl
      · exact .inl he
      · exact .inr ⟨hc.reaches.2 (.inr rfl), site, receiver, hsite, rfl, hmakes.grows hgrows⟩
    · exact (hc.links hl).imp_right (.call (hc.calls.2 (.inr rfl)) hsite)
    · rwa [State.Watches, hc.watchers] at hw
  | watch hmade _ =>
    refine hs.grows hgrows ⟨hs.wellFormed.flow, hs.wellFormed.pending⟩ .inl .inl .inl fun hw ↦ ?_
    rcases State.watches_watch.1 hw with hw | ⟨rfl, -, -⟩
    · exact .inl hw
    · exact .inr (hmade.grows hgrows)
  | handOn _ _ _ _ _ _ _ _ =>
    exact hs.sent (hs.wellFormed.sent_seed (P := fun _ _ ↦ True) _ trivial)

theorem Changes.tracked (hs : S.Tracked s) (h : S.Changes s s') : S.Tracked s' := by
  induction h with
  | refl => exact hs
  | tail _ hchange ih => exact hchange.tracked ih

theorem Changes.grows (hs : S.Tracked s) (h : S.Changes s s') : s.Grows s' := by
  induction h with
  | refl => exact .refl s
  | tail hchanges hchange ih => exact ih.trans (hchange.grows (Changes.tracked hs hchanges))

/-! ## What a solver does is to change states -/

/-- A loop changes the state as its rounds do. -/
theorem changes_foldlM {α : Type} {f : State C e σ → α → Except UnknownId (State C e σ)}
    {as : List α} (hs : S.Tracked s) (h : as.foldlM f s = .ok s')
    (hf : ∀ a ∈ as, ∀ c c', S.Tracked c → s.Grows c → f c a = .ok c' → S.Changes c c') :
    S.Changes s s' := by
  refine foldlM_induction (P := S.Changes s) h .refl ?_
  intro a ha c c' hc hc'
  exact hc.trans (hf a ha c c' (Changes.tracked hs hc) (Changes.grows hs hc) hc')

theorem changes_linkAll (hs : S.Tracked s) {flows : List (Pointer C e × Pointer C e)}
    (h : ∀ flow ∈ flows, S.Flows s flow.1 flow.2) : S.Changes s (s.linkAll flows) := by
  induction flows generalizing s with
  | nil => exact .refl
  | cons flow flows ih =>
    have hlink : S.Change s (s.link flow.1 flow.2) := .link (h flow List.mem_cons_self)
    refine .head hlink (ih (hlink.tracked hs) fun flow' hflow' ↦ ?_)
    exact (h flow' (List.mem_cons_of_mem _ hflow')).grows (hlink.grows hs)

theorem changes_applyTransfer {t : TransferSite C} {plan : TaintPlan} {site : CallSite}
    {rule : Transfer} (hs : S.Tracked s) (hplan : S.taint = some plan) (hmade : S.Made s t)
    (hsite : S.program.callSite t.site.id = .ok site) (hrule : rule ∈ plan.transfersOf t.callee)
    (h : S.applyTransfer t site s rule = .ok s') : S.Changes s s' := by
  unfold applyTransfer at h
  split at h
  · next source target hsource htarget =>
    refine changes_foldlM hs h fun o ho c c' hc hgrows hhand ↦ ?_
    unfold handOn at hhand
    obtain ⟨origin, horigin, hhand⟩ := bind_eq_ok.1 hhand
    cases origin with
    | none =>
      obtain rfl := Except.ok.inj hhand
      exact .refl
    | some origin =>
      obtain rfl := Except.ok.inj hhand
      exact .single (.handOn hplan (hmade.grows hgrows) hsite hrule hsource htarget
        (hgrows.points (FlowGraph.points_iff_mem_pts?.2 ho)) horigin)
  · obtain rfl := Except.ok.inj h
    exact .refl

theorem changes_transfer {t : TransferSite C} (hs : S.Tracked s) (hmade : S.Made s t)
    (h : S.transfer t s = .ok s') : S.Changes s s' := by
  unfold transfer at h
  cases hplan : S.taint with
  | none =>
    rw [hplan] at h
    obtain rfl := Except.ok.inj h
    exact .refl
  | some plan =>
    rw [hplan] at h
    obtain ⟨site, hsite, h⟩ := bind_eq_ok.1 h
    have hwatch : S.Change s (s.watch t (site.args ++ t.base.toList)) := .watch hmade hsite
    refine .head hwatch (changes_foldlM (hwatch.tracked hs) h fun rule hrule c c' hc hgrows hc' ↦ ?_)
    exact changes_applyTransfer hc hplan ((hmade.grows (hwatch.grows hs)).grows hgrows) hsite hrule hc'

theorem changes_call {id : SiteIn C} {callee : MethodId} {receiver : Option (VarId × Id e)}
    (hs : S.Tracked s) (hmakes : S.Makes s id callee receiver)
    (h : S.call id callee receiver s = .ok s') : S.Changes s s' := by
  obtain ⟨site, hsite, h⟩ := bind_eq_ok.1 h
  obtain ⟨⟨n, ctx⟩, hctx, h⟩ := bind_eq_ok.1 h
  have hcall : S.Change s
      (S.enterCall id site ⟨ctx, callee⟩ (receiver.map Prod.snd) { s with names := n }) :=
    .call hmakes hsite hctx
  exact .head hcall (changes_transfer (hcall.tracked hs)
    ⟨receiver, hmakes.grows (hcall.grows hs), rfl⟩ h)

/-- Statements are processed by changes, for the reason that their method is reachable. -/
theorem changes_processStmt {m : MethodIn C} {body : MethodBody} {stmt : Stmt} (hs : S.Tracked s)
    (hm : s.Reaches m) (hbody : S.program.body m.id = some body) (hstmt : stmt ∈ body.stmts)
    (h : S.processStmt m s stmt = .ok s') : S.Changes s s' := by
  cases stmt with
  | alloc lhs a =>
    obtain ⟨⟨n, o⟩, hallocate, h⟩ := bind_eq_ok.1 h
    obtain rfl := Except.ok.inj h
    exact .single (.alloc hm hbody hstmt hallocate)
  | copy lhs rhs =>
    obtain rfl := Except.ok.inj h
    exact .single (.link (.stmt hm hbody hstmt List.mem_cons_self))
  | loadStatic lhs field =>
    obtain rfl := Except.ok.inj h
    exact .single (.link (.stmt hm hbody hstmt List.mem_cons_self))
  | storeStatic field rhs =>
    obtain rfl := Except.ok.inj h
    exact .single (.link (.stmt hm hbody hstmt List.mem_cons_self))
  | invoke c =>
    obtain ⟨site, hsite, h⟩ := bind_eq_ok.1 h
    by_cases hkind : site.kind = .static
    · rw [if_pos hkind] at h
      obtain ⟨callee, hcallee, h⟩ := bind_eq_ok.1 h
      cases callee with
      | none =>
        obtain rfl := Except.ok.inj h
        exact .refl
      | some callee => exact changes_call hs (.static hm hbody hstmt hsite hkind hcallee) h
    · rw [if_neg hkind] at h
      obtain rfl := Except.ok.inj h
      exact .refl
  | _ =>
    obtain rfl := Except.ok.inj h
    exact .refl

theorem changes_processMethod {m : MethodIn C} (hs : S.Tracked s) (hm : s.Reaches m)
    (h : S.processMethod m s = .ok s') : S.Changes s s' := by
  unfold processMethod at h
  split at h
  · obtain rfl := Except.ok.inj h
    exact .refl
  · next body hbody =>
    refine changes_foldlM hs h fun stmt hstmt c c' hc hgrows hc' ↦ ?_
    exact changes_processStmt hc (hgrows.reaches hm) hbody hstmt hc'

theorem changes_objectArrives {ctx : C} {v : VarId} {o : Id e} (hs : S.Tracked s)
    (hpoints : s.flow.Points (.var ctx v) o) (h : S.objectArrives ctx v s o = .ok s') :
    S.Changes s s' := by
  obtain ⟨info, hinfo, h⟩ := bind_eq_ok.1 h
  obtain ⟨cls, -, h⟩ := bind_eq_ok.1 h
  have hlinks : S.Changes s (s.linkAll (accessFlows info.index ctx o)) :=
    changes_linkAll hs fun flow hflow ↦ .access hpoints hinfo hflow
  have hgrows := Changes.grows hs hlinks
  refine hlinks.trans (changes_foldlM (Changes.tracked hs hlinks) h fun c hc s₁ s₂ hs₁ hgrows₁ h ↦ ?_)
  obtain ⟨callee, hcallee, h⟩ := bind_eq_ok.1 h
  cases callee with
  | none =>
    obtain rfl := Except.ok.inj h
    exact .refl
  | some callee =>
    exact changes_call hs₁ (.receiver (hgrows₁.points (hgrows.points hpoints)) hinfo hc hcallee) h

theorem changes_taintArrives {ctx : C} {v : VarId} {added : PointsToSet e} (hs : S.Tracked s)
    (h : S.taintArrives ctx v added s = .ok s') : S.Changes s s' := by
  unfold taintArrives at h
  cases hplan : S.taint with
  | none =>
    rw [hplan] at h
    obtain rfl := Except.ok.inj h
    exact .refl
  | some plan =>
    rw [hplan] at h
    obtain ⟨sources, -, h⟩ := bind_eq_ok.1 h
    split at h
    · refine changes_foldlM hs h fun t ht c c' hc hgrows hc' ↦ ?_
      exact changes_transfer hc ((hs.watches ht).grows hgrows) hc'
    · obtain rfl := Except.ok.inj h
      exact .refl

theorem changes_arrive {p : Pointer C e} {added : PointsToSet e} (hs : S.Tracked s)
    (hpoints : ∀ o ∈ added.toList, s.flow.Points p o) (h : S.arrive p added s = .ok s') :
    S.Changes s s' := by
  cases p with
  | var ctx v =>
    obtain ⟨s₁, hs₁, h⟩ := bind_eq_ok.1 h
    have hfirst : S.Changes s s₁ := changes_foldlM hs hs₁ fun o ho c c' hc hgrows hc' ↦
      changes_objectArrives hc (hgrows.points (hpoints o ho)) hc'
    exact hfirst.trans (changes_taintArrives (Changes.tracked hs hfirst) h)
  | _ =>
    obtain rfl := Except.ok.inj h
    exact .refl

end Setup

/-! ## Steps -/

/-- An item is taken: a method is about to be looked at, or objects arrive at a pointer. -/
inductive State.Takes (s : State C e σ) : State C e σ → Prop
  | method {m : MethodIn C} {rest : WorkList (WorkItem C e)} :
      (.reach m :: rest.toList).Perm s.pending.toList → Takes s (s.taken rest)
  | objects {p : Pointer C e} {added : PointsToSet e} {s₁ : State C e σ} :
      s.Propagated p added s₁ → Takes s s₁

namespace Setup

variable {S : Setup C e σ} {s s₁ s' : State C e σ}

theorem Takes.grows (h : s.Takes s₁) : s.Grows s₁ := by
  cases h with
  | method _ => exact ⟨id, id, id⟩
  | objects h =>
    exact ⟨fun hp ↦ h.points.2 (.inl hp), fun hm ↦ by rwa [State.Reaches, h.calls],
      fun he ↦ by rwa [State.Calls, h.calls]⟩

theorem Tracked.takes (hs : S.Tracked s) (h : s.Takes s₁) : S.Tracked s₁ := by
  have hgrows := Takes.grows h
  cases h with
  | @method m rest hperm =>
    refine hs.grows hgrows (hs.wellFormed.taken hperm) (fun hm ↦ .inl ?_) .inl .inl .inl
    obtain ⟨item, hitem, hmethod⟩ := List.mem_filterMap.1 hm
    exact List.mem_filterMap.2 ⟨item, State.mem_of_mem_rest hperm hitem, hmethod⟩
  | objects h =>
    refine hs.grows hgrows h.wellFormed (fun hm ↦ .inl (h.awaited.mem_iff.1 hm)) (fun he ↦ .inl ?_)
      (fun hl ↦ .inl (h.links.1 hl)) fun hw ↦ .inl ?_
    · rwa [State.Calls, h.calls] at he
    · rwa [State.Watches, h.watchers] at hw

/-- A step takes an item and goes on by changes. -/
theorem Step.changes (hs : S.Tracked s) (h : S.Step s s') : ∃ s₁, s.Takes s₁ ∧ S.Changes s₁ s' := by
  obtain ⟨item, rest, hperm, hprocess⟩ := h
  cases item with
  | reach m =>
    have hm : s.Reaches m :=
      hs.awaited (List.mem_filterMap.2 ⟨.reach m, hperm.subset List.mem_cons_self, rfl⟩)
    have htakes : s.Takes (s.taken rest) := .method hperm
    exact ⟨s.taken rest, htakes, changes_processMethod (hs.takes htakes) hm hprocess⟩
  | propagate i delta =>
    obtain ⟨p, added, s₁, hprop, heq, -⟩ := S.processObjects_eq hs.wellFormed hperm
    have htakes : s.Takes s₁ := .objects hprop
    refine ⟨s₁, htakes, changes_arrive (hs.takes htakes) (fun o ho ↦ ?_) (heq.symm.trans hprocess)⟩
    exact hprop.points.2 (.inr ⟨rfl, ho⟩)

theorem tracked_initial (names : σ) (order : WorkOrder) (entry : MethodId) :
    S.Tracked (S.initial names order entry) where
  wellFormed := wellFormed_initial
  awaited hm := by
    rw [awaited_initial, List.mem_singleton] at hm
    exact reaches_initial.2 hm
  callees he := absurd he not_calls_initial
  edges he := absurd he not_calls_initial
  links hl := absurd hl FlowGraph.not_links_empty
  watches hw := absurd hw not_watches_initial

/-- What holds initially and is kept by taking items and by changes holds along every run. -/
theorem steps_induction {I : State C e σ → Prop} {names : σ} {order : WorkOrder} {entry : MethodId}
    (hinitial : I (S.initial names order entry))
    (htakes : ∀ {s s₁}, S.Tracked s → I s → s.Takes s₁ → I s₁)
    (hchange : ∀ {s s'}, S.Tracked s → I s → S.Change s s' → I s')
    (hs : Relation.ReflTransGen S.Step (S.initial names order entry) s) : S.Tracked s ∧ I s := by
  induction hs with
  | refl => exact ⟨tracked_initial names order entry, hinitial⟩
  | tail _ hstep ih =>
    obtain ⟨s₁, htake, hchanges⟩ := Step.changes ih.1 hstep
    have h₁ : S.Tracked s₁ ∧ I s₁ := ⟨ih.1.takes htake, htakes ih.1 ih.2 htake⟩
    clear hstep
    induction hchanges with
    | refl => exact h₁
    | tail _ hc ihc => exact ⟨hc.tracked ihc.1, hchange ihc.1 ihc.2 hc⟩

theorem tracked_of_steps {names : σ} {order : WorkOrder} {entry : MethodId}
    (hs : Relation.ReflTransGen S.Step (S.initial names order entry) s) : S.Tracked s :=
  (steps_induction (I := fun _ ↦ True) trivial (fun _ h _ ↦ h) (fun _ h _ ↦ h) hs).1

end Setup

end PointsTo
