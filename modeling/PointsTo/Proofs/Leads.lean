import PointsTo.Proofs.Building
import PointsTo.Proofs.Moves

/-!
# What the solver's operations lead to

Each operation of a solver, from handing on one taint mark to looking at a whole method, succeeds, is
a sequence of moves, and leaves behind what it was to do. `Leads` says these three things at once. What
was to be done is said by predicates on states (`Called`, `ObjectHandled`, `MethodHandled`), which
stay true as states grow.

What transfers have to consider is what the operands of a call refer to at some moment; it is kept as
a relation `A` beside the state, because it may be less than what they refer to later.
-/

namespace PointsTo

/-- Whatever the rules have to look up for the facts `F` is there. -/
structure Rules.Answered {K O : Type} (r : Rules K O) (F : Facts K O) : Prop where
  alloc : ∀ {m body lhs a}, F.reaches m → r.program.body m.id = some body →
    .alloc lhs a ∈ body.stmts → ∃ site, r.program.allocSite a = .ok site
  invoke : ∀ {m body c}, F.reaches m → r.program.body m.id = some body →
    .invoke c ∈ body.stmts → ∃ site, r.program.callSite c = .ok site
  static : ∀ {m body c site}, F.reaches m → r.program.body m.id = some body →
    .invoke c ∈ body.stmts → r.program.callSite c = .ok site → site.kind = .static →
    ∃ callee, r.program.hierarchy.resolve site.target = .ok callee
  var : ∀ {k v o}, F.pts (.var k v) o → ∃ info, r.program.var v = .ok info
  receiver : ∀ {k v o info c}, F.pts (.var k v) o → r.program.var v = .ok info →
    c ∈ info.index.invokes → ∃ site callee, r.program.callSite c = .ok site ∧
      r.program.callee (some (r.domain.classOf o)) c = .ok callee

theorem Rules.Answered.site {K O : Type} {r : Rules K O} {F : Facts K O} (h : r.Answered F)
    {id : SiteIn K} {callee : MethodId} {receiver : Option (VarId × O)}
    (hm : F.Makes r.program r.domain id callee receiver) :
    ∃ site, r.program.callSite id.id = .ok site := by
  cases hm with
  | static _ _ _ hsite _ _ => exact ⟨_, hsite⟩
  | receiver hpts hinfo hc _ =>
    obtain ⟨site, -, hsite, -⟩ := h.receiver hpts hinfo hc
    exact ⟨site, hsite⟩

/-- A static call needs no receiver class to be resolved. -/
theorem Program.callee_static {p : Program} {c : CallSiteId} {site : CallSite}
    (hsite : p.callSite c = .ok site) (hkind : site.kind = .static) :
    p.callee none c = p.hierarchy.resolve site.target := by
  simp [Program.callee, hsite, hkind, bind, Except.bind]

namespace Interpretation

variable {C : Type} [Contextual C] {e : Entity} {σ K O : Type} {S : Setup C e σ}

/-- The computation `x` succeeds by moves from `s`, and brings about `Q`. -/
def Leads (R : Interpretation S K O) (F : Facts K O) (s : State C e σ)
    (x : Except UnknownId (State C e σ)) (Q : State C e σ → Prop) : Prop :=
  ∃ s', x = .ok s' ∧ R.Moves F s s' ∧ Q s'

section

variable {R : Interpretation S K O} {F : Facts K O} {entry : MethodId} {s s' : State C e σ}
  {x : Except UnknownId (State C e σ)} {Q Q' : State C e σ → Prop}

theorem leads_ok (h : R.Moves F s s') (hQ : Q s') : R.Leads F s (.ok s') Q := ⟨s', rfl, h, hQ⟩

theorem Leads.imp (h : R.Leads F s x Q) (hQ : ∀ s', R.Moves F s s' → Q s' → Q' s') :
    R.Leads F s x Q' := by
  obtain ⟨s', hx, hm, hq⟩ := h
  exact ⟨s', hx, hm, hQ s' hm hq⟩

theorem Leads.after (h : R.Leads F s' x Q) (hm : R.Moves F s s') : R.Leads F s x Q := by
  obtain ⟨s'', hx, hm', hq⟩ := h
  exact ⟨s'', hx, hm.trans hm', hq⟩

theorem Leads.bind {f : State C e σ → Except UnknownId (State C e σ)} (h : R.Leads F s x Q)
    (hf : ∀ s', R.Moves F s s' → Q s' → R.Leads F s' (f s') Q') : R.Leads F s (x >>= f) Q' := by
  obtain ⟨s', rfl, hm, hq⟩ := h
  exact (hf s' hm hq).after hm

/-- A loop whose rounds each bring about something lasting brings about all of it. -/
theorem leads_foldlM {α : Type} {f : State C e σ → α → Except UnknownId (State C e σ)}
    (Q : α → State C e σ → Prop) (hF : (R.rules entry).Closed F) (hs : R.Sound F s)
    (lasts : ∀ {a s s'}, R.meaning.Extends s s' → Q a s → Q a s') {l : List α}
    (hf : ∀ a ∈ l, ∀ s', R.Moves F s s' → R.Leads F s' (f s' a) (Q a)) :
    R.Leads F s (l.foldlM f s) fun s' ↦ ∀ a ∈ l, Q a s' := by
  induction l generalizing s with
  | nil => exact leads_ok .refl (by simp)
  | cons a l ih =>
    rw [List.foldlM_cons]
    refine (hf a List.mem_cons_self s .refl).bind fun s₁ hm₁ hq₁ ↦ ?_
    have hs₁ : R.Sound F s₁ := hs.moves hF hm₁
    refine (ih hs₁ fun b hb s₂ hm₂ ↦ hf b (List.mem_cons_of_mem _ hb) s₂ (hm₁.trans hm₂)).imp ?_
    intro s₂ hm₂ hq₂ b hb
    rcases List.mem_cons.1 hb with rfl | hb
    · exact lasts (Moves.extends hF hs₁ hm₂) hq₁
    · exact hq₂ b hb

end

/-! ## What is to be done -/

/-- An object that means `x` is at the pointer `p` or on its way there. -/
def Sent (R : Interpretation S K O) (s : State C e σ) (p : Pointer C e) (x : O) : Prop :=
  ∃ o, R.meaning.obj s.names o = some x ∧ s.Delivers p o

/-- If `o` is a taint mark, its counterpart of class `cls` is sent to `target`. -/
def HandedOn (R : Interpretation S K O) (s : State C e σ) (c : C) (target : VarId) (cls : ClassId)
    (o : Id e) : Prop :=
  ∃ x, R.meaning.obj s.names o = some x ∧ ∀ origin, R.domain.sourceOf x = some origin →
    R.Sent s (.var c target) (R.domain.mark origin cls)

/-- One rule was applied to all objects that `A` puts at the operands of a call. -/
def Applied (R : Interpretation S K O) (A : Pointer C e → Id e → Prop) (s : State C e σ)
    (t : TransferSite C) (site : CallSite) (rule : Transfer) : Prop :=
  ∀ source target, rule.source.operand site t.base = some source →
    rule.target.operand site t.base = some target →
    ∀ o, A (.var t.site.ctx source) o → R.HandedOn s t.site.ctx target rule.cls o

/-- All rules were applied to a call, and its operands are watched. -/
def Transferred (R : Interpretation S K O) (A : Pointer C e → Id e → Prop) (s : State C e σ)
    (t : TransferSite C) : Prop :=
  ∀ plan, S.taint = some plan → ∃ site, S.program.callSite t.site.id = .ok site ∧
    (∀ v ∈ site.args ++ t.base.toList, s.Watches t.site.ctx v t) ∧
    ∀ rule ∈ plan.transfersOf t.callee, R.Applied A s t site rule

/-- If the callee is a source, its mark is sent to the result of the call. -/
def LetIn (R : Interpretation S K O) (s : State C e σ) (id : SiteIn C) (site : CallSite)
    (callee : MethodId) : Prop :=
  ∀ plan cls result, S.taint = some plan → plan.sourceClass? callee = some cls →
    site.result = some result → R.Sent s (.var id.ctx result) (R.domain.mark id.id cls)

/-- A call was made on a callee, under the context `c` for the callee. -/
structure CalledIn (R : Interpretation S K O) (A : Pointer C e → Id e → Prop) (s : State C e σ)
    (id : SiteIn C) (callee : MethodId) (receiver : Option (VarId × Id e)) (site : CallSite)
    (k : K) (r : Option O) (c : C) : Prop where
  callSite : S.program.callSite id.id = .ok site
  caller : R.meaning.ctx s.names id.ctx = some k
  receives : R.meaning.Receives s.names (receiver.map Prod.snd) r
  context : R.meaning.ctx s.names c = some (R.domain.calleeContext k id.id r)
  edge : s.Calls ⟨site.kind, id, c, callee⟩
  this : ∀ o this, receiver.map Prod.snd = some o → S.program.thisVar callee = some this →
    s.Delivers (.var c this) o
  letIn : R.LetIn s id site callee
  transferred : R.Transferred A s ⟨id, callee, receiver.map Prod.fst⟩

def Called (R : Interpretation S K O) (A : Pointer C e → Id e → Prop) (s : State C e σ)
    (id : SiteIn C) (callee : MethodId) (receiver : Option (VarId × Id e)) : Prop :=
  ∃ site k r c, R.CalledIn A s id callee receiver site k r c

/-- What a statement of a reachable method entails was done. -/
def StmtHandled (R : Interpretation S K O) (A : Pointer C e → Id e → Prop) (s : State C e σ)
    (m : MethodIn C) : Stmt → Prop
  | .alloc lhs a => ∃ k site, R.meaning.ctx s.names m.ctx = some k ∧
    S.program.allocSite a = .ok site ∧
    R.Sent s (.var m.ctx lhs) (R.domain.allocate k a site)
  | .copy lhs rhs => s.flow.Links (.var m.ctx rhs) (.var m.ctx lhs)
  | .loadStatic lhs field => s.flow.Links (.staticField field) (.var m.ctx lhs)
  | .storeStatic field rhs => s.flow.Links (.var m.ctx rhs) (.staticField field)
  | .invoke c => ∀ site callee, S.program.callSite c = .ok site → site.kind = .static →
    S.program.hierarchy.resolve site.target = .ok (some callee) →
    R.Called A s ⟨m.ctx, c⟩ callee none
  | _ => True

def MethodHandled (R : Interpretation S K O) (A : Pointer C e → Id e → Prop) (s : State C e σ)
    (m : MethodIn C) : Prop :=
  ∀ body, S.program.body m.id = some body → ∀ stmt ∈ body.stmts, R.StmtHandled A s m stmt

/-- What an object at a variable entails was done. -/
def ObjectHandled (R : Interpretation S K O) (A : Pointer C e → Id e → Prop) (s : State C e σ)
    (c : C) (v : VarId) (o : Id e) : Prop :=
  ∃ info x, S.program.var v = .ok info ∧ R.meaning.obj s.names o = some x ∧
    (∀ flow ∈ Setup.accessFlows info.index c o, s.flow.Links flow.1 flow.2) ∧
    ∀ cs ∈ info.index.invokes, ∀ callee,
      S.program.callee (some (R.domain.classOf x)) cs = .ok (some callee) →
      R.Called A s ⟨c, cs⟩ callee (some (v, o))

section

variable {R : Interpretation S K O} {A : Pointer C e → Id e → Prop} {s s' : State C e σ}

theorem Sent.extends (h : R.meaning.Extends s s') {p : Pointer C e} {x : O} (hx : R.Sent s p x) :
    R.Sent s' p x := by
  obtain ⟨o, ho, hd⟩ := hx
  exact ⟨o, h.names.obj ho, h.delivers hd⟩

theorem HandedOn.extends (h : R.meaning.Extends s s') {c : C} {target : VarId} {cls : ClassId}
    {o : Id e} (ho : R.HandedOn s c target cls o) : R.HandedOn s' c target cls o := by
  obtain ⟨x, hx, hsent⟩ := ho
  exact ⟨x, h.names.obj hx, fun origin horigin ↦ (hsent origin horigin).extends h⟩

theorem Applied.extends (h : R.meaning.Extends s s') {t : TransferSite C} {site : CallSite}
    {rule : Transfer} (ha : R.Applied A s t site rule) : R.Applied A s' t site rule :=
  fun source target hsource htarget o ho ↦ (ha source target hsource htarget o ho).extends h

theorem Transferred.extends (h : R.meaning.Extends s s') {t : TransferSite C}
    (ht : R.Transferred A s t) : R.Transferred A s' t := by
  intro plan hplan
  obtain ⟨site, hsite, hwatch, hrules⟩ := ht plan hplan
  exact ⟨site, hsite, fun v hv ↦ h.watches (hwatch v hv),
    fun rule hrule ↦ (hrules rule hrule).extends h⟩

/-- The fewer objects were at operands, the less had to be handed on. -/
theorem Transferred.anti {A' : Pointer C e → Id e → Prop} (hA : ∀ p o, A' p o → A p o)
    {t : TransferSite C} (ht : R.Transferred A s t) : R.Transferred A' s t := by
  intro plan hplan
  obtain ⟨site, hsite, hwatch, hrules⟩ := ht plan hplan
  refine ⟨site, hsite, hwatch, fun rule hrule source target hsource htarget o ho ↦ ?_⟩
  exact hrules rule hrule source target hsource htarget o (hA _ _ ho)

theorem LetIn.extends (h : R.meaning.Extends s s') {id : SiteIn C} {site : CallSite}
    {callee : MethodId} (hl : R.LetIn s id site callee) : R.LetIn s' id site callee :=
  fun plan cls result hplan hcls hresult ↦ (hl plan cls result hplan hcls hresult).extends h

/-! What was done stays done when the state grows. Transfers may have more to consider meanwhile, so
that they were made is a hypothesis where it matters. -/

section

variable {A' : Pointer C e → Id e → Prop} (h : R.meaning.Extends s s')
  (ht : ∀ t, R.Transferred A s t → R.Transferred A' s' t)

include h ht

theorem Called.mono {id : SiteIn C} {callee : MethodId} {receiver : Option (VarId × Id e)}
    (hc : R.Called A s id callee receiver) : R.Called A' s' id callee receiver := by
  obtain ⟨site, k, r, c, hc⟩ := hc
  refine ⟨site, k, r, c, ?_⟩
  exact
    { callSite := hc.callSite
      caller := h.names.ctx hc.caller
      receives := hc.receives.mono h.names
      context := h.names.ctx hc.context
      edge := h.calls hc.edge
      this := fun o this ho hthis ↦ h.delivers (hc.this o this ho hthis)
      letIn := hc.letIn.extends h
      transferred := ht _ hc.transferred }

theorem StmtHandled.mono {m : MethodIn C} {stmt : Stmt} (hstmt : R.StmtHandled A s m stmt) :
    R.StmtHandled A' s' m stmt := by
  cases stmt with
  | alloc lhs a =>
    obtain ⟨k, site, hk, hsite, hsent⟩ := hstmt
    exact ⟨k, site, h.names.ctx hk, hsite, hsent.extends h⟩
  | copy lhs rhs => exact h.links hstmt
  | loadStatic lhs field => exact h.links hstmt
  | storeStatic field rhs => exact h.links hstmt
  | invoke c =>
    intro site callee hsite hkind hcallee
    exact (hstmt site callee hsite hkind hcallee).mono h ht
  | _ => trivial

theorem MethodHandled.mono {m : MethodIn C} (hm : R.MethodHandled A s m) : R.MethodHandled A' s' m :=
  fun body hbody stmt hstmt ↦ (hm body hbody stmt hstmt).mono h ht

theorem ObjectHandled.mono {c : C} {v : VarId} {o : Id e} (ho : R.ObjectHandled A s c v o) :
    R.ObjectHandled A' s' c v o := by
  obtain ⟨info, x, hinfo, hx, hflows, hcalls⟩ := ho
  exact ⟨info, x, hinfo, h.names.obj hx, fun flow hflow ↦ h.links (hflows flow hflow),
    fun cs hcs callee hcallee ↦ (hcalls cs hcs callee hcallee).mono h ht⟩

end

theorem Called.extends (h : R.meaning.Extends s s') {id : SiteIn C} {callee : MethodId}
    {receiver : Option (VarId × Id e)} (hc : R.Called A s id callee receiver) :
    R.Called A s' id callee receiver :=
  hc.mono h fun _ ↦ Transferred.extends h

theorem StmtHandled.extends (h : R.meaning.Extends s s') {m : MethodIn C} {stmt : Stmt}
    (hstmt : R.StmtHandled A s m stmt) : R.StmtHandled A s' m stmt :=
  hstmt.mono h fun _ ↦ Transferred.extends h

theorem ObjectHandled.extends (h : R.meaning.Extends s s') {c : C} {v : VarId} {o : Id e}
    (ho : R.ObjectHandled A s c v o) : R.ObjectHandled A s' c v o :=
  ho.mono h fun _ ↦ Transferred.extends h

end

end Interpretation

end PointsTo
