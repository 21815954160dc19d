import PointsTo.Proofs.Leads

/-!
# What each step of a solver leads to

One statement for each operation of a solver, in the order of their definitions: under facts that are
closed and answered, the operation succeeds by moves and does what it is for. The statements about
`objectArrives`, `taintArrives` and `processMethod` are what a proof about whole runs uses.
-/

namespace PointsTo.Interpretation

variable {C : Type} [Contextual C] {e : Entity} {σ K O : Type} {S : Setup C e σ}
  {R : Interpretation S K O} {F : Facts K O} {entry : MethodId} {s : State C e σ}
  {A : Pointer C e → Id e → Prop}

/-- Sending an object under a new name. -/
theorem seed_named (hs : R.Sound F s) {n : σ} (hn : R.Valid n) (hgrows : R.meaning.Grows s.names n)
    {p : Pointer C e} {P : Place K O} {o : Id e} {x : O} (hp : R.meaning.place n p = some P)
    (ho : R.meaning.obj n o = some x) (hx : F.pts P x) :
    R.Moves F s ({ s with names := n }.seed p o) ∧
      R.Sent ({ s with names := n }.seed p o) p x := by
  have hname : R.Move F s { s with names := n } := .name hn hgrows
  have hseed : R.Move F { s with names := n } ({ s with names := n }.seed p o) :=
    .seed ⟨P, x, hp, ho, hx⟩
  have hwf := (hs.name hn hgrows).wellFormed
  exact ⟨.tail (.single hname) hseed, o, ho, hwf.delivers_seed.2 (.inr ⟨rfl, rfl⟩)⟩

/-! ## Taint -/

/-- Only marks are handed on. -/
theorem handOn_leads (hs : R.Sound F s) {c : C} {k : K} (hc : R.meaning.ctx s.names c = some k)
    {target : VarId} {cls : ClassId} {o : Id e} {x : O} (ho : R.meaning.obj s.names o = some x)
    (hmark : ∀ origin, R.domain.sourceOf x = some origin →
      F.pts (.var k target) (R.domain.mark origin cls)) :
    R.Leads F s (S.handOn c target cls s o) (R.HandedOn · c target cls o) := by
  have hsource := R.laws.sourceOf hs.valid ho
  cases horigin : R.domain.sourceOf x with
  | none =>
    rw [horigin] at hsource
    simp only [Setup.handOn, hsource, bind, Except.bind]
    refine leads_ok .refl ⟨x, ho, fun origin h ↦ ?_⟩
    rw [horigin] at h
    cases h
  | some origin =>
    rw [horigin] at hsource
    simp only [Setup.handOn, hsource, bind, Except.bind]
    obtain ⟨hvalid, hgrows, hobj⟩ := R.laws.mark origin cls hs.valid
    obtain ⟨hmoves, hsent⟩ := seed_named hs hvalid hgrows (Meaning.place_var (hgrows.ctx hc)) hobj
      (hmark origin horigin)
    refine leads_ok hmoves ⟨x, hgrows.obj ho, fun origin' h ↦ ?_⟩
    obtain rfl := Option.some.inj (horigin.symm.trans h)
    exact hsent

section

variable (hF : (R.rules entry).Closed F) (hans : (R.rules entry).Answered F)

include hF in
/-- Any call that `F` makes may hand on the marks that its operands refer to. -/
theorem applyTransfer_leads (hs : R.Sound F s) (hA : ∀ p o, A p o → s.flow.Points p o)
    {plan : TaintPlan} (hplan : S.taint = some plan) {t : TransferSite C}
    (ht : R.meaning.makes F s.names S.program R.domain t) {site : CallSite}
    (hsite : S.program.callSite t.site.id = .ok site) {rule : Transfer}
    (hrule : rule ∈ plan.transfersOf t.callee) :
    R.Leads F s (S.applyTransfer t site s rule) (R.Applied A · t site rule) := by
  unfold Setup.applyTransfer
  split
  case h_1 source target hsource htarget =>
    obtain ⟨k, receiver, hk, hbase, hmakes⟩ := ht
    refine (leads_foldlM (fun o s' ↦ R.HandedOn s' t.site.ctx target rule.cls o) hF hs
      (fun hext ↦ HandedOn.extends hext) fun o ho s' hm ↦ ?_).imp ?_
    · have hs' := hs.moves hF hm
      have hext := Moves.extends hF hs hm
      have hpoints : s.flow.Points (.var t.site.ctx source) o :=
        FlowGraph.points_iff_mem_pts?.2 ho
      obtain ⟨P, x, hP, hx, hpts⟩ := hs.delivers (.inl hpoints)
      obtain rfl := Option.some.inj ((Meaning.place_var hk).symm.trans hP)
      refine handOn_leads hs' (hext.names.ctx hk) (hext.names.obj hx) fun origin horigin ↦ ?_
      rw [← hbase] at hsource htarget
      exact hF.transfer hplan hmakes hsite hrule hsource htarget hpts horigin
    · intro s' _ hall source' target' hsource' htarget' o ho
      obtain rfl := Option.some.inj (hsource.symm.trans hsource')
      obtain rfl := Option.some.inj (htarget.symm.trans htarget')
      exact hall o (FlowGraph.points_iff_mem_pts?.1 (hA _ _ ho))
  case h_2 hnone =>
    refine leads_ok .refl fun source target hsource htarget ↦ ?_
    exact absurd htarget (hnone source target hsource)

include hF hans in
/-- The operands of a call are watched from then on, and what is at them already is handed on. -/
theorem transfer_leads (hs : R.Sound F s) (hA : ∀ p o, A p o → s.flow.Points p o)
    {t : TransferSite C} (ht : R.meaning.makes F s.names S.program R.domain t) :
    R.Leads F s (S.transfer t s) (R.Transferred A · t) := by
  cases hplan : S.taint with
  | none =>
    simp only [Setup.transfer, hplan]
    exact leads_ok .refl fun plan h ↦ by simp [hplan] at h
  | some plan =>
    obtain ⟨k, receiver, hk, hbase, hmakes⟩ := ht
    obtain ⟨site, hsite⟩ := hans.site hmakes
    have hsite' : S.program.callSite t.site.id = .ok site := hsite
    simp only [Setup.transfer, hplan, hsite', bind, Except.bind]
    have hmove : R.Move F s (s.watch t (site.args ++ t.base.toList)) :=
      .watch ⟨k, receiver, hk, hbase, hmakes⟩
    have hs₁ := hs.move hF hmove
    refine Leads.after ?_ (.single hmove)
    refine (leads_foldlM (fun rule s' ↦ R.Applied A s' t site rule) hF hs₁
      (fun hext ↦ Applied.extends hext) fun rule hrule s₂ hm ↦ ?_).imp ?_
    · have hext := Moves.extends hF hs₁ hm
      have ht₂ : R.meaning.makes F s₂.names S.program R.domain t :=
        ⟨k, receiver, hext.names.ctx hk, hbase, hmakes⟩
      exact applyTransfer_leads hF (hs₁.moves hF hm) (fun p o ho ↦ hext.points (hA p o ho)) hplan ht₂
        hsite' hrule
    · intro s₂ hm hrules plan' hplan'
      obtain rfl := Option.some.inj (hplan.symm.trans hplan')
      refine ⟨site, hsite', fun v hv ↦ ?_, hrules⟩
      exact (Moves.extends hF hs₁ hm).watches (State.watches_watch.2 (.inr ⟨rfl, rfl, hv⟩))

include hF in
/-- A mark is let in where the callee is a source and the call has a result. -/
theorem letIn_moves (hs : R.Sound F s) {id : SiteIn C} {k : K}
    (hk : R.meaning.ctx s.names id.ctx = some k) {callee : MethodId}
    {receiver : Option (VarId × O)}
    (hmakes : F.Makes S.program R.domain ⟨k, id.id⟩ callee receiver) {site : CallSite}
    (hsite : S.program.callSite id.id = .ok site) :
    R.Moves F s (S.letIn id site callee s) ∧ R.LetIn (S.letIn id site callee s) id site callee := by
  unfold Setup.letIn
  split
  case h_1 cls result hcls hresult =>
    obtain ⟨plan, hplan, hcls⟩ := Option.bind_eq_some_iff.1 hcls
    obtain ⟨hvalid, hgrows, hobj⟩ := R.laws.mark id.id cls hs.valid
    obtain ⟨hmoves, hsent⟩ := seed_named hs hvalid hgrows (Meaning.place_var (hgrows.ctx hk)) hobj
      (hF.source hplan hmakes hsite hcls hresult)
    refine ⟨hmoves, fun plan' cls' result' hplan' hcls' hresult' ↦ ?_⟩
    obtain rfl := Option.some.inj (hplan.symm.trans hplan')
    obtain rfl := Option.some.inj (hcls.symm.trans hcls')
    obtain rfl := Option.some.inj (hresult.symm.trans hresult')
    exact hsent
  case h_2 hnone =>
    refine ⟨.refl, fun plan cls result hplan hcls hresult ↦ ?_⟩
    exact absurd hresult (hnone cls result (Option.bind_eq_some_iff.2 ⟨plan, hplan, hcls⟩))

/-! ## Calls -/

theorem sendReceiver_moves (hs : R.Sound F s) {c : C} {callee : MethodId} {receiver : Option (Id e)}
    (hthis : ∀ o this, receiver = some o → S.program.thisVar callee = some this →
      R.meaning.pts F s.names (.var c this) o) :
    R.Moves F s (S.sendReceiver ⟨c, callee⟩ receiver s) ∧
      ∀ o this, receiver = some o → S.program.thisVar callee = some this →
        (S.sendReceiver ⟨c, callee⟩ receiver s).Delivers (.var c this) o := by
  cases receiver with
  | none => exact ⟨.refl, fun o this ho ↦ by cases ho⟩
  | some o =>
    cases hvar : S.program.thisVar callee with
    | none =>
      simp only [Setup.sendReceiver, hvar]
      exact ⟨.refl, fun o this _ h ↦ by cases h⟩
    | some this =>
      simp only [Setup.sendReceiver, hvar]
      refine ⟨.single (.seed (hthis o this rfl hvar)), fun o' this' ho h ↦ ?_⟩
      obtain rfl := Option.some.inj ho
      obtain rfl := Option.some.inj h
      exact hs.wellFormed.delivers_seed.2 (.inr ⟨rfl, rfl⟩)

theorem calls_connect (hs : s.WellFormed) (id : SiteIn C) (site : CallSite) (callee : MethodIn C) :
    (S.connect id site callee s).Calls ⟨site.kind, id, callee⟩ := by
  by_cases h : s.Calls ⟨site.kind, id, callee⟩
  · rw [State.connect_of_calls h]
    exact h
  · exact (hs.connect (S := S) h).calls.2 (.inr rfl)

include hF hans in
/-- A call is made by moves: the context is named, the receiver sent, a mark let in, the edge
connected, and what the callee transfers is handed on. -/
theorem call_leads (hs : R.Sound F s) (hA : ∀ p o, A p o → s.flow.Points p o) {id : SiteIn C}
    {callee : MethodId} {receiver : Option (VarId × Id e)} {k : K}
    (hk : R.meaning.ctx s.names id.ctx = some k) {r : Option (VarId × O)}
    (hbase : r.map Prod.fst = receiver.map Prod.fst)
    (hr : R.meaning.Receives s.names (receiver.map Prod.snd) (r.map Prod.snd))
    (hmakes : F.Makes S.program R.domain ⟨k, id.id⟩ callee r) :
    R.Leads F s (S.call id callee receiver s) (R.Called A · id callee receiver) := by
  obtain ⟨site, hsite⟩ := hans.site hmakes
  have hsite' : S.program.callSite id.id = .ok site := hsite
  obtain ⟨n, c, hcontext, hvalid, hgrows, hc⟩ := R.laws.calleeContext hs.valid hk hr
  simp only [Setup.call, hsite', hcontext, bind, Except.bind]
  -- The new context gets its name,
  have hs₁ := hs.name hvalid hgrows
  refine Leads.after ?_ (.single (.name hvalid hgrows))
  -- the receiver goes to the callee,
  have hthis : ∀ o this, receiver.map Prod.snd = some o → S.program.thisVar callee = some this →
      R.meaning.pts F n (.var c this) o := by
    intro o this ho hthis
    rw [ho] at hr
    obtain ⟨v, x, rfl⟩ : ∃ v x, r = some (v, x) := by
      cases r with
      | none => simp [Meaning.Receives] at hr
      | some r => exact ⟨r.1, r.2, rfl⟩
    have hx : R.meaning.obj n o = some x := hgrows.obj (Meaning.Receives.some_iff.1 hr)
    exact ⟨_, x, Meaning.place_var hc, hx, hF.this hmakes hthis⟩
  obtain ⟨hm₂, hthis₂⟩ := sendReceiver_moves (S := S) hs₁ hthis
  generalize S.sendReceiver ⟨c, callee⟩ (receiver.map Prod.snd) { s with names := n } = s₂
    at hm₂ hthis₂ ⊢
  have hs₂ := hs₁.moves hF hm₂
  have hext₂ := Moves.extends hF hs₁ hm₂
  refine Leads.after ?_ hm₂
  -- the mark of a source to the result,
  have hk₂ := hext₂.names.ctx (hgrows.ctx hk)
  obtain ⟨hm₃, hletIn⟩ := letIn_moves hF hs₂ hk₂ hmakes hsite'
  have hs₃ := hs₂.moves hF hm₃
  have hext₃ := Moves.extends hF hs₂ hm₃
  refine Leads.after ?_ hm₃
  -- and the edge is entered before taint is handed on.
  have hedge : R.meaning.calls F (S.letIn id site callee s₂).names ⟨site.kind, id, c, callee⟩ :=
    ⟨k, _, hext₃.names.ctx hk₂, hext₃.names.ctx (hext₂.names.ctx hc), hF.edge hmakes hsite⟩
  have hm₄ : R.Move F _ (S.connect id site ⟨c, callee⟩ (S.letIn id site callee s₂)) :=
    .connect hsite' hedge
  have hs₄ := hs₃.move hF hm₄
  have hext₄ := hext₃.trans (hm₄.extends hs₃)
  refine Leads.after ?_ (.single hm₄)
  have ht : R.meaning.makes F _ S.program R.domain ⟨id, callee, receiver.map Prod.fst⟩ :=
    ⟨k, r, hext₄.names.ctx hk₂, hbase, hmakes⟩
  have hA₄ : ∀ p o, A p o →
      (S.connect id site ⟨c, callee⟩ (S.letIn id site callee s₂)).flow.Points p o :=
    fun p o ho ↦ hext₄.points (hext₂.points (hA p o ho))
  refine (transfer_leads hF hans hs₄ hA₄ ht).imp fun s₅ hm₅ htransferred ↦ ?_
  have hext₅ := Moves.extends hF hs₄ hm₅
  have hnames := (hgrows.trans hext₂.names).trans (hext₄.trans hext₅).names
  have hcalls := calls_connect (S := S) hs₃.wellFormed id site ⟨c, callee⟩
  refine ⟨site, k, r.map Prod.snd, c, ?_⟩
  exact
    { callSite := hsite'
      caller := hnames.ctx hk
      receives := hr.mono hnames
      context := (hext₂.trans (hext₄.trans hext₅)).names.ctx hc
      edge := hext₅.calls hcalls
      this := fun o this ho h ↦ (hext₄.trans hext₅).delivers (hthis₂ o this ho h)
      letIn := hletIn.extends ((hm₄.extends hs₃).trans hext₅)
      transferred := htransferred }

include hF hans in
/-- A static call of a reachable method. -/
theorem staticCall_leads (hs : R.Sound F s) (hA : ∀ p o, A p o → s.flow.Points p o)
    {m : MethodIn C} (hm : R.meaning.reaches F s.names m) {body : MethodBody}
    (hbody : S.program.body m.id = some body) {c : CallSiteId} (hc : .invoke c ∈ body.stmts)
    {site : CallSite} (hsite : S.program.callSite c = .ok site) (hkind : site.kind = .static) :
    R.Leads F s (S.staticCall ⟨m.ctx, c⟩ s) fun s' ↦ ∀ callee,
      S.program.hierarchy.resolve site.target = .ok (some callee) →
      R.Called A s' ⟨m.ctx, c⟩ callee none := by
  obtain ⟨k, hk, hreach⟩ := hm
  obtain ⟨resolved, hresolved⟩ := hans.static hreach hbody hc hsite hkind
  have hresolve : S.program.hierarchy.resolve site.target = .ok resolved := hresolved
  simp only [Setup.staticCall, Program.callee_static hsite hkind, hresolve, bind, Except.bind]
  cases resolved with
  | none => exact leads_ok .refl fun callee h ↦ by simp at h
  | some callee =>
    have hmakes : F.Makes S.program R.domain ⟨k, c⟩ callee none :=
      .static hreach hbody hc hsite hkind hresolve
    refine (call_leads hF hans hs hA hk rfl Meaning.receives_none hmakes).imp ?_
    intro s' _ hcalled callee' heq
    obtain rfl := Option.some.inj (Except.ok.inj heq)
    exact hcalled

include hF hans in
/-- A call on an object that a variable refers to. -/
theorem receiverCall_leads (hs : R.Sound F s) (hA : ∀ p o, A p o → s.flow.Points p o) {c : C} {k : K}
    (hk : R.meaning.ctx s.names c = some k) {v : VarId} {o : Id e} {x : O}
    (hx : R.meaning.obj s.names o = some x) (hpts : F.pts (.var k v) x) {info : VarInfo}
    (hinfo : S.program.var v = .ok info) {cs : CallSiteId} (hcs : cs ∈ info.index.invokes) :
    R.Leads F s (S.receiverCall c v o (R.domain.classOf x) s cs) fun s' ↦ ∀ callee,
      S.program.callee (some (R.domain.classOf x)) cs = .ok (some callee) →
      R.Called A s' ⟨c, cs⟩ callee (some (v, o)) := by
  obtain ⟨site, resolved, -, hresolved⟩ := hans.receiver hpts hinfo hcs
  have hcallee : S.program.callee (some (R.domain.classOf x)) cs = .ok resolved := hresolved
  simp only [Setup.receiverCall, hcallee, bind, Except.bind]
  cases resolved with
  | none => exact leads_ok .refl fun callee h ↦ by simp at h
  | some callee =>
    have hmakes : F.Makes S.program R.domain ⟨k, cs⟩ callee (some (v, x)) :=
      .receiver hpts hinfo hcs hcallee
    have hr : R.meaning.Receives s.names (some o) (some x) := Meaning.Receives.some_iff.2 hx
    have hbase : (some (v, x)).map Prod.fst = (some (v, o)).map Prod.fst := rfl
    refine (call_leads hF hans hs hA hk hbase hr hmakes).imp ?_
    intro s' _ hcalled callee' heq
    obtain rfl := Option.some.inj (Except.ok.inj heq)
    exact hcalled

/-! ## Statements and objects -/

include hF hans in
/-- A statement of a reachable method is handled by moves that the facts allow. -/
theorem processStmt_leads (hs : R.Sound F s) (hA : ∀ p o, A p o → s.flow.Points p o)
    {m : MethodIn C} (hm : R.meaning.reaches F s.names m) {body : MethodBody}
    (hbody : S.program.body m.id = some body) {stmt : Stmt} (hstmt : stmt ∈ body.stmts) :
    R.Leads F s (S.processStmt m s stmt) (R.StmtHandled A · m stmt) := by
  have hwf := hs.wellFormed
  obtain ⟨k, hk, hreach⟩ := hm
  have hvar : ∀ v, R.meaning.place s.names (.var m.ctx v) = some (.var k v) :=
    fun v ↦ Meaning.place_var hk
  cases stmt with
  | alloc lhs a =>
    obtain ⟨site, hsite⟩ := hans.alloc hreach hbody hstmt
    obtain ⟨n, o, hallocate, hvalid, hgrows, ho⟩ := R.laws.allocate hs.valid hk hsite
    simp only [Setup.processStmt, hallocate, bind, Except.bind]
    obtain ⟨hmoves, hsent⟩ := seed_named hs hvalid hgrows (Meaning.place_var (hgrows.ctx hk)) ho
      (hF.alloc hreach hbody hstmt hsite)
    exact leads_ok hmoves ⟨k, site, hgrows.ctx hk, hsite, hsent⟩
  | copy lhs rhs =>
    have hfeeds : R.meaning.feeds F s.names S.program (.var m.ctx rhs) (.var m.ctx lhs) :=
      ⟨_, _, hvar rhs, hvar lhs, .copy hreach hbody hstmt⟩
    exact leads_ok (.single (.link hfeeds)) (hwf.links_link.2 (.inr ⟨rfl, rfl⟩))
  | loadStatic lhs field =>
    have hfeeds : R.meaning.feeds F s.names S.program (.staticField field) (.var m.ctx lhs) :=
      ⟨_, _, rfl, hvar lhs, .loadStatic hreach hbody hstmt⟩
    exact leads_ok (.single (.link hfeeds)) (hwf.links_link.2 (.inr ⟨rfl, rfl⟩))
  | storeStatic field rhs =>
    have hfeeds : R.meaning.feeds F s.names S.program (.var m.ctx rhs) (.staticField field) :=
      ⟨_, _, hvar rhs, rfl, .storeStatic hreach hbody hstmt⟩
    exact leads_ok (.single (.link hfeeds)) (hwf.links_link.2 (.inr ⟨rfl, rfl⟩))
  | invoke c =>
    obtain ⟨site, hsite⟩ := hans.invoke hreach hbody hstmt
    have hsite' : S.program.callSite c = .ok site := hsite
    simp only [Setup.processStmt, hsite', bind, Except.bind]
    by_cases hkind : site.kind = .static
    · rw [if_pos hkind]
      refine (staticCall_leads hF hans hs hA ⟨k, hk, hreach⟩ hbody hstmt hsite' hkind).imp ?_
      intro s' _ hcalled site' callee hsite'' _ hcallee
      obtain rfl := Except.ok.inj (hsite'.symm.trans hsite'')
      exact hcalled callee hcallee
    · rw [if_neg hkind]
      refine leads_ok .refl fun site' callee hsite'' hkind' _ ↦ ?_
      obtain rfl := Except.ok.inj (hsite'.symm.trans hsite'')
      exact absurd hkind' hkind
  | _ => exact leads_ok .refl trivial

include hF hans in
theorem processMethod_leads (hs : R.Sound F s) (hA : ∀ p o, A p o → s.flow.Points p o)
    {m : MethodIn C} (hm : R.meaning.reaches F s.names m) :
    R.Leads F s (S.processMethod m s) (R.MethodHandled A · m) := by
  cases hbody : S.program.body m.id with
  | none =>
    simp only [Setup.processMethod, hbody]
    exact leads_ok .refl fun body h ↦ by simp [hbody] at h
  | some body =>
    simp only [Setup.processMethod, hbody]
    refine (leads_foldlM (fun stmt s' ↦ R.StmtHandled A s' m stmt) hF hs
      (fun hext ↦ StmtHandled.extends hext) fun stmt hstmt s₁ hm₁ ↦ ?_).imp ?_
    · have hext := Moves.extends hF hs hm₁
      exact processStmt_leads hF hans (hs.moves hF hm₁) (fun p o ho ↦ hext.points (hA p o ho))
        (hm.mono hext.names) hbody hstmt
    · intro s' _ hall body' hbody'
      obtain rfl := Option.some.inj (hbody.symm.trans hbody')
      exact hall

theorem linkAll_moves {flows : List (Pointer C e × Pointer C e)}
    (hflows : ∀ flow ∈ flows, R.meaning.feeds F s.names S.program flow.1 flow.2) :
    R.Moves F s (s.linkAll flows) := by
  induction flows generalizing s with
  | nil => exact .refl
  | cons flow flows ih =>
    have hlink : R.Move F s (s.link flow.1 flow.2) := .link (hflows flow List.mem_cons_self)
    refine .head hlink (ih fun flow' hflow' ↦ ?_)
    rw [State.names_link]
    exact hflows flow' (List.mem_cons_of_mem _ hflow')

omit [Contextual C] in
theorem feeds_of_accessFlows {n : σ} {c : C} {k : K} (hk : R.meaning.ctx n c = some k) {v : VarId}
    {o : Id e} {x : O} (hx : R.meaning.obj n o = some x) (hpts : F.pts (.var k v) x)
    {info : VarInfo} (hinfo : S.program.var v = .ok info) {flow : Pointer C e × Pointer C e}
    (hflow : flow ∈ Setup.accessFlows info.index c o) :
    R.meaning.feeds F n S.program flow.1 flow.2 := by
  have hvar : ∀ v, R.meaning.place n (.var c v) = some (.var k v) := fun v ↦ Meaning.place_var hk
  simp only [Setup.accessFlows, List.mem_append, List.mem_map] at hflow
  rcases hflow with ((⟨store, hstore, rfl⟩ | ⟨load, hload, rfl⟩) | ⟨rhs, hrhs, rfl⟩) | ⟨lhs, hlhs, rfl⟩
  · exact ⟨_, _, hvar _, Meaning.place_instanceField hx, .storeField hpts hinfo hstore⟩
  · exact ⟨_, _, Meaning.place_instanceField hx, hvar _, .loadField hpts hinfo hload⟩
  · exact ⟨_, _, hvar _, Meaning.place_arrayIndex hx, .storeArray hpts hinfo hrhs⟩
  · exact ⟨_, _, Meaning.place_arrayIndex hx, hvar _, .loadArray hpts hinfo hlhs⟩

include hF hans in
/-- An object at a variable is linked with its fields as the variable is accessed, and receives the
calls through the variable. -/
theorem objectArrives_leads (hs : R.Sound F s) (hA : ∀ p o, A p o → s.flow.Points p o) {c : C}
    {v : VarId} {o : Id e} (ho : R.meaning.pts F s.names (.var c v) o) :
    R.Leads F s (S.objectArrives c v s o) (R.ObjectHandled A · c v o) := by
  obtain ⟨P, x, hP, hx, hpts⟩ := ho
  obtain ⟨k, hk, rfl⟩ := Meaning.place_var_iff.1 hP
  obtain ⟨info, hinfo⟩ := hans.var hpts
  have hinfo' : S.program.var v = .ok info := hinfo
  have hlink := hs.wellFormed.linkAll (Setup.accessFlows info.index c o)
  have hm₁ : R.Moves F s (s.linkAll (Setup.accessFlows info.index c o)) :=
    linkAll_moves fun flow hflow ↦ feeds_of_accessFlows hk hx hpts hinfo' hflow
  have hs₁ := hs.moves hF hm₁
  have hext₁ := Moves.extends hF hs hm₁
  have hcls := R.laws.classOf hs₁.valid (hext₁.names.obj hx)
  simp only [Setup.objectArrives, hinfo', hcls, bind, Except.bind]
  refine Leads.after ?_ hm₁
  refine (leads_foldlM (fun cs s' ↦ ∀ callee,
      S.program.callee (some (R.domain.classOf x)) cs = .ok (some callee) →
      R.Called A s' ⟨c, cs⟩ callee (some (v, o))) hF hs₁
    (fun hext hcalled callee hcallee ↦ (hcalled callee hcallee).extends hext)
    fun cs hcs s₂ hm₂ ↦ ?_).imp ?_
  · have hext₂ := hext₁.trans (Moves.extends hF hs₁ hm₂)
    exact receiverCall_leads hF hans (hs₁.moves hF hm₂) (fun p o ho ↦ hext₂.points (hA p o ho))
      (hext₂.names.ctx hk) (hext₂.names.obj hx) hpts hinfo' hcs
  · intro s' hm' hall
    have hext' := Moves.extends hF hs₁ hm'
    exact ⟨info, x, hinfo', (hext₁.trans hext').names.obj hx,
      fun flow hflow ↦ hext'.links (hlink.links.2 (.inr hflow)), hall⟩

include hF hans in
/-- If a mark is among the objects that arrive, all calls that watch the variable are looked at. -/
theorem taintArrives_leads (hs : R.Sound F s) (hA : ∀ p o, A p o → s.flow.Points p o) {c : C}
    {v : VarId} {added : PointsToSet e}
    (hadded : ∀ o ∈ added.toList, ∃ x, R.meaning.obj s.names o = some x) :
    R.Leads F s (S.taintArrives c v added s) fun s' ↦
      ∀ o ∈ added.toList, ∀ x origin, R.meaning.obj s.names o = some x →
        R.domain.sourceOf x = some origin → ∀ t, s.Watches c v t → R.Transferred A s' t := by
  cases hplan : S.taint with
  | none =>
    simp only [Setup.taintArrives, hplan]
    exact leads_ok .refl fun o _ x origin _ _ t _ plan h ↦ by simp [hplan] at h
  | some plan =>
    have hlaw : ∀ {o x}, R.meaning.obj s.names o = some x →
        S.naming.sourceOf s.names o = .ok (R.domain.sourceOf x) := R.laws.sourceOf hs.valid
    obtain ⟨sources, hsources, hmem⟩ := mapM_eq_ok fun o ho ↦
      (hadded o ho).elim fun x hx ↦ ⟨_, hlaw hx⟩
    simp only [Setup.taintArrives, hplan, hsources, bind, Except.bind]
    split
    case isTrue =>
      refine (leads_foldlM (fun t s' ↦ R.Transferred A s' t) hF hs
        (fun hext ↦ Transferred.extends hext) fun t ht s₁ hm₁ ↦ ?_).imp ?_
      · have hext := Moves.extends hF hs hm₁
        exact transfer_leads hF hans (hs.moves hF hm₁) (fun p o ho ↦ hext.points (hA p o ho))
          ((hs.watches ht).mono hext.names)
      · intro s' _ hall o _ x origin _ _ t ht
        exact hall t ht
    case isFalse hno =>
      refine leads_ok .refl fun o ho x origin hx horigin ↦ ?_
      have hsource := hlaw hx
      rw [horigin] at hsource
      exact absurd (List.any_eq_true.2 ⟨some origin, (hmem _).2 ⟨o, ho, hsource⟩, rfl⟩) hno

end

end PointsTo.Interpretation
