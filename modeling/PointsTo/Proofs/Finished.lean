import PointsTo.Proofs.Schedule

/-!
# Finished runs

When nothing is pending, whatever was to be done has been done, so the facts of the state are closed
under the rules, those for taint included if transfers were made whenever there was something to hand
on. Conversely the state says nothing beyond any closed set of facts. Together: a run that
has finished has found the least closed set of facts (`Invariant.isLeast_facts`).
-/

namespace PointsTo

variable {C : Type} [Contextual C] {e : Entity} {σ K O : Type}

omit [Contextual C] in
theorem Meaning.Receives.eq {M : Meaning C e σ K O} {n : σ} {o : Option (Id e)} {x y : Option O}
    (hx : M.Receives n o x) (hy : M.Receives n o y) : x = y := by
  have h : x.map some = y.map some := hx.symm.trans hy
  cases x <;> cases y <;> simp_all

namespace State

variable {s : State C e σ}

/-- Nothing is left to do. -/
def Finished (s : State C e σ) : Prop := s.pending.toList = []

theorem Finished.points (h : s.Finished) {p : Pointer C e} {o : Id e} (hd : s.Delivers p o) :
    s.flow.Points p o := by
  rcases hd with hp | ⟨i, delta, hitem, -, -⟩
  · exact hp
  · rw [h] at hitem
    cases hitem

theorem Finished.seen (h : s.Finished) {m : MethodIn C} (hm : s.Reaches m) : s.Seen m := by
  refine ⟨hm, fun hawaited ↦ ?_⟩
  rw [awaited, h] at hawaited
  cases hawaited

end State

namespace Interpretation

variable {S : Setup C e σ} {R : Interpretation S K O} {F : Facts K O} {entry : MethodId}
  {s : State C e σ} {A : Pointer C e → Id e → Prop}

/-! ## Soundness -/

/-- A sound state says no more than `F`. -/
theorem Sound.facts_le (h : R.Sound F s) : s.facts R.meaning ≤ F := by
  refine Facts.le_iff.2 ⟨?_, ?_, ?_⟩
  · intro P x hpts
    obtain ⟨p, o, hP, hx, hp⟩ := hpts
    obtain ⟨P', x', hP', hx', hF⟩ := h.delivers (.inl hp)
    obtain rfl := Option.some.inj (hP.symm.trans hP')
    obtain rfl := Option.some.inj (hx.symm.trans hx')
    exact hF
  · intro m hm
    obtain ⟨c, hc, hreach⟩ := hm
    obtain ⟨k, hk, hF⟩ := h.reaches hreach
    obtain rfl := Option.some.inj (hc.symm.trans hk)
    exact hF
  · intro edge hedge
    obtain ⟨c, c', hc, hc', hcalls⟩ := hedge
    obtain ⟨k, l, hk, hl, hF⟩ := h.calls hcalls
    obtain rfl := Option.some.inj (hc.symm.trans hk)
    obtain rfl := Option.some.inj (hc'.symm.trans hl)
    exact hF

/-! ## Reading the facts of a state -/

/-- What a variable refers to, by numbers. -/
theorem pts_facts_var {k : K} {v : VarId} {x : O} (h : (s.facts R.meaning).pts (.var k v) x) :
    ∃ c o, R.meaning.ctx s.names c = some k ∧ R.meaning.obj s.names o = some x ∧
      s.flow.Points (.var c v) o := by
  obtain ⟨p, o, hP, hx, hp⟩ := h
  cases p with
  | var c w =>
    obtain ⟨k', hk', heq⟩ := Meaning.place_var_iff.1 hP
    obtain ⟨rfl, rfl⟩ := Place.var.inj heq
    exact ⟨c, o, hk', hx, hp⟩
  | _ => simp [Meaning.place] at hP

variable (h : R.Attended F entry A s) (hfin : s.Finished)

include hfin in
theorem pts_facts_of_sent {p : Pointer C e} {P : Place K O} {x : O}
    (hP : R.meaning.place s.names p = some P) (hx : R.Sent s p x) :
    (s.facts R.meaning).pts P x := by
  obtain ⟨o, ho, hd⟩ := hx
  exact ⟨p, o, hP, ho, hfin.points hd⟩

include h hfin

/-- What a statement of a reachable method entails was seen to. -/
theorem Attended.stmt {m : MethodIn K} (hm : (s.facts R.meaning).reaches m) {body : MethodBody}
    (hbody : S.program.body m.id = some body) {stmt : Stmt} (hstmt : stmt ∈ body.stmts) :
    ∃ c, R.meaning.ctx s.names c = some m.ctx ∧
      R.StmtHandled A s ⟨c, m.id⟩ stmt := by
  obtain ⟨c, hc, hreach⟩ := hm
  exact ⟨c, hc, h.methods (hfin.seen hreach) body hbody stmt hstmt⟩

omit hfin in
/-- The flows that an object at a variable entails are links. -/
theorem Attended.access {k : K} {v : VarId} {x : O}
    (hpts : (s.facts R.meaning).pts (.var k v) x) {info : VarInfo}
    (hinfo : S.program.var v = .ok info) :
    ∃ c o, R.meaning.ctx s.names c = some k ∧ R.meaning.obj s.names o = some x ∧
      ∀ flow ∈ Setup.accessFlows info.index c o, s.flow.Links flow.1 flow.2 := by
  obtain ⟨c, o, hc, ho, hp⟩ := pts_facts_var hpts
  obtain ⟨info', x', hinfo', -, hflows, -⟩ := h.objects hp
  obtain rfl := Except.ok.inj (hinfo.symm.trans hinfo')
  exact ⟨c, o, hc, ho, hflows⟩

/-- A call that the facts make was made. -/
theorem Attended.called {id : SiteIn K} {callee : MethodId} {receiver : Option (VarId × O)}
    (hmakes : (s.facts R.meaning).Makes S.program R.domain id callee receiver) :
    ∃ c r, R.meaning.ctx s.names c = some id.ctx ∧ r.map Prod.fst = receiver.map Prod.fst ∧
      R.meaning.Receives s.names (r.map Prod.snd) (receiver.map Prod.snd) ∧
      R.Called A s ⟨c, id.id⟩ callee r := by
  cases hmakes with
  | static hreach hbody hstmt hsite hkind hcallee =>
    obtain ⟨c, hc, hhandled⟩ := h.stmt hfin hreach hbody hstmt
    exact ⟨c, none, hc, rfl, Meaning.receives_none, hhandled _ _ hsite hkind hcallee⟩
  | @receiver k v x info cs _ hpts hinfo hcs hcallee =>
    obtain ⟨c, o, hc, ho, hp⟩ := pts_facts_var hpts
    obtain ⟨info', x', hinfo', hx', -, hcalls⟩ := h.objects hp
    obtain rfl := Except.ok.inj (hinfo.symm.trans hinfo')
    obtain rfl := Option.some.inj (ho.symm.trans hx')
    exact ⟨c, some (v, o), hc, rfl, Meaning.Receives.some_iff.2 ho, hcalls cs hcs _ hcallee⟩

/-- The state of affairs after a call, in terms of its values. -/
theorem Attended.calledIn {id : SiteIn K} {callee : MethodId} {receiver : Option (VarId × O)}
    (hmakes : (s.facts R.meaning).Makes S.program R.domain id callee receiver) {site : CallSite}
    (hsite : S.program.callSite id.id = .ok site) :
    ∃ c r c', R.meaning.ctx s.names c = some id.ctx ∧ r.map Prod.fst = receiver.map Prod.fst ∧
      R.CalledIn A s ⟨c, id.id⟩ callee r site id.ctx (receiver.map Prod.snd) c' := by
  obtain ⟨c, r, hc, hbase, hr, site', k, x, c', hin⟩ := h.called hfin hmakes
  obtain rfl := Except.ok.inj (hsite.symm.trans hin.callSite)
  obtain rfl := Option.some.inj (hc.symm.trans hin.caller)
  obtain rfl := hr.eq hin.receives
  exact ⟨c, r, c', hc, hbase, hin⟩

omit hfin in
/-- The flows of a call edge are links. -/
theorem Attended.bound {edge : Edge K} (hedge : (s.facts R.meaning).calls edge) {site : CallSite}
    (hsite : S.program.callSite edge.site.id = .ok site) :
    ∃ c c', R.meaning.ctx s.names c = some edge.site.ctx ∧
      R.meaning.ctx s.names c' = some edge.callee.ctx ∧
      ∀ flow ∈ S.callFlows site c ⟨c', edge.callee.id⟩, s.flow.Links flow.1 flow.2 := by
  obtain ⟨c, c', hc, hc', hcalls⟩ := hedge
  exact ⟨c, c', hc, hc', h.settled.bound hcalls hsite⟩

/-! ## Closedness -/

/-- Where the facts of the state say that objects flow, there is a link. -/
theorem Attended.linked {P Q : Place K O} (hfeeds : (s.facts R.meaning).Feeds S.program P Q) :
    ∃ p q, R.meaning.place s.names p = some P ∧ R.meaning.place s.names q = some Q ∧
      s.flow.Links p q := by
  cases hfeeds with
  | copy hm hbody hstmt =>
    obtain ⟨c, hc, hlink⟩ := h.stmt hfin hm hbody hstmt
    exact ⟨_, _, Meaning.place_var hc, Meaning.place_var hc, hlink⟩
  | loadStatic hm hbody hstmt =>
    obtain ⟨c, hc, hlink⟩ := h.stmt hfin hm hbody hstmt
    exact ⟨_, _, rfl, Meaning.place_var hc, hlink⟩
  | storeStatic hm hbody hstmt =>
    obtain ⟨c, hc, hlink⟩ := h.stmt hfin hm hbody hstmt
    exact ⟨_, _, Meaning.place_var hc, rfl, hlink⟩
  | storeField hpts hinfo hstore =>
    obtain ⟨c, o, hc, ho, hflows⟩ := h.access hpts hinfo
    refine ⟨_, _, Meaning.place_var hc, Meaning.place_instanceField ho, hflows (_, _) ?_⟩
    simp only [Setup.accessFlows, List.mem_append, List.mem_map]
    exact .inl (.inl (.inl ⟨_, hstore, rfl⟩))
  | loadField hpts hinfo hload =>
    obtain ⟨c, o, hc, ho, hflows⟩ := h.access hpts hinfo
    refine ⟨_, _, Meaning.place_instanceField ho, Meaning.place_var hc, hflows (_, _) ?_⟩
    simp only [Setup.accessFlows, List.mem_append, List.mem_map]
    exact .inl (.inl (.inr ⟨_, hload, rfl⟩))
  | storeArray hpts hinfo hrhs =>
    obtain ⟨c, o, hc, ho, hflows⟩ := h.access hpts hinfo
    refine ⟨_, _, Meaning.place_var hc, Meaning.place_arrayIndex ho, hflows (_, _) ?_⟩
    simp only [Setup.accessFlows, List.mem_append, List.mem_map]
    exact .inl (.inr ⟨_, hrhs, rfl⟩)
  | loadArray hpts hinfo hlhs =>
    obtain ⟨c, o, hc, ho, hflows⟩ := h.access hpts hinfo
    refine ⟨_, _, Meaning.place_arrayIndex ho, Meaning.place_var hc, hflows (_, _) ?_⟩
    simp only [Setup.accessFlows, List.mem_append, List.mem_map]
    exact .inr ⟨_, hlhs, rfl⟩
  | argument hedge hsite hbody harg =>
    obtain ⟨c, c', hc, hc', hflows⟩ := h.bound hedge hsite
    refine ⟨_, _, Meaning.place_var hc, Meaning.place_var hc', hflows (_, _) ?_⟩
    exact Setup.mem_callFlows.2 ⟨_, hbody, .inl ⟨_, _, harg, rfl⟩⟩
  | result hedge hsite hbody hresult hv =>
    obtain ⟨c, c', hc, hc', hflows⟩ := h.bound hedge hsite
    refine ⟨_, _, Meaning.place_var hc', Meaning.place_var hc, hflows (_, _) ?_⟩
    exact Setup.mem_callFlows.2 ⟨_, hbody, .inr ⟨_, hv, _, hresult, rfl⟩⟩

/-- What flows has arrived. -/
theorem Attended.includes {P Q : Place K O} (hfeeds : (s.facts R.meaning).Feeds S.program P Q) :
    (s.facts R.meaning).Includes P Q := by
  intro x hx
  obtain ⟨p, q, hP, hQ, hlink⟩ := h.linked hfin hfeeds
  obtain ⟨p', o, hP', ho, hp⟩ := hx
  obtain rfl := R.laws.place_inj h.sound.valid hP hP'
  exact ⟨q, o, hQ, ho, hfin.points (h.settled.flowing p q o hlink hp)⟩

/-- The facts are closed under the rules other than those for taint. -/
theorem Attended.closed :
    Rules.Closed { R.rules entry with taint := none } (s.facts R.meaning) where
  entry := ⟨S.naming.start, R.laws.start h.sound.valid, h.entry⟩
  alloc := by
    intro m body lhs a site hm hbody hstmt hsite
    obtain ⟨c, hc, k, site', hk, hsite', hsent⟩ := h.stmt hfin hm hbody hstmt
    obtain rfl := Option.some.inj (hc.symm.trans hk)
    obtain rfl := Except.ok.inj (hsite.symm.trans hsite')
    exact pts_facts_of_sent hfin (Meaning.place_var hc) hsent
  copy hm hbody hstmt := h.includes hfin (.copy hm hbody hstmt)
  loadStatic hm hbody hstmt := h.includes hfin (.loadStatic hm hbody hstmt)
  storeStatic hm hbody hstmt := h.includes hfin (.storeStatic hm hbody hstmt)
  storeField hpts hinfo hstore := h.includes hfin (.storeField hpts hinfo hstore)
  loadField hpts hinfo hload := h.includes hfin (.loadField hpts hinfo hload)
  storeArray hpts hinfo hrhs := h.includes hfin (.storeArray hpts hinfo hrhs)
  loadArray hpts hinfo hlhs := h.includes hfin (.loadArray hpts hinfo hlhs)
  edge := by
    intro id callee receiver site hmakes hsite
    obtain ⟨c, r, c', hc, -, hin⟩ := h.calledIn hfin hmakes hsite
    exact ⟨c, c', hc, hin.context, hin.edge⟩
  this := by
    intro id callee v x this hmakes hthis
    obtain ⟨c, r, hc, -, hr, site, k, x', c', hin⟩ := h.called hfin hmakes
    obtain rfl := Option.some.inj (hc.symm.trans hin.caller)
    obtain rfl := hr.eq hin.receives
    obtain ⟨o, ho, hx⟩ : ∃ o, r.map Prod.snd = some o ∧ R.meaning.obj s.names o = some x := by
      cases r with
      | none => simp [Meaning.Receives] at hr
      | some r => exact ⟨r.2, rfl, Meaning.Receives.some_iff.1 hr⟩
    exact ⟨.var c' this, o, Meaning.place_var hin.context, hx, hfin.points (hin.this o this ho hthis)⟩
  callee := by
    intro edge hedge
    obtain ⟨c, c', -, hc', hcalls⟩ := hedge
    exact ⟨c', hc', h.settled.reaches hcalls⟩
  argument hedge hsite hbody harg := h.includes hfin (.argument hedge hsite hbody harg)
  result hedge hsite hbody hresult hv := h.includes hfin (.result hedge hsite hbody hresult hv)
  source h := nomatch h
  transfer h := nomatch h

omit h in
theorem Invariant.closed (h : R.Invariant F entry s) :
    (R.rules entry).Closed (s.facts R.meaning) := by
  refine Rules.Closed.withTaint (h.toAttended.closed hfin) ?_ ?_
  · intro plan id callee receiver site cls result hplan hmakes hsite hcls hresult
    obtain ⟨c, r, c', hc, -, hin⟩ := h.calledIn hfin hmakes hsite
    exact pts_facts_of_sent hfin (Meaning.place_var hc) (hin.letIn plan cls result hplan hcls hresult)
  · intro plan id callee receiver site rule source target x origin hplan hmakes hsite hrule hsource
      htarget hpts horigin
    obtain ⟨c, r, c', hc, hbase, hin⟩ := h.calledIn hfin hmakes hsite
    obtain ⟨site', hsite', -, hrules⟩ := hin.transferred plan hplan
    obtain rfl := Except.ok.inj (hin.callSite.symm.trans hsite')
    obtain ⟨c₂, o, hc₂, ho, hp⟩ := pts_facts_var hpts
    obtain rfl := R.laws.ctx_inj h.sound.valid hc hc₂
    rw [← hbase] at hsource htarget
    obtain ⟨x', hx', hsent⟩ := hrules rule hrule source target hsource htarget o hp
    obtain rfl := Option.some.inj (ho.symm.trans hx')
    exact pts_facts_of_sent hfin (Meaning.place_var hc) (hsent origin horigin)

end Interpretation

end PointsTo
