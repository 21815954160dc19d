import PointsTo.Proofs.Flows

/-!
# Taint comes on top

A solver that follows taint finds everything that it finds without. Its final facts are closed under
the rules that are not about taint, whatever its taint rules are, and the run without taint has the
least such facts.

As long as no source is called that has a result, following taint does not even show: a run with taint
goes through the states of the run without, but for the calls that are watched in vain
(`Setup.Shadows`).
-/

namespace PointsTo

variable {C : Type} [Contextual C] {e : Entity} {σ : Type}

/-- The state without the calls that are watched. -/
def State.unwatched (s : State C e σ) : State C e σ := { s with watchers := ∅ }

/-- The setup that does not follow taint. -/
def Setup.untainted (S : Setup C e σ) : Setup C e σ := { S with taint := none }

/-- No call of a source was made that has a result. -/
def Setup.Quiet (S : Setup C e σ) (s : State C e σ) : Prop :=
  ∀ plan edge site, S.taint = some plan → s.Calls edge →
    S.program.callSite edge.site.id = .ok site →
    plan.sourceClass? edge.callee.id = none ∨ site.result = none

/-- Names with the property `P` are of objects that are no marks, and stay so unless marks are made. -/
structure Naming.Markless (N : Naming C e σ) (p : Program) (P : σ → Prop) : Prop where
  allocate : ∀ {n m a n' o}, P n → N.allocate p n m a = .ok (n', o) → P n'
  calleeContext : ∀ {n id receiver n' c}, P n → N.calleeContext p n id receiver = .ok (n', c) → P n'
  sourceOf : ∀ {n o source}, P n → N.sourceOf n o = .ok source → source = none

namespace State

variable {s : State C e σ}

theorem unwatched_link (p q : Pointer C e) : (s.link p q).unwatched = s.unwatched.link p q :=
  apply_ite unwatched _ _ _

theorem unwatched_linkAll (flows : List (Pointer C e × Pointer C e)) :
    (s.linkAll flows).unwatched = s.unwatched.linkAll flows := by
  induction flows generalizing s with
  | nil => rfl
  | cons flow flows ih =>
    calc (s.linkAll (flow :: flows)).unwatched
      _ = (s.link flow.1 flow.2).unwatched.linkAll flows := ih
      _ = s.unwatched.linkAll (flow :: flows) := by
        rw [unwatched_link]
        rfl

theorem calls_linkAll (flows : List (Pointer C e × Pointer C e)) :
    (s.linkAll flows).calls = s.calls := by
  induction flows generalizing s with
  | nil => rfl
  | cons flow flows ih => exact ih.trans calls_link

theorem names_linkAll (flows : List (Pointer C e × Pointer C e)) :
    (s.linkAll flows).names = s.names := by
  induction flows generalizing s with
  | nil => rfl
  | cons flow flows ih => exact ih.trans names_link

theorem unwatched_reach (m : MethodIn C) : (s.reach m).unwatched = s.unwatched.reach m :=
  apply_ite unwatched _ _ _

end State

namespace Setup

variable {S : Setup C e σ} {s s₁ : State C e σ}

/-! ## Single moves -/

theorem unwatched_sendReceiver (callee : MethodIn C) (receiver : Option (Id e)) :
    (S.sendReceiver callee receiver s).unwatched =
      S.untainted.sendReceiver callee receiver s.unwatched := by
  unfold sendReceiver
  cases receiver with
  | none => rfl
  | some o =>
    have hprogram : S.untainted.program = S.program := rfl
    rw [hprogram]
    cases S.program.thisVar callee.id <;> rfl

theorem frame_sendReceiver (callee : MethodIn C) (receiver : Option (Id e)) :
    (S.sendReceiver callee receiver s).calls = s.calls ∧
      (S.sendReceiver callee receiver s).names = s.names := by
  unfold sendReceiver
  cases receiver with
  | none => exact ⟨rfl, rfl⟩
  | some o => cases S.program.thisVar callee.id <;> exact ⟨rfl, rfl⟩

theorem unwatched_connect (id : SiteIn C) (site : CallSite) (callee : MethodIn C) :
    (S.connect id site callee s).unwatched = S.untainted.connect id site callee s.unwatched := by
  by_cases h : s.Calls ⟨site.kind, id, callee⟩
  · have h' : s.unwatched.Calls ⟨site.kind, id, callee⟩ := h
    rw [State.connect_of_calls h, State.connect_of_calls h']
  · have h' : ¬ s.unwatched.Calls ⟨site.kind, id, callee⟩ := h
    rw [State.connect_of_not_calls h, State.connect_of_not_calls h', State.unwatched_linkAll,
      State.unwatched_reach]
    rfl

theorem calls_connect_of_calls {id : SiteIn C} {site : CallSite} {callee : MethodIn C}
    {edge : Edge C} (h : s.Calls edge ∨ edge = ⟨site.kind, id, callee⟩) :
    (S.connect id site callee s).Calls edge := by
  by_cases hold : s.Calls ⟨site.kind, id, callee⟩
  · rw [State.connect_of_calls hold]
    rcases h with h | rfl
    · exact h
    · exact hold
  · rw [State.connect_of_not_calls hold]
    unfold State.Calls
    rw [State.calls_linkAll, State.edges_reach]
    exact State.calls_enter.2 h

theorem names_connect (id : SiteIn C) (site : CallSite) (callee : MethodIn C) :
    (S.connect id site callee s).names = s.names := by
  by_cases h : s.Calls ⟨site.kind, id, callee⟩
  · rw [State.connect_of_calls h]
  · rw [State.connect_of_not_calls h, State.names_linkAll, State.names_reach]
    rfl

/-! ## Computations side by side -/

/-- Where `x` takes `s` on with taint, `y` does so without: calls are kept, and if no source was called,
the outcomes differ in what is watched and in nothing else. -/
def Shadows (S : Setup C e σ) (P : σ → Prop) (s : State C e σ) (x y : Except UnknownId (State C e σ)) :
    Prop :=
  ∀ s', x = .ok s' → (∀ edge, s.Calls edge → s'.Calls edge) ∧
    (S.Quiet s' → P s.names → y = .ok s'.unwatched ∧ P s'.names)

theorem Quiet.of_calls (h : S.Quiet s₁) (hcalls : ∀ edge, s.Calls edge → s₁.Calls edge) : S.Quiet s :=
  fun plan edge site hplan hedge ↦ h plan edge site hplan (hcalls edge hedge)

namespace Shadows

variable {P : σ → Prop}

theorem same (s : State C e σ) : S.Shadows P s (.ok s) (.ok s.unwatched) := by
  rintro _ ⟨⟩
  exact ⟨fun _ ↦ id, fun _ hP ↦ ⟨rfl, hP⟩⟩

/-- A move that enters no calls may come first. -/
theorem after {x y : Except UnknownId (State C e σ)} (h : S.Shadows P s₁ x y)
    (hcalls : s₁.calls = s.calls) (hnames : P s.names → P s₁.names) : S.Shadows P s x y := by
  intro s' hs'
  obtain ⟨hkept, hsame⟩ := h s' hs'
  unfold State.Calls at hkept
  rw [hcalls] at hkept
  exact ⟨hkept, fun hquiet hP ↦ hsame hquiet (hnames hP)⟩

/-- What is only looked up is the same on both sides. -/
theorem read {α : Type} {r : Except UnknownId α} {f g : α → Except UnknownId (State C e σ)}
    (h : ∀ a, r = .ok a → S.Shadows P s (f a) (g a)) : S.Shadows P s (r >>= f) (r >>= g) := by
  intro s' hs'
  obtain ⟨a, ha, hs'⟩ := bind_eq_ok.1 hs'
  rw [ha]
  exact h a ha s' hs'

/-- One computation after another. That no source was called by the second is known of the first as
well. -/
theorem bind {x y : Except UnknownId (State C e σ)}
    {f g : State C e σ → Except UnknownId (State C e σ)} (hx : S.Shadows P s x y)
    (hf : ∀ s₁, S.Shadows P s₁ (f s₁) (g s₁.unwatched)) : S.Shadows P s (x >>= f) (y >>= g) := by
  intro s' hs'
  obtain ⟨s₁, hs₁, hs'⟩ := bind_eq_ok.1 hs'
  obtain ⟨hcalls, hfirst⟩ := hx s₁ hs₁
  obtain ⟨hcalls', hsecond⟩ := hf s₁ s' hs'
  refine ⟨fun edge h ↦ hcalls' edge (hcalls edge h), fun hquiet hP ↦ ?_⟩
  obtain ⟨hy, hP₁⟩ := hfirst (hquiet.of_calls hcalls') hP
  rw [hy]
  exact hsecond hquiet hP₁

theorem foldlM {α : Type} {f g : State C e σ → α → Except UnknownId (State C e σ)}
    (hf : ∀ s₁ a, S.Shadows P s₁ (f s₁ a) (g s₁.unwatched a)) (as : List α) (s : State C e σ) :
    S.Shadows P s (as.foldlM f s) (as.foldlM g s.unwatched) := by
  induction as generalizing s with
  | nil => exact same s
  | cons a as ih =>
    rw [List.foldlM_cons, List.foldlM_cons]
    exact (hf s a).bind ih

end Shadows

/-! ## Transfers -/

theorem calls_handOn {ctx : C} {target : VarId} {cls : ClassId} {o : Id e}
    (h : S.handOn ctx target cls s o = .ok s₁) : s₁.calls = s.calls := by
  unfold handOn at h
  obtain ⟨source, -, h⟩ := bind_eq_ok.1 h
  cases source <;> rw [← Except.ok.inj h]
  rfl

/-- Transfers enter no calls. -/
theorem calls_transfer {t : TransferSite C} (h : S.transfer t s = .ok s₁) : s₁.calls = s.calls := by
  unfold transfer at h
  cases htaint : S.taint with
  | none =>
    rw [htaint] at h
    rw [← Except.ok.inj h]
  | some plan =>
    rw [htaint] at h
    obtain ⟨site, -, h⟩ := bind_eq_ok.1 h
    refine foldlM_induction (P := (·.calls = s.calls)) h rfl ?_
    intro rule _ c c' hc hc'
    unfold applyTransfer at hc'
    split at hc'
    · refine foldlM_induction (P := (·.calls = s.calls)) hc' hc ?_
      intro o _ d d' hd hd'
      exact (calls_handOn hd').trans hd
    · rw [← Except.ok.inj hc', hc]

section

variable {P : σ → Prop} (hN : S.naming.Markless S.program P)

include hN

/-- Where there are no marks, none are handed on. -/
theorem handOn_of_markless {ctx : C} {target : VarId} {cls : ClassId} {o : Id e}
    (hP : P s.names) (h : S.handOn ctx target cls s o = .ok s₁) : s₁ = s := by
  unfold handOn at h
  obtain ⟨source, hsource, h⟩ := bind_eq_ok.1 h
  obtain rfl := hN.sourceOf hP hsource
  exact (Except.ok.inj h).symm

theorem applyTransfer_of_markless {t : TransferSite C} {site : CallSite} {rule : Transfer}
    (hP : P s.names) (h : S.applyTransfer t site s rule = .ok s₁) : s₁ = s := by
  unfold applyTransfer at h
  split at h
  · refine foldlM_induction (P := (· = s)) h rfl ?_
    rintro o - c c' rfl hc
    exact handOn_of_markless hN hP hc
  · exact (Except.ok.inj h).symm

/-- Where there are no marks, a transfer has the operands of the call watched and does nothing else. -/
theorem transfer_of_markless {t : TransferSite C} (hP : P s.names) (h : S.transfer t s = .ok s₁) :
    s₁.unwatched = s.unwatched ∧ P s₁.names := by
  unfold transfer at h
  cases htaint : S.taint with
  | none =>
    rw [htaint] at h
    rw [← Except.ok.inj h]
    exact ⟨rfl, hP⟩
  | some plan =>
    rw [htaint] at h
    obtain ⟨site, -, h⟩ := bind_eq_ok.1 h
    refine foldlM_induction (P := fun c ↦ c.unwatched = s.unwatched ∧ P c.names) h ⟨rfl, hP⟩ ?_
    intro rule _ c c' hc hc'
    rw [applyTransfer_of_markless hN hc.2 hc']
    exact hc

theorem shadows_transfer (t : TransferSite C) (s : State C e σ) :
    S.Shadows P s (S.transfer t s) (.ok s.unwatched) := by
  intro s' hs'
  constructor
  · intro edge h
    unfold State.Calls
    rwa [calls_transfer hs']
  · intro _ hP
    obtain ⟨heq, hP'⟩ := transfer_of_markless hN hP hs'
    exact ⟨congrArg Except.ok heq.symm, hP'⟩

theorem shadows_taintArrives (ctx : C) (v : VarId) (added : PointsToSet e) (s : State C e σ) :
    S.Shadows P s (S.taintArrives ctx v added s) (.ok s.unwatched) := by
  unfold taintArrives
  cases S.taint with
  | none => exact .same s
  | some plan =>
    intro s' hs'
    obtain ⟨sources, -, hs'⟩ := bind_eq_ok.1 hs'
    split at hs'
    · have hagain : S.Shadows P s
          (((s.watchers.get? ⟨ctx, v⟩).getD []).foldlM (fun s t ↦ S.transfer t s) s)
          (((s.watchers.get? ⟨ctx, v⟩).getD []).foldlM (fun s _ ↦ pure s) s.unwatched) :=
        .foldlM (fun s₁ t ↦ shadows_transfer hN t s₁) _ s
      rw [List.foldlM_pure, List.foldl_fixed] at hagain
      exact hagain s' hs'
    · exact Shadows.same s s' hs'

end

/-! ## Calls, statements and arrivals -/

section

variable {P : σ → Prop} (hN : S.naming.Markless S.program P)

/-- Nothing is let in by a call that is no call of a source, or has no result. -/
theorem letIn_of_quiet (hquiet : S.Quiet s₁) {id : SiteIn C} {site : CallSite}
    (hsite : S.program.callSite id.id = .ok site) {callee : MethodIn C}
    (hedge : s₁.Calls ⟨site.kind, id, callee⟩) : S.letIn id site callee.id s = s := by
  unfold letIn
  split
  · next cls result hcls hresult =>
    obtain ⟨plan, hplan, hcls⟩ := Option.bind_eq_some_iff.1 hcls
    rcases hquiet plan _ site hplan hedge hsite with h | h
    · rw [h] at hcls
      cases hcls
    · rw [h] at hresult
      cases hresult
  · rfl

theorem calls_letIn {id : SiteIn C} {site : CallSite} {callee : MethodId} :
    (S.letIn id site callee s).calls = s.calls := by
  unfold letIn
  split <;> rfl

theorem shadows_link (p q : Pointer C e) (s : State C e σ) :
    S.Shadows P s (.ok (s.link p q)) (.ok (s.unwatched.link p q)) := by
  rw [← State.unwatched_link]
  refine .after (.same _) State.calls_link fun hP ↦ ?_
  rwa [State.names_link]

include hN

/-- The edge of a call stays, so that nothing was let in is known as soon as the call is made. -/
theorem shadows_connect {id : SiteIn C} {site : CallSite}
    (hsite : S.program.callSite id.id = .ok site) (callee : MethodIn C) (t : TransferSite C)
    (s : State C e σ) :
    S.Shadows P s (S.transfer t (S.connect id site callee (S.letIn id site callee.id s)))
      (.ok (S.untainted.connect id site callee s.unwatched)) := by
  intro s' hs'
  obtain ⟨hcalls, hlast⟩ := shadows_transfer hN t _ s' hs'
  constructor
  · intro edge h
    refine hcalls edge (calls_connect_of_calls (.inl ?_))
    unfold State.Calls
    rwa [calls_letIn]
  · intro hquiet hP
    have hedge := hcalls _ (calls_connect_of_calls (.inr rfl))
    rw [letIn_of_quiet hquiet hsite hedge, unwatched_connect] at hlast
    refine hlast hquiet ?_
    rwa [names_connect]

theorem shadows_call (id : SiteIn C) (callee : MethodId) (receiver : Option (VarId × Id e))
    (s : State C e σ) :
    S.Shadows P s (S.call id callee receiver s) (S.untainted.call id callee receiver s.unwatched) := by
  refine .read fun site hsite ↦ .read fun named hnamed ↦ ?_
  obtain ⟨n, ctx⟩ := named
  have hframe := frame_sendReceiver (S := S) (s := { s with names := n }) ⟨ctx, callee⟩
    (receiver.map Prod.snd)
  have hsend := unwatched_sendReceiver (S := S) (s := { s with names := n }) ⟨ctx, callee⟩
    (receiver.map Prod.snd)
  have hconnect := shadows_connect hN hsite ⟨ctx, callee⟩ ⟨id, callee, receiver.map Prod.fst⟩
    (S.sendReceiver ⟨ctx, callee⟩ (receiver.map Prod.snd) { s with names := n })
  rw [hsend] at hconnect
  refine hconnect.after hframe.1 fun hP ↦ ?_
  rw [hframe.2]
  exact hN.calleeContext hP hnamed

theorem shadows_staticCall (id : SiteIn C) (s : State C e σ) :
    S.Shadows P s (S.staticCall id s) (S.untainted.staticCall id s.unwatched) := by
  unfold staticCall
  refine .read fun callee _ ↦ ?_
  cases callee with
  | none => exact .same s
  | some callee => exact shadows_call hN id callee none s

theorem shadows_receiverCall (ctx : C) (v : VarId) (o : Id e) (cls : ClassId) (s : State C e σ)
    (c : CallSiteId) :
    S.Shadows P s (S.receiverCall ctx v o cls s c)
      (S.untainted.receiverCall ctx v o cls s.unwatched c) := by
  unfold receiverCall
  refine .read fun callee _ ↦ ?_
  cases callee with
  | none => exact .same s
  | some callee => exact shadows_call hN ⟨ctx, c⟩ callee (some (v, o)) s

theorem shadows_processStmt (m : MethodIn C) (s : State C e σ) (stmt : Stmt) :
    S.Shadows P s (S.processStmt m s stmt) (S.untainted.processStmt m s.unwatched stmt) := by
  cases stmt with
  | alloc lhs site =>
    refine .read fun named hnamed ↦ ?_
    obtain ⟨n, o⟩ := named
    have hsame : S.Shadows P _ _ _ := .same ({ s with names := n }.seed (.var m.ctx lhs) o)
    exact hsame.after rfl fun hP ↦ hN.allocate hP hnamed
  | copy lhs rhs => exact shadows_link (.var m.ctx rhs) (.var m.ctx lhs) s
  | loadStatic lhs field => exact shadows_link (.staticField field) (.var m.ctx lhs) s
  | storeStatic field rhs => exact shadows_link (.var m.ctx rhs) (.staticField field) s
  | invoke c =>
    refine .read fun site _ ↦ ?_
    by_cases hkind : site.kind = .static
    · rw [if_pos hkind, if_pos hkind]
      exact shadows_staticCall hN ⟨m.ctx, c⟩ s
    · rw [if_neg hkind, if_neg hkind]
      exact .same s
  | _ => exact .same s

theorem shadows_processMethod (m : MethodIn C) (s : State C e σ) :
    S.Shadows P s (S.processMethod m s) (S.untainted.processMethod m s.unwatched) := by
  have hprogram : S.untainted.program = S.program := rfl
  unfold processMethod
  rw [hprogram]
  cases S.program.body m.id with
  | none => exact .same s
  | some body => exact .foldlM (shadows_processStmt hN m) body.stmts s

theorem shadows_objectArrives (ctx : C) (v : VarId) (s : State C e σ) (o : Id e) :
    S.Shadows P s (S.objectArrives ctx v s o) (S.untainted.objectArrives ctx v s.unwatched o) := by
  unfold objectArrives
  refine .read fun info _ ↦ ?_
  rw [← State.unwatched_linkAll]
  refine .after (.read fun cls _ ↦
    .foldlM (shadows_receiverCall hN ctx v o cls) info.index.invokes _) ?_ fun hP ↦ ?_
  · exact State.calls_linkAll _
  · rwa [State.names_linkAll]

theorem shadows_processObjects (i : PointerId) (delta : PointsToSet e) (s : State C e σ) :
    S.Shadows P s (S.processObjects i delta s) (S.untainted.processObjects i delta s.unwatched) := by
  unfold processObjects
  refine .read fun propagated _ ↦ .read fun entry _ ↦ ?_
  obtain ⟨flow, added⟩ := propagated
  obtain ⟨pointer, node⟩ := entry
  cases added.isEmpty with
  | true => exact .after (.same { s with flow }) rfl id
  | false =>
    let s₁ : State C e σ :=
      { s with
        flow
        pending := node.succs.foldl (fun w j ↦ w.push (.propagate j added)) s.pending
        propagations := s.propagations + 1 }
    cases pointer with
    | var ctx v =>
      exact .after (.bind (.foldlM (shadows_objectArrives hN ctx v) added.toList s₁)
        (shadows_taintArrives hN ctx v added)) rfl id
    | _ => exact .after (.same s₁) rfl id

theorem shadows_process (s : State C e σ) (item : WorkItem C e) :
    S.Shadows P s (S.process s item) (S.untainted.process s.unwatched item) := by
  cases item with
  | propagate i delta => exact shadows_processObjects hN i delta s
  | reach m => exact shadows_processMethod hN m s

/-! ## Runs -/

theorem shadows_runFor (n : Nat) (s : State C e σ) :
    S.Shadows P s (S.runFor n s) (S.untainted.runFor n s.unwatched) := by
  induction n generalizing s with
  | zero => exact .same s
  | succ n ih =>
    have hpending : s.unwatched.pending = s.pending := rfl
    unfold runFor poll
    rw [hpending]
    cases s.pending.poll with
    | none => exact .same s
    | some next =>
      obtain ⟨item, rest⟩ := next
      exact .after (.bind (shadows_process hN (s.taken rest) item) ih) rfl id

end

theorem unwatched_initial (names : σ) (order : WorkOrder) (entry : MethodId) :
    (S.initial names order entry).unwatched = S.untainted.initial names order entry :=
  State.unwatched_reach _

end Setup

/-! ## Names that are no marks -/

theorem Heap.get?_intern {h : Heap} {k : ObjectKey} {o x : AbstractObject} {i : ObjectId}
    (hi : (h.intern k o).1.get? i = some x) : h.get? i = some x ∨ x = o := by
  obtain ⟨k', hk'⟩ := get?_eq_some_iff.1 hi
  rcases Table.nth?_intern_iff.1 hk' with hold | ⟨-, -, heq⟩
  · exact .inl (get?_eq_some_iff.2 ⟨k', hold⟩)
  · exact .inr (Prod.mk.inj heq).2

/-- No object is a taint mark. -/
def CsHeap.Unmarked (n : CsHeap) : Prop :=
  ∀ {i x}, n.heap.get? i = some x → x.kind.source? = none

theorem Heap.source?_of_allocated {h h' : Heap} {p : Program} {a : AllocSiteId} {o : ObjectId}
    (ha : h.allocated p a = .ok (h', o)) {i : ObjectId} {x : AbstractObject}
    (hi : h'.get? i = some x) : h.get? i = some x ∨ x.kind.source? = none := by
  unfold allocated at ha
  obtain ⟨site, -, ha⟩ := bind_eq_ok.1 ha
  have hintern := Except.ok.inj ha
  split at hintern
  all_goals
    obtain ⟨rfl, -⟩ := Prod.mk.inj hintern
    rcases get?_intern hi with hold | rfl
    · exact .inl hold
    · exact .inr rfl

/-- Neither allocations nor the choice of contexts make marks, and what is no mark has no source. -/
theorem Naming.markless_selected (selector : Selector) (p : Program) :
    (Naming.selected selector).Markless p CsHeap.Unmarked where
  allocate := by
    intro n m a n' o hn h
    obtain ⟨⟨heap, i⟩, hheap, h⟩ := bind_eq_ok.1 h
    obtain ⟨⟨contexts, ctx⟩, -, h⟩ := bind_eq_ok.1 h
    obtain ⟨rfl, -⟩ := Prod.mk.inj (Except.ok.inj h)
    intro j x hj
    rcases Heap.source?_of_allocated hheap hj with hold | hnone
    · exact hn hold
    · exact hnone
  calleeContext := by
    intro n id receiver n' c hn h
    obtain ⟨named, -, h⟩ := bind_eq_ok.1 h
    obtain ⟨⟨contexts, ctx⟩, -, h⟩ := bind_eq_ok.1 h
    obtain ⟨rfl, -⟩ := Prod.mk.inj (Except.ok.inj h)
    exact hn
  sourceOf := by
    intro n o source hn h
    obtain ⟨named, -, h⟩ := bind_eq_ok.1 h
    obtain ⟨object, hobject, h⟩ := bind_eq_ok.1 h
    obtain rfl := Except.ok.inj h
    refine hn (i := named.id) ?_
    unfold Heap.object at hobject
    split at hobject
    · next hvalue => exact hvalue.trans (congrArg some (Except.ok.inj hobject))
    · cases hobject

/-! ## With and without taint -/

/-- Where no source was called, the final states of the two runs differ in what is watched only. -/
theorem World.solveSelected_of_quiet {w : World} {selector : Selector} {taint : Option TaintPlan}
    {n : Nat} {abstraction : HeapAbstraction} {order : WorkOrder} {t : CsState}
    (hrun : (w.selectedSetup selector taint).runFor n ((w.selectedSetup selector taint).initial
      { heap := { abstraction } } order w.entry) = .ok t)
    (hfin : t.pending.poll = none) (hquiet : (w.selectedSetup selector taint).Quiet t) :
    w.solveSelected selector abstraction order none = .ok t.unwatched ∧ t.names.Unmarked := by
  have hstart : CsHeap.Unmarked { heap := { abstraction } } := by
    intro i x hi
    obtain ⟨k, hk⟩ := Heap.get?_eq_some_iff.1 hi
    simp at hk
  have hnames : ((w.selectedSetup selector taint).initial { heap := { abstraction } } order
      w.entry).names = { heap := { abstraction } } := State.names_reach
  have hshadows := Setup.shadows_runFor (S := w.selectedSetup selector taint)
    (Naming.markless_selected selector w.program) n _ t hrun
  rw [hnames, Setup.unwatched_initial] at hshadows
  obtain ⟨hsame, hunmarked⟩ := hshadows.2 hquiet hstart
  exact ⟨Setup.run_of_runFor hsame hfin, hunmarked⟩

theorem CsHeap.Unmarked.not_flows {s : CsState} (h : s.names.Unmarked) {p : Program}
    {abstraction : HeapAbstraction} {selector : Selector} {plan : TaintPlan} {f : TaintFlow} :
    ¬ (s.facts .selected).Flows p (.selected p abstraction selector) plan f := by
  rintro ⟨-, -, -, x, -, -, -, -, -, ⟨-, o, -, ho, -⟩, hsource⟩
  obtain ⟨named, -, -, hobject⟩ := CsHeap.heapObject_eq_some_iff.1 ho
  have hnone : x.object.kind.source? = some f.source := hsource
  rw [h hobject] at hnone
  cases hnone

/-- On every accepted program and with any taint rules, an analysis that follows taint finds all facts
that it finds without. If none of the calls it found is one of a source that has a result, then it
has found nothing else, under the same numbers, in the same order and in as many steps, and reports
no flow. -/
theorem taint_conservative {ds : List Declaration} {p : Program} {entry : MethodId} {w : World}
    (hbuilt : Program.ofDeclarations ds = .ok p) (hworld : World.of p entry = .ok w)
    (hrange : p.InRange) (rules : TaintRules) (selector : Selector) (abstraction : HeapAbstraction)
    (order : WorkOrder) :
    ∃ s t, w.solveSelected selector abstraction order none = .ok s ∧
      w.solveSelected selector abstraction order (some (.resolve p rules)) = .ok t ∧
      s.Faithful .selected ∧ t.Faithful .selected ∧ s.facts .selected ≤ t.facts .selected ∧
      ((∀ edge ∈ t.calls.edgeList, ∀ site, p.callSite edge.site.id = .ok site →
          (TaintPlan.resolve p rules).sourceClass? edge.callee.id = none ∨ site.result = none) →
        s = { t with watchers := ∅ } ∧ s.view = t.view ∧
          (TaintPlan.resolve p rules).flows p t = .ok []) := by
  obtain ⟨rfl, -⟩ := World.of_eq_ok hworld
  have hp : (World.mk p entry).program.Analysable := Program.analysable hbuilt hworld hrange
  have hnone : ∀ rules', (none : Option TaintRules) = some rules' → rules'.validate = .ok () := by
    simp
  have hready := World.resolved_ready hp selector abstraction hnone
  have hconfined := World.resolved_confined hp selector abstraction (some rules)
  obtain ⟨s, hs, -, -, hsfaithful, hleast⟩ := hready.solve_isLeast order
  obtain ⟨n, t, hrun, hfin⟩ := hconfined.runFor_finishes order
  have hsteps := Setup.steps_of_runFor hrun
  have hattended := hconfined.attended hsteps
  have hclosed := hattended.closed (WorkList.toList_of_poll_none hfin)
  refine ⟨s, t, hs, Setup.run_of_runFor hrun hfin, hsfaithful, hattended.sound.faithful,
    hleast.2 hclosed, fun hedges ↦ ?_⟩
  have hquiet : ((World.mk p entry).selectedSetup selector (some (.resolve p rules))).Quiet t := by
    rintro _ edge site ⟨⟩ hedge hsite
    exact hedges edge (Table.mem_keys_iff.2 hedge) site hsite
  obtain ⟨hsame, hunmarked⟩ := World.solveSelected_of_quiet hrun hfin hquiet
  obtain rfl := Except.ok.inj (hs.symm.trans hsame)
  obtain ⟨fs, hfs, hlists⟩ := World.flows_of_isLeast hp selector abstraction hready hsfaithful hleast
    (TaintPlan.resolve p rules)
  have hnil : fs = [] := by
    refine List.eq_nil_iff_forall_not_mem.2 fun f hf ↦ ?_
    exact CsHeap.Unmarked.not_flows hunmarked ((hlists.mem_iff f).1 hf)
  exact ⟨rfl, rfl, hnil ▸ hfs⟩

/-- Nothing calls the only source. -/
def uncalledRules : TaintRules := { linkedRules with sources := [⟨"Main", "main()", "Circle"⟩] }

/-- Both circles are linked with and without rules, of which none has anything to report. -/
theorem taint_conservative_linked :
    Program.ofDeclarations linkedShapes = .ok linkedProgram ∧
    World.of linkedProgram ⟨2⟩ = .ok linkedWorld ∧ linkedProgram.InRange ∧
    ∃ s t, linkedWorld.solveSelected ⟨.callSite, 1, 1⟩ .allocationSite .lifo none = .ok s ∧
      linkedWorld.solveSelected ⟨.callSite, 1, 1⟩ .allocationSite .lifo
        (some (.resolve linkedProgram uncalledRules)) = .ok t ∧
      (TaintPlan.resolve linkedProgram uncalledRules).sources = [(⟨2⟩, ⟨2⟩)] ∧
      t.calls.edgeList.length = 3 ∧ s.facts .selected ≤ t.facts .selected ∧
      s = { t with watchers := ∅ } ∧ s.view = t.view ∧
      (TaintPlan.resolve linkedProgram uncalledRules).flows linkedProgram t = .ok [] := by
  have hrun : ((linkedWorld.selectedSetup ⟨.callSite, 1, 1⟩
      (some (.resolve linkedProgram uncalledRules))).runFor 13
      ((linkedWorld.selectedSetup ⟨.callSite, 1, 1⟩
        (some (.resolve linkedProgram uncalledRules))).initial
          { heap := { abstraction := .allocationSite } } .lifo ⟨2⟩) >>= fun t ↦
      .ok (t.pending.poll.isNone, t.calls.edgeList.map (·.callee.id))) =
        .ok (true, [⟨1⟩, ⟨1⟩, ⟨0⟩]) := by decide +kernel
  obtain ⟨t₁, ht₁, hread⟩ := bind_eq_ok.1 hrun
  obtain ⟨hfin, hcallees⟩ := Prod.mk.inj (Except.ok.inj hread)
  obtain ⟨s, t, hs, ht, -, -, hle, hsame⟩ := taint_conservative linkedProgram_built
    linkedWorld_accepted linkedProgram_inRange uncalledRules ⟨.callSite, 1, 1⟩ .allocationSite .lifo
  have hrun' := Setup.run_of_runFor ht₁ (Option.isNone_iff_eq_none.1 hfin)
  obtain rfl := Except.ok.inj (ht.symm.trans hrun')
  have hsources : (TaintPlan.resolve linkedProgram uncalledRules).sources = [(⟨2⟩, ⟨2⟩)] := by
    decide +kernel
  refine ⟨linkedProgram_built, linkedWorld_accepted, linkedProgram_inRange, s, t, hs, ht, hsources, ?_,
    hle, hsame fun edge hedge site _ ↦ .inl ?_⟩
  · simpa using congrArg List.length hcallees
  · have hmem : edge.callee.id ∈ t.calls.edgeList.map (·.callee.id) := List.mem_map_of_mem hedge
    simp only [hcallees, List.mem_cons, List.not_mem_nil, or_false] at hmem
    unfold TaintPlan.sourceClass?
    rw [hsources]
    rcases hmem with h | h | h <;> rw [h] <;> rfl

end PointsTo
