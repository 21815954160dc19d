import PointsTo.Proofs.Projection
import PointsTo.Proofs.Renaming

/-!
# Solvers in lockstep

A solver whose contexts and objects are those of another one, renamed, takes the same steps
(`Setup.Mirrors`, `Setup.Mirrors.runFor`). An analysis whose selector makes no contexts mirrors the
analysis without contexts in this way, with every object under the empty context. After any number of
steps the two states differ in names only, and so do the results (`selected_lockstep_plain`).
-/

namespace PointsTo

/-! ## Computations side by side -/

/-- Whenever both computations succeed, their results are related. -/
def Agree {ε α β : Type} (R : α → β → Prop) (x : Except ε α) (y : Except ε β) : Prop :=
  ∀ a b, x = .ok a → y = .ok b → R a b

namespace Agree

variable {ε α β γ δ : Type} {R : α → β → Prop}

theorem ok {a : α} {b : β} (h : R a b) : Agree R (.ok a : Except ε α) (.ok b) := by
  intro a' b' ha hb
  rwa [← Except.ok.inj ha, ← Except.ok.inj hb]

theorem refl (x : Except ε α) : Agree Eq x x := by
  intro a b ha hb
  exact Except.ok.inj (ha.symm.trans hb)

theorem of_map {x : Except ε α} {y : Except ε β} {k : α → β} (h : y = x.map k) :
    Agree (fun a b ↦ b = k a) x y := by
  intro a b ha hb
  rw [h, ha] at hb
  exact (Except.ok.inj hb).symm

theorem bind {R' : γ → δ → Prop} {x : Except ε α} {y : Except ε β} {k : α → Except ε γ}
    {l : β → Except ε δ} (h : Agree R x y) (hkl : ∀ a b, R a b → Agree R' (k a) (l b)) :
    Agree R' (x >>= k) (y >>= l) := by
  intro c d hc hd
  obtain ⟨a, ha, hc⟩ := bind_eq_ok.1 hc
  obtain ⟨b, hb, hd⟩ := bind_eq_ok.1 hd
  exact hkl a b (h a b ha hb) c d hc hd

/-- Two folds over lists that correspond, with a relation that every item keeps. -/
theorem foldlM {k : α → γ → Except ε α} {l : β → δ → Except ε β} (g : γ → δ)
    (hkl : ∀ a b c, R a b → Agree R (k a c) (l b (g c))) {a : α} {b : β} (hab : R a b)
    (cs : List γ) : Agree R (cs.foldlM k a) ((cs.map g).foldlM l b) := by
  induction cs generalizing a b with
  | nil => exact .ok hab
  | cons c cs ih =>
    rw [List.map_cons, List.foldlM_cons, List.foldlM_cons]
    exact .bind (hkl a b c hab) fun a' b' h ↦ ih h

end Agree

/-! ## Setups that mirror each other -/

section

variable {C C' : Type} {e e' : Entity} {σ σ' : Type}

/-- The second setup does what the first does, under other names: contexts are renamed by `f`, objects
keep their numbers, and the names given so far are related by `ρ`. Neither follows taint. -/
structure Setup.Mirrors (f : C → C') (ρ : σ → σ' → Prop) (S : Setup C e σ) (S' : Setup C' e' σ') :
    Prop where
  injective : Function.Injective f
  program : S'.program = S.program
  untainted : S.taint = none ∧ S'.taint = none
  start : S'.naming.start = f S.naming.start
  allocate : ∀ {n n'} m a, ρ n n' →
    Agree (fun r r' ↦ ρ r.1 r'.1 ∧ r'.2 = r.2.recast e')
      (S.naming.allocate S.program n m a) (S'.naming.allocate S.program n' (m.rename f) a)
  calleeContext : ∀ {n n'} c receiver, ρ n n' →
    Agree (fun r r' ↦ ρ r.1 r'.1 ∧ r'.2 = f r.2)
      (S.naming.calleeContext S.program n c receiver)
      (S'.naming.calleeContext S.program n' (c.rename f) (receiver.map (Id.recast e')))
  classOf : ∀ {n n'} o, ρ n n' →
    Agree Eq (S.naming.classOf n o) (S'.naming.classOf n' (o.recast e'))

variable {f : C → C'}

theorem Setup.accessFlows_rename (index : VarIndex) (ctx : C) (o : Id e) :
    accessFlows index (f ctx) (o.recast e') =
      (accessFlows index ctx o).map (Prod.map (Pointer.rename f e') (Pointer.rename f e')) := by
  simp only [accessFlows, List.map_append, List.map_map]
  rfl

theorem Setup.Mirrors.callFlows {ρ : σ → σ' → Prop} {S : Setup C e σ} {S' : Setup C' e' σ'}
    (h : S.Mirrors f ρ S') (site : CallSite) (ctx : C) (callee : MethodIn C) :
    S'.callFlows site (f ctx) (callee.rename f) =
      (S.callFlows site ctx callee).map (Prod.map (Pointer.rename f e') (Pointer.rename f e')) := by
  have hid : (callee.rename f).id = callee.id := rfl
  unfold Setup.callFlows
  rw [h.program, hid]
  cases S.program.body callee.id with
  | none => rfl
  | some body =>
    simp only [List.map_append, List.map_map]
    cases site.result with
    | none => rfl
    | some r =>
      simp only [List.map_map]
      rfl

variable [Contextual C] [Contextual C']

namespace FlowGraph.Renames

variable {g : FlowGraph C e} {g' : FlowGraph C' e'} (hg : g.Renames f g')

include hg

theorem propagate (i : PointerId) (delta : PointsToSet e) :
    Agree (fun r r' ↦ r.1.Renames f r'.1 ∧ r'.2 = r.2.recast e')
      (g.propagate i delta) (g'.propagate i (delta.recast e')) := by
  unfold FlowGraph.propagate FlowGraph.pointsTo
  refine .bind (R := fun set set' ↦ set' = set.recast e') ?_ ?_
  · refine .bind (.of_map (hg.entry i)) ?_
    rintro n - rfl
    exact .ok rfl
  · rintro set - rfl
    exact .ok ⟨Table.Renames.modify hg i.index fun n ↦ rfl, rfl⟩

end FlowGraph.Renames

namespace Setup.Mirrors

variable {ρ : σ → σ' → Prop} {S : Setup C e σ} {S' : Setup C' e' σ'} (h : S.Mirrors f ρ S')
  {s : State C e σ} {t : State C' e' σ'}

include h

theorem connect (hst : s.Renames f ρ t) (c : SiteIn C) (site : CallSite) (callee : MethodIn C) :
    (S.connect c site callee s).Renames f ρ
      (S'.connect (c.rename f) site (callee.rename f) t) := by
  obtain ⟨hcalls, hfresh⟩ := hst.calls.addEdge h.injective ⟨site.kind, c, callee⟩
  have hst' : { s with calls := (s.calls.addEdge ⟨site.kind, c, callee⟩).1 }.Renames f ρ
      { t with calls := (t.calls.addEdge ⟨site.kind, c.rename f, callee.rename f⟩).1 } :=
    { hst with calls := hcalls }
  have hfresh' : (t.calls.addEdge ⟨site.kind, c.rename f, callee.rename f⟩).2 =
      (s.calls.addEdge ⟨site.kind, c, callee⟩).2 := hfresh
  unfold Setup.connect
  simp only [hfresh']
  cases (s.calls.addEdge ⟨site.kind, c, callee⟩).2 with
  | false => exact hst'
  | true =>
    have hlinked := (hst'.reach h.injective callee).linkAll h.injective (S.callFlows site c.ctx callee)
    rwa [← h.callFlows] at hlinked

theorem sendReceiver (hst : s.Renames f ρ t) (callee : MethodIn C) (receiver : Option (Id e)) :
    (S.sendReceiver callee receiver s).Renames f ρ
      (S'.sendReceiver (callee.rename f) (receiver.map (Id.recast e')) t) := by
  have hid : (callee.rename f).id = callee.id := rfl
  unfold Setup.sendReceiver
  rw [h.program, hid]
  cases receiver with
  | none => exact hst
  | some o =>
    cases S.program.thisVar callee.id with
    | none => exact hst
    | some this => exact hst.seed h.injective (.var callee.ctx this) o

theorem call (hst : s.Renames f ρ t) (c : SiteIn C) (callee : MethodId)
    (receiver : Option (VarId × Id e)) :
    Agree (State.Renames f ρ) (S.call c callee receiver s)
      (S'.call (c.rename f) callee (receiver.map (Prod.map id (Id.recast e'))) t) := by
  have hreceiver : (receiver.map (Prod.map id (Id.recast e'))).map Prod.snd =
      (receiver.map Prod.snd).map (Id.recast e') := by
    rw [Option.map_map, Option.map_map]
    rfl
  unfold Setup.call
  rw [hreceiver, h.program]
  refine .bind (.refl (S.program.callSite c.id)) ?_
  rintro site - rfl
  refine .bind (h.calleeContext c (receiver.map Prod.snd) hst.names) ?_
  rintro ⟨n, ctx⟩ ⟨n', -⟩ ⟨hn, rfl⟩
  -- Without taint, nothing is let in and nothing is handed on.
  simp only [Setup.letIn, Setup.transfer, h.untainted.1, h.untainted.2, Option.bind_none]
  exact .ok (h.connect (h.sendReceiver (hst.withNames hn) ⟨ctx, callee⟩ _) c site ⟨ctx, callee⟩)

theorem staticCall (hst : s.Renames f ρ t) (c : SiteIn C) :
    Agree (State.Renames f ρ) (S.staticCall c s) (S'.staticCall (c.rename f) t) := by
  unfold Setup.staticCall
  rw [h.program]
  refine .bind (.refl (S.program.callee none c.id)) ?_
  rintro callee - rfl
  cases callee with
  | none => exact .ok hst
  | some callee => exact h.call hst c callee none

theorem receiverCall (hst : s.Renames f ρ t) (ctx : C) (v : VarId) (o : Id e) (cls : ClassId)
    (c : CallSiteId) :
    Agree (State.Renames f ρ) (S.receiverCall ctx v o cls s c)
      (S'.receiverCall (f ctx) v (o.recast e') cls t c) := by
  unfold Setup.receiverCall
  rw [h.program]
  refine .bind (.refl (S.program.callee (some cls) c)) ?_
  rintro callee - rfl
  cases callee with
  | none => exact .ok hst
  | some callee => exact h.call hst ⟨ctx, c⟩ callee (some (v, o))

/-- Statements do the same on both sides, or fail on both. -/
theorem processStmt (hst : s.Renames f ρ t) (m : MethodIn C) (stmt : Stmt) :
    Agree (State.Renames f ρ) (S.processStmt m s stmt) (S'.processStmt (m.rename f) t stmt) := by
  cases stmt with
  | alloc lhs site =>
    unfold Setup.processStmt
    rw [h.program]
    refine .bind (h.allocate m site hst.names) ?_
    rintro ⟨n, o⟩ ⟨n', -⟩ ⟨hn, rfl⟩
    exact .ok ((hst.withNames hn).seed h.injective (.var m.ctx lhs) o)
  | copy lhs rhs => exact .ok (hst.link h.injective (.var m.ctx rhs) (.var m.ctx lhs))
  | loadStatic lhs field => exact .ok (hst.link h.injective (.staticField field) (.var m.ctx lhs))
  | storeStatic field rhs => exact .ok (hst.link h.injective (.var m.ctx rhs) (.staticField field))
  | invoke c =>
    unfold Setup.processStmt
    rw [h.program]
    refine .bind (.refl (S.program.callSite c)) ?_
    rintro site - rfl
    by_cases hkind : site.kind = .static
    · rw [if_pos hkind, if_pos hkind]
      exact h.staticCall hst ⟨m.ctx, c⟩
    · rw [if_neg hkind, if_neg hkind]
      exact .ok hst
  | _ => exact .ok hst

theorem processMethod (hst : s.Renames f ρ t) (m : MethodIn C) :
    Agree (State.Renames f ρ) (S.processMethod m s) (S'.processMethod (m.rename f) t) := by
  have hid : (m.rename f).id = m.id := rfl
  unfold Setup.processMethod
  rw [h.program, hid]
  cases S.program.body m.id with
  | none => exact .ok hst
  | some body =>
    have hfold := Agree.foldlM (R := State.Renames f ρ) id
      (fun _ _ stmt hst ↦ h.processStmt hst m stmt) hst body.stmts
    rwa [List.map_id] at hfold

theorem objectArrives (hst : s.Renames f ρ t) (ctx : C) (v : VarId) (o : Id e) :
    Agree (State.Renames f ρ) (S.objectArrives ctx v s o)
      (S'.objectArrives (f ctx) v t (o.recast e')) := by
  unfold Setup.objectArrives
  rw [h.program]
  refine .bind (.refl (S.program.var v)) ?_
  rintro info - rfl
  have hlinked := hst.linkAll h.injective (Setup.accessFlows info.index ctx o)
  rw [← Setup.accessFlows_rename] at hlinked
  refine .bind (h.classOf o hlinked.names) ?_
  rintro cls - rfl
  have hfold := Agree.foldlM (R := State.Renames f ρ) id
    (fun _ _ c hst ↦ h.receiverCall hst ctx v o cls c) hlinked info.index.invokes
  rwa [List.map_id] at hfold

/-- Objects that arrive are new on both sides or on neither, and are sent on to the same nodes. -/
theorem processObjects (hst : s.Renames f ρ t) (i : PointerId) (delta : PointsToSet e) :
    Agree (State.Renames f ρ) (S.processObjects i delta s)
      (S'.processObjects i (delta.recast e') t) := by
  unfold Setup.processObjects
  refine .bind (hst.flow.propagate i delta) ?_
  rintro ⟨flow, added⟩ ⟨flow', -⟩ ⟨hflow, rfl⟩
  refine .bind (.of_map (hflow.entry i)) ?_
  rintro ⟨p, n⟩ - rfl
  have hst' : { s with flow }.Renames f ρ { t with flow := flow' } := { hst with flow := hflow }
  have hempty : (added.recast e').isEmpty = added.isEmpty := rfl
  simp only [hempty]
  cases added.isEmpty with
  | true => exact .ok hst'
  | false =>
    have hsent : { s with
          flow
          pending := n.succs.foldl (fun w j ↦ w.push (.propagate j added)) s.pending
          propagations := s.propagations + 1 }.Renames f ρ
        { t with
          flow := flow'
          pending := n.succs.foldl (fun w j ↦ w.push (.propagate j (added.recast e'))) t.pending
          propagations := t.propagations + 1 } :=
      { hst' with
        pending := hst.pushAll n.succs added
        propagations := congrArg (· + 1) hst.propagations }
    cases p with
    | var ctx v =>
      simp only [Setup.taintArrives, h.untainted.1, h.untainted.2]
      refine .bind (R := State.Renames f ρ) ?_ fun _ _ hst ↦ .ok hst
      have hfold := Agree.foldlM (R := State.Renames f ρ) (Id.recast e')
        (fun _ _ o hst ↦ h.objectArrives hst ctx v o) hsent added.toList
      rwa [← PointsToSet.toList_recast] at hfold
    | _ => exact .ok hsent

theorem process (hst : s.Renames f ρ t) (item : WorkItem C e) :
    Agree (State.Renames f ρ) (S.process s item) (S'.process t (item.rename f e')) := by
  cases item with
  | propagate i delta => exact h.processObjects hst i delta
  | reach m => exact h.processMethod hst m

end Setup.Mirrors

/-! ## Runs -/

namespace Setup.Mirrors

variable {ρ : σ → σ' → Prop} {S : Setup C e σ} {S' : Setup C' e' σ'} (h : S.Mirrors f ρ S')
  {s : State C e σ} {t : State C' e' σ'}

include h

/-- Both sides start alike, with the entry method under the context that each starts from. -/
theorem initial {names : σ} {names' : σ'} (hnames : ρ names names') (order : WorkOrder)
    (entry : MethodId) :
    (S.initial names order entry).Renames f ρ (S'.initial names' order entry) := by
  have hempty : CallGraph.Renames f ({} : CallGraph C) ({} : CallGraph C') :=
    { entries := rfl
      reachable := Table.renames_empty
      edges := Table.renames_empty
      callees := Table.renames_empty
      callers := Table.renames_empty }
  have hstart : (⟨S'.naming.start, entry⟩ : MethodIn C') =
      (⟨S.naming.start, entry⟩ : MethodIn C).rename f := by
    rw [h.start]
    rfl
  unfold Setup.initial
  rw [hstart]
  refine State.Renames.reach ?_ h.injective _
  exact
    { names := hnames
      flow := Table.renames_empty
      calls := hempty.addEntry h.injective _
      pending := rfl
      iterations := rfl
      propagations := rfl }

/-- Whatever is taken next in the one run is taken next in the other. -/
theorem runFor (hst : s.Renames f ρ t) (n : Nat) :
    Agree (State.Renames f ρ) (S.runFor n s) (S'.runFor n t) := by
  induction n generalizing s t with
  | zero => exact .ok hst
  | succ n ih =>
    have hpoll := s.pending.poll_map (WorkItem.rename f e')
    rw [← hst.pending] at hpoll
    cases hnext : s.pending.poll with
    | none =>
      rw [hnext] at hpoll
      rw [Setup.runFor_of_finished hnext, Setup.runFor_of_finished hpoll]
      exact .ok hst
    | some next =>
      obtain ⟨item, rest⟩ := next
      rw [hnext] at hpoll
      have htaken : (s.taken rest).Renames f ρ (t.taken (rest.map (WorkItem.rename f e'))) :=
        { hst with
          pending := rfl
          iterations := congrArg (· + 1) hst.iterations }
      rw [Setup.runFor, Setup.runFor, Setup.poll_eq_some hnext, Setup.poll_eq_some hpoll]
      exact .bind (h.process htaken item) fun _ _ hst ↦ ih hst

end Setup.Mirrors

end

/-! ## Runs that return -/

namespace Setup.Mirrors

variable {C C' : Type} [Contextual C] [Contextual C'] {e e' : Entity} {σ σ' K K' O O' : Type}
  {f : C → C'} {ρ : σ → σ' → Prop} {S : Setup C e σ} {S' : Setup C' e' σ'} (h : S.Mirrors f ρ S')
  {R : Interpretation S K O} {R' : Interpretation S' K' O'} {names : σ} {names' : σ'}
  {entry : MethodId} {U : Facts K O} {U' : Facts K' O'} (hready : R.Ready names entry U)
  (hready' : R'.Ready names' entry U') (hnames : ρ names names') (order : WorkOrder)

include h hready hready' hnames

theorem lockstep (n : Nat) :
    ∃ s t, S.runFor n (S.initial names order entry) = .ok s ∧
      S'.runFor n (S'.initial names' order entry) = .ok t ∧ s.Renames f ρ t := by
  obtain ⟨s, hs⟩ := hready.runFor_ok order n
  obtain ⟨t, ht⟩ := hready'.runFor_ok order n
  exact ⟨s, t, hs, ht, h.runFor (h.initial hnames order entry) n s t hs ht⟩

/-- Both runs end, and at the same step. -/
theorem solve :
    ∃ s t, S.solve names order entry = .ok s ∧ S'.solve names' order entry = .ok t ∧
      s.Renames f ρ t := by
  obtain ⟨n, s, hs, hfin⟩ := hready.runFor_finishes order
  obtain ⟨s', t, hs', ht, hst⟩ := h.lockstep hready hready' hnames order n
  obtain rfl := Except.ok.inj (hs.symm.trans hs')
  have hfin' : t.pending.poll = none := by
    rw [hst.pending, WorkList.poll_map, hfin]
    rfl
  exact ⟨s, t, Setup.run_of_runFor hs hfin, Setup.run_of_runFor ht hfin', hst⟩

end Setup.Mirrors

/-! ## No contexts -/

/-- The selector makes no contexts. -/
def Selector.Contextless (s : Selector) : Prop := s.strategy = .insensitive ∨ s.k = 0

namespace ContextTable

theorem elements_start : start.elements .empty = .ok [] := by
  unfold elements
  rw [show start.sequences.key? ContextId.empty.index = some [] from Table.key?_intern_self _ _ _]

theorem truncate_start (k : Nat) : start.truncate .empty k = .ok (start, .empty) := by
  unfold truncate
  rw [elements_start]
  rfl

end ContextTable

namespace Selector

theorem heapContext_start (s : Selector) :
    s.heapContext .start .empty = .ok (.start, .empty) := by
  unfold heapContext
  cases s.strategy with
  | insensitive => rfl
  | callSite => exact ContextTable.truncate_start s.hk
  | object => exact ContextTable.truncate_start s.hk
  | type => exact ContextTable.truncate_start s.hk

/-- Callees stay in the empty context, and no context is added to the table. -/
theorem Contextless.calleeContext {s : Selector} (h : s.Contextless) {p : Program} {heap : Heap}
    {t t' : ContextTable} {c : CallSiteId} {receiver : Option CsObject} {ctx : ContextId}
    (heq : s.calleeContext p heap t ⟨.empty, c⟩ receiver = .ok (t', ctx)) : t' = t ∧ ctx = .empty := by
  have hpair : ∀ {x : Except UnknownId (ContextTable × ContextId)}, x = .ok (t, .empty) →
      x = .ok (t', ctx) → t' = t ∧ ctx = .empty := by
    intro x hx hx'
    rw [hx] at hx'
    exact ⟨congrArg Prod.fst (Except.ok.inj hx').symm, congrArg Prod.snd (Except.ok.inj hx').symm⟩
  obtain ⟨strategy, k, hk⟩ := s
  rcases h with rfl | rfl
  · exact hpair rfl heq
  · cases strategy with
    | insensitive => exact hpair rfl heq
    | callSite => exact hpair rfl heq
    | object =>
      cases receiver with
      | none => exact hpair rfl heq
      | some o => exact hpair rfl heq
    | type =>
      cases receiver with
      | none => exact hpair rfl heq
      | some o =>
        obtain ⟨cls, -, heq⟩ := bind_eq_ok.1 heq
        exact hpair rfl heq

end Selector

/-- The names `n` add nothing to the heap: there is the empty context only, and object `i` under it has
the number `i`. -/
structure Heap.Mirrored (heap : Heap) (n : CsHeap) : Prop where
  heap_eq : n.heap = heap
  contexts : n.contexts = .start
  objects : n.objects.keys = (List.range heap.size).map fun i ↦ ⟨.empty, ⟨i⟩⟩

namespace Heap

/-- Interning finds an object or adds one with the next number. -/
inductive Interned (heap heap' : Heap) (o : ObjectId) : Prop
  | found (same : heap' = heap) (known : o.index < heap.size)
  | added (size : heap'.size = heap.size + 1) (next : o.index = heap.size)

theorem interned (heap : Heap) (k : ObjectKey) (o : AbstractObject) :
    heap.Interned (heap.intern k o).1 (heap.intern k o).2 := by
  unfold Heap.intern
  cases hk : heap.objects.find? k with
  | some i =>
    rw [Table.intern_of_find? hk]
    exact .found rfl (Table.key?_lt (Table.find?_eq_some_iff.1 hk))
  | none =>
    rw [Table.intern_of_fresh hk]
    exact .added (Table.size_push _ _ _ hk) rfl

theorem interned_of_allocated {heap heap' : Heap} {p : Program} {a : AllocSiteId} {o : ObjectId}
    (h : heap.allocated p a = .ok (heap', o)) : heap.Interned heap' o := by
  obtain ⟨site, -, h⟩ := bind_eq_ok.1 h
  cases habstraction : heap.abstraction with
  | allocationSite =>
    simp only [habstraction] at h
    obtain ⟨rfl, rfl⟩ := Prod.mk.inj (Except.ok.inj h)
    exact heap.interned _ _
  | allocationType =>
    simp only [habstraction] at h
    obtain ⟨rfl, rfl⟩ := Prod.mk.inj (Except.ok.inj h)
    exact heap.interned _ _

namespace Mirrored

variable {heap : Heap} {n : CsHeap} (h : heap.Mirrored n)

include h

theorem key?_eq_some_iff {i : Nat} {named : CsObject} :
    n.objects.key? i = some named ↔ i < heap.size ∧ named = ⟨.empty, ⟨i⟩⟩ := by
  have hkey : n.objects.key? i = n.objects.keys[i]? := by
    simp [Table.key?, Table.keys, Table.nth?_eq_getElem?]
  rw [hkey, h.objects, List.getElem?_map, Option.map_eq_some_iff]
  constructor
  · rintro ⟨j, hj, rfl⟩
    obtain ⟨hi, rfl⟩ := List.getElem?_eq_some_iff.1 hj
    rw [List.length_range] at hi
    rw [List.getElem_range]
    exact ⟨hi, rfl⟩
  · rintro ⟨hi, rfl⟩
    exact ⟨i, List.getElem?_range hi, rfl⟩

theorem object {i : CsObjectId} {named : CsObject} (hi : n.object i = .ok named) :
    named = ⟨.empty, ⟨i.index⟩⟩ := by
  unfold CsNames.object at hi
  cases hkey : n.objects.key? i.index with
  | none => simp [hkey] at hi
  | some named' =>
    simp only [hkey, Except.ok.injEq] at hi
    rw [← hi]
    exact (h.key?_eq_some_iff.1 hkey).2

theorem size : n.objects.size = heap.size := by
  have hlength := congrArg List.length h.objects
  simpa [Table.keys, Table.toList, Table.size] using hlength

/-- An object that was interned in the heap gets the same number among the names. -/
theorem intern {heap' : Heap} {o : ObjectId} (ho : heap.Interned heap' o) :
    heap'.Mirrored ⟨(n.toCsNames.intern ⟨.empty, o⟩).1, heap'⟩ ∧
      (n.toCsNames.intern ⟨.empty, o⟩).2 = o.recast .csObject := by
  unfold CsNames.intern
  cases ho with
  | found same known =>
    have hfind : n.objects.find? ⟨.empty, o⟩ = some o.index :=
      Table.find?_eq_some_iff.2 (h.key?_eq_some_iff.2 ⟨known, rfl⟩)
    rw [Table.intern_of_find? hfind, same]
    exact ⟨⟨rfl, h.contexts, h.objects⟩, rfl⟩
  | added size next =>
    have hfresh : n.objects.find? ⟨.empty, o⟩ = none := by
      rw [Option.eq_none_iff_forall_ne_some]
      intro i hi
      obtain ⟨hlt, heq⟩ := h.key?_eq_some_iff.1 (Table.find?_eq_some_iff.1 hi)
      have hindex : o.index = i := congrArg (fun q : CsObject ↦ q.id.index) heq
      omega
    rw [Table.intern_of_fresh hfresh]
    refine ⟨⟨rfl, h.contexts, ?_⟩, ?_⟩
    · have ho : o = ⟨heap.size⟩ := Id.index_inj.1 next
      have hkeys : n.objects.toList.map Prod.fst = _ := h.objects
      simp only [Table.keys, Table.toList_push, List.map_append, hkeys, size, List.range_succ, ho]
      rfl
    · rw [h.size, ← next]
      rfl

end Mirrored

end Heap

/-- With a selector that makes no contexts, an analysis mirrors the one without contexts. -/
theorem World.mirrors (w : World) {selector : Selector} (hselector : selector.Contextless) :
    w.plainSetup.Mirrors (fun _ ↦ ContextId.empty) Heap.Mirrored (w.selectedSetup selector none) where
  injective _ _ _ := rfl
  program := rfl
  untainted := ⟨rfl, rfl⟩
  start := rfl
  allocate {heap n} m a hn := by
    change Agree _ (heap.allocated w.program a)
      (CsHeap.allocate selector w.program n (m.rename fun _ ↦ .empty) a)
    unfold CsHeap.allocate
    rw [hn.heap_eq, hn.contexts,
      show (m.rename fun _ ↦ ContextId.empty).ctx = .empty from rfl, selector.heapContext_start]
    cases hallocated : heap.allocated w.program a with
    | error u => exact fun _ _ hc ↦ nomatch hc
    | ok r =>
      have hstart : { n.toCsNames with contexts := .start } = n.toCsNames := by rw [← hn.contexts]
      obtain ⟨hmirrored, hnumber⟩ := hn.intern (Heap.interned_of_allocated hallocated)
      refine .ok ?_
      rw [hstart]
      exact ⟨hmirrored, hnumber⟩
  calleeContext {heap n} c receiver hn := by
    intro r r' hr hr'
    obtain rfl := Except.ok.inj hr
    obtain ⟨named, -, hr'⟩ := bind_eq_ok.1 hr'
    obtain ⟨⟨contexts, ctx⟩, hcallee, hr'⟩ := bind_eq_ok.1 hr'
    obtain ⟨rfl, rfl⟩ := hselector.calleeContext hcallee
    obtain rfl := Except.ok.inj hr'
    exact ⟨hn, rfl⟩
  classOf {heap n} o hn := by
    change Agree _ (heap.object o >>= fun object ↦ pure object.cls) (n.classOf (o.recast .csObject))
    intro cls cls' hcls hcls'
    obtain ⟨named, hnamed, hcls'⟩ := bind_eq_ok.1 hcls'
    rw [hn.object hnamed, hn.heap_eq] at hcls'
    exact Except.ok.inj (hcls.symm.trans hcls')

/-! ## Results -/

theorem mapM_recast {e : Entity} {objectOf : Id e → Except UnknownId ObjectId}
    (hobject : ∀ {i o}, objectOf i = .ok o → o.index = i.index) {l l' : List ObjectId}
    (h : (l.map (Id.recast e)).mapM objectOf = .ok l') : l = l' := by
  induction l generalizing l' with
  | nil =>
    obtain rfl := Except.ok.inj h
    rfl
  | cons i l ih =>
    rw [List.map_cons, List.mapM_cons] at h
    obtain ⟨o, hi, h⟩ := bind_eq_ok.1 h
    obtain ⟨os, hl, h⟩ := bind_eq_ok.1 h
    have ho : o = i := Id.index_inj.1 (hobject hi)
    rw [← Except.ok.inj h, ho, ih hl]

/-- Sets that differ in the names of their objects only are projected alike. -/
theorem VarSets.project_rename {C C' : Type} {e : Entity} {f : C → C'}
    {objectOf : Id e → Except UnknownId ObjectId}
    (hobject : ∀ {i o}, objectOf i = .ok o → o.index = i.index)
    (pointers : List (Pointer C .object × PointsToSet .object)) :
    Agree Eq (project pure pointers)
      (project objectOf (pointers.map (Prod.map (Pointer.rename f e) (PointsToSet.recast e)))) := by
  unfold project
  refine Agree.foldlM _ ?_ rfl pointers
  rintro sets - ⟨p, set⟩ rfl
  cases p with
  | var c v =>
    refine .bind (R := Eq) ?_ ?_
    · intro objects objects' hobjects hobjects'
      rw [List.mapM_pure, List.map_id'] at hobjects
      obtain rfl := Except.ok.inj hobjects
      rw [PointsToSet.toList_recast] at hobjects'
      exact mapM_recast hobject hobjects'
    · rintro objects - rfl
      exact .ok rfl
  | _ => exact .ok rfl

/-- States that differ in names only have the same view. -/
theorem State.Renames.view {s : CiState} {t : CsState}
    (h : s.Renames (fun _ ↦ ContextId.empty) Heap.Mirrored t) :
    Agree (fun V W ↦ W = { V with contextSensitive := true }) (CiState.view s) (CsState.view t) := by
  have hobject : ∀ {i o}, CsState.objectOf t i = .ok o → o.index = i.index := by
    intro i o ho
    obtain ⟨named, hnamed, ho⟩ := bind_eq_ok.1 ho
    rw [← Except.ok.inj ho, h.names.object hnamed]
  have hedges : t.calls.erasedEdges = s.calls.erasedEdges := by
    unfold CallGraph.erasedEdges CallGraph.edgeList
    rw [h.calls.edges.keys, List.map_map]
    rfl
  have hmethods : t.calls.erasedMethods = s.calls.erasedMethods := by
    unfold CallGraph.erasedMethods CallGraph.methods
    rw [h.calls.reachable.keys, List.map_map]
    rfl
  have hstats : t.stats t.names.heap.size t.names.contexts.size = s.stats s.names.size 1 := by
    unfold State.stats
    rw [h.iterations, h.propagations, h.flow.nodeCount, h.flow.edgeCount, h.calls.reachable.size,
      h.calls.edges.size, h.names.heap_eq, h.names.contexts]
    rfl
  unfold CiState.view CsState.view
  rw [h.flow.toList]
  refine .bind (VarSets.project_rename hobject s.flow.toList) ?_
  rintro sets - rfl
  refine .ok ?_
  rw [hstats, hedges, hmethods, h.names.heap_eq]

theorem CiState.contexts_of_view {s : CiState} {V : View} (h : s.view = .ok V) :
    V.stats.contexts = 1 := by
  obtain ⟨sets, -, h⟩ := bind_eq_ok.1 h
  rw [← Except.ok.inj h]
  rfl

/-! ## The two analyses -/

/-- On every accepted program, an analysis whose selector makes no contexts is the analysis without
contexts, step for step. After any number of steps the states differ in names only, objects having the
same numbers and standing under the empty context. Both end, after equally many steps, and their
results are the same, down to the counts and the order in which things were found. -/
theorem selected_lockstep_plain {ds : List Declaration} {p : Program} {entry : MethodId} {w : World}
    (hbuilt : Program.ofDeclarations ds = .ok p) (hworld : World.of p entry = .ok w)
    (hrange : p.InRange) {selector : Selector} (hselector : selector.Contextless)
    (abstraction : HeapAbstraction) (order : WorkOrder) :
    (∀ n, ∃ (s : CiState) (t : CsState),
      w.plainSetup.runFor n (w.plainSetup.initial { abstraction } order w.entry) = .ok s ∧
      (w.selectedSetup selector none).runFor n
        ((w.selectedSetup selector none).initial { heap := { abstraction } } order w.entry) = .ok t ∧
      s.Renames (fun _ ↦ ContextId.empty) Heap.Mirrored t) ∧
    ∃ (s : CiState) (t : CsState) (V : View),
      w.solvePlain abstraction order = .ok s ∧
      w.solveSelected selector abstraction order none = .ok t ∧
      s.Renames (fun _ ↦ ContextId.empty) Heap.Mirrored t ∧
      s.view = .ok V ∧ t.view = .ok { V with contextSensitive := true } ∧ V.stats.contexts = 1 := by
  obtain ⟨rfl, -⟩ := World.of_eq_ok hworld
  have hp : (World.mk p entry).program.Analysable := Program.analysable hbuilt hworld hrange
  have hnone : ∀ {P : TaintPlan → Prop} plan, (none : Option TaintPlan) = some plan → P plan :=
    fun _ h ↦ nomatch h
  have hplain := World.plain_ready hp abstraction
  have hselected := World.selected_ready hp selector abstraction hnone hnone
  have hmirrors := (World.mk p entry).mirrors hselector
  have hnames : Heap.Mirrored { abstraction } { heap := { abstraction } } := ⟨rfl, rfl, rfl⟩
  refine ⟨hmirrors.lockstep hplain hselected hnames order, ?_⟩
  obtain ⟨s, t, hs, ht, hst⟩ := hmirrors.solve hplain hselected hnames order
  obtain ⟨s', V, -, hs', hV, -⟩ := World.viewPlain hp abstraction order
  obtain ⟨t', W, -, ht', hW, -⟩ := World.viewSelected hp abstraction order selector
  obtain rfl := Except.ok.inj (hs.symm.trans hs')
  obtain rfl := Except.ok.inj (ht.symm.trans ht')
  obtain rfl := hst.view V W hV hW
  exact ⟨s, t, V, hs, ht, hst, hV, hW, CiState.contexts_of_view hV⟩

theorem selected_lockstep_plain_linked :
    Program.ofDeclarations linkedShapes = .ok linkedProgram ∧
    World.of linkedProgram ⟨2⟩ = .ok linkedWorld ∧ linkedProgram.InRange ∧
    Selector.Contextless ⟨.object, 0, 3⟩ ∧
    (∀ n, ∃ (s : CiState) (t : CsState),
      linkedWorld.plainSetup.runFor n
        (linkedWorld.plainSetup.initial { abstraction := .allocationSite } .lifo ⟨2⟩) = .ok s ∧
      (linkedWorld.selectedSetup ⟨.object, 0, 3⟩ none).runFor n
        ((linkedWorld.selectedSetup ⟨.object, 0, 3⟩ none).initial
          { heap := { abstraction := .allocationSite } } .lifo ⟨2⟩) = .ok t ∧
      s.Renames (fun _ ↦ ContextId.empty) Heap.Mirrored t) ∧
    ∃ (s : CiState) (t : CsState) (V : View),
      linkedWorld.solvePlain .allocationSite .lifo = .ok s ∧
      linkedWorld.solveSelected ⟨.object, 0, 3⟩ .allocationSite .lifo none = .ok t ∧
      s.Renames (fun _ ↦ ContextId.empty) Heap.Mirrored t ∧
      s.view = .ok V ∧ t.view = .ok { V with contextSensitive := true } ∧ V.stats.contexts = 1 :=
  have hselector : Selector.Contextless ⟨.object, 0, 3⟩ := .inr rfl
  ⟨linkedProgram_built, linkedWorld_accepted, linkedProgram_inRange, hselector,
    selected_lockstep_plain linkedProgram_built linkedWorld_accepted linkedProgram_inRange hselector
      .allocationSite .lifo⟩

end PointsTo
