import PointsTo.Proofs.Heap

/-!
# Contexts by the sequences they stand for

With contexts, names stand for sequences of steps and for objects under such sequences. Names are
valid (`CsHeap.Valid`) if everything they refer to is named as well, which every operation preserves.
Then a selector chooses just the sequences that the domain says, and `Meaning.selected` is lawful.
-/

namespace PointsTo

/-! ## Lists -/

theorem mapM_eq_some_iff {α β : Type} {f : α → Option β} {as : List α} {bs : List β} :
    as.mapM f = some bs ↔ as.map f = bs.map some := by
  induction as generalizing bs with
  | nil => cases bs <;> simp
  | cons a as ih =>
    cases bs with
    | nil => cases f a <;> simp [List.mapM_cons, Option.bind_eq_some_iff]
    | cons b bs => simp [List.mapM_cons, Option.bind_eq_some_iff, ih, and_comm]

theorem rtake_of_length_le {α : Type} {k : Nat} {as : List α} (h : as.length ≤ k) :
    as.rtake k = as := by
  rw [List.rtake, Nat.sub_eq_zero_of_le h, List.drop_zero]

theorem map_rtake {α β : Type} (f : α → β) (k : Nat) (as : List α) :
    (as.rtake k).map f = (as.map f).rtake k := by
  rw [List.rtake, List.rtake, List.map_drop, List.length_map]

/-! ## Names -/

namespace ContextElem

theorem step_inj {p : Program} {abstraction : HeapAbstraction} {h : Heap}
    (hh : h.Keyed p abstraction) {a b : ContextElem} {x : ContextStep} (ha : a.step h = some x)
    (hb : b.step h = some x) : a = b := by
  cases a <;> cases b <;> simp only [step, Option.map_eq_some_iff, Option.some.injEq] at ha hb
  case object.object i j =>
    obtain ⟨o, hi, rfl⟩ := ha
    obtain ⟨o', hj, heq⟩ := hb
    obtain rfl := ContextStep.object.inj heq
    rw [hh.get?_inj hi hj]
  all_goals grind

theorem map_step_inj {p : Program} {abstraction : HeapAbstraction} {h : Heap}
    (hh : h.Keyed p abstraction) {as bs : List ContextElem} {xs : List ContextStep}
    (ha : as.map (step h) = xs.map some) (hb : bs.map (step h) = xs.map some) : as = bs := by
  induction xs generalizing as bs with
  | nil =>
    rw [List.map_nil, List.map_eq_nil_iff] at ha hb
    rw [ha, hb]
  | cons x xs ih =>
    obtain ⟨a, as, rfl, hax, hasxs⟩ := List.map_eq_cons_iff.1 ha
    obtain ⟨b, bs, rfl, hbx, hbsxs⟩ := List.map_eq_cons_iff.1 hb
    rw [step_inj hh hax hbx, ih hasxs hbsxs]

theorem step_mono {h h' : Heap} (hh : ∀ {i o}, h.get? i = some o → h'.get? i = some o)
    {a : ContextElem} {x : ContextStep} (ha : a.step h = some x) : a.step h' = some x := by
  cases a with
  | callSite c => exact ha
  | cls c => exact ha
  | object i =>
    obtain ⟨o, hi, rfl⟩ := Option.map_eq_some_iff.1 ha
    exact Option.map_eq_some_iff.2 ⟨o, hh hi, rfl⟩

theorem map_step_mono {h h' : Heap} (hh : ∀ {i o}, h.get? i = some o → h'.get? i = some o)
    {as : List ContextElem} {xs : List ContextStep} (ha : as.map (step h) = xs.map some) :
    as.map (step h') = xs.map some := by
  induction xs generalizing as with
  | nil =>
    rw [List.map_nil, List.map_eq_nil_iff] at ha
    rw [ha]
    rfl
  | cons x xs ih =>
    obtain ⟨a, as, rfl, hax, hasxs⟩ := List.map_eq_cons_iff.1 ha
    rw [List.map_cons, List.map_cons, step_mono hh hax, ih hasxs]

end ContextElem

namespace CsHeap

variable {p : Program} {abstraction : HeapAbstraction} {n n' : CsHeap}

theorem steps_eq_some_iff {c : ContextId} {xs : List ContextStep} :
    n.steps c = some xs ↔ ∃ es, n.contexts.sequences.key? c.index = some es ∧
      es.map (ContextElem.step n.heap) = xs.map some := by
  simp only [steps, Option.bind_eq_some_iff, mapM_eq_some_iff]

theorem heapObject_eq_some_iff {i : CsObjectId} {x : HeapObject} :
    n.heapObject i = some x ↔ ∃ named, n.objects.key? i.index = some named ∧
      n.steps named.ctx = some x.ctx ∧ n.heap.get? named.id = some x.object := by
  obtain ⟨ctx, object⟩ := x
  simp [heapObject, Option.bind_eq_some_iff]

theorem elements_eq_ok {c : ContextId} {es : List ContextElem}
    (h : n.contexts.sequences.key? c.index = some es) : n.contexts.elements c = .ok es := by
  simp [ContextTable.elements, h]

theorem object_eq_ok {i : CsObjectId} {named : CsObject} (h : n.objects.key? i.index = some named) :
    n.object i = .ok named := by
  simp [CsNames.object, h]

/-- Whatever a name refers to is named as well, and number 0 is the empty context. -/
structure Valid (n : CsHeap) (p : Program) (abstraction : HeapAbstraction) : Prop where
  keyed : n.heap.Keyed p abstraction
  empty : n.contexts.sequences.key? 0 = some []
  contexts : ∀ {i es}, n.contexts.sequences.key? i = some es →
    ∃ xs : List ContextStep, es.map (ContextElem.step n.heap) = xs.map some
  objects : ∀ {i named}, n.objects.key? i = some named →
    (∃ xs, n.steps named.ctx = some xs) ∧ ∃ o, n.heap.get? named.id = some o

theorem Valid.steps_empty (hn : n.Valid p abstraction) : n.steps .empty = some [] :=
  steps_eq_some_iff.2 ⟨[], hn.empty, rfl⟩

theorem valid_start (p : Program) (abstraction : HeapAbstraction) :
    Valid { heap := { abstraction } } p abstraction where
  keyed := Heap.keyed_empty p abstraction
  empty := Table.key?_intern_self ∅ [] ()
  contexts := by
    intro i es h
    rcases Table.key?_intern_iff.1 h with h | ⟨-, rfl⟩
    · simp at h
    · exact ⟨[], rfl⟩
  objects h := by simp at h

/-- Every name of `n` is a name of `n'`, for the same thing. -/
structure Extends (n n' : CsHeap) : Prop where
  heap : ∀ {i o}, n.heap.get? i = some o → n'.heap.get? i = some o
  contexts : ∀ {i es}, n.contexts.sequences.key? i = some es →
    n'.contexts.sequences.key? i = some es
  objects : ∀ {i x}, n.objects.key? i = some x → n'.objects.key? i = some x

theorem Extends.steps (h : n.Extends n') {c : ContextId} {xs : List ContextStep}
    (hc : n.steps c = some xs) : n'.steps c = some xs := by
  obtain ⟨es, hes, hxs⟩ := steps_eq_some_iff.1 hc
  exact steps_eq_some_iff.2 ⟨es, h.contexts hes, ContextElem.map_step_mono h.heap hxs⟩

theorem Extends.grows (h : n.Extends n') : Meaning.selected.Grows n n' where
  ctx := h.steps
  obj := by
    intro i x hx
    obtain ⟨named, hnamed, hctx, hobject⟩ := heapObject_eq_some_iff.1 hx
    exact heapObject_eq_some_iff.2 ⟨named, h.objects hnamed, h.steps hctx, h.heap hobject⟩

/-! ## Giving names -/

theorem Valid.withHeap (hn : n.Valid p abstraction) {heap : Heap} {i : ObjectId}
    {o : AbstractObject} (hh : n.heap.Holds p abstraction o heap i) :
    { n with heap }.Valid p abstraction ∧ n.Extends { n with heap } := by
  have hext : n.Extends { n with heap } := ⟨hh.get?, id, id⟩
  refine ⟨⟨hh.keyed, hn.empty, ?_, ?_⟩, hext⟩
  · intro c es hes
    obtain ⟨xs, hxs⟩ := hn.contexts hes
    exact ⟨xs, ContextElem.map_step_mono hh.get? hxs⟩
  · intro j named hnamed
    obtain ⟨⟨xs, hxs⟩, o', ho'⟩ := hn.objects hnamed
    exact ⟨⟨xs, hext.steps hxs⟩, o', hh.get? ho'⟩

theorem Valid.nameContext (hn : n.Valid p abstraction) {es : List ContextElem}
    {xs : List ContextStep} (hes : es.map (ContextElem.step n.heap) = xs.map some) :
    { n with contexts := (n.contexts.intern es).1 }.Valid p abstraction ∧
      n.Extends { n with contexts := (n.contexts.intern es).1 } ∧
      { n with contexts := (n.contexts.intern es).1 }.steps (n.contexts.intern es).2 = some xs := by
  have hext : n.Extends { n with contexts := (n.contexts.intern es).1 } :=
    ⟨id, Table.key?_intern_of_key?, id⟩
  refine ⟨⟨hn.keyed, hext.contexts hn.empty, ?_, ?_⟩, hext, ?_⟩
  · intro c es' hes'
    rcases Table.key?_intern_iff.1 hes' with hes' | ⟨-, rfl⟩
    · exact hn.contexts hes'
    · exact ⟨xs, hes⟩
  · intro i named hnamed
    obtain ⟨⟨ys, hys⟩, ho⟩ := hn.objects hnamed
    exact ⟨⟨ys, hext.steps hys⟩, ho⟩
  · exact steps_eq_some_iff.2 ⟨es, Table.key?_intern_self _ es (), hes⟩

theorem Valid.nameObject (hn : n.Valid p abstraction) (named : CsObject) {x : HeapObject}
    (hctx : n.steps named.ctx = some x.ctx) (hobject : n.heap.get? named.id = some x.object) :
    { n with toCsNames := (n.intern named).1 }.Valid p abstraction ∧
      n.Extends { n with toCsNames := (n.intern named).1 } ∧
      { n with toCsNames := (n.intern named).1 }.heapObject (n.intern named).2 = some x := by
  have hext : n.Extends { n with toCsNames := (n.intern named).1 } :=
    ⟨id, id, Table.key?_intern_of_key?⟩
  refine ⟨⟨hn.keyed, hn.empty, hn.contexts, ?_⟩, hext, ?_⟩
  · intro i named' hnamed'
    rcases Table.key?_intern_iff.1 hnamed' with hnamed' | ⟨-, rfl⟩
    · exact hn.objects hnamed'
    · exact ⟨⟨x.ctx, hctx⟩, x.object, hobject⟩
  · exact heapObject_eq_some_iff.2 ⟨named, Table.key?_intern_self _ named (), hctx, hobject⟩

/-! ## Choosing contexts -/

/-- What it takes that a choice of contexts `t`, `c` stands for the sequence `xs`. -/
structure Chosen (n : CsHeap) (p : Program) (abstraction : HeapAbstraction) (xs : List ContextStep)
    (t : ContextTable) (c : ContextId) : Prop where
  valid : { n with contexts := t }.Valid p abstraction
  grows : n.Extends { n with contexts := t }
  steps : { n with contexts := t }.steps c = some xs

theorem Valid.chosen (hn : n.Valid p abstraction) {c : ContextId} {xs : List ContextStep}
    (hc : n.steps c = some xs) : n.Chosen p abstraction xs n.contexts c :=
  ⟨hn, ⟨id, id, id⟩, hc⟩

theorem Valid.append (hn : n.Valid p abstraction) {c : ContextId} {xs : List ContextStep}
    (hc : n.steps c = some xs) {a : ContextElem} {x : ContextStep} (ha : a.step n.heap = some x)
    (k : Nat) : ∃ t c', n.contexts.append c a k = .ok (t, c') ∧
      n.Chosen p abstraction ((xs ++ [x]).rtake k) t c' := by
  cases k with
  | zero =>
    rw [List.rtake_zero]
    exact ⟨n.contexts, .empty, rfl, hn.chosen hn.steps_empty⟩
  | succ k =>
    obtain ⟨es, hes, hxs⟩ := steps_eq_some_iff.1 hc
    have hstep : (es.rtake k ++ [a]).map (ContextElem.step n.heap) =
        ((xs ++ [x]).rtake (k + 1)).map some := by
      rw [List.rtake_concat_succ, List.map_append, List.map_append, map_rtake, map_rtake,
        hxs, List.map_singleton, List.map_singleton, ha]
    obtain ⟨hvalid, hext, hsteps⟩ := hn.nameContext hstep
    refine ⟨_, _, ?_, hvalid, hext, hsteps⟩
    simp [ContextTable.append, List.rtake, elements_eq_ok hes, bind, Except.bind, pure, Except.pure]

theorem Valid.truncate (hn : n.Valid p abstraction) {c : ContextId} {xs : List ContextStep}
    (hc : n.steps c = some xs) (k : Nat) : ∃ t c', n.contexts.truncate c k = .ok (t, c') ∧
      n.Chosen p abstraction (xs.rtake k) t c' := by
  obtain ⟨es, hes, hxs⟩ := steps_eq_some_iff.1 hc
  have hlength : es.length = xs.length := by simpa using congrArg List.length hxs
  by_cases hk : es.length ≤ k
  · refine ⟨n.contexts, c, ?_, ?_⟩
    · simp [ContextTable.truncate, elements_eq_ok hes, hk, bind, Except.bind, pure, Except.pure]
    · rw [rtake_of_length_le (hlength ▸ hk)]
      exact hn.chosen hc
  · have hstep : (es.rtake k).map (ContextElem.step n.heap) = (xs.rtake k).map some := by
      rw [map_rtake, map_rtake, hxs]
    obtain ⟨hvalid, hext, hsteps⟩ := hn.nameContext hstep
    refine ⟨_, _, ?_, hvalid, hext, hsteps⟩
    simp [ContextTable.truncate, List.rtake, elements_eq_ok hes, hk, bind, Except.bind, pure,
      Except.pure]

theorem Valid.heapContext (hn : n.Valid p abstraction) (s : Selector) {c : ContextId}
    {xs : List ContextStep} (hc : n.steps c = some xs) :
    ∃ t c', s.heapContext n.contexts c = .ok (t, c') ∧
      n.Chosen p abstraction (s.heapSteps xs) t c' := by
  obtain ⟨strategy, k, hk⟩ := s
  cases strategy with
  | insensitive => exact ⟨n.contexts, .empty, rfl, hn.chosen hn.steps_empty⟩
  | callSite => exact hn.truncate hc hk
  | object => exact hn.truncate hc hk
  | type => exact hn.truncate hc hk

/-- The allocator of an object is found if containers of allocations are methods of the program. -/
theorem Valid.allocator (hn : n.Valid p abstraction)
    (hmethods : ∀ {a site}, p.allocSite a = .ok site →
      ∃ m, p.hierarchy.method site.container = .ok m)
    {i : ObjectId} {o : AbstractObject} (hi : n.heap.get? i = some o) :
    Selector.allocator p n.heap i = .ok (o.allocator p) := by
  cases hcontainer : o.container with
  | none =>
    simp [Selector.allocator, Heap.object_eq_ok hi, hcontainer, AbstractObject.allocator, bind,
      Except.bind, pure, Except.pure]
  | some m =>
    obtain ⟨a, site, hsite, rfl⟩ := hn.keyed.container hi hcontainer
    obtain ⟨info, hinfo⟩ := hmethods hsite
    have hget : p.hierarchy.methods[site.container.index]? = some info := Id.lookup_eq_ok_iff.1 hinfo
    simp [Selector.allocator, Heap.object_eq_ok hi, hcontainer, hinfo, AbstractObject.allocator, hget,
      bind, Except.bind, pure, Except.pure]

/-- Each strategy selects a context that stands for the steps it is to have, whether these go on
from the caller or from the receiver. -/
theorem Valid.selectCallee (hn : n.Valid p abstraction)
    (hmethods : ∀ {a site}, p.allocSite a = .ok site →
      ∃ m, p.hierarchy.method site.container = .ok m)
    (s : Selector) {id : SiteIn ContextId} {xs : List ContextStep} (hc : n.steps id.ctx = some xs)
    {receiver : Option CsObject} {x : Option HeapObject}
    (hr : ∀ named, receiver = some named → ∃ y, x = some y ∧ n.steps named.ctx = some y.ctx ∧
      n.heap.get? named.id = some y.object)
    (hnone : receiver = none → x = none) :
    ∃ t c', s.calleeContext p n.heap n.contexts id receiver = .ok (t, c') ∧
      n.Chosen p abstraction (s.calleeSteps p xs id.id x) t c' := by
  obtain ⟨strategy, k, hk⟩ := s
  cases strategy with
  | insensitive =>
    refine ⟨n.contexts, .empty, ?_, ?_⟩
    · simp [Selector.calleeContext, pure, Except.pure]
    · exact hn.chosen hn.steps_empty
  | callSite =>
    obtain ⟨t, c', happend, hchosen⟩ := hn.append hc (a := .callSite id.id) rfl k
    exact ⟨t, c', by simp [Selector.calleeContext, happend], hchosen⟩
  | object =>
    cases receiver with
    | none =>
      rw [hnone rfl]
      exact ⟨n.contexts, id.ctx, rfl, hn.chosen hc⟩
    | some named =>
      obtain ⟨y, rfl, hctx, hobject⟩ := hr named rfl
      have hstep : (ContextElem.object named.id).step n.heap = some (.object y.object) := by
        simp [ContextElem.step, hobject]
      obtain ⟨t, c', happend, hchosen⟩ := hn.append hctx hstep k
      exact ⟨t, c', by simp [Selector.calleeContext, happend], hchosen⟩
  | type =>
    cases receiver with
    | none =>
      rw [hnone rfl]
      exact ⟨n.contexts, id.ctx, rfl, hn.chosen hc⟩
    | some named =>
      obtain ⟨y, rfl, hctx, hobject⟩ := hr named rfl
      have hallocator := hn.allocator hmethods hobject
      obtain ⟨t, c', happend, hchosen⟩ := hn.append hctx (a := .cls (y.object.allocator p)) rfl k
      refine ⟨t, c', ?_, hchosen⟩
      simp [Selector.calleeContext, hallocator, happend, bind, Except.bind]

/-! ## Laws -/

theorem Valid.steps_inj (hn : n.Valid p abstraction) {c d : ContextId} {xs : List ContextStep}
    (hc : n.steps c = some xs) (hd : n.steps d = some xs) : c = d := by
  obtain ⟨es, hes, hxs⟩ := steps_eq_some_iff.1 hc
  obtain ⟨es', hes', hxs'⟩ := steps_eq_some_iff.1 hd
  obtain rfl := ContextElem.map_step_inj hn.keyed hxs hxs'
  exact Id.index_inj.1 (Table.key?_inj hes hes')

theorem Valid.heapObject_inj (hn : n.Valid p abstraction) {i j : CsObjectId} {x : HeapObject}
    (hi : n.heapObject i = some x) (hj : n.heapObject j = some x) : i = j := by
  obtain ⟨⟨c, o⟩, hnamed, hctx, hobject⟩ := heapObject_eq_some_iff.1 hi
  obtain ⟨⟨c', o'⟩, hnamed', hctx', hobject'⟩ := heapObject_eq_some_iff.1 hj
  obtain rfl : c = c' := hn.steps_inj hctx hctx'
  obtain rfl : o = o' := hn.keyed.get?_inj hobject hobject'
  exact Id.index_inj.1 (Table.key?_inj hnamed hnamed')

/-- The object, the heap context and the pair of them are named one after the other. -/
theorem Valid.allocate (hn : n.Valid p abstraction) (s : Selector) {m : MethodIn ContextId}
    {a : AllocSiteId} {site : AllocSite} {xs : List ContextStep} (hm : n.steps m.ctx = some xs)
    (hsite : p.allocSite a = .ok site) :
    ∃ n' i, n.allocate s p m a = .ok (n', i) ∧ n'.Valid p abstraction ∧ n.Extends n' ∧
      n'.heapObject i = some ⟨s.heapSteps xs, site.object abstraction a⟩ := by
  obtain ⟨heap, o, hallocated, hholds⟩ := hn.keyed.allocated hsite
  obtain ⟨hvalid₁, hext₁⟩ := hn.withHeap hholds
  obtain ⟨t, c, hcontext, hchosen⟩ := hvalid₁.heapContext s (hext₁.steps hm)
  have hcontext' : s.heapContext n.contexts m.ctx = .ok (t, c) := hcontext
  obtain ⟨hvalid₃, hext₃, hobject⟩ :=
    hchosen.valid.nameObject ⟨c, o⟩ (x := ⟨s.heapSteps xs, site.object abstraction a⟩)
      hchosen.steps hholds.self
  refine ⟨_, _, ?_, hvalid₃, ?_, hobject⟩
  · simp [CsHeap.allocate, hallocated, hcontext', bind, Except.bind, pure, Except.pure]
  · exact ⟨fun h ↦ hext₃.heap (hchosen.grows.heap (hext₁.heap h)),
      fun h ↦ hext₃.contexts (hchosen.grows.contexts (hext₁.contexts h)),
      fun h ↦ hext₃.objects (hchosen.grows.objects (hext₁.objects h))⟩

/-- The same for a receiver that is given by its number and has to be looked up. -/
theorem Valid.calleeContext (hn : n.Valid p abstraction)
    (hmethods : ∀ {a site}, p.allocSite a = .ok site →
      ∃ m, p.hierarchy.method site.container = .ok m)
    (s : Selector) {id : SiteIn ContextId} {xs : List ContextStep} (hc : n.steps id.ctx = some xs)
    {receiver : Option CsObjectId} {x : Option HeapObject}
    (hr : Meaning.selected.Receives n receiver x) :
    ∃ n' c, n.calleeContext s p id receiver = .ok (n', c) ∧ n'.Valid p abstraction ∧
      n.Extends n' ∧ n'.steps c = some (s.calleeSteps p xs id.id x) := by
  obtain ⟨receiver', hreceiver, hr', hnone⟩ : ∃ receiver', receiver.mapM n.object = .ok receiver' ∧
      (∀ named, receiver' = some named → ∃ y, x = some y ∧ n.steps named.ctx = some y.ctx ∧
        n.heap.get? named.id = some y.object) ∧ (receiver' = none → x = none) := by
    cases receiver with
    | none =>
      have hx : x = none := by simpa [Meaning.Receives, eq_comm] using hr
      exact ⟨none, rfl, by simp, fun _ ↦ hx⟩
    | some i =>
      obtain ⟨y, rfl⟩ : ∃ y, x = some y := by
        cases x with
        | none => simp [Meaning.Receives] at hr
        | some y => exact ⟨y, rfl⟩
      obtain ⟨named, hnamed, hctx, hobject⟩ :=
        heapObject_eq_some_iff.1 (Meaning.Receives.some_iff.1 hr)
      refine ⟨some named, ?_, fun named' h ↦ ?_, by simp⟩
      · simp [object_eq_ok hnamed]
      · obtain rfl := Option.some.inj h
        exact ⟨y, rfl, hctx, hobject⟩
  obtain ⟨t, c, hcontext, hchosen⟩ := hn.selectCallee hmethods s hc hr' hnone
  refine ⟨{ n with contexts := t }, c, ?_, hchosen.valid, hchosen.grows, hchosen.steps⟩
  simp [CsHeap.calleeContext, hreceiver, hcontext, bind, Except.bind, pure, Except.pure]

theorem Valid.mark (hn : n.Valid p abstraction) (source : CallSiteId) (cls : ClassId) :
    (n.mark source cls).1.Valid p abstraction ∧ n.Extends (n.mark source cls).1 ∧
      (n.mark source cls).1.heapObject (n.mark source cls).2 = some ⟨[], .mark source cls⟩ := by
  have hholds := hn.keyed.taint source cls
  obtain ⟨hvalid₁, hext₁⟩ := hn.withHeap hholds
  obtain ⟨hvalid₂, hext₂, hobject⟩ :=
    hvalid₁.nameObject ⟨.empty, (n.heap.taint source cls).2⟩ (x := ⟨[], .mark source cls⟩)
      hvalid₁.steps_empty hholds.self
  refine ⟨hvalid₂, ?_, hobject⟩
  exact ⟨fun h ↦ hext₂.heap (hext₁.heap h), fun h ↦ hext₂.contexts (hext₁.contexts h),
    fun h ↦ hext₂.objects (hext₁.objects h)⟩

end CsHeap

/-- With the contexts that a selector chooses, names mean what the domain says. -/
theorem Meaning.lawful_selected {p : Program}
    (hmethods : ∀ {a site}, p.allocSite a = .ok site →
      ∃ m, p.hierarchy.method site.container = .ok m)
    (abstraction : HeapAbstraction) (s : Selector) :
    Meaning.selected.Lawful (.selected s) p (.selected p abstraction s)
      (CsHeap.Valid · p abstraction) where
  ctx_inj hn hc hd := hn.steps_inj hc hd
  obj_inj hn hi hj := hn.heapObject_inj hi hj
  start hn := hn.steps_empty
  allocate := by
    intro n m a k site hn hm hsite
    obtain ⟨n', i, hallocate, hvalid, hext, hobject⟩ := hn.allocate s hm hsite
    exact ⟨n', i, hallocate, hvalid, hext.grows, hobject⟩
  calleeContext := by
    intro n id k receiver x hn hc hr
    obtain ⟨n', c, hcontext, hvalid, hext, hsteps⟩ := hn.calleeContext hmethods s hc hr
    exact ⟨n', c, hcontext, hvalid, hext.grows, hsteps⟩
  classOf := by
    intro n i x hn hx
    obtain ⟨named, hnamed, -, hobject⟩ := CsHeap.heapObject_eq_some_iff.1 hx
    simp [Naming.selected, CsHeap.classOf, CsHeap.object_eq_ok hnamed, Heap.object_eq_ok hobject,
      Domain.selected, bind, Except.bind, pure, Except.pure]
  mark := by
    intro n source cls hn
    obtain ⟨hvalid, hext, hobject⟩ := hn.mark source cls
    exact ⟨hvalid, hext.grows, hobject⟩
  sourceOf := by
    intro n i x hn hx
    obtain ⟨named, hnamed, -, hobject⟩ := CsHeap.heapObject_eq_some_iff.1 hx
    simp [Naming.selected, CsHeap.sourceOf, Heap.sourceOf, CsHeap.object_eq_ok hnamed,
      Heap.object_eq_ok hobject, Domain.selected, bind, Except.bind, pure, Except.pure]

end PointsTo
