import PointsTo.Proofs.Coarsening
import PointsTo.Proofs.Halting
import PointsTo.Proofs.Reached

/-!
# Contexts are call strings

Under call-site sensitivity a context is what is left of a path through the call graph: the last `k` calls
of a chain that leads from the entry method to the method in question (`CsState.Strung.elements_of_chain`).
Objects are allocated under the last `hk` of them. Marks apart, every object was allocated so by a
reachable method, and reachable methods have allocated all that they allocate
(`contexts_are_callStrings`).

Numbers are given to contexts and objects in the course of a run and never change what they stand for
(`CsHeap.Keeps`). So it is enough to look at the moment in which a number is given.
-/

namespace PointsTo

/-! ## Numbers that are given -/

namespace ContextTable

variable {t t' : ContextTable} {c c' : ContextId} {es : List ContextElem} {k : Nat}

theorem elements_eq_ok_iff : t.elements c = .ok es ↔ t.sequences.key? c.index = some es := by
  unfold elements
  split <;> simp_all

theorem elements_intern (es' : List ContextElem) (h : t.elements c = .ok es) :
    (t.intern es').1.elements c = .ok es :=
  elements_eq_ok_iff.2 (Table.key?_intern_of_key? (elements_eq_ok_iff.1 h))

theorem elements_intern_self (t : ContextTable) (es : List ContextElem) :
    (t.intern es).1.elements (t.intern es).2 = .ok es :=
  elements_eq_ok_iff.2 (Table.key?_intern_self _ es ())

/-- Whatever context `c` was in `t`, it is in `t'`. -/
def Keeps (t t' : ContextTable) : Prop := ∀ {c es}, t.elements c = .ok es → t'.elements c = .ok es

/-- Nothing is looked up if nothing is to be kept. -/
theorem append_eq_ok {a : ContextElem} (h : t.append c a k = .ok (t', c')) :
    t.Keeps t' ∧ (k = 0 ∧ c' = .empty ∨
      ∃ es, t.elements c = .ok es ∧ t'.elements c' = .ok ((es ++ [a]).rtake k)) := by
  cases k with
  | zero =>
    obtain ⟨rfl, rfl⟩ := Prod.mk.inj (Except.ok.inj h)
    exact ⟨fun h ↦ h, .inl ⟨rfl, rfl⟩⟩
  | succ k =>
    obtain ⟨es, hes, h⟩ := bind_eq_ok.1 h
    obtain ⟨rfl, rfl⟩ := Prod.mk.inj (Except.ok.inj h)
    refine ⟨elements_intern _, .inr ⟨es, hes, ?_⟩⟩
    rw [List.rtake_concat_succ]
    exact t.elements_intern_self _

theorem truncate_eq_ok (h : t.truncate c k = .ok (t', c')) :
    t.Keeps t' ∧ ∃ es, t.elements c = .ok es ∧ t'.elements c' = .ok (es.rtake k) := by
  obtain ⟨es, hes, h⟩ := bind_eq_ok.1 h
  have heq := Except.ok.inj h
  split at heq
  case isTrue hlength =>
    obtain ⟨rfl, rfl⟩ := Prod.mk.inj heq
    refine ⟨fun h ↦ h, es, hes, ?_⟩
    rw [rtake_of_length_le hlength]
    exact hes
  case isFalse =>
    obtain ⟨rfl, rfl⟩ := Prod.mk.inj heq
    exact ⟨elements_intern _, es, hes, t.elements_intern_self _⟩

end ContextTable

/-- The key of the object that stands for what a site allocates. -/
def AllocSite.key (abstraction : HeapAbstraction) (a : AllocSiteId) (site : AllocSite) : ObjectKey :=
  match abstraction with
  | .allocationSite => .site a
  | .allocationType => .cls site.cls

namespace Heap

variable {h h' : Heap} {p : Program} {i : ObjectId}

/-- Whatever key `i` has in `h`, it has in `h'`. -/
structure Keeps (h h' : Heap) : Prop where
  abstraction_eq : h'.abstraction = h.abstraction
  objects : ∀ {i key}, h.objects.key? i = some key → h'.objects.key? i = some key

theorem allocated_eq_ok {a : AllocSiteId} (hok : h.allocated p a = .ok (h', i)) :
    h.Keeps h' ∧ ∃ site, p.allocSite a = .ok site ∧
      h'.objects.key? i.index = some (site.key h.abstraction a) := by
  obtain ⟨site, hsite, hok⟩ := bind_eq_ok.1 hok
  have heq := Except.ok.inj hok
  cases habs : h.abstraction <;> rw [habs] at heq <;> obtain ⟨rfl, rfl⟩ := Prod.mk.inj heq
  · exact ⟨⟨rfl, Table.key?_intern_of_key?⟩, site, hsite, Table.key?_intern_self _ _ _⟩
  · exact ⟨⟨rfl, Table.key?_intern_of_key?⟩, site, hsite, Table.key?_intern_self _ _ _⟩

theorem Keyed.object_of_key {abstraction : HeapAbstraction} (hh : h.Keyed p abstraction)
    {key : ObjectKey} (hi : h.objects.key? i.index = some key) {o : AbstractObject}
    (hkey : key.object? p = some o) : h.object i = .ok o := by
  obtain ⟨o', ho'⟩ := Table.key?_eq_some_iff.1 hi
  obtain rfl := Option.some.inj (hkey.symm.trans (hh.object ho'))
  exact object_eq_ok (get?_eq_some_iff.2 ⟨key, ho'⟩)

end Heap

theorem AllocSite.object?_key {p : Program} {a : AllocSiteId} {site : AllocSite}
    (hsite : p.allocSite a = .ok site) (abstraction : HeapAbstraction) :
    (site.key abstraction a).object? p = some (site.object abstraction a) := by
  have hget : p.allocSites[a.index]? = some site := Id.lookup_eq_ok_iff.1 hsite
  cases abstraction with
  | allocationSite => simp [AllocSite.key, ObjectKey.object?, hget]
  | allocationType => rfl

namespace CsHeap

variable {n n' : CsHeap} {p : Program} {k hk : Nat}

/-- Numbers that stand for something go on to stand for it. -/
structure Keeps (n n' : CsHeap) : Prop where
  heap : n.heap.Keeps n'.heap
  contexts : n.contexts.Keeps n'.contexts
  objects : ∀ {i named}, n.object i = .ok named → n'.object i = .ok named

theorem Keeps.refl (n : CsHeap) : n.Keeps n := ⟨⟨rfl, id⟩, fun h ↦ h, id⟩

theorem Keeps.trans {n₁ : CsHeap} (h : n.Keeps n₁) (h' : n₁.Keeps n') : n.Keeps n' :=
  ⟨⟨h'.heap.abstraction_eq.trans h.heap.abstraction_eq, fun hi ↦ h'.heap.objects (h.heap.objects hi)⟩,
    fun hc ↦ h'.contexts (h.contexts hc), fun hi ↦ h'.objects (h.objects hi)⟩

theorem object_eq_ok_iff {i : CsObjectId} {named : CsObject} :
    n.object i = .ok named ↔ n.objects.key? i.index = some named := by
  unfold CsNames.object
  split <;> simp_all

/-- The context `c` is that of the caller followed by the call site, cut off to `k` elements. -/
def Enters (n : CsHeap) (k : Nat) (site : SiteIn ContextId) (c : ContextId) : Prop :=
  k = 0 ∧ c = .empty ∨ ∃ es, n.contexts.elements site.ctx = .ok es ∧
    n.contexts.elements c = .ok (.rtake (es ++ [.callSite site.id]) k)

/-- The object `i` has the key of the site `a`, and its heap context is `c` cut off to `hk` elements. -/
def Allocates (n : CsHeap) (p : Program) (hk : Nat) (c : ContextId) (a : AllocSiteId)
    (i : CsObjectId) : Prop :=
  ∃ site named es, p.allocSite a = .ok site ∧ n.object i = .ok named ∧
    n.heap.objects.key? named.id.index = some (site.key n.heap.abstraction a) ∧
    n.contexts.elements c = .ok es ∧ n.contexts.elements named.ctx = .ok (es.rtake hk)

/-- The object `i` has the key of a taint mark. -/
def Marks (n : CsHeap) (i : CsObjectId) : Prop :=
  ∃ named source cls, n.object i = .ok named ∧
    n.heap.objects.key? named.id.index = some (.taint source cls)

section

variable (h : n.Keeps n')

include h

theorem Enters.keeps {site : SiteIn ContextId} {c : ContextId} (hc : n.Enters k site c) :
    n'.Enters k site c := by
  rcases hc with hzero | ⟨es, hes, hc⟩
  · exact .inl hzero
  · exact .inr ⟨es, h.contexts hes, h.contexts hc⟩

theorem Allocates.keeps {c : ContextId} {a : AllocSiteId} {i : CsObjectId}
    (hi : n.Allocates p hk c a i) : n'.Allocates p hk c a i := by
  obtain ⟨site, named, es, hsite, hnamed, hkey, hes, hctx⟩ := hi
  refine ⟨site, named, es, hsite, h.objects hnamed, ?_, h.contexts hes, h.contexts hctx⟩
  rw [h.heap.abstraction_eq]
  exact h.heap.objects hkey

theorem Marks.keeps {i : CsObjectId} (hi : n.Marks i) : n'.Marks i := by
  obtain ⟨named, source, cls, hnamed, hkey⟩ := hi
  exact ⟨named, source, cls, h.objects hnamed, h.heap.objects hkey⟩

end

theorem allocate_eq_ok {m : MethodIn ContextId} {a : AllocSiteId} {i : CsObjectId}
    (h : n.allocate ⟨.callSite, k, hk⟩ p m a = .ok (n', i)) :
    n.Keeps n' ∧ n'.Allocates p hk m.ctx a i := by
  obtain ⟨⟨heap, o⟩, hallocated, h⟩ := bind_eq_ok.1 h
  obtain ⟨⟨contexts, ctx⟩, hcontext, h⟩ := bind_eq_ok.1 h
  obtain ⟨rfl, rfl⟩ := Prod.mk.inj (Except.ok.inj h)
  obtain ⟨hheap, site, hsite, hkey⟩ := Heap.allocated_eq_ok hallocated
  obtain ⟨hcontexts, es, hes, hctx⟩ := ContextTable.truncate_eq_ok hcontext
  constructor
  · exact ⟨hheap, hcontexts, fun hi ↦
      object_eq_ok_iff.2 (Table.key?_intern_of_key? (object_eq_ok_iff.1 hi))⟩
  · refine ⟨site, ⟨ctx, o⟩, es, hsite, ?_, ?_, hcontexts hes, hctx⟩
    · exact object_eq_ok_iff.2 (Table.key?_intern_self _ _ ())
    · rw [hheap.abstraction_eq]
      exact hkey

theorem calleeContext_eq_ok {site : SiteIn ContextId} {receiver : Option CsObjectId} {c : ContextId}
    (h : n.calleeContext ⟨.callSite, k, hk⟩ p site receiver = .ok (n', c)) :
    n.Keeps n' ∧ n'.Enters k site c := by
  obtain ⟨receiver, -, h⟩ := bind_eq_ok.1 h
  obtain ⟨⟨contexts, ctx⟩, hcontext, h⟩ := bind_eq_ok.1 h
  obtain ⟨rfl, rfl⟩ := Prod.mk.inj (Except.ok.inj h)
  obtain ⟨hcontexts, henters⟩ := ContextTable.append_eq_ok hcontext
  refine ⟨⟨⟨rfl, id⟩, hcontexts, id⟩, ?_⟩
  rcases henters with hzero | ⟨es, hes, hctx⟩
  · exact .inl hzero
  · exact .inr ⟨es, hcontexts hes, hctx⟩

theorem keeps_mark (n : CsHeap) (source : CallSiteId) (cls : ClassId) :
    n.Keeps (n.mark source cls).1 :=
  ⟨⟨rfl, Table.key?_intern_of_key?⟩, fun h ↦ h, fun hi ↦
    object_eq_ok_iff.2 (Table.key?_intern_of_key? (object_eq_ok_iff.1 hi))⟩

theorem marks_mark (n : CsHeap) (source : CallSiteId) (cls : ClassId) :
    (n.mark source cls).1.Marks (n.mark source cls).2 :=
  ⟨⟨.empty, (n.heap.taint source cls).2⟩, source, cls,
    object_eq_ok_iff.2 (Table.key?_intern_self _ _ ()), Table.key?_intern_self _ _ _⟩

end CsHeap

/-! ## Along a run -/

/-- The object `i` is a taint mark, or a reachable method allocates it. -/
def CsState.Stocked (s : CsState) (p : Program) (hk : Nat) (i : CsObjectId) : Prop :=
  s.names.Marks i ∨ ∃ m body lhs a, s.Reaches m ∧ p.body m.id = some body ∧
    .alloc lhs a ∈ body.stmts ∧ s.names.Allocates p hk m.ctx a i

/-- Callees are entered under call strings, and objects come from where they are allocated. -/
structure CsState.Strung (s : CsState) (p : Program) (k hk : Nat) : Prop where
  empty : s.names.contexts.elements .empty = .ok []
  callees : ∀ {edge}, s.Calls edge → s.names.Enters k edge.site edge.callee.ctx
  objects : ∀ {q i}, s.Delivers q i → CsState.Stocked s p hk i

namespace CsState

variable {s s' s₁ : CsState} {p : Program} {k hk : Nat}

theorem Stocked.grows {i : CsObjectId} (h : Stocked s p hk i) (hgrows : s.Grows s')
    (hkeeps : s.names.Keeps s'.names) : Stocked s' p hk i := by
  rcases h with hmark | ⟨m, body, lhs, a, hm, hbody, hstmt, hi⟩
  · exact .inl (hmark.keeps hkeeps)
  · exact .inr ⟨m, body, lhs, a, hgrows.reaches hm, hbody, hstmt, hi.keeps hkeeps⟩

/-- If calls and objects that are new are as they should be, then all are. -/
theorem Strung.grows (h : Strung s p k hk) (hgrows : s.Grows s')
    (hkeeps : s.names.Keeps s'.names)
    (hcalls : ∀ {edge}, s'.Calls edge → s.Calls edge ∨ s'.names.Enters k edge.site edge.callee.ctx)
    (hobjects : ∀ {q i}, s'.Delivers q i → (∃ r, s.Delivers r i) ∨ Stocked s' p hk i) :
    Strung s' p k hk where
  empty := hkeeps.contexts h.empty
  callees he := by
    rcases hcalls he with he | he
    · exact (h.callees he).keeps hkeeps
    · exact he
  objects hd := by
    rcases hobjects hd with ⟨r, hr⟩ | hi
    · exact (h.objects hr).grows hgrows hkeeps
    · exact hi

theorem Strung.takes (h : Strung s p k hk) (htakes : s.Takes s₁) : Strung s₁ p k hk := by
  have hgrows := Setup.Takes.grows htakes
  cases htakes with
  | method hperm =>
    refine h.grows hgrows (.refl _) .inl fun {q i} hd ↦ .inl ⟨q, ?_⟩
    exact State.delivers_of_delivers_taken hperm hd
  | objects hprop =>
    refine h.grows hgrows (hprop.names ▸ .refl _) (fun he ↦ ?_) fun {q i} hd ↦ .inl ?_
    · rw [State.Calls, hprop.calls] at he
      exact .inl he
    · rcases hprop.origin hd with hd | ⟨-, hadded⟩
      · exact ⟨q, hd⟩
      · exact ⟨_, (hprop.fresh hadded).1⟩

section

variable {w : World} {plan : Option TaintPlan}

theorem keeps_of_callEntered {id : SiteIn ContextId} {site : CallSite} {callee : MethodIn ContextId}
    {receiver : Option CsObjectId} {selector : Selector}
    (h : (w.selectedSetup selector plan).CallEntered id site callee receiver s s') :
    s.names.Keeps s'.names := by
  rcases h.names with heq | ⟨cls, heq⟩ <;> rw [heq]
  · exact .refl _
  · exact CsHeap.keeps_mark s.names id.id cls

/-- Numbers are given by the changes that use them. -/
theorem Strung.change (h : Strung s w.program k hk)
    (hs : (w.selectedSetup ⟨.callSite, k, hk⟩ plan).Tracked s)
    (hc : (w.selectedSetup ⟨.callSite, k, hk⟩ plan).Change s s') : Strung s' w.program k hk := by
  have hgrows := hc.grows hs
  cases hc with
  | @alloc m body lhs a n i hm hbody hstmt hallocate =>
    obtain ⟨hkeeps, hi⟩ := CsHeap.allocate_eq_ok hallocate
    have hsent := hs.wellFormed.sent_seed (P := fun q o ↦ q = .var m.ctx lhs ∧ o = i) n ⟨rfl, rfl⟩
    refine h.grows hgrows hkeeps .inl fun {q o} hd ↦ ?_
    rcases hsent.origin hd with hd | ⟨-, rfl⟩
    · exact .inl ⟨q, hd⟩
    · exact .inr (.inr ⟨m, body, lhs, a, hgrows.reaches hm, hbody, hstmt, hi⟩)
  | @link q r _ =>
    refine h.grows hgrows ?_ (fun he ↦ ?_) fun {a o} hd ↦ .inl ?_
    · rw [State.names_link]
      exact .refl _
    · rw [State.Calls, State.calls_link] at he
      exact .inl he
    · rcases hs.wellFormed.delivers_link.1 hd with hd | ⟨-, hpoints, -⟩
      · exact ⟨a, hd⟩
      · exact ⟨q, .inl hpoints⟩
  | @call id site callee receiver n ctx hmakes hsite hcontext =>
    obtain ⟨hkeeps₁, henters⟩ := CsHeap.calleeContext_eq_ok hcontext
    have hc := (hs.withNames n).callEntered id site ⟨ctx, callee⟩ (receiver.map Prod.snd)
    have hkeeps₂ := keeps_of_callEntered hc
    refine h.grows hgrows (hkeeps₁.trans hkeeps₂) (fun he ↦ ?_) fun {q o} hd ↦ ?_
    · rcases hc.calls.1 he with he | rfl
      · exact .inl he
      · exact .inr (henters.keeps hkeeps₂)
    · rcases hc.origin hd with hd | ⟨this, hreceiver, -, -⟩ | ⟨cls, result, -, -, hn, rfl⟩ |
        ⟨r, -, hpoints⟩
      · exact .inl ⟨q, hd⟩
      · obtain ⟨⟨v, o'⟩, rfl, rfl⟩ := Option.map_eq_some_iff.1 hreceiver
        exact .inl ⟨_, .inl hmakes.points⟩
      · refine .inr (.inl ?_)
        rw [hn]
        exact CsHeap.marks_mark n id.id cls
      · exact .inl ⟨r, .inl hpoints⟩
  | watch _ _ => exact ⟨h.empty, h.callees, h.objects⟩
  | @handOn t plan site rule source target o origin _ _ _ _ _ _ _ _ =>
    have hsent := hs.wellFormed.sent_seed
      (P := fun q i ↦ q = .var t.site.ctx target ∧ i = (s.names.mark origin rule.cls).2)
      (s.names.mark origin rule.cls).1 ⟨rfl, rfl⟩
    refine h.grows hgrows (s.names.keeps_mark origin rule.cls) .inl fun {q i} hd ↦ ?_
    rcases hsent.origin hd with hd | ⟨-, rfl⟩
    · exact .inl ⟨q, hd⟩
    · exact .inr (.inl (s.names.marks_mark origin rule.cls))

theorem strung_of_steps {abstraction : HeapAbstraction} {order : WorkOrder} {entry : MethodId}
    (hs : Relation.ReflTransGen (w.selectedSetup ⟨.callSite, k, hk⟩ plan).Step
      ((w.selectedSetup ⟨.callSite, k, hk⟩ plan).initial { heap := { abstraction } } order entry) s) :
    Strung s w.program k hk := by
  refine (Setup.steps_induction (I := fun s ↦ Strung s w.program k hk) ⟨?_, ?_, ?_⟩
    (fun _ h htakes ↦ h.takes htakes) (fun hs h hc ↦ h.change hs hc) hs).2
  · exact ContextTable.elements_eq_ok_iff.2 (CsHeap.valid_start w.program abstraction).empty
  · exact fun he ↦ absurd he Setup.not_calls_initial
  · exact fun hd ↦ absurd hd Setup.not_delivers_initial

end

/-- A chain of calls leads to the context that its last calls make up. -/
theorem Strung.elements_of_chain (h : Strung s p k hk) {entry : MethodId} {cs : List CallSiteId}
    {m : MethodIn ContextId} (hchain : s.Chain p ⟨.empty, entry⟩ cs m) :
    s.names.contexts.elements m.ctx = .ok ((cs.map ContextElem.callSite).rtake k) := by
  induction hchain with
  | nil =>
    rw [List.map_nil, rtake_of_length_le (Nat.zero_le k)]
    exact h.empty
  | @snoc cs edge site _ hcalls _ ih =>
    rw [List.map_append, List.map_singleton]
    rcases h.callees hcalls with ⟨rfl, hctx⟩ | ⟨es, hes, hctx⟩
    · rw [hctx, List.rtake_zero]
      exact h.empty
    · obtain rfl := Except.ok.inj (hes.symm.trans ih)
      rw [rtake_concat_rtake (Nat.le_succ k)] at hctx
      exact hctx

end CsState

/-! ## Results -/

/-- The object `i` is the one of the site `a`, under the last `hk` elements of the context `c`. -/
def CsHeap.AllocatedUnder (n : CsHeap) (p : Program) (abstraction : HeapAbstraction) (hk : Nat)
    (c : ContextId) (a : AllocSiteId) (i : CsObjectId) : Prop :=
  ∃ site named es, p.allocSite a = .ok site ∧ n.object i = .ok named ∧
    n.heap.object named.id = .ok (site.object abstraction a) ∧ n.contexts.elements c = .ok es ∧
    n.contexts.elements named.ctx = .ok (es.rtake hk)

namespace CsHeap.Valid

variable {n : CsHeap} {p : Program} {abstraction : HeapAbstraction} (hn : n.Valid p abstraction)
  {i : CsObjectId}

include hn

theorem allocatedUnder {hk : Nat} {c : ContextId} {a : AllocSiteId} (hi : n.Allocates p hk c a i) :
    n.AllocatedUnder p abstraction hk c a i := by
  obtain ⟨site, named, es, hsite, hnamed, hkey, hes, hctx⟩ := hi
  refine ⟨site, named, es, hsite, hnamed, ?_, hes, hctx⟩
  rw [hn.keyed.abstraction_eq] at hkey
  exact hn.keyed.object_of_key hkey (AllocSite.object?_key hsite abstraction)

theorem sourceOf_of_marks (hi : n.Marks i) : ∃ source, n.sourceOf i = .ok (some source) := by
  obtain ⟨named, source, cls, hnamed, hkey⟩ := hi
  have hobject := hn.keyed.object_of_key hkey (o := .mark source cls) rfl
  exact ⟨source, bind_eq_ok.2 ⟨named, hnamed, bind_eq_ok.2 ⟨_, hobject, rfl⟩⟩⟩

/-- What the domain allocates is allocated so in numbers too. -/
theorem allocatedUnder_of_steps {hk : Nat} {c : ContextId} {xs : List ContextStep}
    (hc : n.steps c = some xs) {a : AllocSiteId} {site : AllocSite} (hsite : p.allocSite a = .ok site)
    (hi : n.heapObject i = some ⟨xs.rtake hk, site.object abstraction a⟩) :
    n.AllocatedUnder p abstraction hk c a i := by
  obtain ⟨named, hnamed, hctx, hobject⟩ := heapObject_eq_some_iff.1 hi
  obtain ⟨es, hes, hess⟩ := steps_eq_some_iff.1 hc
  obtain ⟨es', hes', hess'⟩ := steps_eq_some_iff.1 hctx
  have hlast : (es.rtake hk).map (ContextElem.step n.heap) = (xs.rtake hk).map some := by
    rw [map_rtake, map_rtake, hess]
  obtain rfl := ContextElem.map_step_inj hn.keyed hess' hlast
  exact ⟨site, named, es, hsite, object_eq_ok hnamed, Heap.object_eq_ok hobject, elements_eq_ok hes,
    elements_eq_ok hes'⟩

end CsHeap.Valid

/-- Contexts are what call chains end in, and heap contexts are what contexts end in. -/
structure CsState.OnCallStrings (s : CsState) (p : Program) (abstraction : HeapAbstraction)
    (entry : MethodId) (k hk : Nat) : Prop where
  contexts : ∀ {m}, s.Reaches m → ∃ cs, s.Chain p ⟨.empty, entry⟩ cs m ∧
    s.names.contexts.elements m.ctx = .ok ((cs.map ContextElem.callSite).rtake k)
  allocated : ∀ {m body lhs a}, s.Reaches m → p.body m.id = some body → .alloc lhs a ∈ body.stmts →
    ∃ i ∈ (s.varPointsTo m.ctx lhs).toList, s.names.AllocatedUnder p abstraction hk m.ctx a i
  objects : ∀ {q i}, s.flow.Points q i → (∃ source, s.names.sourceOf i = .ok (some source)) ∨
    ∃ m body lhs a, s.Reaches m ∧ p.body m.id = some body ∧ .alloc lhs a ∈ body.stmts ∧
      s.names.AllocatedUnder p abstraction hk m.ctx a i

/-- Under call-site sensitivity, on every accepted program whose methods mention their own variables only
and whatever the taint rules, contexts are the last `k` calls of chains from the entry method on. The
objects that reachable methods allocate are there, and all others are taint marks; each has the last
`hk` elements of its allocator's context as its heap context. -/
theorem contexts_are_callStrings {ds : List Declaration} {p : Program} {entry : MethodId} {w : World}
    (hbuilt : Program.ofDeclarations ds = .ok p) (hworld : World.of p entry = .ok w)
    (hrange : p.InRange) (hown : p.MentionsOwn ds) (k hk : Nat) (abstraction : HeapAbstraction)
    (order : WorkOrder) (taint : Option TaintRules) :
    ∃ s, w.solveSelected ⟨.callSite, k, hk⟩ abstraction order (taint.map (.resolve p)) = .ok s ∧
      CsState.OnCallStrings s p abstraction entry k hk := by
  obtain ⟨rfl, -⟩ := World.of_eq_ok hworld
  have hp : (World.mk p entry).program.Analysable := Program.analysable hbuilt hworld hrange
  have hconfined := World.resolved_confined hp ⟨.callSite, k, hk⟩ abstraction taint
  obtain ⟨s, hsolve, hsteps, hfin⟩ := hconfined.solve_finishes order
  have hsound := hconfined.sound hconfined.closed hsteps
  have hstrung := CsState.strung_of_steps hsteps
  refine ⟨s, hsolve, ?_⟩
  constructor
  case contexts =>
    intro m hm
    obtain ⟨cs, hcs⟩ := ((Program.owned_of_mentionsOwn hbuilt hown).rooted hsteps).2.chains hm
    exact ⟨cs, hcs, hstrung.elements_of_chain hcs⟩
  case allocated =>
    intro m body lhs a hm hbody hstmt
    obtain ⟨xs, hxs, -⟩ := hsound.reaches hm
    obtain ⟨site, hsite⟩ := hp.allocSite hbody hstmt
    have hclosed := (hconfined.attended hsteps).closed hfin
    have hpts := hclosed.alloc (m := ⟨xs, m.id⟩) ⟨m.ctx, hxs, hm⟩ hbody hstmt hsite
    obtain ⟨c, i, hc, hi, hpoints⟩ := Interpretation.pts_facts_var hpts
    obtain rfl := hsound.valid.steps_inj hxs hc
    exact ⟨i, FlowGraph.points_iff_mem_pts?.1 hpoints, hsound.valid.allocatedUnder_of_steps hxs hsite hi⟩
  case objects =>
    intro q i hi
    rcases hstrung.objects (.inl hi) with hmarks | ⟨m, body, lhs, a, hm, hbody, hstmt, hallocates⟩
    · exact .inl (hsound.valid.sourceOf_of_marks hmarks)
    · exact .inr ⟨m, body, lhs, a, hm, hbody, hstmt, hsound.valid.allocatedUnder hallocates⟩

set_option maxRecDepth 4000 in
theorem contexts_are_callStrings_knotted :
    Program.ofDeclarations knottedNodes = .ok knottedProgram ∧
    World.of knottedProgram ⟨1⟩ = .ok knottedWorld ∧ knottedProgram.InRange ∧
    knottedProgram.MentionsOwn knottedNodes ∧
    ∃ s, knottedWorld.solveSelected ⟨.callSite, 2, 1⟩ .allocationSite .fifo
        (some (.resolve knottedProgram knottedRules)) = .ok s ∧
      CsState.OnCallStrings s knottedProgram .allocationSite ⟨1⟩ 2 1 := by
  have hown : knottedProgram.MentionsOwn knottedNodes := by decide
  exact ⟨knottedProgram_built, knottedWorld_accepted, knottedProgram_inRange, hown,
    contexts_are_callStrings knottedProgram_built knottedWorld_accepted knottedProgram_inRange hown 2 1
      .allocationSite .fifo (some knottedRules)⟩

end PointsTo
