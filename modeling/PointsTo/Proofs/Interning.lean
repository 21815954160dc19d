import PointsTo.Proofs.CallStrings
import PointsTo.Proofs.Lockstep

/-!
# Contexts are interned

A table of contexts grows by the contexts that are asked for (`ContextTable.Becomes`). Its numbers,
from 0 on, stand for sequences of which no two are equal, and what a number stands for never changes;
to append and to cut off give exactly the last elements (`ContextTable.Interns`).

A run only ever asks for sequences of at most `k` elements (`ContextTable.Bounded`), since callees are
entered under contexts that were cut off to this length and heap contexts are cut off from those once
more. So every method is analysed under at most `k` elements, and every object is allocated under at
most `min k hk` (`CsState.DepthLimited`).
-/

namespace PointsTo

/-! ## Tables of contexts -/

namespace ContextTable

variable {t t' : ContextTable} {c c' : ContextId} {a : ContextElem} {es : List ContextElem} {j k : Nat}

/-- A context is asked for. -/
inductive Asks (t : ContextTable) : ContextTable → Prop
  | intern (es : List ContextElem) : Asks t (t.intern es).1
  | append {c c' : ContextId} {a : ContextElem} {k : Nat} {t' : ContextTable} :
      t.append c a k = .ok (t', c') → Asks t t'
  | truncate {c c' : ContextId} {k : Nat} {t' : ContextTable} :
      t.truncate c k = .ok (t', c') → Asks t t'

/-- Contexts are asked for one after another. -/
abbrev Becomes : ContextTable → ContextTable → Prop := Relation.ReflTransGen Asks

/-- The numbers below the size of `t` stand one-to-one for sequences, 0 for the empty one, and go on to
do so; every request is answered by the number of the sequence that was asked for. -/
structure Interns (t : ContextTable) : Prop where
  known_iff : ∀ c, (∃ es, t.elements c = .ok es) ↔ c.index < t.size
  inj : ∀ {c d es}, t.elements c = .ok es → t.elements d = .ok es → c = d
  empty : t.elements .empty = .ok []
  keeps : ∀ {t' c es}, t.Becomes t' → t.elements c = .ok es → t'.elements c = .ok es
  intern : ∀ es, (t.intern es).1.elements (t.intern es).2 = .ok es
  intern_known : ∀ {c es}, t.elements c = .ok es → t.intern es = (t, c)
  append : ∀ {c es}, t.elements c = .ok es → ∀ a k, ∃ t' c',
    t.append c a k = .ok (t', c') ∧ t'.elements c' = .ok ((es ++ [a]).rtake k)
  truncate : ∀ {c es}, t.elements c = .ok es → ∀ k, ∃ t' c',
    t.truncate c k = .ok (t', c') ∧ t'.elements c' = .ok (es.rtake k)

theorem exists_elements_iff : (∃ es, t.elements c = .ok es) ↔ c.index < t.size := by
  constructor
  · rintro ⟨es, hes⟩
    exact Table.key?_lt (elements_eq_ok_iff.1 hes)
  · intro hc
    obtain ⟨entry, hentry⟩ : ∃ entry, t.sequences.nth? c.index = some entry :=
      ⟨_, Array.getElem?_eq_getElem hc⟩
    exact ⟨_, elements_eq_ok_iff.2 (Table.key?_of_nth? hentry)⟩

theorem elements_inj {d : ContextId} (hc : t.elements c = .ok es) (hd : t.elements d = .ok es) :
    c = d :=
  Id.index_inj.1 (Table.key?_inj (elements_eq_ok_iff.1 hc) (elements_eq_ok_iff.1 hd))

theorem intern_of_elements (h : t.elements c = .ok es) : t.intern es = (t, c) := by
  have hfind := Table.find?_eq_some_iff.2 (elements_eq_ok_iff.1 h)
  rw [intern, Table.intern_of_find? hfind]

theorem Asks.keeps (h : t.Asks t') : t.Keeps t' := by
  cases h with
  | intern es => exact elements_intern es
  | append h => exact (append_eq_ok h).1
  | truncate h => exact (truncate_eq_ok h).1

theorem Becomes.keeps (h : t.Becomes t') : t.Keeps t' := by
  induction h with
  | refl => exact fun hc ↦ hc
  | tail _ hasks ih => exact fun hc ↦ hasks.keeps (ih hc)

theorem append_of_elements (hempty : t.elements .empty = .ok []) (h : t.elements c = .ok es)
    (a : ContextElem) (k : Nat) :
    ∃ t' c', t.append c a k = .ok (t', c') ∧ t'.elements c' = .ok ((es ++ [a]).rtake k) := by
  cases k with
  | zero =>
    rw [List.rtake_zero]
    exact ⟨t, .empty, rfl, hempty⟩
  | succ k =>
    obtain ⟨t', c', happend⟩ : ∃ t' c', t.append c a (k + 1) = .ok (t', c') :=
      ⟨_, _, bind_eq_ok.2 ⟨es, h, rfl⟩⟩
    obtain ⟨-, ⟨hzero, -⟩ | ⟨es', hes', hc'⟩⟩ := append_eq_ok happend
    · exact absurd hzero k.succ_ne_zero
    · obtain rfl := Except.ok.inj (h.symm.trans hes')
      exact ⟨t', c', happend, hc'⟩

theorem truncate_of_elements (h : t.elements c = .ok es) (k : Nat) :
    ∃ t' c', t.truncate c k = .ok (t', c') ∧ t'.elements c' = .ok (es.rtake k) := by
  obtain ⟨t', c', htruncate⟩ : ∃ t' c', t.truncate c k = .ok (t', c') :=
    ⟨_, _, bind_eq_ok.2 ⟨es, h, rfl⟩⟩
  obtain ⟨-, es', hes', hc'⟩ := truncate_eq_ok htruncate
  obtain rfl := Except.ok.inj (h.symm.trans hes')
  exact ⟨t', c', htruncate, hc'⟩

theorem interns_of_becomes (h : start.Becomes t) : t.Interns := by
  have hempty : t.elements .empty = .ok [] := h.keeps elements_start
  exact
    { known_iff := fun _ ↦ exists_elements_iff
      inj := elements_inj
      empty := hempty
      keeps := fun h ↦ h.keeps
      intern := t.elements_intern_self
      intern_known := intern_of_elements
      append := append_of_elements hempty
      truncate := truncate_of_elements }

/-! ## Sequences of bounded length -/

/-- No context has more than `k` elements. -/
def Bounded (t : ContextTable) (k : Nat) : Prop := ∀ c es, t.elements c = .ok es → es.length ≤ k

theorem Bounded.intern (ht : t.Bounded k) (hes : es.length ≤ k) : (t.intern es).1.Bounded k := by
  intro c es' h
  rcases Table.key?_intern_iff.1 (elements_eq_ok_iff.1 h) with hold | ⟨-, rfl⟩
  · exact ht c es' (elements_eq_ok_iff.2 hold)
  · exact hes

theorem bounded_start (k : Nat) : start.Bounded k := by
  have hnone : (mk ∅).Bounded k := fun _ _ h ↦ by simp [elements_eq_ok_iff] at h
  exact hnone.intern (Nat.zero_le k : ([] : List ContextElem).length ≤ k)

theorem Bounded.append (ht : t.Bounded k) (h : t.append c a k = .ok (t', c')) : t'.Bounded k := by
  cases k with
  | zero =>
    obtain ⟨rfl, -⟩ := Prod.mk.inj (Except.ok.inj h)
    exact ht
  | succ k =>
    obtain ⟨es, -, h⟩ := bind_eq_ok.1 h
    obtain ⟨rfl, -⟩ := Prod.mk.inj (Except.ok.inj h)
    apply ht.intern
    rw [List.length_append, List.length_singleton]
    exact Nat.succ_le_succ (length_rtake_le k es)

theorem Bounded.truncate (ht : t.Bounded k) (h : t.truncate c j = .ok (t', c')) : t'.Bounded k := by
  obtain ⟨es, hes, h⟩ := bind_eq_ok.1 h
  have heq := Except.ok.inj h
  split at heq <;> obtain ⟨rfl, -⟩ := Prod.mk.inj heq
  · exact ht
  · exact ht.intern ((rtake_sublist _ _).length_le.trans (ht c es hes))

end ContextTable

/-! ## What selectors ask for -/

namespace Selector

variable {selector : Selector} {t t' : ContextTable} {c c' : ContextId}

/-- Heap contexts are within both limits. -/
theorem heapContext_eq_ok (hempty : t.elements .empty = .ok []) (ht : t.Bounded selector.k)
    (h : selector.heapContext t c = .ok (t', c')) :
    t.Becomes t' ∧ t'.Bounded selector.k ∧
      ∃ es, t'.elements c' = .ok es ∧ es.length ≤ min selector.k selector.hk := by
  unfold heapContext at h
  split at h
  · obtain ⟨rfl, rfl⟩ := Prod.mk.inj (Except.ok.inj h)
    exact ⟨.refl, ht, [], hempty, Nat.zero_le _⟩
  · obtain ⟨-, es, -, hc'⟩ := ContextTable.truncate_eq_ok h
    have ht' := ht.truncate h
    exact ⟨.single (.truncate h), ht', _, hc', Nat.le_min.2 ⟨ht' c' _ hc', length_rtake_le _ _⟩⟩

/-- A call on a receiver never hands the caller's context on. -/
theorem calleeContext_eq_ok {p : Program} {heap : Heap} {site : SiteIn ContextId}
    {receiver : Option CsObject} (hempty : t.elements .empty = .ok []) (ht : t.Bounded selector.k)
    (hsite : receiver = none → ∃ es, t.elements site.ctx = .ok es)
    (h : selector.calleeContext p heap t site receiver = .ok (t', c')) :
    t.Becomes t' ∧ t'.Bounded selector.k ∧ ∃ es, t'.elements c' = .ok es := by
  have happend {c : ContextId} {a : ContextElem} (h : t.append c a selector.k = .ok (t', c')) :
      t.Becomes t' ∧ t'.Bounded selector.k ∧ ∃ es, t'.elements c' = .ok es := by
    refine ⟨.single (.append h), ht.append h, ?_⟩
    obtain ⟨hkeeps, ⟨-, rfl⟩ | ⟨es, -, hc'⟩⟩ := ContextTable.append_eq_ok h
    · exact ⟨[], hkeeps hempty⟩
    · exact ⟨_, hc'⟩
  unfold calleeContext at h
  split at h
  case h_1 =>
    obtain ⟨rfl, rfl⟩ := Prod.mk.inj (Except.ok.inj h)
    exact ⟨.refl, ht, [], hempty⟩
  case h_2 => exact happend h
  case h_3 => exact happend h
  case h_4 =>
    obtain ⟨cls, -, h⟩ := bind_eq_ok.1 h
    exact happend h
  case h_5 =>
    obtain ⟨rfl, rfl⟩ := Prod.mk.inj (Except.ok.inj h)
    exact ⟨.refl, ht, hsite rfl⟩
  case h_6 =>
    obtain ⟨rfl, rfl⟩ := Prod.mk.inj (Except.ok.inj h)
    exact ⟨.refl, ht, hsite rfl⟩

end Selector

namespace CsHeap

variable {n n' : CsHeap} {selector : Selector} {p : Program}

/-- Contexts and heap contexts are within the limits of the selector. -/
structure Limited (n : CsHeap) (selector : Selector) : Prop where
  becomes : ContextTable.start.Becomes n.contexts
  contexts : n.contexts.Bounded selector.k
  objects : ∀ {i named}, n.object i = .ok named →
    ∃ es, n.contexts.elements named.ctx = .ok es ∧ es.length ≤ min selector.k selector.hk

theorem limited_start (selector : Selector) (abstraction : HeapAbstraction) :
    ({ heap := { abstraction } } : CsHeap).Limited selector where
  becomes := .refl
  contexts := ContextTable.bounded_start selector.k
  objects h := by
    rw [object_eq_ok_iff] at h
    simp at h

namespace Limited

variable (hn : n.Limited selector)

include hn

theorem empty : n.contexts.elements .empty = .ok [] := hn.becomes.keeps ContextTable.elements_start

/-- If tables grow and a further object is named under a heap context within the limits, then all are
within the limits. -/
theorem name {contexts : ContextTable} {heap : Heap} {o : CsObject}
    (hbecomes : n.contexts.Becomes contexts) (hbounded : contexts.Bounded selector.k)
    (ho : ∃ es, contexts.elements o.ctx = .ok es ∧ es.length ≤ min selector.k selector.hk) :
    Limited ⟨(CsNames.intern { n.toCsNames with contexts } o).1, heap⟩ selector where
  becomes := hn.becomes.trans hbecomes
  contexts := hbounded
  objects := by
    intro i named hi
    rcases Table.key?_intern_iff.1 (object_eq_ok_iff.1 hi) with hold | ⟨-, rfl⟩
    · obtain ⟨es, hes, hlength⟩ := hn.objects (object_eq_ok_iff.2 hold)
      exact ⟨es, hbecomes.keeps hes, hlength⟩
    · exact ho

theorem mark (source : CallSiteId) (cls : ClassId) : (n.mark source cls).1.Limited selector :=
  hn.name .refl hn.contexts ⟨[], hn.empty, Nat.zero_le _⟩

theorem allocate {m : MethodIn ContextId} {a : AllocSiteId} {i : CsObjectId}
    (h : n.allocate selector p m a = .ok (n', i)) :
    n.Keeps n' ∧ n'.Limited selector ∧ ∃ named, n'.object i = .ok named := by
  obtain ⟨⟨heap, o⟩, hallocated, h⟩ := bind_eq_ok.1 h
  obtain ⟨⟨contexts, ctx⟩, hcontext, h⟩ := bind_eq_ok.1 h
  obtain ⟨rfl, rfl⟩ := Prod.mk.inj (Except.ok.inj h)
  obtain ⟨hbecomes, hbounded, hctx⟩ := Selector.heapContext_eq_ok hn.empty hn.contexts hcontext
  refine ⟨⟨(Heap.allocated_eq_ok hallocated).1, hbecomes.keeps, fun hi ↦ ?_⟩,
    hn.name hbecomes hbounded hctx, ⟨ctx, o⟩, ?_⟩
  · exact object_eq_ok_iff.2 (Table.key?_intern_of_key? (object_eq_ok_iff.1 hi))
  · exact object_eq_ok_iff.2 (Table.key?_intern_self _ _ ())

theorem calleeContext {site : SiteIn ContextId} {receiver : Option CsObjectId} {c : ContextId}
    (hsite : receiver = none → ∃ es, n.contexts.elements site.ctx = .ok es)
    (h : n.calleeContext selector p site receiver = .ok (n', c)) :
    n.Keeps n' ∧ n'.Limited selector ∧ ∃ es, n'.contexts.elements c = .ok es := by
  obtain ⟨named, hnamed, h⟩ := bind_eq_ok.1 h
  obtain ⟨⟨contexts, ctx⟩, hcontext, h⟩ := bind_eq_ok.1 h
  obtain ⟨rfl, rfl⟩ := Prod.mk.inj (Except.ok.inj h)
  have hsite' : named = none → ∃ es, n.contexts.elements site.ctx = .ok es := by
    rintro rfl
    cases receiver with
    | none => exact hsite rfl
    | some o =>
      obtain ⟨_, -, h⟩ := bind_eq_ok.1 hnamed
      exact absurd (Except.ok.inj h) (Option.some_ne_none _)
  obtain ⟨hbecomes, hbounded, hctx⟩ :=
    Selector.calleeContext_eq_ok hn.empty hn.contexts hsite' hcontext
  refine ⟨⟨⟨rfl, id⟩, hbecomes.keeps, id⟩, ⟨hn.becomes.trans hbecomes, hbounded, ?_⟩, hctx⟩
  intro i o hi
  obtain ⟨es, hes, hlength⟩ := hn.objects hi
  exact ⟨es, hbecomes.keeps hes, hlength⟩

end Limited

end CsHeap

/-! ## Along a run -/

/-- Names are within the limits of the selector, and what a state speaks of has a name. -/
structure CsState.Limited (s : CsState) (selector : Selector) : Prop where
  names : s.names.Limited selector
  methods : ∀ {m}, s.Reaches m → ∃ es, s.names.contexts.elements m.ctx = .ok es
  objects : ∀ {q i}, s.Delivers q i → ∃ named, s.names.object i = .ok named

namespace CsState

variable {s s' s₁ : CsState} {selector : Selector} {w : World} {plan : Option TaintPlan}

/-- If methods and objects that are new have names, then all have. -/
theorem Limited.grows (h : Limited s selector) (hkeeps : s.names.Keeps s'.names)
    (hnames : s'.names.Limited selector)
    (hmethods : ∀ {m}, s'.Reaches m → s.Reaches m ∨ ∃ es, s'.names.contexts.elements m.ctx = .ok es)
    (hobjects : ∀ {q i}, s'.Delivers q i →
      (∃ r, s.Delivers r i) ∨ ∃ named, s'.names.object i = .ok named) : Limited s' selector where
  names := hnames
  methods hm := by
    rcases hmethods hm with hm | hm
    · obtain ⟨es, hes⟩ := h.methods hm
      exact ⟨es, hkeeps.contexts hes⟩
    · exact hm
  objects hd := by
    rcases hobjects hd with ⟨r, hr⟩ | hi
    · obtain ⟨named, hnamed⟩ := h.objects hr
      exact ⟨named, hkeeps.objects hnamed⟩
    · exact hi

theorem Limited.takes (h : Limited s selector) (htakes : s.Takes s₁) : Limited s₁ selector := by
  cases htakes with
  | method hperm =>
    refine h.grows (.refl _) h.names .inl fun {q i} hd ↦ .inl ⟨q, ?_⟩
    exact State.delivers_of_delivers_taken hperm hd
  | objects hprop =>
    refine h.grows (hprop.names ▸ .refl _) (hprop.names ▸ h.names) (fun hm ↦ ?_) fun {q i} hd ↦ .inl ?_
    · rw [State.Reaches, hprop.calls] at hm
      exact .inl hm
    · rcases hprop.origin hd with hd | ⟨-, hadded⟩
      · exact ⟨q, hd⟩
      · exact ⟨_, (hprop.fresh hadded).1⟩

theorem limited_of_callEntered {id : SiteIn ContextId} {site : CallSite} {callee : MethodIn ContextId}
    {receiver : Option CsObjectId} (hn : s.names.Limited selector)
    (h : (w.selectedSetup selector plan).CallEntered id site callee receiver s s') :
    s'.names.Limited selector := by
  rcases h.names with heq | ⟨cls, heq⟩ <;> rw [heq]
  · exact hn
  · exact hn.mark id.id cls

/-- Contexts and objects that a change names are within the limits, and it puts no others anywhere.
-/
theorem Limited.change (h : Limited s selector) (hs : (w.selectedSetup selector plan).Tracked s)
    (hc : (w.selectedSetup selector plan).Change s s') : Limited s' selector := by
  cases hc with
  | @alloc m body lhs a n i _ _ _ hallocate =>
    obtain ⟨hkeeps, hn, hi⟩ := h.names.allocate hallocate
    have hsent := hs.wellFormed.sent_seed (P := fun q o ↦ q = .var m.ctx lhs ∧ o = i) n ⟨rfl, rfl⟩
    refine h.grows hkeeps hn .inl fun {q o} hd ↦ ?_
    rcases hsent.origin hd with hd | ⟨-, rfl⟩
    · exact .inl ⟨q, hd⟩
    · exact .inr hi
  | @link q r _ =>
    refine h.grows ?_ ?_ (fun hm ↦ ?_) fun {a o} hd ↦ .inl ?_
    · rw [State.names_link]
      exact .refl _
    · rw [State.names_link]
      exact h.names
    · rw [State.Reaches, State.calls_link] at hm
      exact .inl hm
    · rcases hs.wellFormed.delivers_link.1 hd with hd | ⟨-, hpoints, -⟩
      · exact ⟨a, hd⟩
      · exact ⟨q, .inl hpoints⟩
  | @call id site callee receiver n ctx hmakes _ hcontext =>
    -- Without a receiver the call is static, and the caller is reachable.
    have hsite : receiver.map Prod.snd = none → ∃ es, s.names.contexts.elements id.ctx = .ok es := by
      intro hnone
      cases hmakes with
      | static hm _ _ _ _ _ => exact h.methods hm
      | receiver _ _ _ _ => exact absurd hnone (Option.some_ne_none _)
    obtain ⟨hkeeps₁, hn, hctx⟩ := h.names.calleeContext hsite hcontext
    have hc := (hs.withNames n).callEntered id site ⟨ctx, callee⟩ (receiver.map Prod.snd)
    have hkeeps₂ := keeps_of_callEntered hc
    refine h.grows (hkeeps₁.trans hkeeps₂) (limited_of_callEntered hn hc) (fun hm ↦ ?_)
      fun {q o} hd ↦ ?_
    · rcases hc.reaches.1 hm with hm | rfl
      · exact .inl hm
      · obtain ⟨es, hes⟩ := hctx
        exact .inr ⟨es, hkeeps₂.contexts hes⟩
    · rcases hc.origin hd with hd | ⟨this, hreceiver, -, -⟩ | ⟨cls, result, -, -, hn', rfl⟩ |
        ⟨r, -, hpoints⟩
      · exact .inl ⟨q, hd⟩
      · obtain ⟨⟨v, o'⟩, rfl, rfl⟩ := Option.map_eq_some_iff.1 hreceiver
        exact .inl ⟨_, .inl hmakes.points⟩
      · obtain ⟨named, _, _, hnamed, -⟩ := n.marks_mark id.id cls
        rw [hn']
        exact .inr ⟨named, hnamed⟩
      · exact .inl ⟨r, .inl hpoints⟩
  | watch _ _ => exact ⟨h.names, h.methods, h.objects⟩
  | @handOn t plan site rule source target o origin _ _ _ _ _ _ _ _ =>
    have hsent := hs.wellFormed.sent_seed
      (P := fun q i ↦ q = .var t.site.ctx target ∧ i = (s.names.mark origin rule.cls).2)
      (s.names.mark origin rule.cls).1 ⟨rfl, rfl⟩
    refine h.grows (s.names.keeps_mark origin rule.cls) (h.names.mark origin rule.cls) .inl
      fun {q i} hd ↦ ?_
    rcases hsent.origin hd with hd | ⟨-, rfl⟩
    · exact .inl ⟨q, hd⟩
    · obtain ⟨named, _, _, hnamed, -⟩ := s.names.marks_mark origin rule.cls
      exact .inr ⟨named, hnamed⟩

theorem limited_of_steps {abstraction : HeapAbstraction} {order : WorkOrder} {entry : MethodId}
    (hs : Relation.ReflTransGen (w.selectedSetup selector plan).Step
      ((w.selectedSetup selector plan).initial { heap := { abstraction } } order entry) s) :
    Limited s selector := by
  refine (Setup.steps_induction (I := fun s ↦ Limited s selector) ⟨?_, ?_, ?_⟩
    (fun _ h htakes ↦ h.takes htakes) (fun hs h hc ↦ h.change hs hc) hs).2
  · exact CsHeap.limited_start selector abstraction
  · intro m hm
    obtain rfl := Setup.reaches_initial.1 hm
    exact ⟨[], ContextTable.elements_start⟩
  · exact fun hd ↦ absurd hd Setup.not_delivers_initial

end CsState

/-! ## Results -/

/-- The table of contexts is one that was asked for its contexts one after another. Methods are reachable
under known contexts of at most `k` elements, objects have known heap contexts of at most `k` and at most
`hk` elements, and pointers refer to such objects only. -/
structure CsState.DepthLimited (s : CsState) (k hk : Nat) : Prop where
  contexts : ContextTable.start.Becomes s.names.contexts
  methods : ∀ {m}, s.Reaches m →
    ∃ es, s.names.contexts.elements m.ctx = .ok es ∧ es.length ≤ k
  objects : ∀ {i named}, s.names.object i = .ok named →
    ∃ es, s.names.contexts.elements named.ctx = .ok es ∧ es.length ≤ min k hk
  pointed : ∀ {q i}, s.flow.Points q i → ∃ named, s.names.object i = .ok named

theorem CsState.Limited.depthLimited {s : CsState} {selector : Selector} (h : Limited s selector) :
    s.DepthLimited selector.k selector.hk where
  contexts := h.names.becomes
  methods hm := by
    obtain ⟨es, hes⟩ := h.methods hm
    exact ⟨es, hes, h.names.contexts _ es hes⟩
  objects := h.names.objects
  pointed hp := h.objects (.inl hp)

/-- However contexts are asked for, a table interns them, and cuts them off exactly. At any time of any
run the contexts of methods and objects are within the limits of the selector, and on accepted programs
the solver returns such a state. -/
theorem contexts_interned_within_limits :
    (∀ {t}, ContextTable.start.Becomes t → t.Interns) ∧
    (∀ (w : World) (selector : Selector) (plan : Option TaintPlan) (abstraction : HeapAbstraction)
        (order : WorkOrder) {s : CsState},
      Relation.ReflTransGen (w.selectedSetup selector plan).Step
        ((w.selectedSetup selector plan).initial { heap := { abstraction } } order w.entry) s →
      s.DepthLimited selector.k selector.hk) ∧
    ∀ {ds : List Declaration} {p : Program} {entry : MethodId} {w : World},
      Program.ofDeclarations ds = .ok p → World.of p entry = .ok w → p.InRange →
      ∀ (selector : Selector) (taint : Option TaintRules) (abstraction : HeapAbstraction)
        (order : WorkOrder),
      ∃ s, w.solveSelected selector abstraction order (taint.map (.resolve p)) = .ok s ∧
        s.DepthLimited selector.k selector.hk := by
  refine ⟨ContextTable.interns_of_becomes, ?_, ?_⟩
  · intro w selector plan abstraction order s hs
    exact (CsState.limited_of_steps hs).depthLimited
  · intro ds p entry w hbuilt hworld hrange selector taint abstraction order
    obtain ⟨rfl, -⟩ := World.of_eq_ok hworld
    have hp : (World.mk p entry).program.Analysable := Program.analysable hbuilt hworld hrange
    obtain ⟨s, hsolve, hsteps, -⟩ :=
      (World.resolved_confined hp selector abstraction taint).solve_finishes order
    exact ⟨s, hsolve, (CsState.limited_of_steps hsteps).depthLimited⟩

/-- Of three calls in a row the last two are kept. In the course of a run there is a context of one
element, below the limit of two. -/
theorem contexts_interned_within_limits_knotted :
    (∃ t c, (ContextTable.start.append .empty (.callSite ⟨0⟩) 2 >>= fun r ↦
          r.1.append r.2 (.callSite ⟨1⟩) 2 >>= fun r ↦ r.1.append r.2 (.callSite ⟨2⟩) 2) =
        .ok (t, c) ∧
      t.elements c = .ok [.callSite ⟨1⟩, .callSite ⟨2⟩] ∧ t.Interns) ∧
    (∃ s : CsState, s.names.contexts.elements ⟨2⟩ = .ok [.object ⟨3⟩] ∧ s.DepthLimited 2 3) ∧
    ∃ s, knottedWorld.solveSelected ⟨.object, 2, 3⟩ .allocationSite .lifo
        (some (.resolve knottedProgram knottedRules)) = .ok s ∧ s.DepthLimited 2 3 := by
  obtain ⟨htables, hruns, hsolves⟩ := contexts_interned_within_limits
  refine ⟨?_, ?_, ?_⟩
  · have happends : ((ContextTable.start.append .empty (.callSite ⟨0⟩) 2 >>= fun r ↦
          r.1.append r.2 (.callSite ⟨1⟩) 2 >>= fun r ↦ r.1.append r.2 (.callSite ⟨2⟩) 2) >>= fun r ↦
        r.1.elements r.2) = .ok [.callSite ⟨1⟩, .callSite ⟨2⟩] := by decide +kernel
    obtain ⟨⟨t, c⟩, happends, helements⟩ := bind_eq_ok.1 happends
    obtain ⟨r₁, hfirst, hrest⟩ := bind_eq_ok.1 happends
    obtain ⟨r₂, hsecond, hthird⟩ := bind_eq_ok.1 hrest
    have hbecomes : ContextTable.start.Becomes t :=
      ((Relation.ReflTransGen.single (.append hfirst)).tail (.append hsecond)).tail (.append hthird)
    exact ⟨t, c, happends, helements, htables hbecomes⟩
  · have hrun : ((knottedWorld.selectedSetup ⟨.object, 2, 3⟩
          (some (.resolve knottedProgram knottedRules))).runFor 12
        ((knottedWorld.selectedSetup ⟨.object, 2, 3⟩
          (some (.resolve knottedProgram knottedRules))).initial
            { heap := { abstraction := .allocationSite } } .lifo ⟨1⟩) >>= fun s ↦
        s.names.contexts.elements ⟨2⟩) = .ok [.object ⟨3⟩] := by decide +kernel
    obtain ⟨s, hs, helements⟩ := bind_eq_ok.1 hrun
    exact ⟨s, helements, hruns _ _ _ .allocationSite .lifo (Setup.steps_of_runFor hs)⟩
  · exact hsolves knottedProgram_built knottedWorld_accepted knottedProgram_inRange ⟨.object, 2, 3⟩
      (some knottedRules) .allocationSite .lifo

end PointsTo
