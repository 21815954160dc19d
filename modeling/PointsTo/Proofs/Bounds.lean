import PointsTo.Proofs.Contexts
import PointsTo.Proofs.Universe

/-!
# Bounds of the two domains

A program has finitely many abstract objects, one or less for each allocation site and one for each
pair of a call and a class. Contexts of bounded length over finitely many steps are finitely many, and
selectors never choose longer ones.
-/

namespace PointsTo

namespace Program

variable {p : Program} {abstraction : HeapAbstraction}

/-- The objects that analysing the program can give rise to. -/
def abstractObjects (p : Program) (abstraction : HeapAbstraction) : Set AbstractObject :=
  {o | (∃ a site, p.allocSite a = .ok site ∧ o = site.object abstraction a) ∨
    ∃ c site cls info, p.callSite c = .ok site ∧ p.hierarchy.cls cls = .ok info ∧ o = .mark c cls}

theorem lt_of_lookup {e : Entity} {α : Type} {i : Id e} {as : Array α} {a : α}
    (h : i.lookup as = .ok a) : i.index < as.size :=
  (Array.getElem?_eq_some_iff.1 (Id.lookup_eq_ok_iff.1 h)).1

theorem finite_abstractObjects (p : Program) (abstraction : HeapAbstraction) :
    (p.abstractObjects abstraction).Finite := by
  have hallocs := Set.finite_range fun a : Fin p.allocSites.size ↦
    p.allocSites[a].object abstraction ⟨a⟩
  have hmarks := Set.finite_range fun q : Fin p.callSites.size × Fin p.hierarchy.classes.size ↦
    AbstractObject.mark ⟨q.1⟩ ⟨q.2⟩
  refine (hallocs.union hmarks).subset fun o ho ↦ ?_
  rcases ho with ⟨a, site, hsite, rfl⟩ | ⟨c, site, cls, info, hsite, hinfo, rfl⟩
  · refine .inl ⟨⟨a.index, lt_of_lookup hsite⟩, ?_⟩
    have hget := (Array.getElem?_eq_some_iff.1 (Id.lookup_eq_ok_iff.1 hsite)).2
    exact congrArg (AllocSite.object abstraction a) hget
  · exact .inr ⟨(⟨c.index, lt_of_lookup hsite⟩, ⟨cls.index, lt_of_lookup hinfo⟩), rfl⟩

theorem cls_object (abstraction : HeapAbstraction) (a : AllocSiteId) (site : AllocSite) :
    (site.object abstraction a).cls = site.cls := by
  cases abstraction <;> rfl

theorem source?_object (abstraction : HeapAbstraction) (a : AllocSiteId) (site : AllocSite) :
    (site.object abstraction a).kind.source? = none := by
  cases abstraction <;> rfl

theorem Analysable.classOf (hp : p.Analysable) {o : AbstractObject}
    (ho : o ∈ p.abstractObjects abstraction) : ∃ info, p.hierarchy.cls o.cls = .ok info := by
  rcases ho with ⟨a, site, hsite, rfl⟩ | ⟨c, site, cls, info, -, hinfo, rfl⟩
  · rw [cls_object]
    exact hp.cls hsite
  · exact ⟨info, hinfo⟩

theorem sourceOf_abstractObjects {o : AbstractObject} (ho : o ∈ p.abstractObjects abstraction)
    {c : CallSiteId} (hc : o.kind.source? = some c) : ∃ site, p.callSite c = .ok site := by
  rcases ho with ⟨a, site, -, rfl⟩ | ⟨c', site, cls, info, hsite, -, rfl⟩
  · rw [source?_object] at hc
    cases hc
  · obtain rfl := Option.some.inj hc
    exact ⟨site, hsite⟩

end Program

/-- Without contexts. -/
def Domain.plainBounds {p : Program} (hp : p.Analysable) (abstraction : HeapAbstraction) :
    (Domain.plain abstraction).Bounds p where
  contexts := Set.univ
  objects := p.abstractObjects abstraction
  finite_contexts := Set.finite_univ
  finite_objects := p.finite_abstractObjects abstraction
  start := trivial
  allocate _ hsite := .inl ⟨_, _, hsite, rfl⟩
  calleeContext _ _ _ := trivial
  mark hsite hcls := .inr ⟨_, _, _, _, hsite, hcls, rfl⟩
  classOf ho := hp.classOf ho
  sourceOf ho hc := Program.sourceOf_abstractObjects ho hc

/-! ## Contexts -/

theorem length_rtake_le {α : Type} (k : Nat) (as : List α) : (as.rtake k).length ≤ k := by
  rw [List.rtake, List.length_drop]
  omega

theorem rtake_sublist {α : Type} (k : Nat) (as : List α) : (as.rtake k).Sublist as :=
  List.drop_sublist _ _

/-- Sequences of at most `k` members of `A`. -/
def sequences {α : Type} (A : Set α) (k : Nat) : Set (List α) :=
  {xs | xs.length ≤ k ∧ ∀ x ∈ xs, x ∈ A}

theorem finite_sequences {α : Type} {A : Set α} (hA : A.Finite) (k : Nat) :
    (sequences A k).Finite := by
  have : Finite A := hA
  refine ((List.finite_length_le A k).image (List.map Subtype.val)).subset fun xs hxs ↦ ?_
  refine ⟨xs.attach.map fun x ↦ ⟨x.1, hxs.2 x.1 x.2⟩, ?_, ?_⟩
  · simpa using hxs.1
  · simp

theorem rtake_mem_sequences {α : Type} {A : Set α} {k : Nat} {xs : List α}
    (hxs : ∀ x ∈ xs, x ∈ A) : xs.rtake k ∈ sequences A k :=
  ⟨length_rtake_le k xs, fun x hx ↦ hxs x ((rtake_sublist k xs).subset hx)⟩

theorem rtake_mem_sequences_of_mem {α : Type} {A : Set α} {k l : Nat} {xs : List α}
    (hxs : xs ∈ sequences A k) : xs.rtake l ∈ sequences A k :=
  ⟨((rtake_sublist l xs).length_le).trans hxs.1,
    fun x hx ↦ hxs.2 x ((rtake_sublist l xs).subset hx)⟩

theorem nil_mem_sequences {α : Type} (A : Set α) (k : Nat) : [] ∈ sequences A k :=
  ⟨Nat.zero_le k, fun x hx ↦ by cases hx⟩

/-- A context followed by one more step, cut to the length of contexts. -/
theorem rtake_concat_mem {α : Type} {A : Set α} {k : Nat} {xs : List α}
    (hxs : xs ∈ sequences A k) {x : α} (hx : x ∈ A) : (xs ++ [x]).rtake k ∈ sequences A k := by
  refine rtake_mem_sequences fun y hy ↦ ?_
  rcases List.mem_append.1 hy with hy | hy
  · exact hxs.2 y hy
  · rw [List.mem_singleton.1 hy]
    exact hx

namespace Program

/-- The steps that contexts can consist of. -/
def contextSteps (p : Program) (abstraction : HeapAbstraction) : Set ContextStep :=
  ContextStep.callSite '' {c | c.index < p.callSites.size} ∪
    (ContextStep.object '' p.abstractObjects abstraction ∪
      (fun o ↦ ContextStep.cls (o.allocator p)) '' p.abstractObjects abstraction)

theorem finite_contextSteps (p : Program) (abstraction : HeapAbstraction) :
    (p.contextSteps abstraction).Finite :=
  ((Domain.Bounds.finite_ids .callSite p.callSites.size).image _).union
    (((p.finite_abstractObjects abstraction).image _).union
      ((p.finite_abstractObjects abstraction).image _))

def contexts (p : Program) (abstraction : HeapAbstraction) (k : Nat) : Set (List ContextStep) :=
  sequences (p.contextSteps abstraction) k

/-- Objects under heap contexts. -/
def heapObjects (p : Program) (abstraction : HeapAbstraction) (k : Nat) : Set HeapObject :=
  {x | x.ctx ∈ p.contexts abstraction k ∧ x.object ∈ p.abstractObjects abstraction}

variable {p : Program} {abstraction : HeapAbstraction}

theorem finite_heapObjects (p : Program) (abstraction : HeapAbstraction) (k : Nat) :
    (p.heapObjects abstraction k).Finite := by
  have hpairs := ((finite_sequences (p.finite_contextSteps abstraction) k).prod
    (p.finite_abstractObjects abstraction)).image fun q ↦ (⟨q.1, q.2⟩ : HeapObject)
  exact hpairs.subset fun x hx ↦ ⟨(x.ctx, x.object), hx, rfl⟩

theorem heapSteps_mem (s : Selector) {xs : List ContextStep} (hxs : xs ∈ p.contexts abstraction s.k) :
    s.heapSteps xs ∈ p.contexts abstraction s.k := by
  obtain ⟨strategy, k, hk⟩ := s
  cases strategy with
  | insensitive => exact nil_mem_sequences _ _
  | _ => exact rtake_mem_sequences_of_mem hxs

/-- Whatever context a callee gets is one of the finitely many that the program has. -/
theorem calleeSteps_mem (s : Selector) {xs : List ContextStep}
    (hxs : xs ∈ p.contexts abstraction s.k) {c : CallSiteId} {site : CallSite}
    (hsite : p.callSite c = .ok site) {receiver : Option HeapObject}
    (hreceiver : ∀ x, receiver = some x → x ∈ p.heapObjects abstraction s.k) :
    s.calleeSteps p xs c receiver ∈ p.contexts abstraction s.k := by
  obtain ⟨strategy, k, hk⟩ := s
  cases strategy with
  | insensitive => exact nil_mem_sequences _ _
  | callSite => exact rtake_concat_mem hxs (.inl ⟨c, lt_of_lookup hsite, rfl⟩)
  | object =>
    cases receiver with
    | none => exact hxs
    | some x =>
      obtain ⟨hctx, hobject⟩ := hreceiver x rfl
      exact rtake_concat_mem hctx (.inr (.inl ⟨x.object, hobject, rfl⟩))
  | type =>
    cases receiver with
    | none => exact hxs
    | some x =>
      obtain ⟨hctx, hobject⟩ := hreceiver x rfl
      exact rtake_concat_mem hctx (.inr (.inr ⟨x.object, hobject, rfl⟩))

end Program

/-- With the contexts that a selector chooses. -/
def Domain.selectedBounds {p : Program} (hp : p.Analysable) (abstraction : HeapAbstraction)
    (s : Selector) : (Domain.selected p abstraction s).Bounds p where
  contexts := p.contexts abstraction s.k
  objects := p.heapObjects abstraction s.k
  finite_contexts := finite_sequences (p.finite_contextSteps abstraction) s.k
  finite_objects := p.finite_heapObjects abstraction s.k
  start := nil_mem_sequences _ _
  allocate hk hsite := ⟨Program.heapSteps_mem s hk, .inl ⟨_, _, hsite, rfl⟩⟩
  calleeContext hk hsite hr := Program.calleeSteps_mem s hk hsite hr
  mark hsite hcls := ⟨nil_mem_sequences _ _, .inr ⟨_, _, _, _, hsite, hcls, rfl⟩⟩
  classOf hx := hp.classOf hx.2
  sourceOf hx hc := Program.sourceOf_abstractObjects hx.2 hc

end PointsTo
