import PointsTo.Proofs.Meaning

/-!
# Heaps by the objects they hold

A heap finds objects by keys. In a heap that was filled for one program every object is the one that
its key stands for (`Heap.Keyed`), so that different numbers are different objects. Without contexts
this is all there is to naming: `Meaning.plain` is lawful.
-/

namespace PointsTo

/-- The object that a key stands for in a program. -/
def ObjectKey.object? (p : Program) : ObjectKey → Option AbstractObject
  | site a => (p.allocSites[a.index]?).map fun s ↦ s.object .allocationSite a
  | cls c => some { cls := c, kind := .merged }
  | taint source c => some (.mark source c)
  | mock descriptor c => some { cls := c, kind := .mock descriptor }

/-- No two keys stand for the same object. -/
theorem ObjectKey.object?_inj {p : Program} {k l : ObjectKey} {o : AbstractObject}
    (hk : k.object? p = some o) (hl : l.object? p = some o) : k = l := by
  cases k <;> cases l <;>
    simp only [object?, AllocSite.object, AbstractObject.mark, Option.map_eq_some_iff,
      Option.some.injEq] at hk hl
  all_goals grind

namespace Heap

variable {p : Program} {abstraction : HeapAbstraction} {h : Heap}

/-- Objects are abstracted as said, and every object is the one that its key stands for. -/
structure Keyed (h : Heap) (p : Program) (abstraction : HeapAbstraction) : Prop where
  abstraction_eq : h.abstraction = abstraction
  object : ∀ {i k o}, h.objects.nth? i = some (k, o) → k.object? p = some o

theorem get?_eq_some_iff {i : ObjectId} {o : AbstractObject} :
    h.get? i = some o ↔ ∃ k, h.objects.nth? i.index = some (k, o) := by
  simp [get?, Table.value?]

theorem object_eq_ok {i : ObjectId} {o : AbstractObject} (hi : h.get? i = some o) :
    h.object i = .ok o := by
  have hvalue : h.objects.value? i.index = some o := hi
  simp [object, hvalue]

theorem keyed_empty (p : Program) (abstraction : HeapAbstraction) :
    Keyed { abstraction } p abstraction where
  abstraction_eq := rfl
  object hi := by simp at hi

theorem Keyed.get?_inj (hh : h.Keyed p abstraction) {i j : ObjectId} {o : AbstractObject}
    (hi : h.get? i = some o) (hj : h.get? j = some o) : i = j := by
  obtain ⟨k, hk⟩ := get?_eq_some_iff.1 hi
  obtain ⟨l, hl⟩ := get?_eq_some_iff.1 hj
  obtain rfl := ObjectKey.object?_inj (hh.object hk) (hh.object hl)
  exact Id.index_inj.1 (Table.key?_inj (Table.key?_of_nth? hk) (Table.key?_of_nth? hl))

/-- The heap `h'` is `h`, and at `i` it has the object `o`. -/
structure Holds (h : Heap) (p : Program) (abstraction : HeapAbstraction) (o : AbstractObject)
    (h' : Heap) (i : ObjectId) : Prop where
  keyed : h'.Keyed p abstraction
  get? : ∀ {j x}, h.get? j = some x → h'.get? j = some x
  self : h'.get? i = some o

theorem Keyed.intern (hh : h.Keyed p abstraction) {k : ObjectKey} {o : AbstractObject}
    (hk : k.object? p = some o) :
    h.Holds p abstraction o (h.intern k o).1 (h.intern k o).2 := by
  have hkeyed : (h.intern k o).1.Keyed p abstraction := by
    refine ⟨hh.abstraction_eq, fun {i k' o'} hi ↦ ?_⟩
    rcases Table.nth?_intern_iff.1 hi with hi | ⟨-, -, heq⟩
    · exact hh.object hi
    · obtain ⟨rfl, rfl⟩ := Prod.mk.inj heq
      exact hk
  refine ⟨hkeyed, fun {j x} hj ↦ ?_, ?_⟩
  · obtain ⟨k', hk'⟩ := get?_eq_some_iff.1 hj
    exact get?_eq_some_iff.2 ⟨k', Table.nth?_intern_of_nth? hk'⟩
  · obtain ⟨o', ho'⟩ := Table.key?_eq_some_iff.1 (Table.key?_intern_self h.objects k o)
    obtain rfl := Option.some.inj (hk.symm.trans (hkeyed.object ho'))
    exact get?_eq_some_iff.2 ⟨k, ho'⟩

/-- Allocation succeeds at every site there is, and gives the site's object. -/
theorem Keyed.allocated (hh : h.Keyed p abstraction) {a : AllocSiteId} {site : AllocSite}
    (hsite : p.allocSite a = .ok site) :
    ∃ h' i, h.allocated p a = .ok (h', i) ∧ h.Holds p abstraction (site.object abstraction a) h' i := by
  have hget : p.allocSites[a.index]? = some site := Id.lookup_eq_ok_iff.1 hsite
  have habs := hh.abstraction_eq
  cases abstraction with
  | allocationSite =>
    have hk : (ObjectKey.site a).object? p = some (site.object .allocationSite a) := by
      simp [ObjectKey.object?, hget]
    refine ⟨_, _, ?_, hh.intern hk⟩
    simp [Heap.allocated, hsite, habs, AllocSite.object, bind, Except.bind, pure, Except.pure]
  | allocationType =>
    have hk : (ObjectKey.cls site.cls).object? p = some (site.object .allocationType a) := rfl
    refine ⟨_, _, ?_, hh.intern hk⟩
    simp [Heap.allocated, hsite, habs, AllocSite.object, bind, Except.bind, pure, Except.pure]

theorem Keyed.taint (hh : h.Keyed p abstraction) (source : CallSiteId) (cls : ClassId) :
    h.Holds p abstraction (.mark source cls) (h.taint source cls).1 (h.taint source cls).2 :=
  hh.intern rfl

/-- Only allocated objects have a container, which is that of their site. -/
theorem Keyed.container (hh : h.Keyed p abstraction) {i : ObjectId} {o : AbstractObject}
    (hi : h.get? i = some o) {m : MethodId} (hm : o.container = some m) :
    ∃ a site, p.allocSite a = .ok site ∧ site.container = m := by
  obtain ⟨k, hk⟩ := get?_eq_some_iff.1 hi
  have hobject := hh.object hk
  cases k with
  | site a =>
    obtain ⟨site, hsite, rfl⟩ := Option.map_eq_some_iff.1 hobject
    exact ⟨a, site, Id.lookup_eq_ok_iff.2 hsite, by simpa [AllocSite.object] using hm⟩
  | cls c =>
    obtain rfl := Option.some.inj hobject
    cases hm
  | taint source c =>
    obtain rfl := Option.some.inj hobject
    cases hm
  | mock descriptor c =>
    obtain rfl := Option.some.inj hobject
    cases hm

end Heap

/-- Without contexts, names mean what the domain says. -/
theorem Meaning.lawful_plain (p : Program) (abstraction : HeapAbstraction) :
    Meaning.plain.Lawful .plain p (.plain abstraction) (Heap.Keyed · p abstraction) where
  ctx_inj := by
    intro n c c' k _ _ _
    rfl
  obj_inj hn hx hy := hn.get?_inj hx hy
  start := by
    intro n _
    rfl
  allocate := by
    intro n m a k site hn _ hsite
    obtain ⟨n', o, hallocated, hholds⟩ := hn.allocated hsite
    exact ⟨n', o, hallocated, hholds.keyed, ⟨id, hholds.get?⟩, hholds.self⟩
  calleeContext := by
    intro n id k receiver x hn _ _
    exact ⟨n, (), rfl, hn, .refl _ _, rfl⟩
  classOf := by
    intro n o x _ hx
    simp [Naming.plain, Heap.object_eq_ok hx, Domain.plain, bind, Except.bind, pure, Except.pure]
  mark := by
    intro n source cls hn
    have hholds := hn.taint source cls
    exact ⟨hholds.keyed, ⟨id, hholds.get?⟩, hholds.self⟩
  sourceOf := by
    intro n o x _ hx
    simp [Naming.plain, Heap.sourceOf, Heap.object_eq_ok hx, Domain.plain, bind, Except.bind, pure,
      Except.pure]

end PointsTo
