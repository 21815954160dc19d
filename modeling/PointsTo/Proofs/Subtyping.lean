import PointsTo.Proofs.Closure
import PointsTo.Proofs.Hierarchy
import Mathlib.Data.List.ReduceOption

/-!
# Subtypes and the methods that calls may reach

A class is a subtype of the classes that it names, of those that these name, and so on. The walk that
collects the subtypes of a class goes the other way, from classes along subclasses only and from
interfaces along extending interfaces and implementing classes only (`Narrows`). In a hierarchy in which
superclasses are classes and interfaces are interfaces it misses nothing (`mem_subtypes_iff`). Hence a
call on a receiver of a subtype of the class it names is among the calls that the hierarchy alone allows
(`Program.Resolvable.callee_mem_targets`).
-/

namespace PointsTo

namespace Hierarchy

variable {h : Hierarchy} {c x : ClassId}

/-! ## Subtypes -/

/-- The class `c` names `s`, as its superclass or among its interfaces. -/
def Extends (h : Hierarchy) (c s : ClassId) : Prop := h.Declares c fun d ↦ s ∈ d.supers

/-- The class `c` is `s` or a transitive subtype of `s`. -/
def IsSubtype (h : Hierarchy) (c s : ClassId) : Prop := Relation.ReflTransGen h.Extends c s

def isInterface (h : Hierarchy) (c : ClassId) : Bool := (h.classes[c.index]?).any (·.isInterface)

/-- The class `x` stands directly below `c`: it lists `c` among its interfaces if `c` is an interface,
and `c` is its superclass if not. -/
def Narrows (h : Hierarchy) (c x : ClassId) : Prop :=
  h.Declares x fun d ↦ if h.isInterface c then c ∈ d.interfaces else d.superclass = some c

/-- Superclasses are no interfaces, and interfaces are. -/
def WellFormed (h : Hierarchy) : Prop :=
  ∀ k ∈ h.classes.toList,
    (∀ c ∈ k.superclass, h.isInterface c = false) ∧ ∀ c ∈ k.interfaces, h.isInterface c = true

instance (h : Hierarchy) : Decidable h.WellFormed :=
  inferInstanceAs (Decidable (∀ k ∈ h.classes.toList,
    (∀ c ∈ k.superclass, h.isInterface c = false) ∧ ∀ c ∈ k.interfaces, h.isInterface c = true))

theorem directSubtypes_eq {k : ClassInfo} (hk : h.classes[c.index]? = some k) :
    h.directSubtypes c = if k.isInterface then k.subinterfaces ++ k.implementors else k.subclasses := by
  unfold directSubtypes
  rw [hk]

theorem isInterface_eq {k : ClassInfo} (hk : h.classes[c.index]? = some k) :
    h.isInterface c = k.isInterface := by
  unfold isInterface
  rw [hk]
  rfl

theorem Narrows.extends (hx : h.Narrows c x) : h.Extends x c := by
  obtain ⟨k, hk, hc⟩ := hx
  refine ⟨k, hk, ClassDecl.mem_supers.2 ?_⟩
  split at hc
  · exact .inr hc
  · exact .inl hc

theorem WellFormed.narrows_iff (hw : h.WellFormed) : h.Narrows c x ↔ h.Extends x c := by
  refine ⟨Narrows.extends, fun hx ↦ ?_⟩
  obtain ⟨k, hk, hc⟩ := hx
  obtain ⟨hsuper, hinterfaces⟩ := hw k (Array.mem_toList_iff.2 (Array.mem_of_getElem? hk))
  refine ⟨k, hk, ?_⟩
  rcases ClassDecl.mem_supers.1 hc with hc | hc
  · rw [hsuper c hc]
    exact hc
  · rw [hinterfaces c hc]
    exact hc

/-- Below a class stand exactly its subtypes. -/
theorem WellFormed.reflTransGen_narrows_iff (hw : h.WellFormed) :
    Relation.ReflTransGen h.Narrows c x ↔ h.IsSubtype x c := by
  have hnarrows : h.Narrows = Function.swap h.Extends := by
    funext a b
    exact propext hw.narrows_iff
  rw [hnarrows, Relation.reflTransGen_swap]
  rfl

/-- The lists of a class hold what stands directly below it. -/
theorem Indexed.mem_directSubtypes_iff (hi : h.Indexed) :
    x ∈ h.directSubtypes c ↔ h.Narrows c x := by
  cases hk : h.classes[c.index]? with
  | none =>
    have hunknown : h.directSubtypes c = [] := by simp [directSubtypes, hk]
    rw [hunknown]
    refine iff_of_false List.not_mem_nil fun hx ↦ ?_
    obtain ⟨k', hk', hc⟩ := hx.extends
    have hlt := Nat.lt_trans (hi.earlier hk' hc) (Array.getElem?_eq_some_iff.1 hk').1
    exact Nat.not_le.2 hlt (Array.getElem?_eq_none_iff.1 hk)
  | some k =>
    unfold Narrows
    rw [directSubtypes_eq hk, isInterface_eq hk]
    cases k.isInterface with
    | false => exact hi.subclasses c.index k hk x
    | true =>
      rw [if_pos rfl, List.mem_append, hi.subinterfaces c.index k hk x, hi.implementors c.index k hk x]
      constructor
      · rintro (⟨k', hk', -, hc⟩ | ⟨k', hk', -, hc⟩)
        · exact ⟨k', hk', hc⟩
        · exact ⟨k', hk', hc⟩
      · rintro ⟨k', hk', hc⟩
        cases hkind : k'.isInterface with
        | true => exact .inl ⟨k', hk', hkind, hc⟩
        | false => exact .inr ⟨k', hk', hkind, hc⟩

section Known

variable (hi : h.Indexed) (hc : c.index < h.classes.size)

include hi hc

theorem Indexed.reached_lt (hx : Closure.Reached h.directSubtypes [c] x) : x ∈ h.classIds := by
  refine hx.mem (fun a ha ↦ ?_) fun a _ b hb ↦ ?_
  · rw [List.mem_singleton.1 ha]
    exact Id.mem_upTo.2 hc
  · obtain ⟨k, hk, -⟩ := hi.mem_directSubtypes_iff.1 hb
    exact Id.mem_upTo.2 (Array.getElem?_eq_some_iff.1 hk).1

theorem Indexed.mem_subtypes : x ∈ h.subtypes c ↔ Relation.ReflTransGen h.Narrows c x := by
  have hsucc : (fun a b ↦ b ∈ h.directSubtypes a) = h.Narrows := by
    funext a b
    exact propext hi.mem_directSubtypes_iff
  unfold subtypes
  rw [Closure.mem_order_iff (hi.reached_lt hc) (by simp [classIds, Id.upTo]),
    Closure.reached_singleton, hsucc]

/-- The walk along direct subtypes finds the subtypes of a class. -/
theorem Indexed.mem_subtypes_iff (hw : h.WellFormed) : x ∈ h.subtypes c ↔ h.IsSubtype x c := by
  rw [hi.mem_subtypes hc, hw.reflTransGen_narrows_iff]

theorem Indexed.lt_of_mem_subtypes (hx : x ∈ h.subtypes c) : x.index < h.classes.size := by
  rw [hi.mem_subtypes hc] at hx
  cases hx with
  | refl => exact hc
  | tail _ hx =>
    obtain ⟨k, hk, -⟩ := hx
    exact (Array.getElem?_eq_some_iff.1 hk).1

theorem Indexed.dispatchBelow_eq_ok (s : Subsignature) :
    ∃ ms, h.dispatchBelow c s = .ok ms ∧ ms.Nodup ∧
      ∀ m, m ∈ ms ↔ ∃ x ∈ h.subtypes c, h.dispatch x s = .ok (some m) := by
  obtain ⟨found, hfound, hmem⟩ := mapM_eq_ok fun x hx ↦ by
    obtain ⟨k, hk⟩ := cls_eq_ok (hi.lt_of_mem_subtypes hc hx)
    exact @dispatch_ok _ _ s _ hk
  refine ⟨found.reduceOption.eraseDups, bind_eq_ok.2 ⟨found, hfound, rfl⟩, nodup_eraseDups _,
    fun m ↦ ?_⟩
  rw [List.mem_eraseDups, List.reduceOption_mem_iff, hmem]

end Known

end Hierarchy

/-! ## Targets of calls -/

/-- The callee depends on the class of the receiver. -/
def CallSite.Dispatched (site : CallSite) : Prop := site.kind = .virtual ∨ site.kind = .interface

instance (site : CallSite) : Decidable site.Dispatched :=
  inferInstanceAs (Decidable (site.kind = .virtual ∨ site.kind = .interface))

namespace Program

variable {p : Program} {c : CallSiteId} {site : CallSite}

/-- The targets of a dispatched call, each once, are found at and below the class that it names. -/
theorem targets_of_dispatched (hi : p.hierarchy.Indexed) (hsite : p.callSite c = .ok site)
    (hd : site.Dispatched) (hcls : site.target.cls.index < p.hierarchy.classes.size) :
    ∃ ms, p.targets c = .ok ms ∧ ms.Nodup ∧ ∀ m, m ∈ ms ↔
      ∃ x, Relation.ReflTransGen p.hierarchy.Narrows site.target.cls x ∧
        p.hierarchy.dispatch x site.target.subsignature = .ok (some m) := by
  obtain ⟨ms, hms, hnodup, hmem⟩ := hi.dispatchBelow_eq_ok hcls site.target.subsignature
  simp only [hi.mem_subtypes hcls] at hmem
  refine ⟨ms, bind_eq_ok.2 ⟨site, hsite, ?_⟩, hnodup, hmem⟩
  rcases hd with hkind | hkind <;> rw [hkind] <;> exact hms

/-- The classes that calls name, dynamic ones apart, are classes of an indexed hierarchy. -/
structure Resolvable (p : Program) : Prop where
  indexed : p.hierarchy.Indexed
  calls : ∀ {c site}, p.callSite c = .ok site → site.kind ≠ .dynamic →
    ∃ k, p.hierarchy.cls site.target.cls = .ok k

theorem Analysable.resolvable (hp : p.Analysable) (hi : p.hierarchy.Indexed) : p.Resolvable :=
  ⟨hi, hp.calls⟩

namespace Resolvable

variable (hp : p.Resolvable) (hsite : p.callSite c = .ok site)

include hp hsite

/-- The class that a dispatched call names exists. -/
theorem target_lt (hd : site.Dispatched) : site.target.cls.index < p.hierarchy.classes.size := by
  have hkind : site.kind ≠ .dynamic := by
    rcases hd with hd | hd <;> simp [hd]
  obtain ⟨k, hk⟩ := hp.calls hsite hkind
  exact (Array.getElem?_eq_some_iff.1 (Id.lookup_eq_ok_iff.1 hk)).1

/-- Every call has its list of targets. -/
theorem targets : ∃ ms, p.targets c = .ok ms := by
  cases hkind : site.kind with
  | dynamic => simp [Program.targets, hsite, hkind, bind, Except.bind, pure, Except.pure]
  | static =>
    obtain ⟨k, hk⟩ := hp.calls hsite (by simp [hkind])
    obtain ⟨m, hm⟩ := Hierarchy.resolve_ok hk
    simp [Program.targets, hsite, hkind, hm, bind, Except.bind, pure, Except.pure]
  | special =>
    obtain ⟨k, hk⟩ := hp.calls hsite (by simp [hkind])
    obtain ⟨m, hm⟩ := @Hierarchy.dispatch_ok _ _ site.target.subsignature _ hk
    simp [Program.targets, hsite, hkind, hm, bind, Except.bind, pure, Except.pure]
  | virtual =>
    have hd : site.Dispatched := .inl hkind
    obtain ⟨ms, hms, -⟩ := targets_of_dispatched hp.indexed hsite hd (hp.target_lt hsite hd)
    exact ⟨ms, hms⟩
  | interface =>
    have hd : site.Dispatched := .inr hkind
    obtain ⟨ms, hms, -⟩ := targets_of_dispatched hp.indexed hsite hd (hp.target_lt hsite hd)
    exact ⟨ms, hms⟩

/-- The callee on a receiver of a class at or below the one that the call names is one of the
targets. -/
theorem callee_mem_targets {k : ClassId} {m : MethodId} (hm : p.callee (some k) c = .ok (some m))
    (hk : site.Dispatched → Relation.ReflTransGen p.hierarchy.Narrows site.target.cls k) :
    ∃ ms, p.targets c = .ok ms ∧ m ∈ ms := by
  have hdispatched : site.Dispatched →
      p.hierarchy.dispatch k site.target.subsignature = .ok (some m) →
      ∃ ms, p.targets c = .ok ms ∧ m ∈ ms := by
    intro hd hm
    obtain ⟨ms, hms, -, hmem⟩ := targets_of_dispatched hp.indexed hsite hd (hp.target_lt hsite hd)
    exact ⟨ms, hms, (hmem m).2 ⟨k, hk hd, hm⟩⟩
  obtain ⟨site', hsite', hm⟩ := bind_eq_ok.1 hm
  obtain rfl := Except.ok.inj (hsite.symm.trans hsite')
  cases hkind : site.kind with
  | dynamic => simp [hkind, pure, Except.pure] at hm
  | static =>
    rw [hkind] at hm
    refine ⟨[m], ?_, List.mem_singleton_self m⟩
    simp [Program.targets, hsite, hkind, hm, bind, Except.bind, pure, Except.pure]
  | special =>
    rw [hkind] at hm
    refine ⟨[m], ?_, List.mem_singleton_self m⟩
    simp [Program.targets, hsite, hkind, hm, bind, Except.bind, pure, Except.pure]
  | virtual =>
    rw [hkind] at hm
    exact hdispatched (.inl hkind) hm
  | interface =>
    rw [hkind] at hm
    exact hdispatched (.inr hkind) hm

/-- Targets are declared methods. -/
theorem mem_of_mem_targets {ms : List MethodId} {m : MethodId}
    (hms : p.targets c = .ok ms) (hm : m ∈ ms) : m ∈ p.hierarchy.declaredMethods := by
  have hdispatched : site.Dispatched → m ∈ p.hierarchy.declaredMethods := by
    intro hd
    obtain ⟨ms', hms', -, hmem⟩ := targets_of_dispatched hp.indexed hsite hd (hp.target_lt hsite hd)
    obtain rfl := Except.ok.inj (hms.symm.trans hms')
    obtain ⟨x, -, hx⟩ := (hmem m).1 hm
    exact Hierarchy.mem_of_dispatch hx
  obtain ⟨site', hsite', hms⟩ := bind_eq_ok.1 hms
  obtain rfl := Except.ok.inj (hsite.symm.trans hsite')
  cases hkind : site.kind with
  | dynamic =>
    rw [hkind] at hms
    obtain rfl := Except.ok.inj hms
    cases hm
  | static =>
    rw [hkind] at hms
    obtain ⟨found, hfound, hms⟩ := bind_eq_ok.1 hms
    obtain rfl := Except.ok.inj hms
    rw [Option.mem_toList.1 hm] at hfound
    exact Hierarchy.mem_of_resolve hfound
  | special =>
    rw [hkind] at hms
    obtain ⟨found, hfound, hms⟩ := bind_eq_ok.1 hms
    obtain rfl := Except.ok.inj hms
    rw [Option.mem_toList.1 hm] at hfound
    exact Hierarchy.mem_of_dispatch hfound
  | virtual => exact hdispatched (.inl hkind)
  | interface => exact hdispatched (.inr hkind)

end Resolvable

end Program

end PointsTo
