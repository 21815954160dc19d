import PointsTo.Proofs.Dispatch
import PointsTo.Proofs.Lookups

/-!
# What references to methods mean

A reference names a class and a subsignature. It means the declaration of the nearest superclass that
has one, abstract or not, and only if there is none the declaration of an interface. Interfaces are as
far away as the number of extensions that lead to them from one that the class or a superclass lists
(`Hierarchy.InterfaceAt`), and a nearest one is taken. Whatever the bounds on the two walks, classes name
earlier ones only, so that larger bounds change nothing.

Dispatch looks among the same superclasses for a method that is not abstract. What it finds is therefore
never missed here. A world is accepted only if the references of its calls mean something, and so no
call of a static method is ever left out.
-/

namespace PointsTo

namespace Hierarchy

variable {h : Hierarchy} {c i : ClassId} {s : Subsignature} {m : MethodId}

/-- The class `c` or a superclass of it lists an interface from which `n` extensions lead here. -/
inductive InterfaceAt (h : Hierarchy) (c : ClassId) : Nat → ClassId → Prop
  | listed {n : Nat} {a i : ClassId} :
      h.ancestor? n c = some a → i ∈ h.interfacesOf a → InterfaceAt h c 0 i
  | extended {n : Nat} {i j : ClassId} :
      InterfaceAt h c n i → j ∈ h.interfacesOf i → InterfaceAt h c (n + 1) j

/-- No superclass of `c` declares `s`, nor does `c`. -/
def Undeclared (h : Hierarchy) (c : ClassId) (s : Subsignature) : Prop :=
  ∀ n a, h.ancestor? n c = some a → h.declared? a s = none

/-- What the subsignature `s` means in the class `c`. -/
inductive Means (h : Hierarchy) (c : ClassId) (s : Subsignature) : Option MethodId → Prop
  /-- The nearest superclass that declares it. -/
  | superclass {n : Nat} {a : ClassId} {m : MethodId} :
      h.ancestor? n c = some a → h.declared? a s = some m →
      (∀ k < n, ∀ b, h.ancestor? k c = some b → h.declared? b s = none) → Means h c s (some m)
  /-- Otherwise, a nearest interface that declares it. -/
  | interface {n : Nat} {i : ClassId} {m : MethodId} :
      h.Undeclared c s → h.InterfaceAt c n i → h.declared? i s = some m →
      (∀ k < n, ∀ j, h.InterfaceAt c k j → h.declared? j s = none) → Means h c s (some m)
  | nothing : h.Undeclared c s → (∀ n i, h.InterfaceAt c n i → h.declared? i s = none) →
      Means h c s none

/-- A declaration on the way up is never missed. -/
theorem Means.isSome {found : Option MethodId} (hfound : h.Means c s found) {n : Nat} {a : ClassId}
    (ha : h.ancestor? n c = some a) (hm : h.declared? a s = some m) : found.isSome := by
  cases hfound with
  | superclass => rfl
  | interface => rfl
  | nothing hnone =>
    rw [hnone n a ha] at hm
    cases hm

namespace Indexed

variable (hi : h.Indexed)

include hi

/-! ## The walks -/

theorem mem_ancestry_iff {a : ClassId} : a ∈ h.ancestry c ↔ ∃ n, h.ancestor? n c = some a := by
  simp only [List.mem_iff_getElem?, hi.getElem?_ancestry]

theorem interfaceAt_iff {n : Nat} : h.InterfaceAt c n i ↔
    Closure.ReachedIn h.interfacesOf ((h.ancestry c).flatMap h.interfacesOf) n i := by
  constructor
  · intro hat
    induction hat with
    | listed ha hlists => exact .start (List.mem_flatMap.2 ⟨_, hi.mem_ancestry_iff.2 ⟨_, ha⟩, hlists⟩)
    | extended _ hextends ih => exact ih.next hextends
  · intro hat
    induction hat with
    | start hstart =>
      obtain ⟨a, ha, hlists⟩ := List.mem_flatMap.1 hstart
      obtain ⟨n, hn⟩ := hi.mem_ancestry_iff.1 ha
      exact .listed hn hlists
    | next _ hextends ih => exact ih.extended hextends

theorem mem_superinterfaces_iff_interfaceAt :
    i ∈ h.superinterfaces c ↔ ∃ n, h.InterfaceAt c n i := by
  rw [hi.mem_superinterfaces_iff, Closure.reached_iff_reachedIn]
  exact exists_congr fun n ↦ hi.interfaceAt_iff.symm

/-- The way up ends by itself, however far it may go. -/
theorem chain_eq_ancestry {n : Nat} (hn : c.index < n) : h.chain n c = h.ancestry c := by
  apply List.ext_getElem?
  intro k
  rw [hi.getElem?_chain hn, hi.getElem?_ancestry]

/-- So does the search among interfaces. -/
theorem order_eq_superinterfaces {bound : Nat} (hbound : h.classes.size ≤ bound) :
    Closure.order h.interfacesOf bound ((h.ancestry c).flatMap h.interfacesOf) =
      h.superinterfaces c :=
  Closure.order_of_le hi.mem_classIds_of_reached (by simp [classIds, Id.upTo]) hbound

/-- The first interface that declares `s` is a nearest one. -/
theorem nearest_of_findSome?
    (hfirst : (h.superinterfaces c).findSome? (h.declared? · s) = some m) :
    ∃ n i, h.InterfaceAt c n i ∧ h.declared? i s = some m ∧
      ∀ k < n, ∀ j, h.InterfaceAt c k j → h.declared? j s = none := by
  obtain ⟨p, i, hp, hm, hbefore⟩ := findSome?_eq_some_iff_getElem?.1 hfirst
  have hat := hi.mem_superinterfaces_iff_interfaceAt.1 (List.mem_of_getElem? hp)
  -- The distance of `i` is the least number of extensions that lead to it.
  classical
  refine ⟨Nat.find hat, i, Nat.find_spec hat, hm, fun k hk j hj ↦ ?_⟩
  rw [Option.eq_none_iff_forall_ne_some]
  intro m' hm'
  obtain ⟨q, hq⟩ := List.mem_iff_getElem?.1 (hi.mem_superinterfaces_iff_interfaceAt.2 ⟨k, hj⟩)
  obtain ⟨l, hl, hil⟩ : ∃ l ≤ k, h.InterfaceAt c l i := by
    rcases Nat.lt_trichotomy q p with hqp | rfl | hpq
    · rw [hbefore q hqp j hq] at hm'
      cases hm'
    · obtain rfl := Option.some.inj (hp.symm.trans hq)
      exact ⟨k, Nat.le_refl k, hj⟩
    · obtain ⟨hplt, rfl⟩ := List.getElem?_eq_some_iff.1 hp
      obtain ⟨hqlt, rfl⟩ := List.getElem?_eq_some_iff.1 hq
      have hnoFarther := List.pairwise_iff_getElem.1 (Closure.pairwise_order _ _ _) p q hplt hqlt hpq
      obtain ⟨l, hl, hil⟩ := hnoFarther k (hi.interfaceAt_iff.1 hj)
      exact ⟨l, hl, hi.interfaceAt_iff.2 hil⟩
  exact Nat.find_min hat (hl.trans_lt hk) hil

/-- References to classes that exist have a meaning, and it is found. -/
theorem resolve_eq_ok (hc : c.index < h.classes.size) (s : Subsignature) :
    ∃ found, h.resolve ⟨c, s⟩ = .ok found ∧ h.Means c s found := by
  obtain ⟨k, hk⟩ := cls_eq_ok hc
  refine ⟨_, bind_eq_ok.2 ⟨k, hk, rfl⟩, ?_⟩
  cases hup : (h.ancestry c).findSome? (h.declared? · s) with
  | some m =>
    obtain ⟨n, a, ha, hm, hbefore⟩ := findSome?_eq_some_iff_getElem?.1 hup
    simp only [hi.getElem?_ancestry] at ha hbefore
    exact .superclass ha hm hbefore
  | none =>
    have hundeclared : h.Undeclared c s := fun n a ha ↦
      List.findSome?_eq_none_iff.1 hup a (hi.mem_ancestry_iff.2 ⟨n, ha⟩)
    rw [Option.none_or]
    cases haside : (h.superinterfaces c).findSome? (h.declared? · s) with
    | some m =>
      obtain ⟨n, i, hat, hm, hnearest⟩ := hi.nearest_of_findSome? haside
      exact .interface hundeclared hat hm hnearest
    | none =>
      refine .nothing hundeclared fun n i hat ↦ ?_
      exact List.findSome?_eq_none_iff.1 haside i (hi.mem_superinterfaces_iff_interfaceAt.2 ⟨n, hat⟩)

/-- What can be dispatched can be referred to. -/
theorem isSome_of_dispatch {found : Option MethodId} (hfound : h.Means c s found)
    (hdispatch : h.dispatch c s = .ok (some m)) : found.isSome := by
  obtain ⟨k, -, hfirst⟩ := bind_eq_ok.1 hdispatch
  obtain ⟨n, a, ha, hm, -⟩ := findSome?_eq_some_iff_getElem?.1 (Except.ok.inj hfirst)
  rw [hi.getElem?_ancestry] at ha
  exact hfound.isSome ha (implements_iff.1 hm).1

end Indexed

end Hierarchy

/-! ## Calls of static methods -/

namespace World

/-- A call of a static method has one target, and it is made. -/
structure StaticCallMade (p : Program) (c : CallSiteId) (site : CallSite) (m : MethodId) : Prop where
  resolved : p.hierarchy.resolve site.target = .ok (some m)
  callee : p.callee none c = .ok (some m)
  targets : p.targets c = .ok [m]
  /-- No solver leaves it out, whatever its contexts and its state. -/
  made : ∀ {C : Type} [Contextual C] {e : Entity} {σ : Type} (S : Setup C e σ) (ctx : C)
    (s : State C e σ), S.program = p → S.staticCall ⟨ctx, c⟩ s = S.call ⟨ctx, c⟩ m none s

theorem staticCallMade {p : Program} {entry : MethodId} {w : World} (hw : World.of p entry = .ok w)
    {c : CallSiteId} {site : CallSite} (hsite : p.callSite c = .ok site)
    (hkind : site.kind = .static) : ∃ m, StaticCallMade p c site m := by
  have hcheck := checkCall_of_accepted hw hsite
  obtain ⟨m, hresolve, -⟩ := resolve_of_checkCall hcheck hsite (by simp [hkind])
  have hcallee : p.callee none c = .ok (some m) := (Program.callee_static hsite hkind).trans hresolve
  refine ⟨m, hresolve, hcallee, ?_, ?_⟩
  · simp [Program.targets, hsite, hkind, hresolve, bind, Except.bind, pure, Except.pure]
  · rintro C _ e σ S ctx s rfl
    simp [Setup.staticCall, hcallee, bind, Except.bind]

end World

/-! ## Results -/

/-- In every hierarchy that additions lead to, the search for a declaration ends with what the reference
means: the declaration of the nearest superclass that has one, otherwise that of a nearest interface,
otherwise nothing. It finds something wherever dispatch does. In every accepted world, each call of a
static method has a target, so that no solver leaves it out. -/
theorem resolve_finds_nearest {h : Hierarchy} (hbuilt : h.Built) :
    (∀ c s, c.index < h.classes.size →
      ∃ found, h.resolve ⟨c, s⟩ = .ok found ∧ h.Means c s found ∧
        ∀ m, h.dispatch c s = .ok (some m) → found.isSome) ∧
    (∀ c n, c.index < n → h.chain n c = h.ancestry c) ∧
    (∀ c bound, h.classes.size ≤ bound →
      Closure.order h.interfacesOf bound ((h.ancestry c).flatMap h.interfacesOf) =
        h.superinterfaces c) ∧
    ∀ p entry w, World.of p entry = .ok w → ∀ c site, p.callSite c = .ok site →
      site.kind = .static → ∃ m, World.StaticCallMade p c site m := by
  have hi := hbuilt.indexed
  refine ⟨fun c s hc ↦ ?_, fun c n ↦ hi.chain_eq_ancestry, fun c bound ↦ hi.order_eq_superinterfaces,
    fun p entry w hw c site ↦ World.staticCallMade hw⟩
  obtain ⟨found, hfound, hmeans⟩ := hi.resolve_eq_ok hc s
  exact ⟨found, hfound, hmeans, fun m ↦ hi.isSome_of_dispatch hmeans⟩

/-- Shapes are movable, and so drawable, and they are sized. Sized things tell how they are drawn
themselves, which is nearer to a shape than what it has from being drawable. -/
def sizedShapes : List Declaration :=
  [ .cls { name := "Main" },
    .cls { name := "Drawable", isInterface := true },
    .cls { name := "Movable", isInterface := true, interfaces := [⟨1⟩] },
    .cls { name := "Sized", isInterface := true },
    .cls { name := "Shape", isAbstract := true, interfaces := [⟨2⟩, ⟨3⟩] },
    .cls { name := "Circle", superclass := some ⟨4⟩ },
    .method { cls := ⟨1⟩, subsignature := ⟨"draw()"⟩, isAbstract := true },
    .method { cls := ⟨3⟩, subsignature := ⟨"draw()"⟩, isStatic := true, items := [] },
    .method { cls := ⟨4⟩, subsignature := ⟨"area()"⟩, isAbstract := true },
    .method { cls := ⟨0⟩, subsignature := ⟨"main()"⟩, isStatic := true, items :=
      [.call .static none none ⟨⟨5⟩, ⟨"draw()"⟩⟩ []] } ]

def sizedProgram : Program := (Program.ofDeclarations sizedShapes).toOption.getD {}

set_option maxRecDepth 4000 in
theorem sizedProgram_built : Program.ofDeclarations sizedShapes = .ok sizedProgram := by rfl

set_option maxRecDepth 4000 in
theorem resolve_finds_nearest_sized :
    sizedProgram.hierarchy.Built ∧
    sizedProgram.hierarchy.superinterfaces ⟨5⟩ = [⟨2⟩, ⟨3⟩, ⟨1⟩] ∧
    sizedProgram.hierarchy.Means ⟨5⟩ ⟨"draw()"⟩ (some ⟨1⟩) ∧
    sizedProgram.hierarchy.Means ⟨5⟩ ⟨"area()"⟩ (some ⟨2⟩) ∧
    sizedProgram.hierarchy.Means ⟨5⟩ ⟨"main()"⟩ none ∧
    World.of sizedProgram ⟨3⟩ = .ok ⟨sizedProgram, ⟨3⟩⟩ ∧
    ∃ m, World.StaticCallMade sizedProgram ⟨0⟩ ⟨.static, ⟨⟨5⟩, ⟨"draw()"⟩⟩, none, [], none, ⟨3⟩⟩ m := by
  have hbuilt := Program.built_of_ofDeclarations sizedProgram_built
  have hw : World.of sizedProgram ⟨3⟩ = .ok ⟨sizedProgram, ⟨3⟩⟩ := by rfl
  obtain ⟨hresolve, -, -, hstatic⟩ := resolve_finds_nearest hbuilt
  have hmeans : ∀ {s found}, sizedProgram.hierarchy.resolve ⟨⟨5⟩, s⟩ = .ok found →
      sizedProgram.hierarchy.Means ⟨5⟩ s found := by
    intro s found hfound
    obtain ⟨found', hfound', hmeans, -⟩ := hresolve ⟨5⟩ s (by decide)
    obtain rfl := Except.ok.inj (hfound'.symm.trans hfound)
    exact hmeans
  exact ⟨hbuilt, by rfl, hmeans (by rfl), hmeans (by rfl), hmeans (by rfl), hw,
    hstatic _ _ _ hw ⟨0⟩ _ (by rfl) (by rfl)⟩

end PointsTo
