import PointsTo.Proofs.Subtyping

/-!
# Dispatch along superclasses, and the targets of dispatched calls

Dispatch goes up from the class of the receiver and takes the first method that is not abstract. The
superclasses of a class are numbered by their distance from it (`Hierarchy.ancestor?`), so that "first"
means the least distance at which there is an implementation (`Hierarchy.Runs`). That the walk is cut
off after as many steps as the number of the class allows makes no difference, as classes name earlier
ones only. The targets of a dispatched call are then, each once, what runs for the classes at and below
the one that the call names (`dispatched_targets_exact`).
-/

namespace PointsTo

/-- The first answer in a list, by its position. -/
theorem findSome?_eq_some_iff_getElem? {α β : Type} {f : α → Option β} {as : List α} {b : β} :
    as.findSome? f = some b ↔
      ∃ (n : Nat) (a : α), as[n]? = some a ∧ f a = some b ∧ ∀ i < n, ∀ a', as[i]? = some a' → f a' = none := by
  induction as with
  | nil => simp
  | cons a as ih =>
    rw [List.findSome?_cons]
    cases hf : f a with
    | some b' =>
      constructor
      · intro hb
        obtain rfl := Option.some.inj hb
        exact ⟨0, a, rfl, hf, fun i hi ↦ absurd hi (Nat.not_lt_zero i)⟩
      · rintro ⟨n, a', ha', hb, hbefore⟩
        cases n with
        | zero =>
          obtain rfl := Option.some.inj ha'
          exact hf.symm.trans hb
        | succ n =>
          have hnone := hbefore 0 (Nat.succ_pos n) a rfl
          rw [hf] at hnone
          cases hnone
    | none =>
      rw [ih]
      constructor
      · rintro ⟨n, a', ha', hb, hbefore⟩
        refine ⟨n + 1, a', ha', hb, fun i hi a'' ha'' ↦ ?_⟩
        cases i with
        | zero =>
          obtain rfl := Option.some.inj ha''
          exact hf
        | succ i => exact hbefore i (Nat.lt_of_succ_lt_succ hi) a'' ha''
      · rintro ⟨n, a', ha', hb, hbefore⟩
        cases n with
        | zero =>
          obtain rfl := Option.some.inj ha'
          rw [hf] at hb
          cases hb
        | succ n =>
          exact ⟨n, a', ha', hb, fun i hi a'' ha'' ↦ hbefore (i + 1) (Nat.succ_lt_succ hi) a'' ha''⟩

namespace Hierarchy

variable {h : Hierarchy} {c a : ClassId} {s : Subsignature} {m : MethodId}

/-! ## Superclasses by distance -/

/-- The class that is `n` steps up from `c` along superclasses. -/
def ancestor? (h : Hierarchy) : Nat → ClassId → Option ClassId
  | 0, c => some c
  | n + 1, c => ((h.classes[c.index]?).bind (·.superclass)).bind (h.ancestor? n)

theorem getElem?_chain (h : Hierarchy) (n i : Nat) (c : ClassId) :
    (h.chain n c)[i]? = if i < n then h.ancestor? i c else none := by
  induction n generalizing i c with
  | zero => rfl
  | succ n ih =>
    cases i with
    | zero => rfl
    | succ i =>
      unfold chain ancestor?
      rw [List.getElem?_cons_succ]
      cases (h.classes[c.index]?).bind (·.superclass) with
      | none => simp
      | some p => simp [ih]

/-- Each step up leads to a smaller number. -/
theorem Indexed.ancestor?_le (hi : h.Indexed) {n : Nat} (ha : h.ancestor? n c = some a) :
    a.index + n ≤ c.index := by
  induction n generalizing c with
  | zero => exact Nat.le_of_eq (congrArg Id.index (Option.some.inj ha)).symm
  | succ n ih =>
    obtain ⟨p, hp, ha⟩ := Option.bind_eq_some_iff.1 ha
    obtain ⟨k, hk, hsuper⟩ := Option.bind_eq_some_iff.1 hp
    have hlt := hi.earlier hk (ClassDecl.mem_supers.2 (.inl hsuper))
    have hle := ih ha
    omega

/-- A walk along superclasses leaves none out if it may take more steps than the number of the class. -/
theorem Indexed.getElem?_chain (hi : h.Indexed) {bound : Nat} (hc : c.index < bound) (n : Nat) :
    (h.chain bound c)[n]? = h.ancestor? n c := by
  rw [Hierarchy.getElem?_chain]
  split
  case isTrue => rfl
  case isFalse hn =>
    rw [eq_comm, Option.eq_none_iff_forall_ne_some]
    intro a ha
    have hle := hi.ancestor?_le ha
    omega

theorem Indexed.getElem?_ancestry (hi : h.Indexed) (c : ClassId) (n : Nat) :
    (h.ancestry c)[n]? = h.ancestor? n c :=
  hi.getElem?_chain (Nat.lt_succ_self c.index) n

/-! ## Dispatch -/

/-- The class `c` itself declares `m` for `s`, and `m` is not abstract. -/
def Implements (h : Hierarchy) (c : ClassId) (s : Subsignature) (m : MethodId) : Prop :=
  h.declared? c s = some m ∧ h.isConcrete m = true

theorem implements_iff : (h.declared? c s).filter h.isConcrete = some m ↔ h.Implements c s m :=
  Option.filter_eq_some_iff

theorem not_implements_iff :
    (h.declared? c s).filter h.isConcrete = none ↔ ∀ m, ¬ h.Implements c s m := by
  rw [Option.eq_none_iff_forall_ne_some]
  exact forall_congr' fun m ↦ not_congr implements_iff

/-- What runs for `s` on an object of class `c`: the implementation of the nearest class, at `c` or
above, that has one. -/
def Runs (h : Hierarchy) (c : ClassId) (s : Subsignature) (m : MethodId) : Prop :=
  ∃ n a, h.ancestor? n c = some a ∧ h.Implements a s m ∧
    ∀ i < n, ∀ b, h.ancestor? i c = some b → ∀ m', ¬ h.Implements b s m'

/-- Dispatch returns for every class, with what runs if there is an implementation at all. -/
theorem Indexed.dispatch_eq_ok (hi : h.Indexed) (hc : c.index < h.classes.size) (s : Subsignature) :
    ∃ found, h.dispatch c s = .ok found ∧ (∀ m, found = some m ↔ h.Runs c s m) ∧
      (found = none ↔ ∀ n a m, h.ancestor? n c = some a → ¬ h.Implements a s m) := by
  obtain ⟨k, hk⟩ := cls_eq_ok hc
  refine ⟨_, bind_eq_ok.2 ⟨k, hk, rfl⟩, fun m ↦ ?_, ?_⟩
  · simp only [findSome?_eq_some_iff_getElem?, hi.getElem?_ancestry, implements_iff,
      not_implements_iff]
    rfl
  · rw [List.findSome?_eq_none_iff]
    simp only [List.mem_iff_getElem?, hi.getElem?_ancestry, not_implements_iff]
    constructor
    · intro hnone n a m ha
      exact hnone a ⟨n, ha⟩ m
    · rintro hnone a ⟨n, ha⟩ m
      exact hnone n a m ha

end Hierarchy

/-! ## Dispatched calls -/

namespace Program

variable {p : Program} {c : CallSiteId} {site : CallSite} (hsite : p.callSite c = .ok site)
  (hd : site.Dispatched)

include hsite hd

theorem callee_of_dispatched (k : ClassId) :
    p.callee (some k) c = p.hierarchy.dispatch k site.target.subsignature := by
  rcases hd with hkind | hkind <;> simp [callee, hsite, hkind, bind, Except.bind]

theorem callee_none_of_dispatched {ms : List MethodId} (hms : p.targets c = .ok ms) :
    p.callee none c = .ok (if ms.length = 1 then ms.head? else none) := by
  rcases hd with hkind | hkind <;> rcases ms with - | ⟨m, - | ⟨m', ms⟩⟩ <;>
    simp [callee, hsite, hkind, hms, bind, Except.bind, pure, Except.pure]

/-- Without a receiver there is a callee if it is the only target. -/
theorem callee_none_eq_ok {ms : List MethodId} (hms : p.targets c = .ok ms) (hnodup : ms.Nodup) :
    ∃ found, p.callee none c = .ok found ∧ ∀ m, found = some m ↔ ∀ m', m' ∈ ms ↔ m' = m := by
  refine ⟨_, callee_none_of_dispatched hsite hd hms, fun m ↦ ?_⟩
  constructor
  · intro hm m'
    split at hm
    case isTrue hlength =>
      obtain ⟨m₁, rfl⟩ := List.length_eq_one_iff.1 hlength
      obtain rfl := Option.some.inj hm
      exact List.mem_singleton
    case isFalse => cases hm
  · intro hm
    have hperm : ms.Perm [m] := by
      apply (List.perm_ext_iff_of_nodup hnodup (by simp)).2
      intro m'
      rw [hm, List.mem_singleton]
    rw [List.perm_singleton.1 hperm]
    rfl

end Program

/-! ## Results -/

/-- A virtual or interface call has a list of targets, without repetition. They are what dispatch finds
for the classes at and below the one that the call names, which in a well-formed hierarchy are its
subtypes. Dispatch finds the implementation of the nearest superclass that has one. Hence the callee on
a receiver of such a class is a target, and without a receiver there is a callee if and only if it is
the only target. -/
theorem dispatched_targets_exact {p : Program} {c : CallSiteId} {site : CallSite}
    (hbuilt : p.hierarchy.Built) (hsite : p.callSite c = .ok site) (hd : site.Dispatched)
    (hcls : site.target.cls.index < p.hierarchy.classes.size) :
    (∃ ms, p.targets c = .ok ms ∧ ms.Nodup ∧
      (∀ m, m ∈ ms ↔ ∃ k, Relation.ReflTransGen p.hierarchy.Narrows site.target.cls k ∧
        p.hierarchy.dispatch k site.target.subsignature = .ok (some m)) ∧
      (∀ k m, Relation.ReflTransGen p.hierarchy.Narrows site.target.cls k →
        p.callee (some k) c = .ok (some m) → m ∈ ms) ∧
      ∃ found, p.callee none c = .ok found ∧ ∀ m, found = some m ↔ ∀ m', m' ∈ ms ↔ m' = m) ∧
    (p.hierarchy.WellFormed → ∀ k, Relation.ReflTransGen p.hierarchy.Narrows site.target.cls k ↔
      p.hierarchy.IsSubtype k site.target.cls) ∧
    ∀ k s, k.index < p.hierarchy.classes.size →
      ∃ found, p.hierarchy.dispatch k s = .ok found ∧ (∀ m, found = some m ↔ p.hierarchy.Runs k s m) ∧
        (found = none ↔
          ∀ n a m, p.hierarchy.ancestor? n k = some a → ¬ p.hierarchy.Implements a s m) := by
  have hi := hbuilt.indexed
  obtain ⟨ms, hms, hnodup, hmem⟩ := Program.targets_of_dispatched hi hsite hd hcls
  refine ⟨⟨ms, hms, hnodup, hmem, fun k m hk hm ↦ ?_, ?_⟩, fun hw k ↦ ?_, fun k s hk ↦ ?_⟩
  · rw [Program.callee_of_dispatched hsite hd] at hm
    exact (hmem m).2 ⟨k, hk, hm⟩
  · exact Program.callee_none_eq_ok hsite hd hms hnodup
  · exact hw.reflTransGen_narrows_iff
  · exact hi.dispatch_eq_ok hk s

/-- Shapes are drawn as movable and as sized things, and squares are sized twice over. Rings are drawn
as circles are, and to draw a square is to draw whatever it consists of. -/
def layeredShapes : List Declaration :=
  [ .cls { name := "Main" },
    .cls { name := "Drawable", isInterface := true },
    .cls { name := "Movable", isInterface := true, interfaces := [⟨1⟩] },
    .cls { name := "Sized", isInterface := true, interfaces := [⟨1⟩] },
    .cls { name := "Shape", isAbstract := true, interfaces := [⟨2⟩, ⟨3⟩] },
    .cls { name := "Circle", superclass := some ⟨4⟩ },
    .cls { name := "Ring", superclass := some ⟨5⟩ },
    .cls { name := "Square", superclass := some ⟨4⟩, interfaces := [⟨3⟩, ⟨3⟩] },
    .method { cls := ⟨1⟩, subsignature := ⟨"draw()"⟩, isAbstract := true },
    .method { cls := ⟨4⟩, subsignature := ⟨"draw()"⟩, isAbstract := true },
    .method { cls := ⟨5⟩, subsignature := ⟨"draw()"⟩, items := [.this] },
    .method { cls := ⟨7⟩, subsignature := ⟨"draw()"⟩, items :=
      [.this, .var "part", .call .interface none (some ⟨2⟩) ⟨⟨1⟩, ⟨"draw()"⟩⟩ []] },
    .method { cls := ⟨0⟩, subsignature := ⟨"main()"⟩, isStatic := true, items :=
      [.var "shape", .call .virtual none (some ⟨3⟩) ⟨⟨4⟩, ⟨"draw()"⟩⟩ []] } ]

def layeredProgram : Program := (Program.ofDeclarations layeredShapes).toOption.getD {}

set_option maxRecDepth 4000 in
theorem layeredProgram_built : Program.ofDeclarations layeredShapes = .ok layeredProgram := by rfl

set_option maxRecDepth 4000 in
/-- To draw something is to draw a circle, which rings do too, or a square, so that no single method
is meant. -/
theorem dispatched_targets_exact_layered :
    layeredProgram.hierarchy.Built ∧
    layeredProgram.callSite ⟨0⟩ = .ok ⟨.interface, ⟨⟨1⟩, ⟨"draw()"⟩⟩, some ⟨2⟩, [], none, ⟨3⟩⟩ ∧
    layeredProgram.hierarchy.WellFormed ∧
    ∃ ms, layeredProgram.targets ⟨0⟩ = .ok ms ∧ ms = [⟨3⟩, ⟨2⟩] ∧
      (∀ m, m ∈ ms ↔ ∃ k, layeredProgram.hierarchy.IsSubtype k ⟨1⟩ ∧
        layeredProgram.hierarchy.dispatch k ⟨"draw()"⟩ = .ok (some m)) ∧
      (∀ m, layeredProgram.hierarchy.dispatch ⟨6⟩ ⟨"draw()"⟩ = .ok (some m) ↔
        layeredProgram.hierarchy.Runs ⟨6⟩ ⟨"draw()"⟩ m) ∧
      ∃ found, layeredProgram.callee none ⟨0⟩ = .ok found ∧
        ∀ m, found = some m ↔ ∀ m', m' ∈ ms ↔ m' = m := by
  have hbuilt := Program.built_of_ofDeclarations layeredProgram_built
  have hsite : layeredProgram.callSite ⟨0⟩ =
      .ok ⟨.interface, ⟨⟨1⟩, ⟨"draw()"⟩⟩, some ⟨2⟩, [], none, ⟨3⟩⟩ := by rfl
  have hwf : layeredProgram.hierarchy.WellFormed := by decide
  obtain ⟨⟨ms, hms, -, hmem, -, hcallee⟩, hbelow, hdispatch⟩ :=
    dispatched_targets_exact hbuilt hsite (by decide) (by decide)
  have hms' : layeredProgram.targets ⟨0⟩ = .ok [⟨3⟩, ⟨2⟩] := by rfl
  refine ⟨hbuilt, hsite, hwf, ms, hms, Except.ok.inj (hms.symm.trans hms'), ?_, ?_, hcallee⟩
  · simpa only [hbelow hwf] using hmem
  · intro m
    obtain ⟨found, hfound, hruns, -⟩ := hdispatch ⟨6⟩ ⟨"draw()"⟩ (by decide)
    rw [hfound, Except.ok.injEq, hruns]

end PointsTo
