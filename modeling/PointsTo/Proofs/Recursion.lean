import PointsTo.Proofs.Drawing
import PointsTo.Proofs.Insertions

/-!
# Recursion groups

A call graph holds the methods and the edges that were inserted into it. Read as a graph over methods,
it has an arc from the caller to the callee of each edge between reachable methods
(`Insertion.DirectlyCalls`). Its recursion groups are the classes of mutual reachability of this
relation that have a cycle (`CyclicClasses`, `recursionGroups_exact`).

Groups are found by comparing the closures of numbered nodes. That paths between numbers are paths
between methods is `CallGraph.transGen_nexts_iff`. A group is shown at its first member (`classFrom`),
and since members of one group have the same group, it is shown once.
-/

namespace PointsTo

/-! ## The order of methods -/

namespace Qualified

variable {C : Type} [Contextual C] {e : Entity}

theorem le_total (a b : Qualified C e) : (a.le b || b.le a) = true := by
  have hswap := @Std.OrientedCmp.eq_swap _ compare _ (Coded.code b.ctx ++ [b.id.index])
    (Coded.code a.ctx ++ [a.id.index])
  unfold le
  rw [hswap]
  cases compare (Coded.code a.ctx ++ [a.id.index]) (Coded.code b.ctx ++ [b.id.index]) <;> simp

theorem le_trans (a b c : Qualified C e) (hab : a.le b = true) (hbc : b.le c = true) :
    a.le c = true :=
  Std.TransCmp.isLE_trans hab hbc

omit [Contextual C] in
theorem eq_of_index {a b : Qualified C e} (hctx : a.ctx = b.ctx) (hindex : a.id.index = b.id.index) :
    a = b := by
  cases a
  cases b
  cases hctx
  cases Id.index_inj.1 hindex
  rfl

/-- Without contexts the order is that of the numbers. -/
theorem lt_of_le {a b : Qualified Unit e} (hle : a.le b = true) (hne : a ≠ b) :
    a.id.index < b.id.index := by
  have hindex : a.id.index ≤ b.id.index := by
    simpa [le, Coded.code, Nat.isLE_compare] using hle
  apply Nat.lt_of_le_of_ne hindex
  intro heq
  exact hne (eq_of_index rfl heq)

/-- With contexts these come first. -/
theorem lex_of_le {a b : Qualified ContextId e} (hle : a.le b = true) (hne : a ≠ b) :
    a.ctx.index < b.ctx.index ∨ a.ctx = b.ctx ∧ a.id.index < b.id.index := by
  have hindex : a.ctx.index < b.ctx.index ∨ a.ctx = b.ctx ∧ a.id.index ≤ b.id.index := by
    simpa [le, Coded.code, Ordering.isLE_then_iff_or, Nat.isLE_compare, Nat.compare_eq_lt] using hle
  apply hindex.imp_right
  intro h
  exact ⟨h.1, Nat.lt_of_le_of_ne h.2 fun heq ↦ hne (eq_of_index h.1 heq)⟩

end Qualified

/-! ## Classes of mutual reachability -/

section Classes

variable {α β : Type}

/-- Each can be reached from the other by at least one step. -/
def MutuallyReach (R : α → α → Prop) (a b : α) : Prop :=
  Relation.TransGen R a b ∧ Relation.TransGen R b a

namespace MutuallyReach

variable {R : α → α → Prop} {a b c : α}

theorem symm (h : MutuallyReach R a b) : MutuallyReach R b a := And.symm h

theorem trans (hab : MutuallyReach R a b) (hbc : MutuallyReach R b c) : MutuallyReach R a c :=
  ⟨hab.1.trans hbc.1, hbc.2.trans hab.2⟩

theorem self (h : MutuallyReach R a b) : MutuallyReach R a a := h.trans h.symm

end MutuallyReach

/-- The groups share no member and each ascends along `lt`. Their members are what lies on cycles of
`R`, and two of them are in one group if and only if each can be reached from the other. -/
structure CyclicClasses (R lt : α → α → Prop) (groups : List (List α)) : Prop where
  disjoint : groups.Pairwise List.Disjoint
  ascending : ∀ group ∈ groups, group.Pairwise lt
  inhabited : [] ∉ groups
  cyclic : ∀ a, (∃ group ∈ groups, a ∈ group) ↔ Relation.TransGen R a a
  together : ∀ a b, (∃ group ∈ groups, a ∈ group ∧ b ∈ group) ↔
    Relation.TransGen R a b ∧ Relation.TransGen R b a

variable {R lt : α → α → Prop} {key : β → α} {rel : β → β → Bool} {xs : List β} {x y : β}

section

variable (hrel : ∀ x ∈ xs, ∀ y ∈ xs, rel x y = true ↔ MutuallyReach R (key x) (key y))

include hrel

/-- Related members have the same class. -/
theorem filter_rel_eq (hx : x ∈ xs) (hy : y ∈ xs) (hxy : MutuallyReach R (key x) (key y)) :
    xs.filter (rel x) = xs.filter (rel y) := by
  apply List.filter_congr
  intro z hz
  rw [Bool.eq_iff_iff, hrel x hx z hz, hrel y hy z hz]
  exact ⟨hxy.symm.trans, hxy.trans⟩

theorem mem_filter_rel (hx : x ∈ xs) :
    y ∈ xs.filter (rel x) ↔ y ∈ xs ∧ MutuallyReach R (key x) (key y) := by
  rw [List.mem_filter]
  exact and_congr_right fun hy ↦ hrel x hx y hy

end

variable [DecidableEq β] {c d : List β}

/-- The members of `xs` that are related to `x`, provided that `x` is the first of them. -/
def classFrom (rel : β → β → Bool) (xs : List β) (x : β) : Option (List β) :=
  if (xs.filter (rel x)).head? = some x then some (xs.filter (rel x)) else none

theorem classFrom_eq_some_iff :
    classFrom rel xs x = some c ↔ c.head? = some x ∧ xs.filter (rel x) = c := by
  unfold classFrom
  split
  case isTrue hhead =>
    constructor
    · intro h
      obtain rfl := Option.some.inj h
      exact ⟨hhead, rfl⟩
    · intro h
      exact congrArg some h.2
  case isFalse hhead =>
    constructor
    · intro h
      cases h
    · intro h
      obtain ⟨hc, rfl⟩ := h
      exact absurd hc hhead

variable (hrel : ∀ x ∈ xs, ∀ y ∈ xs, rel x y = true ↔ MutuallyReach R (key x) (key y))

include hrel

/-- Whatever is related to itself has its class shown at the first member of it. -/
theorem exists_classFrom (hx : x ∈ xs) (hself : MutuallyReach R (key x) (key x)) :
    ∃ y ∈ xs, classFrom rel xs y = some (xs.filter (rel x)) := by
  have hmem : x ∈ xs.filter (rel x) := (mem_filter_rel hrel hx).2 ⟨hx, hself⟩
  cases hclass : xs.filter (rel x) with
  | nil =>
    rw [hclass] at hmem
    cases hmem
  | cons y rest =>
    have hy : y ∈ xs ∧ MutuallyReach R (key x) (key y) := by
      apply (mem_filter_rel hrel hx).1
      rw [hclass]
      exact List.mem_cons_self
    refine ⟨y, hy.1, classFrom_eq_some_iff.2 ⟨rfl, ?_⟩⟩
    calc
      xs.filter (rel y) = xs.filter (rel x) := (filter_rel_eq hrel hx hy.1 hy.2).symm
      _ = y :: rest := hclass

theorem mem_of_classFrom (hx : x ∈ xs) (hc : classFrom rel xs x = some c) (hy : y ∈ c) :
    y ∈ xs ∧ MutuallyReach R (key x) (key y) := by
  rw [← (classFrom_eq_some_iff.1 hc).2] at hy
  exact (mem_filter_rel hrel hx).1 hy

/-- Classes that share a member are shown at the same place. -/
theorem eq_of_classFrom (hx : x ∈ xs) (hy : y ∈ xs) (hc : classFrom rel xs x = some c)
    (hd : classFrom rel xs y = some d) {u v : β} (hu : u ∈ c) (hv : v ∈ d) (huv : key u = key v) :
    x = y := by
  have hxu := mem_of_classFrom hrel hx hc hu
  have hyv := mem_of_classFrom hrel hy hd hv
  have hxy : MutuallyReach R (key x) (key y) := by
    have hyu := hyv.2
    rw [← huv] at hyu
    exact hxu.2.trans hyu.symm
  have hcd : c = d := by
    calc
      c = xs.filter (rel x) := (classFrom_eq_some_iff.1 hc).2.symm
      _ = xs.filter (rel y) := filter_rel_eq hrel hx hy hxy
      _ = d := (classFrom_eq_some_iff.1 hd).2
  apply Option.some.inj
  rw [← (classFrom_eq_some_iff.1 hc).1, ← (classFrom_eq_some_iff.1 hd).1, hcd]

/-- The classes of ascending nodes, of which there is one for each member of a cycle. -/
theorem cyclicClasses_classFrom (hascending : xs.Pairwise fun x y ↦ lt (key x) (key y))
    (hnodup : xs.Nodup) (hcyclic : ∀ a, Relation.TransGen R a a ↔ ∃ x ∈ xs, key x = a) :
    CyclicClasses R lt ((xs.filterMap (classFrom rel xs)).map (List.map key)) := by
  have hgroup : ∀ {group}, group ∈ (xs.filterMap (classFrom rel xs)).map (List.map key) ↔
      ∃ x ∈ xs, ∃ c, classFrom rel xs x = some c ∧ c.map key = group := by
    intro group
    simp only [List.mem_map, List.mem_filterMap]
    constructor
    · rintro ⟨c, ⟨x, hx, hc⟩, rfl⟩
      exact ⟨x, hx, c, hc, rfl⟩
    · rintro ⟨x, hx, c, hc, rfl⟩
      exact ⟨c, ⟨x, hx, hc⟩, rfl⟩
  have htogether : ∀ a b, (∃ group ∈ (xs.filterMap (classFrom rel xs)).map (List.map key),
      a ∈ group ∧ b ∈ group) ↔ MutuallyReach R a b := by
    intro a b
    constructor
    · rintro ⟨group, hmem, ha, hb⟩
      obtain ⟨x, hx, c, hc, rfl⟩ := hgroup.1 hmem
      obtain ⟨u, hu, rfl⟩ := List.mem_map.1 ha
      obtain ⟨v, hv, rfl⟩ := List.mem_map.1 hb
      have hxu := (mem_of_classFrom hrel hx hc hu).2
      have hxv := (mem_of_classFrom hrel hx hc hv).2
      exact hxu.symm.trans hxv
    · intro hab
      obtain ⟨u, hu, rfl⟩ := (hcyclic a).1 hab.self.1
      obtain ⟨v, hv, rfl⟩ := (hcyclic b).1 hab.symm.self.1
      obtain ⟨x, hx, hc⟩ := exists_classFrom hrel hu hab.self
      refine ⟨_, hgroup.2 ⟨x, hx, _, hc, rfl⟩, ?_, ?_⟩
      · exact List.mem_map_of_mem ((mem_filter_rel hrel hu).2 ⟨hu, hab.self⟩)
      · exact List.mem_map_of_mem ((mem_filter_rel hrel hu).2 ⟨hv, hab⟩)
  constructor
  case disjoint =>
    rw [List.pairwise_map, List.pairwise_filterMap]
    refine hnodup.imp_of_mem fun {x y} hx hy hne c hc d hd ↦ ?_
    intro a ha hb
    obtain ⟨u, hu, rfl⟩ := List.mem_map.1 ha
    obtain ⟨v, hv, hvu⟩ := List.mem_map.1 hb
    exact hne (eq_of_classFrom hrel hx hy hc hd hu hv hvu.symm)
  case ascending =>
    intro group hmem
    obtain ⟨x, -, c, hc, rfl⟩ := hgroup.1 hmem
    rw [List.pairwise_map, ← (classFrom_eq_some_iff.1 hc).2]
    exact hascending.filter _
  case inhabited =>
    intro hmem
    obtain ⟨x, -, c, hc, hnil⟩ := hgroup.1 hmem
    rw [List.map_eq_nil_iff] at hnil
    have hhead := (classFrom_eq_some_iff.1 hc).1
    rw [hnil] at hhead
    cases hhead
  case cyclic =>
    intro a
    calc
      _ ↔ ∃ group ∈ (xs.filterMap (classFrom rel xs)).map (List.map key), a ∈ group ∧ a ∈ group := by
        simp only [and_self]
      _ ↔ MutuallyReach R a a := htogether a a
      _ ↔ Relation.TransGen R a a := and_self_iff
  case together => exact htogether

end Classes

variable {C : Type} [Contextual C]

namespace CallGraph

/-! ## Nodes and numbers -/

variable {g : CallGraph C} {p : Program} {arcs : List Arc} {m n : MethodIn C} {i j : Nat}

/-- Both methods are reachable and some edge leads from a call in the first to the second. -/
def DirectlyCalls (g : CallGraph C) (p : Program) (m n : MethodIn C) : Prop :=
  m ∈ g.methods ∧ n ∈ g.methods ∧ ∃ e ∈ g.edgeList, p.callerOf e.site = .ok m ∧ e.callee = n

/-- Some call of node `i` is to node `j`. -/
def Nexts (arcs : List Arc) (i j : Nat) : Prop := ∃ a ∈ arcs, a.source = i ∧ a.target = j

/-- Closures hold what a path of at least one arc leads to. -/
theorem mem_reachFrom {size : Nat} (hsize : ∀ a ∈ arcs, a.target < size) :
    j ∈ reachFrom size arcs i ↔ Relation.TransGen (Nexts arcs) i j := by
  have hsucc : ∀ {i j}, j ∈ (arcs.filter (·.source = i)).map Arc.target ↔ Nexts arcs i j := by
    intro i j
    simp [Nexts, and_assoc]
  have hall : ∀ {k}, Closure.Reached (fun j ↦ (arcs.filter (·.source = j)).map Arc.target)
      ((arcs.filter (·.source = i)).map Arc.target) k → k ∈ List.range size := by
    intro k hk
    have htarget : ∀ {i j}, j ∈ (arcs.filter (·.source = i)).map Arc.target → j ∈ List.range size := by
      intro i j hj
      obtain ⟨a, ha, -, rfl⟩ := hsucc.1 hj
      exact List.mem_range.2 (hsize a ha)
    exact hk.mem (fun _ hj ↦ htarget hj) fun _ _ _ hj ↦ htarget hj
  rw [reachFrom, Closure.mem_order_iff hall (by simp), Relation.TransGen.head'_iff]
  simp only [Closure.Reached, hsucc]

theorem find?_eq_some_iff : g.reachable.find? m = some i ↔ g.methods[i]? = some m := by
  rw [Table.find?_eq_some_iff, methods, Table.getElem?_keys]

theorem arc?_eq_ok_iff {e : Edge C} {a : Arc} : g.arc? p e = .ok (some a) ↔ g.Draws p e a := by
  constructor
  · intro h
    obtain ⟨caller, hsite, h⟩ := bind_eq_ok.1 h
    split at h
    case h_1 hsource htarget =>
      obtain rfl := Option.some.inj (Except.ok.inj h)
      exact ⟨⟨caller, hsite, find?_eq_some_iff.1 hsource⟩, find?_eq_some_iff.1 htarget, rfl⟩
    case h_2 => cases h
  · intro h
    obtain ⟨caller, hsite, hsource⟩ := h.source
    apply bind_eq_ok.2 ⟨caller, hsite, ?_⟩
    rw [find?_eq_some_iff.2 hsource, find?_eq_some_iff.2 h.target, ← h.kind]
    rfl

theorem mem_arcs_iff (harcs : g.arcs p = .ok arcs) {a : Arc} :
    a ∈ arcs ↔ ∃ e ∈ g.edgeList, g.Draws p e a := by
  obtain ⟨found, hfound, harcs⟩ := bind_eq_ok.1 harcs
  obtain rfl := Except.ok.inj harcs
  rw [List.reduceOption_mem_iff, mem_iff_of_mapM hfound]
  simp only [arc?_eq_ok_iff]

/-- Arcs lead to nodes. -/
theorem targets_lt (harcs : g.arcs p = .ok arcs) : ∀ a ∈ arcs, a.target < g.reachable.size := by
  intro a ha
  obtain ⟨e, -, hdraws⟩ := (mem_arcs_iff harcs).1 ha
  exact Table.key?_lt (Table.find?_eq_some_iff.1 (find?_eq_some_iff.2 hdraws.target))

/-- Arcs are calls between the methods of their ends. -/
theorem nexts_iff (harcs : g.arcs p = .ok arcs) (hi : g.methods[i]? = some m)
    (hj : g.methods[j]? = some n) : Nexts arcs i j ↔ g.DirectlyCalls p m n := by
  constructor
  · rintro ⟨a, ha, rfl, rfl⟩
    obtain ⟨e, he, hdraws⟩ := (mem_arcs_iff harcs).1 ha
    obtain ⟨caller, hsite, hsource⟩ := hdraws.source
    obtain rfl := Option.some.inj (hsource.symm.trans hi)
    obtain rfl := Option.some.inj (hdraws.target.symm.trans hj)
    exact ⟨List.mem_of_getElem? hi, List.mem_of_getElem? hj, e, he, hsite, rfl⟩
  · rintro ⟨-, -, e, he, hsite, rfl⟩
    exact ⟨⟨i, j, e.kind⟩, (mem_arcs_iff harcs).2 ⟨e, he, ⟨m, hsite, hi⟩, hj, rfl⟩, rfl, rfl⟩

theorem exists_method_of_nexts (harcs : g.arcs p = .ok arcs) (h : Nexts arcs i j) :
    (∃ m, g.methods[i]? = some m) ∧ ∃ n, g.methods[j]? = some n := by
  obtain ⟨a, ha, rfl, rfl⟩ := h
  obtain ⟨e, -, hdraws⟩ := (mem_arcs_iff harcs).1 ha
  obtain ⟨caller, -, hsource⟩ := hdraws.source
  exact ⟨⟨caller, hsource⟩, e.callee, hdraws.target⟩

/-- Paths between nodes are paths between their methods. -/
theorem transGen_nexts_iff (harcs : g.arcs p = .ok arcs) (hi : g.methods[i]? = some m)
    (hj : g.methods[j]? = some n) :
    Relation.TransGen (Nexts arcs) i j ↔ Relation.TransGen (g.DirectlyCalls p) m n := by
  constructor
  · intro h
    induction h generalizing n with
    | single hstep => exact .single ((nexts_iff harcs hi hj).1 hstep)
    | tail _ hstep ih =>
      obtain ⟨⟨l, hk⟩, -⟩ := exists_method_of_nexts harcs hstep
      exact (ih hk).tail ((nexts_iff harcs hk hj).1 hstep)
  · intro h
    induction h generalizing j with
    | single hstep => exact .single ((nexts_iff harcs hi hj).2 hstep)
    | tail _ hstep ih =>
      obtain ⟨k, hk⟩ := List.mem_iff_getElem?.1 hstep.1
      exact (ih hk).tail ((nexts_iff harcs hk hj).2 hstep)

/-! ## Groups -/

/-- The methods on cycles, each with its number and with the numbers of the nodes below it. -/
def cyclicNodes (g : CallGraph C) (arcs : List Arc) : List (MethodIn C × Nat × List Nat) :=
  ((g.methods.zipIdx.map fun (m, i) ↦ (m, i, reachFrom g.reachable.size arcs i)).filter
    fun (_, i, below) ↦ i ∈ below).mergeSort fun x y ↦ x.1.le y.1

/-- Each of two nodes is below the other. -/
def linked (x y : MethodIn C × Nat × List Nat) : Bool := y.2.1 ∈ x.2.2 && x.2.1 ∈ y.2.2

theorem mem_cyclicNodes {x : MethodIn C × Nat × List Nat} :
    x ∈ g.cyclicNodes arcs ↔ g.methods[x.2.1]? = some x.1 ∧
      x.2.2 = reachFrom g.reachable.size arcs x.2.1 ∧ x.2.1 ∈ x.2.2 := by
  obtain ⟨m, i, below⟩ := x
  rw [cyclicNodes, List.mem_mergeSort, List.mem_filter, decide_eq_true_iff]
  simp only [List.mem_map, Prod.exists, List.mem_zipIdx_iff_getElem?, Prod.mk.injEq]
  constructor
  · rintro ⟨⟨m', i', hm, rfl, rfl, rfl⟩, hbelow⟩
    exact ⟨hm, rfl, hbelow⟩
  · rintro ⟨hm, rfl, hbelow⟩
    exact ⟨⟨m, i, hm, rfl, rfl, rfl⟩, hbelow⟩

/-- A node has one number. -/
theorem eq_of_number {x y : MethodIn C × Nat × List Nat} (hx : x ∈ g.cyclicNodes arcs)
    (hy : y ∈ g.cyclicNodes arcs) (h : x.2.1 = y.2.1) : x = y := by
  obtain ⟨hxm, hxb, -⟩ := mem_cyclicNodes.1 hx
  obtain ⟨hym, hyb, -⟩ := mem_cyclicNodes.1 hy
  rw [h] at hxm hxb
  exact Prod.ext (Option.some.inj (hxm.symm.trans hym)) (Prod.ext h (hxb.trans hyb.symm))

/-- Of the groups that all nodes have, the one of a first member is shown. -/
theorem recursionGroups_eq_ok {labels : List String}
    (hlabels : g.methods.mapM p.methodLabel = .ok labels) (harcs : g.arcs p = .ok arcs) :
    g.recursionGroups p = .ok (((g.cyclicNodes arcs).filterMap
      (classFrom linked (g.cyclicNodes arcs))).map (List.map Prod.fst)) := by
  refine bind_eq_ok.2 ⟨labels, hlabels, bind_eq_ok.2 ⟨arcs, harcs, congrArg Except.ok ?_⟩⟩
  rw [List.map_filterMap]
  apply List.filterMap_congr
  intro x hx
  unfold classFrom
  dsimp only
  split
  case h_1 m number below rest hclass =>
    change (g.cyclicNodes arcs).filter (linked x) = (m, number, below) :: rest at hclass
    change (if number = x.2.1 then some (((g.cyclicNodes arcs).filter (linked x)).map Prod.fst)
      else none) = _
    have hfirst : (m, number, below) ∈ g.cyclicNodes arcs := by
      apply List.mem_of_mem_filter (p := linked x)
      rw [hclass]
      exact List.mem_cons_self
    by_cases hnumber : number = x.2.1
    · obtain rfl := eq_of_number hfirst hx hnumber
      simp [hclass]
    · have hne : (m, number, below) ≠ x := fun heq ↦ hnumber (congrArg (·.2.1) heq)
      simp [hclass, hnumber, hne]
  case h_2 hclass =>
    change (g.cyclicNodes arcs).filter (linked x) = [] at hclass
    rw [hclass]
    rfl

/-- Below a node is what its method calls, directly or not. -/
theorem mem_below_iff (harcs : g.arcs p = .ok arcs) {x : MethodIn C × Nat × List Nat}
    (hx : x ∈ g.cyclicNodes arcs) (hj : g.methods[j]? = some n) :
    j ∈ x.2.2 ↔ Relation.TransGen (g.DirectlyCalls p) x.1 n := by
  obtain ⟨hm, hbelow, -⟩ := mem_cyclicNodes.1 hx
  rw [hbelow, mem_reachFrom (targets_lt harcs), transGen_nexts_iff harcs hm hj]

theorem linked_iff (harcs : g.arcs p = .ok arcs) {x y : MethodIn C × Nat × List Nat}
    (hx : x ∈ g.cyclicNodes arcs) (hy : y ∈ g.cyclicNodes arcs) :
    linked x y = true ↔ MutuallyReach (g.DirectlyCalls p) x.1 y.1 := by
  have hxm := (mem_cyclicNodes.1 hx).1
  have hym := (mem_cyclicNodes.1 hy).1
  rw [linked, Bool.and_eq_true, decide_eq_true_iff, decide_eq_true_iff, mem_below_iff harcs hx hym,
    mem_below_iff harcs hy hxm]
  rfl

theorem transGen_self_iff (harcs : g.arcs p = .ok arcs) :
    Relation.TransGen (g.DirectlyCalls p) m m ↔ ∃ x ∈ g.cyclicNodes arcs, x.1 = m := by
  constructor
  · intro h
    obtain ⟨n, hstep, -⟩ := Relation.TransGen.head'_iff.1 h
    obtain ⟨i, hi⟩ := List.mem_iff_getElem?.1 hstep.1
    have hcycle : i ∈ reachFrom g.reachable.size arcs i := by
      rw [mem_reachFrom (targets_lt harcs), transGen_nexts_iff harcs hi hi]
      exact h
    exact ⟨(m, i, _), mem_cyclicNodes.2 ⟨hi, rfl, hcycle⟩, rfl⟩
  · rintro ⟨x, hx, rfl⟩
    obtain ⟨hm, -, hcycle⟩ := mem_cyclicNodes.1 hx
    exact (mem_below_iff harcs hx hm).1 hcycle

theorem nodup_cyclicNodes : ((g.cyclicNodes arcs).map Prod.fst).Nodup := by
  have hall : ((g.methods.zipIdx.map fun (m, i) ↦ (m, i, reachFrom g.reachable.size arcs i)).map
      Prod.fst) = g.methods := by
    rw [List.map_map]
    exact List.zipIdx_map_fst 0 g.methods
  apply ((List.mergeSort_perm _ _).map Prod.fst).nodup_iff.2
  apply (List.filter_sublist.map Prod.fst).nodup
  rw [hall]
  exact g.reachable.nodup_keys

theorem pairwise_cyclicNodes :
    (g.cyclicNodes arcs).Pairwise fun x y ↦ x.1.le y.1 = true ∧ x.1 ≠ y.1 := by
  apply List.Pairwise.and
  · apply List.pairwise_mergeSort
    · exact fun x y z ↦ Qualified.le_trans x.1 y.1 z.1
    · exact fun x y ↦ x.1.le_total y.1
  · exact List.pairwise_map.1 nodup_cyclicNodes

theorem cyclicClasses {lt : MethodIn C → MethodIn C → Prop}
    (hlt : ∀ {m n : MethodIn C}, m.le n = true → m ≠ n → lt m n)
    {groups : List (List (MethodIn C))} (hgroups : g.recursionGroups p = .ok groups) :
    CyclicClasses (g.DirectlyCalls p) lt groups := by
  obtain ⟨labels, hlabels, h⟩ := bind_eq_ok.1 hgroups
  obtain ⟨arcs, harcs, -⟩ := bind_eq_ok.1 h
  obtain rfl := Except.ok.inj (hgroups.symm.trans (recursionGroups_eq_ok hlabels harcs))
  apply cyclicClasses_classFrom
  · exact fun x hx y hy ↦ linked_iff harcs hx hy
  · exact pairwise_cyclicNodes.imp fun h ↦ hlt h.1 h.2
  · exact nodup_cyclicNodes.of_map
  · exact fun m ↦ transGen_self_iff harcs

/-! ## When there are groups -/

theorem arc?_isOk_iff {e : Edge C} :
    (∃ a?, g.arc? p e = .ok a?) ↔ e.site.id.index < p.callSites.size := by
  constructor
  · rintro ⟨a?, h⟩
    obtain ⟨caller, hcaller, -⟩ := bind_eq_ok.1 h
    obtain ⟨site, hsite, -⟩ := bind_eq_ok.1 hcaller
    exact Program.lt_of_lookup hsite
  · intro h
    have hsite : p.callSite e.site.id = .ok p.callSites[e.site.id.index] :=
      Id.lookup_eq_ok_iff.2 (Array.getElem?_eq_getElem h)
    have hcaller : p.callerOf e.site = .ok ⟨e.site.ctx, p.callSites[e.site.id.index].container⟩ :=
      bind_eq_ok.2 ⟨_, hsite, rfl⟩
    unfold arc?
    simp only [hcaller, bind, Except.bind]
    split <;> exact ⟨_, rfl⟩

theorem arcs_isOk_iff : (∃ arcs, g.arcs p = .ok arcs) ↔
    ∀ e ∈ g.edgeList, e.site.id.index < p.callSites.size := by
  constructor
  · rintro ⟨arcs, harcs⟩ e he
    obtain ⟨found, hfound, -⟩ := bind_eq_ok.1 harcs
    exact arc?_isOk_iff.1 (of_mapM_eq_ok hfound he)
  · intro h
    obtain ⟨found, hfound, -⟩ := mapM_eq_ok fun e he ↦ (arc?_isOk_iff (g := g)).2 (h e he)
    exact ⟨_, bind_eq_ok.2 ⟨found, hfound, rfl⟩⟩

theorem labels_isOk_iff (hi : p.hierarchy.Indexed) :
    (∃ labels, g.methods.mapM p.methodLabel = .ok labels) ↔
      ∀ m ∈ g.methods, m.id.index < p.hierarchy.methods.size := by
  constructor
  · rintro ⟨labels, hlabels⟩ m hm
    obtain ⟨label, hlabel⟩ := of_mapM_eq_ok hlabels hm
    obtain ⟨signature, hsignature, -⟩ := bind_eq_ok.1 hlabel
    obtain ⟨info, hinfo, -⟩ := bind_eq_ok.1 hsignature
    exact Program.lt_of_lookup hinfo
  · intro h
    have hlabels : ∀ m ∈ g.methods, ∃ label, p.methodLabel m = .ok label := by
      intro m hm
      obtain ⟨signature, hsignature⟩ := hi.signature_eq_ok (h m hm)
      exact ⟨_, bind_eq_ok.2 ⟨signature, hsignature, rfl⟩⟩
    obtain ⟨labels, hlabels, -⟩ := mapM_eq_ok hlabels
    exact ⟨labels, hlabels⟩

theorem recursionGroups_isOk_iff (hi : p.hierarchy.Indexed) :
    (∃ groups, g.recursionGroups p = .ok groups) ↔
      (∀ m ∈ g.methods, m.id.index < p.hierarchy.methods.size) ∧
        ∀ e ∈ g.edgeList, e.site.id.index < p.callSites.size := by
  rw [← labels_isOk_iff hi, ← arcs_isOk_iff]
  constructor
  · rintro ⟨groups, hgroups⟩
    obtain ⟨labels, hlabels, h⟩ := bind_eq_ok.1 hgroups
    obtain ⟨arcs, harcs, -⟩ := bind_eq_ok.1 h
    exact ⟨⟨labels, hlabels⟩, arcs, harcs⟩
  · rintro ⟨⟨labels, hlabels⟩, arcs, harcs⟩
    exact ⟨_, recursionGroups_eq_ok hlabels harcs⟩

end CallGraph

/-! ## Results -/

namespace Insertion

/-- A method has to exist to be shown, and an edge to have a site from which it starts. Entries are not
shown. -/
def Known (p : Program) : Insertion C → Prop
  | entry _ => True
  | method m => m.id.index < p.hierarchy.methods.size
  | edge e => e.site.id.index < p.callSites.size

/-- Both methods were inserted, and so was an edge to the second from a call site that stands in the
first, under the same context. -/
def DirectlyCalls (p : Program) (is : List (Insertion C)) (m n : MethodIn C) : Prop :=
  method m ∈ is ∧ method n ∈ is ∧
    ∃ kind site, edge ⟨kind, site, n⟩ ∈ is ∧ p.callerOf site = .ok m

theorem directlyCalls_ofInsertions (p : Program) (is : List (Insertion C)) :
    (CallGraph.ofInsertions is).DirectlyCalls p = DirectlyCalls p is := by
  funext m n
  apply propext
  simp only [CallGraph.DirectlyCalls, DirectlyCalls, CallGraph.mem_methods_ofInsertions,
    CallGraph.mem_edgeList_ofInsertions]
  apply and_congr_right
  intro _
  apply and_congr_right
  intro _
  constructor
  · rintro ⟨⟨kind, site, callee⟩, he, hsite, rfl⟩
    exact ⟨kind, site, he, hsite⟩
  · rintro ⟨kind, site, he, hsite⟩
    exact ⟨_, he, hsite, rfl⟩

/-- The graph that the insertions leave has recursion groups if all that was inserted is known, and
these are the classes of mutual reachability along its calls, with `lt` as the order in each. -/
structure GroupsExactly (p : Program) (lt : MethodIn C → MethodIn C → Prop)
    (is : List (Insertion C)) : Prop where
  returns_iff : (∃ groups, (CallGraph.ofInsertions is).recursionGroups p = .ok groups) ↔
    ∀ i ∈ is, i.Known p
  classes : ∀ {groups}, (CallGraph.ofInsertions is).recursionGroups p = .ok groups →
    CyclicClasses (DirectlyCalls p is) lt groups

theorem groupsExactly {p : Program} (hi : p.hierarchy.Indexed) {lt : MethodIn C → MethodIn C → Prop}
    (hlt : ∀ {m n : MethodIn C}, m.le n = true → m ≠ n → lt m n) (is : List (Insertion C)) :
    GroupsExactly p lt is where
  returns_iff := by
    rw [CallGraph.recursionGroups_isOk_iff hi]
    simp only [CallGraph.mem_methods_ofInsertions, CallGraph.mem_edgeList_ofInsertions]
    constructor
    · intro h i hmem
      cases i with
      | entry m => trivial
      | method m => exact h.1 m hmem
      | edge e => exact h.2 e hmem
    · intro h
      exact ⟨fun m hm ↦ h _ hm, fun e he ↦ h _ he⟩
  classes hgroups := by
    rw [← directlyCalls_ofInsertions]
    exact CallGraph.cyclicClasses hlt hgroups

end Insertion

/-- On every program and for every sequence of insertions, with and without contexts, recursion groups
are returned if all that was inserted is known. They are disjoint and strictly ascending, their members
are the methods that lie on a cycle of calls between reachable methods, and two methods are in one group
if and only if each can be reached from the other by such calls. -/
theorem recursionGroups_exact {ds : List Declaration} {p : Program}
    (hbuilt : Program.ofDeclarations ds = .ok p) :
    (∀ is : List (Insertion Unit),
      Insertion.GroupsExactly p (fun m n ↦ m.id.index < n.id.index) is) ∧
    ∀ is : List (Insertion ContextId),
      Insertion.GroupsExactly p
        (fun m n ↦ m.ctx.index < n.ctx.index ∨ m.ctx = n.ctx ∧ m.id.index < n.id.index) is := by
  have hi := Program.indexed_of_ofDeclarations hbuilt
  constructor
  · exact Insertion.groupsExactly hi Qualified.lt_of_le
  · exact Insertion.groupsExactly hi Qualified.lex_of_le

/-- Two methods that call each other, one that calls itself, and one that calls both. -/
def roundShapes : List Declaration :=
  [ .cls { name := "Parity" },
    .method { cls := ⟨0⟩, subsignature := ⟨"even()"⟩, isStatic := true, items :=
      [.call .static none none ⟨⟨0⟩, ⟨"odd()"⟩⟩ []] },
    .method { cls := ⟨0⟩, subsignature := ⟨"odd()"⟩, isStatic := true, items :=
      [.call .static none none ⟨⟨0⟩, ⟨"even()"⟩⟩ []] },
    .method { cls := ⟨0⟩, subsignature := ⟨"again()"⟩, isStatic := true, items :=
      [.call .static none none ⟨⟨0⟩, ⟨"again()"⟩⟩ []] },
    .method { cls := ⟨0⟩, subsignature := ⟨"main()"⟩, isStatic := true, items :=
      [.call .static none none ⟨⟨0⟩, ⟨"odd()"⟩⟩ [],
        .call .static none none ⟨⟨0⟩, ⟨"again()"⟩⟩ []] } ]

def roundProgram : Program := (Program.ofDeclarations roundShapes).toOption.getD {}

/-- The calls of the program, one of them twice, and a call to something that is not reachable. -/
def roundCalls : List (Insertion Unit) :=
  [ .method ⟨(), ⟨3⟩⟩, .edge ⟨.static, ⟨(), ⟨3⟩⟩, ⟨(), ⟨1⟩⟩⟩, .method ⟨(), ⟨1⟩⟩,
    .edge ⟨.static, ⟨(), ⟨1⟩⟩, ⟨(), ⟨0⟩⟩⟩, .edge ⟨.dynamic, ⟨(), ⟨1⟩⟩, ⟨(), ⟨0⟩⟩⟩,
    .method ⟨(), ⟨2⟩⟩, .edge ⟨.static, ⟨(), ⟨2⟩⟩, ⟨(), ⟨2⟩⟩⟩, .method ⟨(), ⟨0⟩⟩,
    .edge ⟨.static, ⟨(), ⟨4⟩⟩, ⟨(), ⟨2⟩⟩⟩, .edge ⟨.static, ⟨(), ⟨0⟩⟩, ⟨(), ⟨1⟩⟩⟩,
    .edge ⟨.virtual, ⟨(), ⟨0⟩⟩, ⟨(), ⟨9⟩⟩⟩ ]

/-- The arcs of these calls. -/
def roundArcs : List Arc :=
  ((CallGraph.ofInsertions roundCalls).arcs roundProgram).toOption.getD []

theorem cyclicNodes_round :
    (CallGraph.ofInsertions roundCalls).cyclicNodes roundArcs =
      [(⟨(), ⟨0⟩⟩, 3, [1, 3]), (⟨(), ⟨1⟩⟩, 1, [3, 1]), (⟨(), ⟨2⟩⟩, 2, [2])] := by
  -- Sorting recurses on lengths and does not reduce, so that its equations have to be used.
  change List.mergeSort [((⟨(), ⟨1⟩⟩, 1, [3, 1]) : MethodIn Unit × Nat × List Nat),
    (⟨(), ⟨2⟩⟩, 2, [2]), (⟨(), ⟨0⟩⟩, 3, [1, 3])] _ = _
  simp [List.mergeSort, Qualified.le, Coded.code, Nat.isLE_compare]

theorem recursionGroups_exact_round :
    Program.ofDeclarations roundShapes = .ok roundProgram ∧
    (CallGraph.ofInsertions roundCalls).recursionGroups roundProgram =
      .ok [[⟨(), ⟨0⟩⟩, ⟨(), ⟨1⟩⟩], [⟨(), ⟨2⟩⟩]] ∧
    CyclicClasses (Insertion.DirectlyCalls roundProgram roundCalls)
      (fun m n ↦ m.id.index < n.id.index) [[⟨(), ⟨0⟩⟩, ⟨(), ⟨1⟩⟩], [⟨(), ⟨2⟩⟩]] := by
  have hbuilt : Program.ofDeclarations roundShapes = .ok roundProgram := by rfl
  have hlabels : ∃ labels, (CallGraph.ofInsertions roundCalls).methods.mapM
      roundProgram.methodLabel = .ok labels := ⟨_, rfl⟩
  have harcs : (CallGraph.ofInsertions roundCalls).arcs roundProgram = .ok roundArcs := by rfl
  have hgroups : (CallGraph.ofInsertions roundCalls).recursionGroups roundProgram =
      .ok [[⟨(), ⟨0⟩⟩, ⟨(), ⟨1⟩⟩], [⟨(), ⟨2⟩⟩]] := by
    obtain ⟨labels, hlabels⟩ := hlabels
    rw [CallGraph.recursionGroups_eq_ok hlabels harcs, cyclicNodes_round]
    decide
  exact ⟨hbuilt, hgroups, ((recursionGroups_exact hbuilt).1 roundCalls).classes hgroups⟩

end PointsTo
