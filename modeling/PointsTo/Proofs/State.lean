import PointsTo.Proofs.FlowGraph
import PointsTo.Solver.Step

/-!
# Solver states by what they know

A state is read through a handful of relations: what a pointer refers to, what is on its way there
(`Sends`), which methods are reachable and which of those still wait to be looked at (`awaited`), which
calls were made and which are watched. Each move of a state is described by what it adds to them.
Moves never take anything back, and only the arrival of objects changes what a pointer refers to.
-/

namespace PointsTo

/-- The method that a piece of work is about, if it is to look at one. -/
def WorkItem.method? {C : Type} {e : Entity} : WorkItem C e → Option (MethodIn C)
  | .reach m => some m
  | .propagate _ _ => none

namespace CallGraph

variable {C : Type} [Contextual C] {g : CallGraph C}

theorem addReachable_of_contains {m : MethodIn C} (h : g.contains m = true) :
    g.addReachable m = (g, false) := by
  obtain ⟨i, hi⟩ := Option.isSome_iff_exists.1 h
  simp only [addReachable, Table.intern_of_find? hi]
  exact congrArg (Prod.mk g) (by simpa [contains] using h)

theorem addReachable_of_not_contains {m : MethodIn C} (h : g.contains m = false) :
    g.addReachable m = ({ g with reachable := (g.reachable.intern m ()).1 }, true) := by
  simp only [addReachable]
  exact congrArg (Prod.mk _) (by simpa [contains] using h)

theorem contains_addReachable {m m' : MethodIn C} :
    (g.addReachable m).1.contains m' = true ↔ g.contains m' = true ∨ m' = m :=
  Table.contains_intern

theorem methods_addEdge (e : Edge C) : (g.addEdge e).1.methods = g.methods := by
  unfold addEdge
  split <;> rfl

theorem contains_edges_addEdge {e e' : Edge C} :
    (g.addEdge e).1.edges.contains e' = true ↔ g.edges.contains e' = true ∨ e' = e := by
  unfold addEdge
  by_cases h : g.edges.contains e = true
  · simp only [h, if_true]
    exact ⟨.inl, fun he ↦ he.elim id fun heq ↦ heq ▸ h⟩
  · simp only [h]
    exact Table.contains_intern

end CallGraph

namespace State

variable {C : Type} [Contextual C] {e : Entity} {σ : Type}

/-- The object `o` is on its way to the pointer `p`. -/
def Sends (s : State C e σ) (p : Pointer C e) (o : Id e) : Prop :=
  ∃ i delta, .propagate i delta ∈ s.pending.toList ∧ s.flow.Stands i p ∧ o ∈ delta.toList

/-- The object `o` is at the pointer `p` or on its way there. -/
def Delivers (s : State C e σ) (p : Pointer C e) (o : Id e) : Prop := s.flow.Points p o ∨ s.Sends p o

def Reaches (s : State C e σ) (m : MethodIn C) : Prop := s.calls.contains m = true

def Calls (s : State C e σ) (edge : Edge C) : Prop := s.calls.edges.contains edge = true

/-- The call `t` is looked at again when taint arrives at `v` under the context `c`. -/
def Watches (s : State C e σ) (c : C) (v : VarId) (t : TransferSite C) : Prop :=
  t ∈ (s.watchers.get? ⟨c, v⟩).getD []

/-- The methods that still wait to be looked at. -/
def awaited (s : State C e σ) : List (MethodIn C) := s.pending.toList.filterMap WorkItem.method?

structure WellFormed (s : State C e σ) : Prop where
  flow : s.flow.WellFormed
  pending : ∀ {i delta}, .propagate i delta ∈ s.pending.toList →
    delta.Ascending ∧ ∃ p, s.flow.Stands i p

variable {s : State C e σ} {p q a b : Pointer C e} {o x : Id e} {m : MethodIn C}

@[simp] theorem pending_push (item : WorkItem C e) :
    (s.push item).pending.toList = s.pending.toList ++ [item] :=
  WorkList.toList_push _ _

/-! ## Sending an object -/

theorem points_seed : (s.seed p o).flow.Points a x ↔ s.flow.Points a x := FlowGraph.points_node

theorem pending_seed : (s.seed p o).pending.toList =
    s.pending.toList ++ [.propagate (s.flow.node p).2 (.singleton o)] :=
  WorkList.toList_push _ _

theorem awaited_seed : (s.seed p o).awaited = s.awaited := by
  simp [awaited, pending_seed, WorkItem.method?]

theorem WellFormed.links_seed (hs : s.WellFormed) :
    (s.seed p o).flow.Links a b ↔ s.flow.Links a b :=
  hs.flow.links_node

theorem WellFormed.sends_seed (hs : s.WellFormed) :
    (s.seed p o).Sends a x ↔ s.Sends a x ∨ a = p ∧ x = o := by
  have hp : (s.seed p o).flow.Stands (s.flow.node p).2 p := FlowGraph.stands_node _ _
  unfold Sends
  simp only [pending_seed, List.mem_append, List.mem_singleton]
  constructor
  · rintro ⟨i, delta, hitem | hitem, ha, hx⟩
    · obtain ⟨a', ha'⟩ := (hs.pending hitem).2
      obtain rfl := ha'.node.pointer_inj ha
      exact .inl ⟨i, delta, hitem, ha', hx⟩
    · obtain ⟨rfl, rfl⟩ := WorkItem.propagate.inj hitem
      exact .inr ⟨ha.pointer_inj hp, PointsToSet.mem_singleton.1 hx⟩
  · rintro (⟨i, delta, hitem, ha, hx⟩ | ⟨rfl, rfl⟩)
    · exact ⟨i, delta, .inl hitem, ha.node, hx⟩
    · exact ⟨_, _, .inr rfl, hp, PointsToSet.mem_singleton.2 rfl⟩

theorem WellFormed.seed (hs : s.WellFormed) (p : Pointer C e) (o : Id e) :
    (s.seed p o).WellFormed where
  flow := hs.flow.node p
  pending {i delta} hitem := by
    rw [pending_seed] at hitem
    rcases List.mem_append.1 hitem with hitem | hitem
    · obtain ⟨hasc, a, ha⟩ := hs.pending hitem
      exact ⟨hasc, a, ha.node⟩
    · obtain ⟨rfl, rfl⟩ := WorkItem.propagate.inj (List.mem_singleton.1 hitem)
      exact ⟨PointsToSet.ascending_singleton, p, FlowGraph.stands_node _ _⟩

/-! ## Linking two pointers -/

/-- What is sent along a link: nothing, or one piece of work. -/
theorem pending_link : (s.link p q).pending.toList = s.pending.toList ++
    if (s.flow.connect p q).2.2.isEmpty then []
    else [.propagate (s.flow.connect p q).2.1 (s.flow.connect p q).2.2] := by
  simp only [link]
  split <;> simp

theorem flow_link : (s.link p q).flow = (s.flow.connect p q).1 := by
  simp only [link]
  split <;> rfl

theorem calls_link : (s.link p q).calls = s.calls := by
  simp only [link]
  split <;> rfl

theorem names_link : (s.link p q).names = s.names := by
  simp only [link]
  split <;> rfl

theorem watchers_link : (s.link p q).watchers = s.watchers := by
  simp only [link]
  split <;> rfl

theorem awaited_link : (s.link p q).awaited = s.awaited := by
  simp only [awaited, pending_link]
  split <;> simp [WorkItem.method?]

theorem WellFormed.points_link (hs : s.WellFormed) :
    (s.link p q).flow.Points a x ↔ s.flow.Points a x := by
  rw [flow_link]
  exact (hs.flow.connect p q).points

theorem WellFormed.links_link (hs : s.WellFormed) :
    (s.link p q).flow.Links a b ↔ s.flow.Links a b ∨ a = p ∧ b = q := by
  rw [flow_link]
  exact (hs.flow.connect p q).links

theorem WellFormed.has_link (hs : s.WellFormed) (h : (s.link p q).flow.Has a) :
    s.flow.Has a ∨ a = p ∨ a = q := by
  rw [flow_link] at h
  exact (hs.flow.connect p q).has h

/-- A new link sends what is at its source, and one that exists sends nothing. -/
theorem WellFormed.sends_link (hs : s.WellFormed) :
    (s.link p q).Sends a x ↔
      s.Sends a x ∨ a = q ∧ s.flow.Points p x ∧ ¬ s.flow.Links p q := by
  have hc := hs.flow.connect p q
  unfold Sends
  simp only [pending_link, flow_link, List.mem_append]
  constructor
  · rintro ⟨i, delta, hitem | hitem, ha, hx⟩
    · obtain ⟨a', ha'⟩ := (hs.pending hitem).2
      obtain rfl := (hc.stands ha').pointer_inj ha
      exact .inl ⟨i, delta, hitem, ha', hx⟩
    · split at hitem
      · simp at hitem
      · obtain ⟨rfl, rfl⟩ := WorkItem.propagate.inj (List.mem_singleton.1 hitem)
        exact .inr ⟨ha.pointer_inj hc.stands_target, hc.sent.1 hx⟩
  · rintro (⟨i, delta, hitem, ha, hx⟩ | ⟨rfl, hx⟩)
    · exact ⟨i, delta, .inl hitem, hc.stands ha, hx⟩
    · have hsent := hc.sent.2 hx
      have hne : ¬ (s.flow.connect p a).2.2.isEmpty = true := by
        rw [PointsToSet.isEmpty_iff]
        exact List.ne_nil_of_mem hsent
      refine ⟨_, _, .inr ?_, hc.stands_target, hsent⟩
      rw [if_neg hne]
      exact List.mem_singleton_self _

theorem WellFormed.link (hs : s.WellFormed) (p q : Pointer C e) : (s.link p q).WellFormed where
  flow := by
    rw [flow_link]
    exact (hs.flow.connect p q).wellFormed
  pending {i delta} hitem := by
    have hc := hs.flow.connect p q
    rw [flow_link]
    rw [pending_link] at hitem
    rcases List.mem_append.1 hitem with hitem | hitem
    · obtain ⟨hasc, a, ha⟩ := hs.pending hitem
      exact ⟨hasc, a, hc.stands ha⟩
    · split at hitem
      · simp at hitem
      · obtain ⟨rfl, rfl⟩ := WorkItem.propagate.inj (List.mem_singleton.1 hitem)
        exact ⟨hc.ascending, q, hc.stands_target⟩

/-! ## Reaching a method -/

theorem reach_of_reaches (h : s.Reaches m) : s.reach m = s := by
  simp [reach, CallGraph.addReachable_of_contains h]

theorem reach_of_not_reaches (h : ¬ s.Reaches m) :
    s.reach m = { s with calls := (s.calls.addReachable m).1 }.push (.reach m) := by
  have hm : s.calls.contains m = false := Bool.not_eq_true _ ▸ h
  simp [reach, CallGraph.addReachable_of_not_contains hm]

theorem reaches_reach {m' : MethodIn C} : (s.reach m).Reaches m' ↔ s.Reaches m' ∨ m' = m := by
  by_cases h : s.Reaches m
  · rw [reach_of_reaches h]
    exact ⟨.inl, fun hm ↦ hm.elim id fun heq ↦ heq ▸ h⟩
  · rw [reach_of_not_reaches h]
    exact CallGraph.contains_addReachable

theorem flow_reach : (s.reach m).flow = s.flow := by
  simp only [reach]
  split <;> rfl

theorem names_reach : (s.reach m).names = s.names := by
  simp only [reach]
  split <;> rfl

theorem watchers_reach : (s.reach m).watchers = s.watchers := by
  simp only [reach]
  split <;> rfl

theorem edges_reach : (s.reach m).calls.edges = s.calls.edges := by
  simp only [reach]
  split <;> rfl

theorem pending_reach_of_not_reaches (h : ¬ s.Reaches m) :
    (s.reach m).pending.toList = s.pending.toList ++ [.reach m] := by
  rw [reach_of_not_reaches h, pending_push]

theorem awaited_reach_of_not_reaches (h : ¬ s.Reaches m) :
    (s.reach m).awaited = s.awaited ++ [m] := by
  simp [awaited, pending_reach_of_not_reaches h, WorkItem.method?]

theorem propagate_mem_reach {i : PointerId} {delta : PointsToSet e} :
    .propagate i delta ∈ (s.reach m).pending.toList ↔ .propagate i delta ∈ s.pending.toList := by
  by_cases h : s.Reaches m
  · rw [reach_of_reaches h]
  · simp [pending_reach_of_not_reaches h]

theorem sends_reach : (s.reach m).Sends a x ↔ s.Sends a x := by
  simp only [Sends, propagate_mem_reach, flow_reach]

theorem WellFormed.reach (hs : s.WellFormed) (m : MethodIn C) : (s.reach m).WellFormed where
  flow := by
    rw [flow_reach]
    exact hs.flow
  pending hitem := by
    rw [flow_reach]
    exact hs.pending (propagate_mem_reach.1 hitem)

/-! ## Entering a call edge -/

/-- The state with one more call edge, of which nothing has come yet. -/
def enter (s : State C e σ) (edge : Edge C) : State C e σ :=
  { s with calls := (s.calls.addEdge edge).1 }

theorem flow_enter {edge : Edge C} : (s.enter edge).flow = s.flow := rfl

theorem pending_enter {edge : Edge C} : (s.enter edge).pending = s.pending := rfl

theorem delivers_enter {edge : Edge C} : (s.enter edge).Delivers a x ↔ s.Delivers a x := by
  unfold Delivers Sends
  rw [flow_enter, pending_enter]

theorem calls_enter {edge edge' : Edge C} :
    (s.enter edge).Calls edge' ↔ s.Calls edge' ∨ edge' = edge :=
  CallGraph.contains_edges_addEdge

theorem reaches_enter {edge : Edge C} : (s.enter edge).Reaches m ↔ s.Reaches m := by
  unfold Reaches enter CallGraph.addEdge CallGraph.contains
  split <;> rfl

theorem connect_of_calls {S : Setup C e σ} {id : SiteIn C} {site : CallSite} {callee : MethodIn C}
    (h : s.Calls ⟨site.kind, id, callee⟩) : S.connect id site callee s = s := by
  have h' : s.calls.edges.contains ⟨site.kind, id, callee⟩ = true := h
  simp [Setup.connect, CallGraph.addEdge, h']

theorem connect_of_not_calls {S : Setup C e σ} {id : SiteIn C} {site : CallSite}
    {callee : MethodIn C} (h : ¬ s.Calls ⟨site.kind, id, callee⟩) :
    S.connect id site callee s =
      ((s.enter ⟨site.kind, id, callee⟩).reach callee).linkAll (S.callFlows site id.ctx callee) := by
  have h' : ¬ s.calls.edges.contains ⟨site.kind, id, callee⟩ = true := h
  simp [Setup.connect, enter, CallGraph.addEdge, h']

/-! ## Watching a call -/

theorem mem_enter {α : Type} [DecidableEq α] {a b : α} {as : List α} :
    b ∈ CallGraph.enter a as ↔ b ∈ as ∨ b = a := by
  unfold CallGraph.enter
  split
  · exact ⟨.inl, fun h ↦ h.elim id fun heq ↦ heq ▸ ‹a ∈ as›⟩
  · simp

theorem watches_watch {t t' : TransferSite C} {operands : List VarId} {c : C} {v : VarId} :
    (s.watch t operands).Watches c v t' ↔
      s.Watches c v t' ∨ t' = t ∧ c = t.site.ctx ∧ v ∈ operands := by
  unfold Watches watch
  induction operands generalizing s with
  | nil => simp
  | cons w operands ih =>
    have step := ih (s := { s with
      watchers := s.watchers.alter ⟨t.site.ctx, w⟩ [] (CallGraph.enter t) })
    simp only [List.foldl_cons] at step ⊢
    rw [step, Table.get?_alter]
    by_cases hw : (⟨c, v⟩ : Qualified C .var) = ⟨t.site.ctx, w⟩
    · obtain ⟨rfl, rfl⟩ := Qualified.mk.inj hw
      simp only [if_pos, Option.getD_some, mem_enter, List.mem_cons, true_and, true_or, and_true]
      grind
    · have hne : ¬ (c = t.site.ctx ∧ v = w) := by simpa using hw
      simp only [if_neg hw, List.mem_cons]
      grind

/-! ## Delivery -/

theorem WellFormed.delivers_seed (hs : s.WellFormed) :
    (s.seed p o).Delivers a x ↔ s.Delivers a x ∨ a = p ∧ x = o := by
  unfold Delivers
  rw [points_seed, hs.sends_seed, or_assoc]

theorem WellFormed.delivers_link (hs : s.WellFormed) :
    (s.link p q).Delivers a x ↔
      s.Delivers a x ∨ a = q ∧ s.flow.Points p x ∧ ¬ s.flow.Links p q := by
  unfold Delivers
  rw [hs.points_link, hs.sends_link, or_assoc]

theorem delivers_reach : (s.reach m).Delivers a x ↔ s.Delivers a x := by
  unfold Delivers
  rw [flow_reach, sends_reach]

/-- Whatever is at one end of a link is at the other end or on its way there. -/
def Flowing (s : State C e σ) : Prop :=
  ∀ p q o, s.flow.Links p q → s.flow.Points p o → s.Delivers q o

theorem Flowing.seed (hs : s.WellFormed) (h : s.Flowing) : (s.seed p o).Flowing := by
  intro a b x hlink hx
  rw [hs.links_seed] at hlink
  rw [points_seed] at hx
  exact hs.delivers_seed.2 (.inl (h a b x hlink hx))

theorem Flowing.link (hs : s.WellFormed) (h : s.Flowing) : (s.link p q).Flowing := by
  intro a b x hlink hx
  rw [hs.links_link] at hlink
  rw [hs.points_link] at hx
  rw [hs.delivers_link]
  by_cases hab : s.flow.Links a b
  · exact .inl (h a b x hab hx)
  · -- the link is new, so everything at its source is sent along
    obtain ⟨rfl, rfl⟩ := hlink.resolve_left hab
    exact .inr ⟨rfl, hx, hab⟩

theorem Flowing.reach (h : s.Flowing) : (s.reach m).Flowing := by
  intro a b x hlink hx
  rw [flow_reach] at hlink hx
  exact delivers_reach.2 (h a b x hlink hx)

/-! ## Links for a list of flows -/

/-- What a list of links leaves as it was, and what it adds. -/
structure Linked (s : State C e σ) (flows : List (Pointer C e × Pointer C e)) (s' : State C e σ) :
    Prop where
  wellFormed : s'.WellFormed
  names : s'.names = s.names
  calls : s'.calls = s.calls
  watchers : s'.watchers = s.watchers
  awaited : s'.awaited = s.awaited
  points : ∀ {p o}, s'.flow.Points p o ↔ s.flow.Points p o
  links : ∀ {p q}, s'.flow.Links p q ↔ s.flow.Links p q ∨ (p, q) ∈ flows
  /-- What is new is an end of a link. -/
  has : ∀ {p}, s'.flow.Has p → s.flow.Has p ∨ ∃ q, (p, q) ∈ flows ∨ (q, p) ∈ flows
  delivers : ∀ {p o}, s.Delivers p o → s'.Delivers p o
  /-- What is newly sent comes from the other end of a link. -/
  origin : ∀ {p o}, s'.Delivers p o → s.Delivers p o ∨ ∃ q, (q, p) ∈ flows ∧ s.flow.Points q o
  flowing : s.Flowing → s'.Flowing

/-- Links only send what has arrived, which links made before do not change, so that each may be
looked at by itself. -/
theorem WellFormed.linkAll (hs : s.WellFormed) (flows : List (Pointer C e × Pointer C e)) :
    s.Linked flows (s.linkAll flows) := by
  induction flows generalizing s with
  | nil =>
    exact
      { wellFormed := hs
        names := rfl
        calls := rfl
        watchers := rfl
        awaited := rfl
        points := Iff.rfl
        links := by simp [State.linkAll]
        has := .inl
        delivers := id
        origin := .inl
        flowing := id }
  | cons flow flows ih =>
    have hl := ih (hs.link flow.1 flow.2)
    have heq : s.linkAll (flow :: flows) = (s.link flow.1 flow.2).linkAll flows := rfl
    rw [heq]
    exact
      { wellFormed := hl.wellFormed
        names := hl.names.trans names_link
        calls := hl.calls.trans calls_link
        watchers := hl.watchers.trans watchers_link
        awaited := hl.awaited.trans awaited_link
        points := hl.points.trans hs.points_link
        links := by
          intro p q
          rw [hl.links, hs.links_link, List.mem_cons, Prod.ext_iff, or_assoc]
        has := by
          intro p hp
          rcases hl.has hp with hp | ⟨q, hq⟩
          · rcases hs.has_link hp with hp | rfl | rfl
            · exact .inl hp
            · exact .inr ⟨flow.2, .inl List.mem_cons_self⟩
            · exact .inr ⟨flow.1, .inr List.mem_cons_self⟩
          · exact .inr ⟨q, hq.imp (List.mem_cons_of_mem _) (List.mem_cons_of_mem _)⟩
        delivers := fun h ↦ hl.delivers (hs.delivers_link.2 (.inl h))
        origin := by
          intro p o h
          rcases hl.origin h with h | ⟨q, hq, ho⟩
          · rcases hs.delivers_link.1 h with h | ⟨rfl, ho, -⟩
            · exact .inl h
            · exact .inr ⟨flow.1, List.mem_cons_self, ho⟩
          · exact .inr ⟨q, List.mem_cons_of_mem _ hq, hs.points_link.1 ho⟩
        flowing := fun h ↦ hl.flowing (h.link hs) }

/-! ## A new call edge -/

/-- What a new call edge leaves as it was, and what it adds: the edge, its callee, and the flows that
bind the call. A callee that was not reachable before has to wait. -/
structure Entered (s : State C e σ) (edge : Edge C) (flows : List (Pointer C e × Pointer C e))
    (s' : State C e σ) : Prop where
  wellFormed : s'.WellFormed
  names : s'.names = s.names
  watchers : s'.watchers = s.watchers
  points : ∀ {p o}, s'.flow.Points p o ↔ s.flow.Points p o
  links : ∀ {p q}, s'.flow.Links p q ↔ s.flow.Links p q ∨ (p, q) ∈ flows
  has : ∀ {p}, s'.flow.Has p → s.flow.Has p ∨ ∃ q, (p, q) ∈ flows ∨ (q, p) ∈ flows
  delivers : ∀ {p o}, s.Delivers p o → s'.Delivers p o
  origin : ∀ {p o}, s'.Delivers p o → s.Delivers p o ∨ ∃ q, (q, p) ∈ flows ∧ s.flow.Points q o
  flowing : s.Flowing → s'.Flowing
  calls : ∀ {edge'}, s'.Calls edge' ↔ s.Calls edge' ∨ edge' = edge
  reaches : ∀ {m}, s'.Reaches m ↔ s.Reaches m ∨ m = edge.callee
  awaited_of_reaches : s.Reaches edge.callee → s'.awaited = s.awaited
  awaited_of_not_reaches : ¬ s.Reaches edge.callee → s'.awaited = s.awaited ++ [edge.callee]

/-- A call that was not there before gets its edge, has its callee looked at, and links its
operands. -/
theorem WellFormed.connect {S : Setup C e σ} (hs : s.WellFormed) {id : SiteIn C} {site : CallSite}
    {callee : MethodIn C} (hnew : ¬ s.Calls ⟨site.kind, id, callee⟩) :
    s.Entered ⟨site.kind, id, callee⟩ (S.callFlows site id.ctx callee)
      (S.connect id site callee s) := by
  rw [connect_of_not_calls hnew]
  have hs' : (s.enter ⟨site.kind, id, callee⟩).WellFormed := ⟨hs.flow, hs.pending⟩
  have hl := (hs'.reach callee).linkAll (S.callFlows site id.ctx callee)
  constructor
  case wellFormed => exact hl.wellFormed
  case names => exact hl.names.trans names_reach
  case watchers => exact hl.watchers.trans watchers_reach
  case points =>
    intro p o
    rw [hl.points, flow_reach, flow_enter]
  case links =>
    intro p q
    rw [hl.links, flow_reach, flow_enter]
  case has =>
    intro p hp
    have hhas := hl.has hp
    rwa [flow_reach, flow_enter] at hhas
  case delivers => exact fun h ↦ hl.delivers (delivers_reach.2 (delivers_enter.2 h))
  case origin =>
    intro p o h
    rcases hl.origin h with h | ⟨q, hq, ho⟩
    · exact .inl (delivers_enter.1 (delivers_reach.1 h))
    · rw [flow_reach, flow_enter] at ho
      exact .inr ⟨q, hq, ho⟩
  case flowing =>
    intro h
    have henter : (s.enter ⟨site.kind, id, callee⟩).Flowing := by
      intro p q o hpq ho
      rw [flow_enter] at hpq ho
      exact delivers_enter.2 (h p q o hpq ho)
    exact hl.flowing henter.reach
  case calls =>
    intro edge'
    rw [Calls, hl.calls, edges_reach]
    exact calls_enter
  case reaches =>
    intro m
    rw [Reaches, hl.calls]
    exact reaches_reach.trans (or_congr_left reaches_enter)
  case awaited_of_reaches =>
    intro hr
    rw [hl.awaited, reach_of_reaches (reaches_enter.2 hr), awaited, awaited, pending_enter]
  case awaited_of_not_reaches =>
    intro hr
    rw [hl.awaited, awaited_reach_of_not_reaches fun hr' ↦ hr (reaches_enter.1 hr'), awaited,
      awaited, pending_enter]

end State

/-- The flows of a call lead from its arguments to parameters and from what is returned to its result. -/
theorem Setup.mem_callFlows {C : Type} {e : Entity} {σ : Type} {S : Setup C e σ} {site : CallSite}
    {ctx : C} {callee : MethodIn C} {flow : Pointer C e × Pointer C e} :
    flow ∈ S.callFlows site ctx callee ↔
      ∃ body, S.program.body callee.id = some body ∧
        ((∃ arg param, (arg, param) ∈ site.args.zip body.params ∧
          flow = (.var ctx arg, .var callee.ctx param)) ∨
        ∃ v ∈ body.returnVars, ∃ result, site.result = some result ∧
          flow = (.var callee.ctx v, .var ctx result)) := by
  unfold callFlows
  cases S.program.body callee.id with
  | none => simp
  | some body =>
    cases site.result with
    | none => simp [eq_comm]
    | some result => simp [eq_comm]

end PointsTo
