import PointsTo.Proofs.CallStrings
import PointsTo.Proofs.ContextErasure

/-!
# Alias indices against views

An index answers which variables may refer to the same object without comparing their sets pair by
pair. It gives the answers that the comparison gives (`AliasIndex.Answers`), for variables that were
never met as well. Variables are entered in ascending order, each object of a set once, so that the lists
of the index ascend without being sorted.

Views have what is needed for this, as projections are collected from ascending sets. What remains is
that every state of a run can be viewed, and for that every object that is sent anywhere must have been
given its number before. This holds for whatever selector and taint plan (`Naming.Registers`), as numbers
are given by the changes that use them and never taken back.
-/

namespace PointsTo

/-! ## Views -/

namespace View

variable {V : View} {v : VarId} {o : ObjectId}

theorem mem_vars_of_mem_pointsTo (ho : o ∈ V.pointsTo v) : v ∈ V.vars := by
  unfold pointsTo pointsTo? at ho
  cases hlookup : V.sets.lookup v with
  | none => simp [hlookup] at ho
  | some set => exact List.mem_map_of_mem (mem_of_lookup hlookup)

theorem mayAlias_iff (hsets : V.sets.SetsAscend) {a b : VarId} :
    V.mayAlias a b = true ↔ ∃ o, o ∈ V.pointsTo a ∧ o ∈ V.pointsTo b :=
  (hsets a).intersects_iff (hsets b)

end View

/-! ## What an index holds -/

namespace AliasIndex

variable {v w : VarId} {o : ObjectId} {sets : VarSets} {objects : PointsToSet .object}

/-- The index answers for the view. -/
structure Answers (ix : AliasIndex) (V : View) : Prop where
  mayAlias : ∀ a b, ix.mayAlias a b = V.mayAlias a b ∧
    (V.mayAlias a b = true ↔ ∃ o, o ∈ V.pointsTo a ∧ o ∈ V.pointsTo b)
  aliasesOf : ∀ a, (ix.aliasesOf a).Pairwise (fun b c ↦ b.index < c.index) ∧
    ∀ b, b ∈ ix.aliasesOf a ↔ b ∈ V.vars ∧ V.mayAlias a b = true
  varsPointingTo : ∀ o, (ix.varsPointingTo o).Pairwise (fun v w ↦ v.index < w.index) ∧
    ∀ v, v ∈ ix.varsPointingTo o ↔ v ∈ V.vars ∧ o ∈ V.pointsTo v
  size : ix.size = V.vars.countP fun v ↦ V.pointsTo v ≠ []

theorem get?_enter (ix : AliasIndex) (v w : VarId) (objects : PointsToSet .object) :
    (ix.enter v objects).objectsOf.get? w =
      if w = v ∧ objects.isEmpty = false then some ((ix.objectsOf.get? v).getD objects)
      else ix.objectsOf.get? w := by
  unfold enter
  split
  case isTrue hempty => simp [hempty]
  case isFalse hnonempty => simp [hnonempty, Table.get?_intern]

theorem ascending_of_append (h : VarSets.Ascending (sets ++ [(v, objects)])) : sets.Ascending := by
  unfold VarSets.Ascending at h ⊢
  rw [List.map_append] at h
  exact (List.pairwise_append.1 h).1

/-- A variable that comes last stands nowhere before. -/
theorem lt_of_ascending_append (h : VarSets.Ascending (sets ++ [(v, objects)]))
    (hw : w ∈ sets.map Prod.fst) : w.index < v.index := by
  unfold VarSets.Ascending at h
  rw [List.map_append] at h
  exact of_decide_eq_true ((List.pairwise_append.1 h).2.2 w hw v List.mem_cons_self)

theorem lookup_of_ascending_append (h : VarSets.Ascending (sets ++ [(v, objects)])) :
    sets.lookup v = none := by
  rw [Option.eq_none_iff_forall_ne_some]
  intro set hset
  have hmem : v ∈ sets.map Prod.fst := List.mem_map_of_mem (mem_of_lookup hset)
  exact Nat.lt_irrefl _ (lt_of_ascending_append h hmem)

/-- Variables are entered with their sets, unless these are empty. -/
theorem get?_ofSets (h : sets.Ascending) (v : VarId) :
    (sets.foldl (fun ix s ↦ ix.enter s.1 s.2) ({} : AliasIndex)).objectsOf.get? v =
      (sets.lookup v).filter fun set ↦ !set.isEmpty := by
  induction sets using List.reverseRecOn with
  | nil => simp
  | append_singleton sets entry ih =>
    obtain ⟨w, objects⟩ := entry
    have ih := ih (ascending_of_append h)
    rw [List.foldl_append, List.foldl_cons, List.foldl_nil, get?_enter, List.lookup_append,
      Ordered.lookup_cons]
    by_cases hv : v = w
    · subst hv
      have hnone := lookup_of_ascending_append h
      cases hempty : objects.isEmpty <;> simp [ih, hnone, hempty, Option.filter_some]
    · simp [ih, hv]

theorem get?_enterAll {os : List ObjectId} (hos : os.Nodup) (t : Table ObjectId (List VarId)) :
    ((os.foldl (fun t o ↦ t.alter o [] (· ++ [v])) t).get? o).getD [] =
      (t.get? o).getD [] ++ if o ∈ os then [v] else [] := by
  induction os generalizing t with
  | nil => simp
  | cons a os ih =>
    obtain ⟨ha, hos⟩ := List.nodup_cons.1 hos
    rw [List.foldl_cons, ih hos, Table.get?_alter]
    by_cases ho : o = a
    · simp [ho, ha]
    · simp [ho]

/-- The variables of an object ascend, as later ones are entered behind them. -/
theorem pairwise_ofSets (h : sets.Ascending) (hsets : ∀ entry ∈ sets, entry.2.Ascending) :
    ((sets.foldl (fun ix s ↦ ix.enter s.1 s.2) ({} : AliasIndex)).varsPointingTo o).Pairwise
      fun v w ↦ v.index < w.index := by
  induction sets using List.reverseRecOn with
  | nil => simp [varsPointingTo]
  | append_singleton sets entry ih =>
    obtain ⟨v, objects⟩ := entry
    have ih := ih (ascending_of_append h) fun entry hentry ↦ hsets entry (List.mem_append_left _ hentry)
    rw [List.foldl_append, List.foldl_cons, List.foldl_nil]
    unfold enter
    split
    case isTrue => exact ih
    case isFalse =>
      have hobjects : objects.Ascending := hsets (v, objects) (List.mem_append_right _ List.mem_cons_self)
      have hnodup : objects.toList.Nodup := hobjects.pairwise_toList.imp fun hlt heq ↦ by
        rw [heq] at hlt
        exact Nat.lt_irrefl _ hlt
      change ((Table.get? _ o).getD []).Pairwise _
      rw [get?_enterAll hnodup]
      refine List.pairwise_append.2 ⟨ih, by split <;> simp, fun w hw x hx ↦ ?_⟩
      have hx : x = v := by
        split at hx
        · exact List.mem_singleton.1 hx
        · cases hx
      rw [hx]
      apply lt_of_ascending_append h
      rcases mem_ofSets.1 hw with hw | ⟨set, hset, -⟩
      · simp [varsPointingTo] at hw
      · exact List.mem_map_of_mem hset

/-! ## Answers -/

section

variable {V : View} (h : V.sets.Ascending) (hsets : V.sets.SetsAscend)

include h

theorem get?_ofView (v : VarId) : (ofView V).objectsOf.get? v =
    (V.pointsTo? v).filter fun set ↦ !set.isEmpty :=
  get?_ofSets h v

theorem mem_objectsOf : o ∈ (((ofView V).objectsOf.get? v).getD ∅).toList ↔ o ∈ V.pointsTo v := by
  rw [get?_ofView h]
  unfold View.pointsTo
  cases V.pointsTo? v with
  | none => simp
  | some set =>
    cases hempty : set.isEmpty with
    | true => simp [Option.filter_some, hempty, PointsToSet.isEmpty_iff.1 hempty]
    | false => simp [Option.filter_some, hempty]

theorem mem_aliasesOf : w ∈ (ofView V).aliasesOf v ↔ ∃ o, o ∈ V.pointsTo v ∧ o ∈ V.pointsTo w := by
  obtain ⟨n⟩ := w
  unfold aliasesOf
  simp only [List.mem_map, SparseSet.mem_ofList, List.mem_flatMap, Id.mk.injEq, exists_eq_right,
    mem_objectsOf h, mem_varsPointingTo_ofView h]
  constructor
  · rintro ⟨⟨m⟩, ⟨o, hv, hw⟩, rfl⟩
    exact ⟨o, hv, hw⟩
  · rintro ⟨o, hv, hw⟩
    exact ⟨⟨n⟩, ⟨o, hv, hw⟩, rfl⟩

theorem exists_objectsOf_iff :
    (∃ set, (ofView V).objectsOf.get? v = some set) ↔ V.pointsTo v ≠ [] := by
  rw [get?_ofView h]
  unfold View.pointsTo
  cases V.pointsTo? v with
  | none => simp
  | some set =>
    rw [Option.getD_some, ne_eq, ← PointsToSet.isEmpty_iff]
    cases hempty : set.isEmpty with
    | true => simp [Option.filter_some, hempty]
    | false => simp [Option.filter_some, hempty]

/-- Variables are counted by the keys of the index, which are those that refer to something. -/
theorem size_ofView : (ofView V).size = V.vars.countP fun v ↦ V.pointsTo v ≠ [] := by
  have hnodup : V.vars.Nodup := h.imp fun hlt heq ↦ by
    rw [heq] at hlt
    simp at hlt
  have hkey : ∀ v, v ∈ (ofView V).objectsOf.keys ↔ V.pointsTo v ≠ [] := by
    intro v
    rw [← exists_objectsOf_iff h]
    simp only [Table.keys, List.mem_map, Prod.exists, exists_and_right, exists_eq_right,
      Table.mem_toList_iff]
  have hperm : (ofView V).objectsOf.keys.Perm (V.vars.filter fun v ↦ V.pointsTo v ≠ []) := by
    apply (List.perm_ext_iff_of_nodup (Table.nodup_keys _) (hnodup.filter _)).2
    intro v
    rw [hkey, List.mem_filter, decide_eq_true_eq, iff_and_self]
    intro hne
    obtain ⟨o, ho⟩ := List.exists_mem_of_ne_nil _ hne
    exact View.mem_vars_of_mem_pointsTo ho
  calc (ofView V).size = (ofView V).objectsOf.keys.length := by
        simp [size, Table.size, Table.keys, Table.toList]
    _ = (V.vars.filter fun v ↦ V.pointsTo v ≠ []).length := hperm.length_eq
    _ = V.vars.countP fun v ↦ V.pointsTo v ≠ [] := List.countP_eq_length_filter.symm

include hsets

theorem mayAlias_ofView_iff {a b : VarId} :
    (ofView V).mayAlias a b = true ↔ ∃ o, o ∈ V.pointsTo a ∧ o ∈ V.pointsTo b := by
  simp only [← mem_objectsOf h]
  unfold mayAlias
  cases (ofView V).objectsOf.get? a with
  | none => simp
  | some s =>
    cases hb : (ofView V).objectsOf.get? b with
    | none => simp
    | some t =>
      have ht : t.Ascending := by
        rw [get?_ofView h] at hb
        have hlookup := (Option.filter_eq_some_iff.1 hb).1
        have hascending := hsets b
        rwa [show V.sets.lookup b = some t from hlookup] at hascending
      simp only [List.any_eq_true, ht.contains_iff, Option.getD_some]

theorem answers_ofView : (ofView V).Answers V where
  mayAlias a b := by
    refine ⟨?_, View.mayAlias_iff hsets⟩
    rw [Bool.eq_iff_iff, mayAlias_ofView_iff h hsets, View.mayAlias_iff hsets]
  aliasesOf a := by
    refine ⟨(SparseSet.ascending_ofList _).pairwise_ids, fun b ↦ ?_⟩
    rw [mem_aliasesOf h, View.mayAlias_iff hsets, iff_and_self]
    rintro ⟨o, -, ho⟩
    exact View.mem_vars_of_mem_pointsTo ho
  varsPointingTo o := by
    constructor
    · apply pairwise_ofSets h
      intro entry hentry
      have hascending := hsets entry.1
      rwa [h.lookup_of_mem hentry] at hascending
    · intro v
      rw [mem_varsPointingTo_ofView h, iff_and_self]
      exact View.mem_vars_of_mem_pointsTo
  size := size_ofView h

end

end AliasIndex

/-! ## Objects are known by the time they are sent -/

variable {C : Type} [Contextual C] {e : Entity} {σ : Type}

/-- Whatever naming gives out is known then, and what is known stays known. -/
structure Naming.Registers (N : Naming C e σ) (Known : σ → Id e → Prop) : Prop where
  allocate : ∀ {p n m a n' o}, N.allocate p n m a = .ok (n', o) →
    Known n' o ∧ ∀ {i}, Known n i → Known n' i
  calleeContext : ∀ {p n site receiver n' c}, N.calleeContext p n site receiver = .ok (n', c) →
    ∀ {i}, Known n i → Known n' i
  mark : ∀ n source cls, Known (N.mark n source cls).1 (N.mark n source cls).2 ∧
    ∀ {i}, Known n i → Known (N.mark n source cls).1 i

namespace Setup

variable {S : Setup C e σ} {s s' s₁ : State C e σ} {Known : σ → Id e → Prop}

/-- Everything that has arrived or is on its way is known. -/
def SendsKnown (Known : σ → Id e → Prop) (s : State C e σ) : Prop :=
  ∀ {p o}, s.Delivers p o → Known s.names o

theorem sendsKnown_takes (h : SendsKnown Known s) (htakes : s.Takes s₁) : SendsKnown Known s₁ := by
  intro p o hd
  cases htakes with
  | method hperm => exact h (State.delivers_of_delivers_taken hperm hd)
  | objects hprop =>
    rw [hprop.names]
    rcases hprop.origin hd with hd | ⟨-, hadded⟩
    · exact h hd
    · exact h (hprop.fresh hadded).1

/-- What a change sends was just given out by the naming, or has arrived somewhere before. -/
theorem sendsKnown_change (hN : S.naming.Registers Known) (hs : S.Tracked s)
    (h : SendsKnown Known s) (hc : S.Change s s') : SendsKnown Known s' := by
  intro p o hd
  cases hc with
  | @alloc m body lhs a n i _ _ _ hallocate =>
    obtain ⟨hknown, hkeeps⟩ := hN.allocate hallocate
    have hsent := hs.wellFormed.sent_seed (P := fun _ o ↦ o = i) n (p := .var m.ctx lhs) rfl
    rcases hsent.origin hd with hd | rfl
    · exact hkeeps (h hd)
    · exact hknown
  | @link q r _ =>
    rw [State.names_link]
    rcases hs.wellFormed.delivers_link.1 hd with hd | ⟨-, hpoints, -⟩
    · exact h hd
    · exact h (.inl hpoints)
  | @call id site callee receiver n ctx hmakes _ hcontext =>
    have hc := (hs.withNames n).callEntered id site ⟨ctx, callee⟩ (receiver.map Prod.snd)
    -- Entering a call may let in a mark, and it keeps what was known before.
    have hkeeps : ∀ {i}, Known s.names i → Known
        (S.enterCall id site ⟨ctx, callee⟩ (receiver.map Prod.snd) { s with names := n }).names i := by
      intro i hi
      rcases hc.names with heq | ⟨cls, heq⟩ <;> rw [heq]
      · exact hN.calleeContext hcontext hi
      · exact (hN.mark n id.id cls).2 (hN.calleeContext hcontext hi)
    rcases hc.origin hd with hd | ⟨this, hreceiver, -, -⟩ | ⟨cls, result, -, -, hn, rfl⟩ |
      ⟨r, -, hpoints⟩
    · exact hkeeps (h hd)
    · obtain ⟨⟨v, o'⟩, rfl, rfl⟩ := Option.map_eq_some_iff.1 hreceiver
      exact hkeeps (h (.inl hmakes.points))
    · rw [hn]
      exact (hN.mark n id.id cls).1
    · exact hkeeps (h (.inl hpoints))
  | watch _ _ => exact h hd
  | @handOn t plan site rule source target i origin _ _ _ _ _ _ _ _ =>
    obtain ⟨hknown, hkeeps⟩ := hN.mark s.names origin rule.cls
    have hsent := hs.wellFormed.sent_seed
      (P := fun _ o ↦ o = (S.naming.mark s.names origin rule.cls).2)
      (S.naming.mark s.names origin rule.cls).1 (p := .var t.site.ctx target) rfl
    rcases hsent.origin hd with hd | rfl
    · exact hkeeps (h hd)
    · exact hknown

theorem sendsKnown_of_steps (hN : S.naming.Registers Known) {names : σ} {order : WorkOrder}
    {entry : MethodId} (hs : Relation.ReflTransGen S.Step (S.initial names order entry) s) :
    SendsKnown Known s :=
  (steps_induction (I := SendsKnown Known) (fun hd ↦ absurd hd not_delivers_initial)
    (fun _ h htakes ↦ sendsKnown_takes h htakes) (fun hs h hc ↦ sendsKnown_change hN hs h hc) hs).2

end Setup

/-- With contexts an object is known once it is interned, and interning forgets nothing. -/
theorem Naming.registers_selected (selector : Selector) :
    (Naming.selected selector).Registers fun n i ↦ ∃ object, CsNames.object n.toCsNames i = .ok object := by
  constructor
  case allocate =>
    intro p n m a n' o h
    obtain ⟨⟨heap, o'⟩, -, h⟩ := bind_eq_ok.1 h
    obtain ⟨⟨contexts, ctx⟩, -, h⟩ := bind_eq_ok.1 h
    obtain ⟨rfl, rfl⟩ := Prod.mk.inj (Except.ok.inj h)
    refine ⟨⟨_, CsHeap.object_eq_ok_iff.2 (Table.key?_intern_self _ _ ())⟩, ?_⟩
    rintro i ⟨object, hobject⟩
    refine ⟨object, CsHeap.object_eq_ok_iff.2 ?_⟩
    exact Table.key?_intern_of_key? (CsHeap.object_eq_ok_iff.1 hobject)
  case calleeContext =>
    intro p n site receiver n' c h i hi
    obtain ⟨receiver, -, h⟩ := bind_eq_ok.1 h
    obtain ⟨⟨contexts, ctx⟩, -, h⟩ := bind_eq_ok.1 h
    obtain ⟨rfl, rfl⟩ := Prod.mk.inj (Except.ok.inj h)
    exact hi
  case mark =>
    intro n source cls
    refine ⟨⟨_, CsHeap.object_eq_ok_iff.2 (Table.key?_intern_self _ _ ())⟩, ?_⟩
    rintro i ⟨object, hobject⟩
    exact ⟨object, (CsHeap.keeps_mark n source cls).objects hobject⟩

/-! ## Views of runs -/

section

variable {w : World} {abstraction : HeapAbstraction} {order : WorkOrder}

/-- A state without contexts is viewed as it is. -/
theorem CiState.view_of_steps {s : CiState}
    (hs : Relation.ReflTransGen w.plainSetup.Step (w.plainSetup.initial { abstraction } order w.entry) s) :
    ∃ V, CiState.view s = .ok V ∧ (∀ v, V.pointsTo v = CiState.pointsTo s (.var () v)) ∧
      (AliasIndex.ofView V).Answers V := by
  have hknown : VarSets.Known pure s.flow.toList := fun _ i _ ↦ ⟨i, rfl⟩
  obtain ⟨sets, hsets, hcollects, hascend⟩ := VarSets.project_eq_ok hknown
  refine ⟨_, bind_eq_ok.2 ⟨sets, hsets, rfl⟩, fun v ↦ ?_,
    AliasIndex.answers_ofView hcollects.ascending hascend⟩
  have hflow := (Setup.tracked_of_steps hs).wellFormed.flow
  apply Id.eq_of_mem_iff (hascend v).pairwise_toList (hflow.ascending_pts? _).pairwise_toList
  intro o
  rw [hcollects.objects]
  refine Iff.trans ?_ (FlowGraph.points_iff.symm.trans FlowGraph.points_iff_mem_pts?)
  constructor
  · rintro ⟨c, set, i, hset, hi, ho⟩
    obtain rfl := Except.ok.inj ho
    exact ⟨set, hset, hi⟩
  · rintro ⟨set, hset, ho⟩
    exact ⟨(), set, o, hset, ho, rfl⟩

/-- A state with contexts can be viewed, and its view is exact. -/
theorem CsState.view_of_steps {selector : Selector} {taint : Option TaintPlan} {s : CsState}
    (hs : Relation.ReflTransGen (w.selectedSetup selector taint).Step
      ((w.selectedSetup selector taint).initial { heap := { abstraction } } order w.entry) s) :
    ∃ V, CsState.view s = .ok V ∧ CsState.Projects s V ∧ (AliasIndex.ofView V).Answers V := by
  have hknown : Setup.SendsKnown _ s := Setup.sendsKnown_of_steps (Naming.registers_selected selector) hs
  have hnamed : s.Named := fun hi ↦ hknown (.inl hi)
  obtain ⟨V, hV⟩ := CsState.Named.exists_view hnamed
  obtain ⟨-, hreads, hascend⟩ := CsState.reads_of_view hV
  exact ⟨V, hV, CsState.projects_of_view hV,
    AliasIndex.answers_ofView hreads.sets.ascending hascend⟩

end

/-! ## Results -/

/-- A run that comes to an end is what the solver returns. At any time of a run, the end included, the
state can be viewed, the view shows of it what `Shows` says, and the index of the view answers for it. -/
structure Setup.IndexesAliases (S : Setup C e σ) (names : σ) (order : WorkOrder) (entry : MethodId)
    (view : State C e σ → Except UnknownId View) (Shows : State C e σ → View → Prop) : Prop where
  returned : ∀ {n s}, S.runFor n (S.initial names order entry) = .ok s → s.pending.poll = none →
    S.solve names order entry = .ok s ∧ Relation.ReflTransGen S.Step (S.initial names order entry) s
  indexed : ∀ {s}, Relation.ReflTransGen S.Step (S.initial names order entry) s →
    ∃ V, view s = .ok V ∧ Shows s V ∧ (AliasIndex.ofView V).Answers V

theorem Setup.indexesAliases {S : Setup C e σ} {names : σ} {order : WorkOrder} {entry : MethodId}
    {view : State C e σ → Except UnknownId View} {Shows : State C e σ → View → Prop}
    (h : ∀ {s}, Relation.ReflTransGen S.Step (S.initial names order entry) s →
      ∃ V, view s = .ok V ∧ Shows s V ∧ (AliasIndex.ofView V).Answers V) :
    S.IndexesAliases names order entry view Shows where
  returned hs hfin := ⟨run_of_runFor hs hfin, steps_of_runFor hs⟩
  indexed := h

/-- The alias index agrees with the comparison of sets, without contexts and with those of any selector,
with taint or without it. Two variables, met or not, may be aliases by the index if and only if they are
in the view, where they are if they share an object. The aliases of a variable and the variables that may
refer to an object are listed in ascending order and are exactly those of the view, and the index counts
the variables that refer to something. -/
theorem aliasIndex_agrees (w : World) (abstraction : HeapAbstraction) (order : WorkOrder) :
    w.plainSetup.IndexesAliases { abstraction } order w.entry CiState.view
      (fun s V ↦ ∀ v, V.pointsTo v = CiState.pointsTo s (.var () v)) ∧
    ∀ selector taint, (w.selectedSetup selector taint).IndexesAliases { heap := { abstraction } } order
      w.entry CsState.view CsState.Projects := by
  constructor
  · exact Setup.indexesAliases CiState.view_of_steps
  · intro selector taint
    exact Setup.indexesAliases CsState.view_of_steps

/-- The third variable may be either shape. The last two are met, but refer to nothing. -/
def copiedShapes : List Declaration :=
  [ .cls { name := "Main" },
    .cls { name := "Circle" },
    .cls { name := "Square" },
    .method { cls := ⟨0⟩, subsignature := ⟨"main()"⟩, isStatic := true, items :=
      [.var "circle", .var "square", .var "either", .var "lost", .var "found",
        .alloc ⟨0⟩ ⟨1⟩, .alloc ⟨1⟩ ⟨2⟩, .copy ⟨2⟩ ⟨0⟩, .copy ⟨2⟩ ⟨1⟩, .copy ⟨4⟩ ⟨3⟩] } ]

def copiedWorld : World := ⟨(Program.ofDeclarations copiedShapes).toOption.getD {}, ⟨0⟩⟩

set_option synthInstance.maxSize 400 in
/-- What may be either shape is an alias of both, and what refers to nothing has no alias. -/
theorem aliasIndex_agrees_copied :
    ∃ (s : CsState) (V : View),
      copiedWorld.solveSelected ⟨.callSite, 1, 1⟩ .allocationSite .lifo none = .ok s ∧
      CsState.view s = .ok V ∧ CsState.Projects s V ∧ (AliasIndex.ofView V).Answers V ∧
      (AliasIndex.ofView V).aliasesOf ⟨0⟩ = [⟨0⟩, ⟨2⟩] ∧
      (AliasIndex.ofView V).varsPointingTo ⟨1⟩ = [⟨1⟩, ⟨2⟩] ∧
      V.mayAlias ⟨0⟩ ⟨1⟩ = false ∧ V.mayAlias ⟨3⟩ ⟨4⟩ = false ∧
      V.vars.length = 5 ∧ (AliasIndex.ofView V).size = 3 := by
  have hrun : ((copiedWorld.selectedSetup ⟨.callSite, 1, 1⟩ none).runFor 30
      ((copiedWorld.selectedSetup ⟨.callSite, 1, 1⟩ none).initial
        { heap := { abstraction := .allocationSite } } .lifo ⟨0⟩) >>= fun s ↦
      CsState.view s >>= fun V ↦ .ok (s.pending.poll.isNone, (AliasIndex.ofView V).aliasesOf ⟨0⟩,
        (AliasIndex.ofView V).varsPointingTo ⟨1⟩, V.mayAlias ⟨0⟩ ⟨1⟩, V.mayAlias ⟨3⟩ ⟨4⟩,
        V.vars.length, (AliasIndex.ofView V).size)) =
      .ok (true, [⟨0⟩, ⟨2⟩], [⟨1⟩, ⟨2⟩], false, false, 5, 3) := by decide +kernel
  obtain ⟨s, hs, hrun⟩ := bind_eq_ok.1 hrun
  obtain ⟨V, hV, hread⟩ := bind_eq_ok.1 hrun
  simp only [Except.ok.injEq, Prod.mk.injEq] at hread
  obtain ⟨-, hselected⟩ := aliasIndex_agrees copiedWorld .allocationSite .lifo
  obtain ⟨hsolve, hsteps⟩ :=
    (hselected ⟨.callSite, 1, 1⟩ none).returned hs (Option.isNone_iff_eq_none.1 hread.1)
  obtain ⟨V', hV', hprojects, hanswers⟩ := (hselected ⟨.callSite, 1, 1⟩ none).indexed hsteps
  obtain rfl := Except.ok.inj (hV.symm.trans hV')
  exact ⟨s, V, hsolve, hV, hprojects, hanswers, hread.2⟩

end PointsTo
