import PointsTo.Proofs.Lookups

/-!
# Views of analyses with contexts

A view leaves contexts out, and nothing else. Whatever the state of an analysis is made of, a variable
refers in the view to the objects that it refers to under some context and heap context, and calls and
methods are listed by their first occurrence (`projection_exact`). It does not matter in which order
pointers are gone through: the sets by variable are determined by their members, as everything in them
ascends (`VarSets.Collects.eq`).
-/

namespace PointsTo

/-! ## First occurrences -/

/-- The list `as` has the items of `all`, each once and in the order in which they occur there first. -/
structure FirstOccurrences {α : Type} [BEq α] (all as : List α) : Prop where
  mem_iff : ∀ a, a ∈ as ↔ a ∈ all
  ordered : as.Pairwise fun a b ↦ all.idxOf a < all.idxOf b

namespace FirstOccurrences

variable {α : Type} [BEq α] [LawfulBEq α] {all as : List α} {a : α}

omit [LawfulBEq α] in
theorem nil : FirstOccurrences ([] : List α) [] :=
  ⟨fun _ ↦ Iff.rfl, .nil⟩

/-- Items that have occurred keep their places. -/
theorem ordered_concat (h : FirstOccurrences all as) (a : α) :
    as.Pairwise fun b c ↦ (all ++ [a]).idxOf b < (all ++ [a]).idxOf c := by
  apply h.ordered.imp_of_mem
  intro b c hb hc hbc
  rw [List.idxOf_append_of_mem ((h.mem_iff b).1 hb), List.idxOf_append_of_mem ((h.mem_iff c).1 hc)]
  exact hbc

theorem again (h : FirstOccurrences all as) (ha : a ∈ all) : FirstOccurrences (all ++ [a]) as := by
  refine ⟨fun b ↦ ?_, h.ordered_concat a⟩
  rw [h.mem_iff, List.mem_append, List.mem_singleton]
  exact ⟨.inl, fun hb ↦ hb.elim id fun heq ↦ heq ▸ ha⟩

/-- A new item comes after all that have occurred. -/
theorem concat (h : FirstOccurrences all as) (ha : a ∉ all) :
    FirstOccurrences (all ++ [a]) (as ++ [a]) := by
  refine ⟨fun b ↦ ?_, ?_⟩
  · rw [List.mem_append, List.mem_append, h.mem_iff]
  · apply List.pairwise_append.2 ⟨h.ordered_concat a, List.pairwise_singleton _ a, ?_⟩
    intro b hb c hc
    obtain rfl := List.mem_singleton.1 hc
    have hmem := (h.mem_iff b).1 hb
    rw [List.idxOf_append_of_mem hmem, List.idxOf_append_of_notMem ha]
    exact (List.idxOf_lt_length_of_mem hmem).trans_le (Nat.le_add_right _ _)

end FirstOccurrences

section

variable {α : Type} [BEq α] [LawfulBEq α] {all : List α} {a : α}

theorem eraseDups_concat_of_mem (ha : a ∈ all) : (all ++ [a]).eraseDups = all.eraseDups := by
  have hnone : [a].removeAll all = [] := by simp [List.removeAll, ha]
  rw [List.eraseDups_append, hnone, List.eraseDups_nil, List.append_nil]

theorem eraseDups_concat_of_not_mem (ha : a ∉ all) :
    (all ++ [a]).eraseDups = all.eraseDups ++ [a] := by
  have hone : [a].removeAll all = [a] := by simp [List.removeAll, ha]
  rw [List.eraseDups_append, hone, List.eraseDups_cons, List.filter_nil, List.eraseDups_nil]

theorem firstOccurrences_eraseDups (all : List α) : FirstOccurrences all all.eraseDups := by
  induction all using List.reverseRecOn with
  | nil => exact .nil
  | append_singleton all a ih =>
    by_cases ha : a ∈ all
    · rw [eraseDups_concat_of_mem ha]
      exact ih.again ha
    · rw [eraseDups_concat_of_not_mem ha]
      exact ih.concat ha

end

theorem filterMap_concat {α β : Type} (f : α → Option β) (as : List α) (a : α) :
    (as ++ [a]).filterMap f = as.filterMap f ++ (f a).toList := by
  rw [List.filterMap_append, List.filterMap_cons]
  cases f a <;> rfl

/-! ## Sets by variable -/

namespace VarSets

variable {C : Type} {e : Entity} {sets sets' : VarSets}
  {objectOf : Id e → Except UnknownId ObjectId} {pointers pointers' : List (Pointer C e × PointsToSet e)}

/-- Sets can be collected only if every object of a variable is known. -/
theorem known_of_project (h : project objectOf pointers = .ok sets) : Known objectOf pointers := by
  induction pointers using List.reverseRecOn generalizing sets with
  | nil => exact fun hmem ↦ absurd hmem List.not_mem_nil
  | append_singleton pointers entry ih =>
    unfold project at h
    rw [List.foldlM_append] at h
    obtain ⟨before, hbefore, hstep⟩ := bind_eq_ok.1 h
    intro c v set hmem i hi
    rcases List.mem_append.1 hmem with hmem | hmem
    · exact ih hbefore hmem i hi
    · obtain rfl := List.mem_singleton.1 hmem
      obtain ⟨after, hafter, -⟩ := bind_eq_ok.1 hstep
      obtain ⟨objects, hobjects, -⟩ := bind_eq_ok.1 hafter
      exact of_mapM_eq_ok hobjects hi

/-- Ascending sets by variable are read off their variables. -/
theorem Ascending.eq_map (h : Ascending sets) :
    sets = (sets.map Prod.fst).map fun v ↦ (v, (sets.lookup v).getD ∅) := by
  rw [List.map_map, eq_comm]
  refine (List.map_congr_left fun entry hentry ↦ ?_).trans (List.map_id sets)
  rw [Function.comp_apply, h.lookup_of_mem hentry]
  rfl

/-- What is collected does not depend on the order of the pointers. -/
theorem Collects.eq (h : Collects objectOf pointers sets) (hsets : SetsAscend sets)
    (h' : Collects objectOf pointers' sets') (hsets' : SetsAscend sets')
    (hmem : ∀ entry, entry ∈ pointers ↔ entry ∈ pointers') : sets = sets' := by
  have hvars : sets.map Prod.fst = sets'.map Prod.fst := by
    apply Id.eq_of_mem_iff (h.ascending.imp of_decide_eq_true) (h'.ascending.imp of_decide_eq_true)
    intro v
    simp only [h.vars, h'.vars, hmem]
  have hlookup : ∀ v, (sets.lookup v).getD ∅ = (sets'.lookup v).getD ∅ := by
    intro v
    apply (hsets v).ext (hsets' v)
    intro o
    simp only [h.objects, h'.objects, hmem]
  rw [h.ascending.eq_map, h'.ascending.eq_map, hvars]
  exact List.map_congr_left fun v _ ↦ congrArg (Prod.mk v) (hlookup v)

theorem project_of_perm (h : project objectOf pointers = .ok sets) (hperm : pointers'.Perm pointers) :
    project objectOf pointers' = .ok sets := by
  have hknown : Known objectOf pointers := known_of_project h
  obtain ⟨all, hall, hcollects, hascend⟩ := project_eq_ok hknown
  obtain rfl := Except.ok.inj (h.symm.trans hall)
  have hknown' : Known objectOf pointers' := fun hmem ↦ hknown (hperm.mem_iff.1 hmem)
  obtain ⟨all', hall', hcollects', hascend'⟩ := project_eq_ok hknown'
  rw [hall', hcollects'.eq hascend' hcollects hascend fun entry ↦ hperm.mem_iff]

end VarSets

/-! ## Contexts -/

namespace CsState

variable {s : CsState} {V : View} {v : VarId} {c : ContextId}
  {pointers pointers' : List (Pointer ContextId .csObject × PointsToSet .csObject)}

theorem mem_contextsIn : c ∈ contextsIn pointers v ↔ ∃ set, (.var c v, set) ∈ pointers := by
  obtain ⟨n⟩ := c
  unfold contextsIn
  rw [List.mem_map]
  simp only [SparseSet.mem_ofList, List.mem_filterMap, Id.mk.injEq, exists_eq_right]
  constructor
  · rintro ⟨⟨p, set⟩, hmem, hp⟩
    cases p with
    | var c w =>
      obtain ⟨rfl, hc⟩ := Option.ite_none_right_eq_some.1 hp
      obtain rfl := Option.some.inj hc
      exact ⟨set, hmem⟩
    | _ => cases hp
  · rintro ⟨set, hmem⟩
    exact ⟨_, hmem, if_pos rfl⟩

theorem pairwise_contextsIn (pointers : List (Pointer ContextId .csObject × PointsToSet .csObject))
    (v : VarId) : (contextsIn pointers v).Pairwise fun a b ↦ a.index < b.index :=
  (SparseSet.ascending_ofList _).pairwise_ids

theorem contextsIn_of_perm (hperm : pointers'.Perm pointers) (v : VarId) :
    contextsIn pointers' v = contextsIn pointers v := by
  apply Id.eq_of_mem_iff (pairwise_contextsIn pointers' v) (pairwise_contextsIn pointers v)
  intro c
  simp only [mem_contextsIn, hperm.mem_iff]

theorem mem_contextsOf : c ∈ s.contextsOf v ↔ s.flow.Has (.var c v) :=
  mem_contextsIn.trans FlowGraph.has_iff.symm

/-! ## Views -/

/-- Every object that a variable refers to under some context has been given its number. -/
def Named (s : CsState) : Prop :=
  ∀ {c v i}, s.flow.Points (.var c v) i → ∃ object, s.names.object i = .ok object

theorem objectOf_eq_ok_iff {i : CsObjectId} {o : ObjectId} :
    s.objectOf i = .ok o ↔ ∃ h, s.names.object i = .ok ⟨h, o⟩ := by
  constructor
  · intro ho
    obtain ⟨⟨h, o'⟩, hobject, ho⟩ := bind_eq_ok.1 ho
    obtain rfl := Except.ok.inj ho
    exact ⟨h, hobject⟩
  · rintro ⟨h, hobject⟩
    exact bind_eq_ok.2 ⟨⟨h, o⟩, hobject, rfl⟩

theorem known_iff_named : VarSets.Known s.objectOf s.flow.toList ↔ s.Named := by
  constructor
  · intro hknown c v i hi
    obtain ⟨set, hset, hi⟩ := FlowGraph.points_iff.1 hi
    obtain ⟨o, ho⟩ := hknown hset i hi
    obtain ⟨h, hobject⟩ := objectOf_eq_ok_iff.1 ho
    exact ⟨_, hobject⟩
  · intro hnamed c v set hset i hi
    obtain ⟨⟨h, o⟩, hobject⟩ := hnamed (FlowGraph.points_iff.2 ⟨set, hset, hi⟩)
    exact ⟨o, objectOf_eq_ok_iff.2 ⟨h, hobject⟩⟩

/-- What a variable refers to under one context, as objects under heap contexts. -/
theorem Named.pointsTo_eq_ok (hnamed : s.Named) (c : ContextId) (v : VarId) :
    ∃ objects, s.pointsTo (.var c v) = .ok objects ∧
      ∀ x, x ∈ objects ↔ ∃ i, s.flow.Points (.var c v) i ∧ s.names.object i = .ok x := by
  have hpts : ∀ {i}, i ∈ ((s.flow.pts? (.var c v)).getD ∅).toList ↔ s.flow.Points (.var c v) i :=
    FlowGraph.points_iff_mem_pts?.symm
  obtain ⟨objects, hobjects, hmem⟩ := mapM_eq_ok fun i hi ↦ hnamed (hpts.1 hi)
  refine ⟨objects, hobjects, fun x ↦ ?_⟩
  simp only [hmem, hpts]

/-- The view is the state with contexts left out, whatever order pointers are gone through in. -/
structure Projects (s : CsState) (V : View) : Prop where
  pointsTo : ∀ v, (V.pointsTo v).Pairwise (fun a b ↦ a.index < b.index) ∧
    ∀ o, o ∈ V.pointsTo v ↔ ∃ c ∈ s.contextsOf v, ∃ objects h,
      s.pointsTo (.var c v) = .ok objects ∧ ⟨h, o⟩ ∈ objects
  contexts : ∀ v, (s.contextsOf v).Pairwise (fun a b ↦ a.index < b.index) ∧
    ∀ c, c ∈ s.contextsOf v ↔ s.flow.Has (.var c v)
  vars : V.vars.Pairwise (fun a b ↦ a.index < b.index) ∧
    ∀ v, v ∈ V.vars ↔ ∃ c, c ∈ s.contextsOf v
  edges : FirstOccurrences (s.calls.edgeList.map Edge.erase) V.edges
  methods : FirstOccurrences (s.calls.methods.map (·.id)) V.methods
  anyOrder : ∀ pointers : List (Pointer ContextId .csObject × PointsToSet .csObject),
    pointers.Perm s.flow.toList → VarSets.project s.objectOf pointers = .ok V.sets ∧
      ∀ v, contextsIn pointers v = s.contextsOf v

theorem reads_of_view (hV : s.view = .ok V) :
    VarSets.project s.objectOf s.flow.toList = .ok V.sets ∧
      V.Reads s s.objectOf s.names.heap ∧ V.sets.SetsAscend := by
  obtain ⟨sets, hsets, hV⟩ := bind_eq_ok.1 hV
  obtain rfl := Except.ok.inj hV
  obtain ⟨sets', hsets', hcollects, hascend⟩ :=
    VarSets.project_eq_ok (VarSets.known_of_project hsets)
  obtain rfl := Except.ok.inj (hsets.symm.trans hsets')
  exact ⟨hsets, ⟨rfl, hcollects, rfl, rfl⟩, hascend⟩

theorem Named.exists_view (hnamed : s.Named) : ∃ V, s.view = .ok V := by
  obtain ⟨sets, hsets, -⟩ := VarSets.project_eq_ok (known_iff_named.2 hnamed)
  exact ⟨_, bind_eq_ok.2 ⟨sets, hsets, rfl⟩⟩

/-- A view that can be read off a state leaves out the contexts and nothing else. -/
theorem projects_of_view (hV : s.view = .ok V) : s.Projects V := by
  obtain ⟨hsets, hreads, hascend⟩ := reads_of_view hV
  have hnamed : s.Named := known_iff_named.1 (VarSets.known_of_project hsets)
  constructor
  case pointsTo =>
    intro v
    refine ⟨(hascend v).pairwise_toList, fun o ↦ ?_⟩
    rw [hreads.mem_pointsTo]
    constructor
    · rintro ⟨c, i, hi, ho⟩
      obtain ⟨h, hobject⟩ := objectOf_eq_ok_iff.1 ho
      obtain ⟨objects, hobjects, hmem⟩ := hnamed.pointsTo_eq_ok c v
      exact ⟨c, mem_contextsOf.2 hi.has, objects, h, hobjects, (hmem _).2 ⟨i, hi, hobject⟩⟩
    · rintro ⟨c, -, objects, h, hobjects, ho⟩
      obtain ⟨objects', hobjects', hmem⟩ := hnamed.pointsTo_eq_ok c v
      obtain rfl := Except.ok.inj (hobjects.symm.trans hobjects')
      obtain ⟨i, hi, hobject⟩ := (hmem _).1 ho
      exact ⟨c, i, hi, objectOf_eq_ok_iff.2 ⟨h, hobject⟩⟩
  case contexts => exact fun v ↦ ⟨pairwise_contextsIn _ v, fun c ↦ mem_contextsOf⟩
  case vars =>
    refine ⟨hreads.sets.ascending.imp of_decide_eq_true, fun v ↦ ?_⟩
    simp only [hreads.mem_vars, mem_contextsOf]
  case edges =>
    rw [hreads.edges]
    exact firstOccurrences_eraseDups _
  case methods =>
    rw [hreads.methods]
    exact firstOccurrences_eraseDups _
  case anyOrder =>
    exact fun pointers hperm ↦ ⟨VarSets.project_of_perm hsets hperm, contextsIn_of_perm hperm⟩

end CsState

/-! ## Results -/

/-- Any state of an analysis with contexts can be viewed if and only if every object of a variable has
been given its number. The view is then exact: a variable refers to an object if it does so under one of
its contexts and some heap context, all lists of numbers ascend, calls and methods are listed by first
occurrence with contexts left out, and the order in which pointers are gone through makes no
difference. -/
theorem projection_exact (s : CsState) :
    ((∃ V, s.view = .ok V) ↔ s.Named) ∧ ∀ V, s.view = .ok V → s.Projects V := by
  refine ⟨⟨?_, CsState.Named.exists_view⟩, fun V ↦ CsState.projects_of_view⟩
  rintro ⟨V, hV⟩
  exact CsState.known_iff_named.1 (VarSets.known_of_project (CsState.reads_of_view hV).1)

set_option synthInstance.maxSize 400 in
/-- Both calls that make a circle are analysed, each under a context of its own. -/
theorem projection_exact_linked :
    ∃ (s : CsState) (V : View),
      linkedWorld.solveSelected ⟨.callSite, 1, 1⟩ .allocationSite .fifo none = .ok s ∧
      s.Named ∧ CsState.view s = .ok V ∧ CsState.Projects s V ∧
      CsState.contextsOf s ⟨2⟩ = [⟨1⟩, ⟨2⟩] ∧ V.pointsTo ⟨2⟩ = [⟨0⟩] ∧
      s.calls.methods.map (·.id) = [⟨2⟩, ⟨1⟩, ⟨1⟩, ⟨0⟩] ∧ V.methods = [⟨2⟩, ⟨1⟩, ⟨0⟩] := by
  have hrun : ((linkedWorld.selectedSetup ⟨.callSite, 1, 1⟩ none).runFor 30
      ((linkedWorld.selectedSetup ⟨.callSite, 1, 1⟩ none).initial
        { heap := { abstraction := .allocationSite } } .fifo ⟨2⟩) >>= fun s ↦
      CsState.view s >>= fun V ↦ .ok (s.pending.poll.isNone, CsState.contextsOf s ⟨2⟩,
        V.pointsTo ⟨2⟩, s.calls.methods.map (·.id), V.methods)) =
      .ok (true, [⟨1⟩, ⟨2⟩], [⟨0⟩], [⟨2⟩, ⟨1⟩, ⟨1⟩, ⟨0⟩], [⟨2⟩, ⟨1⟩, ⟨0⟩]) := by decide +kernel
  obtain ⟨s, hs, hrun⟩ := bind_eq_ok.1 hrun
  obtain ⟨V, hV, hread⟩ := bind_eq_ok.1 hrun
  simp only [Except.ok.injEq, Prod.mk.injEq] at hread
  obtain ⟨hfin, hcontexts, hpointsTo, hall, hmethods⟩ := hread
  obtain ⟨hviewed, hprojects⟩ := projection_exact s
  exact ⟨s, V, Setup.run_of_runFor hs (Option.isNone_iff_eq_none.1 hfin), hviewed.1 ⟨V, hV⟩, hV,
    hprojects V hV, hcontexts, hpointsTo, hall, hmethods⟩

end PointsTo
