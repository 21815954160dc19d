import PointsTo.Proofs.ContextErasure

/-!
# Call graphs as records of insertions

A call graph is filled by entering methods and edges one after another (`Insertion`), and it holds
them in five lists: entries, methods, edges, the callees of each site and the callers of each method.
Every list has what was inserted for it, each item once and in the order of the first insertions
(`CallGraph.Records`), and whatever is inserted later is only appended to it (`CallGraph.Extends`).
Sites and methods are thus filed both ways by the same edges, and an addition tells truly whether it
was the first of its kind (`ofInsertions_consistent`).
-/

namespace PointsTo

/-! ## Entering into lists -/

section Enter

variable {α κ : Type} [DecidableEq α] {a : α} {all as : List α}

theorem enter_of_mem (h : a ∈ as) : CallGraph.enter a as = as := if_pos h

theorem enter_of_not_mem (h : a ∉ as) : CallGraph.enter a as = as ++ [a] := if_neg h

theorem prefix_enter (a : α) (as : List α) : as <+: CallGraph.enter a as := by
  unfold CallGraph.enter
  split
  · exact List.prefix_rfl
  · exact List.prefix_append as [a]

/-- An item that occurs once more is entered into the list of first occurrences. -/
theorem FirstOccurrences.enter (h : FirstOccurrences all as) (a : α) :
    FirstOccurrences (all ++ [a]) (CallGraph.enter a as) := by
  by_cases ha : a ∈ as
  · rw [enter_of_mem ha]
    exact h.again ((h.mem_iff a).1 ha)
  · rw [enter_of_not_mem ha]
    exact h.concat (mt (h.mem_iff a).2 ha)

/-- Entering into the list filed under one key leaves the others. -/
theorem getD_alter_enter [Coded κ] [DecidableEq κ] (t : Table κ (List α)) (k k' : κ) (a : α) :
    ((t.alter k [] (CallGraph.enter a)).get? k').getD [] =
      if k' = k then CallGraph.enter a ((t.get? k').getD []) else (t.get? k').getD [] := by
  rw [Table.get?_alter]
  by_cases hk : k' = k
  · rw [if_pos hk, if_pos hk, hk, Option.getD_some]
  · rw [if_neg hk, if_neg hk]

theorem keys_intern [Coded α] {ν : Type} (t : Table α ν) (a : α) (v : ν) :
    (t.intern a v).1.keys = CallGraph.enter a t.keys := by
  by_cases ha : a ∈ t.keys
  · obtain ⟨i, hi⟩ := Option.isSome_iff_exists.1 (Table.mem_keys_iff.1 ha)
    rw [enter_of_mem ha, Table.intern_of_find? hi]
  · rw [enter_of_not_mem ha, Table.keys_intern_of_fresh ha]

end Enter

/-! ## Items filed under keys -/

section Files

variable {ι κ α : Type} [Coded κ] [DecidableEq κ] [DecidableEq α] {key : ι → κ} {part : ι → α}
  {all : List ι} {t : Table κ (List α)}

/-- The table has, under each key, the parts of the items with this key. -/
def Files (key : ι → κ) (part : ι → α) (all : List ι) (t : Table κ (List α)) : Prop :=
  ∀ k, FirstOccurrences ((all.filter (key · = k)).map part) ((t.get? k).getD [])

theorem files_nil : Files key part [] ∅ := by
  intro k
  rw [Table.get?_empty]
  exact .nil

theorem Files.alter (h : Files key part all t) (i : ι) :
    Files key part (all ++ [i]) (t.alter (key i) [] (CallGraph.enter (part i))) := by
  intro k
  rw [getD_alter_enter, List.filter_append, List.map_append]
  by_cases hk : k = key i
  · have hone : [i].filter (key · = k) = [i] := by simp [hk]
    rw [if_pos hk, hone]
    exact (h k).enter (part i)
  · have hnone : [i].filter (key · = k) = [] := by simp [Ne.symm hk]
    rw [if_neg hk, hnone, List.map_nil, List.append_nil]
    exact h k

/-- An item that has been filed need not be filed again. -/
theorem Files.again (h : Files key part all t) {i : ι} (hi : i ∈ all) :
    Files key part (all ++ [i]) t := by
  intro k
  rw [List.filter_append, List.map_append]
  by_cases hk : key i = k
  · have hone : [i].filter (key · = k) = [i] := by simp [hk]
    rw [hone]
    apply (h k).again
    exact List.mem_map_of_mem (List.mem_filter.2 ⟨hi, by simpa using hk⟩)
  · have hnone : [i].filter (key · = k) = [] := by simp [hk]
    rw [hnone, List.map_nil, List.append_nil]
    exact h k

theorem Files.mem_iff (h : Files key part all t) {k : κ} {a : α} :
    a ∈ (t.get? k).getD [] ↔ ∃ i ∈ all, key i = k ∧ part i = a := by
  rw [(h k).mem_iff]
  simp [and_assoc]

end Files

/-! ## Insertions -/

/-- One addition to a call graph. -/
inductive Insertion (C : Type) where
  | entry (m : MethodIn C)
  | method (m : MethodIn C)
  | edge (e : Edge C)

namespace Insertion

variable {C : Type}

@[simp]
def toEntry : Insertion C → Option (MethodIn C)
  | .entry m => some m
  | _ => none

@[simp]
def toMethod : Insertion C → Option (MethodIn C)
  | .method m => some m
  | _ => none

@[simp]
def toEdge : Insertion C → Option (Edge C)
  | .edge e => some e
  | _ => none

theorem mem_filterMap_toMethod {is : List (Insertion C)} {m : MethodIn C} :
    m ∈ is.filterMap toMethod ↔ .method m ∈ is := by
  rw [List.mem_filterMap]
  constructor
  · rintro ⟨_ | _ | _, hi, ⟨⟩⟩
    exact hi
  · intro hm
    exact ⟨_, hm, rfl⟩

theorem mem_filterMap_toEdge {is : List (Insertion C)} {e : Edge C} :
    e ∈ is.filterMap toEdge ↔ .edge e ∈ is := by
  rw [List.mem_filterMap]
  constructor
  · rintro ⟨_ | _ | _, hi, ⟨⟩⟩
    exact hi
  · intro he
    exact ⟨_, he, rfl⟩

end Insertion

namespace CallGraph

variable {C : Type} [Contextual C] {g g' : CallGraph C} {entered reached : List (MethodIn C)}
  {drawn : List (Edge C)} {e : Edge C} {m : MethodIn C} {s : SiteIn C}

def insert (g : CallGraph C) : Insertion C → CallGraph C
  | .entry m => g.addEntry m
  | .method m => (g.addReachable m).1
  | .edge e => (g.addEdge e).1

/-- The call graph that a sequence of insertions leaves. -/
def ofInsertions (is : List (Insertion C)) : CallGraph C := is.foldl insert {}

theorem ofInsertions_concat (is : List (Insertion C)) (i : Insertion C) :
    ofInsertions (is ++ [i]) = (ofInsertions is).insert i :=
  List.foldl_concat insert {} i is

/-- Every list of the graph has the items given for it, each once and in the order in which they occur
first. The kind of an edge plays no part in the lists by site and by method. -/
structure Records (g : CallGraph C) (entered reached : List (MethodIn C)) (drawn : List (Edge C)) :
    Prop where
  entries : FirstOccurrences entered g.entries
  methods : FirstOccurrences reached g.methods
  edges : FirstOccurrences drawn g.edgeList
  callees : ∀ s, FirstOccurrences ((drawn.filter (·.site = s)).map Edge.callee) (g.calleesOf s)
  callers : ∀ m, FirstOccurrences ((drawn.filter (·.callee = m)).map Edge.site) (g.callersOf m)

/-- Every list of `g` is the first part of that of `g'`. -/
structure Extends (g g' : CallGraph C) : Prop where
  entries : g.entries <+: g'.entries
  methods : g.methods <+: g'.methods
  edges : g.edgeList <+: g'.edgeList
  callees : ∀ s, g.calleesOf s <+: g'.calleesOf s
  callers : ∀ m, g.callersOf m <+: g'.callersOf m

theorem methods_addReachable (g : CallGraph C) (m : MethodIn C) :
    (g.addReachable m).1.methods = enter m g.methods :=
  keys_intern g.reachable m ()

theorem contains_iff_mem_methods : g.contains m = true ↔ m ∈ g.methods :=
  Table.mem_keys_iff.symm

theorem addReachable_eq_true_iff : (g.addReachable m).2 = true ↔ m ∉ g.methods := by
  change (!g.contains m) = true ↔ _
  rw [Bool.not_eq_true', ← Bool.not_eq_true, contains_iff_mem_methods]

theorem addEdge_of_mem (h : e ∈ g.edgeList) : g.addEdge e = (g, false) :=
  if_pos (Table.mem_keys_iff.1 h)

theorem addEdge_of_not_mem (h : e ∉ g.edgeList) :
    g.addEdge e =
      ({ g with
          edges := (g.edges.intern e ()).1
          callees := g.callees.alter e.site [] (enter e.callee)
          callers := g.callers.alter e.callee [] (enter e.site) },
        true) :=
  if_neg (mt Table.mem_keys_iff.2 h)

theorem addEdge_eq_true_iff : (g.addEdge e).2 = true ↔ e ∉ g.edgeList := by
  by_cases he : e ∈ g.edgeList
  · simp [addEdge_of_mem he, he]
  · simp [addEdge_of_not_mem he, he]

/-! ## What the lists hold -/

namespace Records

theorem empty : ({} : CallGraph C).Records [] [] [] where
  entries := .nil
  methods := .nil
  edges := .nil
  callees := files_nil
  callers := files_nil

theorem filesCallees (h : g.Records entered reached drawn) :
    Files Edge.site Edge.callee drawn g.callees := h.callees

theorem filesCallers (h : g.Records entered reached drawn) :
    Files Edge.callee Edge.site drawn g.callers := h.callers

theorem addEntry (h : g.Records entered reached drawn) (m : MethodIn C) :
    (g.addEntry m).Records (entered ++ [m]) reached drawn :=
  { h with entries := h.entries.enter m }

theorem addReachable (h : g.Records entered reached drawn) (m : MethodIn C) :
    (g.addReachable m).1.Records entered (reached ++ [m]) drawn := by
  refine { h with methods := ?_ }
  rw [methods_addReachable]
  exact h.methods.enter m

theorem addEdge (h : g.Records entered reached drawn) (e : Edge C) :
    (g.addEdge e).1.Records entered reached (drawn ++ [e]) := by
  by_cases he : e ∈ g.edgeList
  · -- The edge is there, and so are the callee at the site and the site at the callee.
    have hmem : e ∈ drawn := (h.edges.mem_iff e).1 he
    rw [addEdge_of_mem he]
    exact { h with
      edges := h.edges.again hmem
      callees := h.filesCallees.again hmem
      callers := h.filesCallers.again hmem }
  · rw [addEdge_of_not_mem he]
    refine { h with
      edges := ?_
      callees := h.filesCallees.alter e
      callers := h.filesCallers.alter e }
    rw [edgeList, keys_intern]
    exact h.edges.enter e

theorem mem_calleesOf (h : g.Records entered reached drawn) :
    m ∈ g.calleesOf s ↔ ∃ kind, ⟨kind, s, m⟩ ∈ g.edgeList := by
  rw [calleesOf, h.filesCallees.mem_iff]
  constructor
  · rintro ⟨⟨kind, site, callee⟩, he, rfl, rfl⟩
    exact ⟨kind, (h.edges.mem_iff _).2 he⟩
  · rintro ⟨kind, he⟩
    exact ⟨_, (h.edges.mem_iff _).1 he, rfl, rfl⟩

theorem mem_callersOf (h : g.Records entered reached drawn) :
    s ∈ g.callersOf m ↔ ∃ kind, ⟨kind, s, m⟩ ∈ g.edgeList := by
  rw [callersOf, h.filesCallers.mem_iff]
  constructor
  · rintro ⟨⟨kind, site, callee⟩, he, rfl, rfl⟩
    exact ⟨kind, (h.edges.mem_iff _).2 he⟩
  · rintro ⟨kind, he⟩
    exact ⟨_, (h.edges.mem_iff _).1 he, rfl, rfl⟩

end Records

theorem records_ofInsertions (is : List (Insertion C)) :
    (ofInsertions is).Records (is.filterMap Insertion.toEntry) (is.filterMap Insertion.toMethod)
      (is.filterMap Insertion.toEdge) := by
  induction is using List.reverseRecOn with
  | nil => exact Records.empty
  | append_singleton is i ih =>
    -- Each insertion lengthens one of the three lists.
    rw [ofInsertions_concat, CallGraph.insert.eq_def]
    cases i with
    | entry m => simpa [List.filterMap_cons] using ih.addEntry m
    | method m => simpa [List.filterMap_cons] using ih.addReachable m
    | edge e => simpa [List.filterMap_cons] using ih.addEdge e

theorem mem_methods_ofInsertions {is : List (Insertion C)} :
    m ∈ (ofInsertions is).methods ↔ .method m ∈ is := by
  rw [(records_ofInsertions is).methods.mem_iff, Insertion.mem_filterMap_toMethod]

theorem mem_edgeList_ofInsertions {is : List (Insertion C)} :
    e ∈ (ofInsertions is).edgeList ↔ .edge e ∈ is := by
  rw [(records_ofInsertions is).edges.mem_iff, Insertion.mem_filterMap_toEdge]

/-! ## What later insertions leave in place -/

namespace Extends

theorem refl (g : CallGraph C) : g.Extends g :=
  ⟨List.prefix_rfl, List.prefix_rfl, List.prefix_rfl, fun _ ↦ List.prefix_rfl,
    fun _ ↦ List.prefix_rfl⟩

theorem trans {g'' : CallGraph C} (h : g.Extends g') (h' : g'.Extends g'') : g.Extends g'' where
  entries := h.entries.trans h'.entries
  methods := h.methods.trans h'.methods
  edges := h.edges.trans h'.edges
  callees s := (h.callees s).trans (h'.callees s)
  callers m := (h.callers m).trans (h'.callers m)

end Extends

theorem prefix_getD_alter_enter {κ α : Type} [Coded κ] [DecidableEq κ] [DecidableEq α]
    (t : Table κ (List α)) (k k' : κ) (a : α) :
    (t.get? k').getD [] <+: ((t.alter k [] (enter a)).get? k').getD [] := by
  rw [getD_alter_enter]
  split
  · exact prefix_enter a _
  · exact List.prefix_rfl

theorem extends_insert (g : CallGraph C) (i : Insertion C) : g.Extends (g.insert i) := by
  cases i with
  | entry m => exact { Extends.refl g with entries := prefix_enter m g.entries }
  | method m =>
    refine { Extends.refl g with methods := ?_ }
    change g.methods <+: (g.addReachable m).1.methods
    rw [methods_addReachable]
    exact prefix_enter m g.methods
  | edge e =>
    by_cases he : e ∈ g.edgeList
    · rw [insert, addEdge_of_mem he]
      exact Extends.refl g
    · rw [insert, addEdge_of_not_mem he]
      refine { Extends.refl g with
        edges := ?_
        callees := fun s ↦ prefix_getD_alter_enter g.callees e.site s e.callee
        callers := fun m ↦ prefix_getD_alter_enter g.callers e.callee m e.site }
      rw [edgeList, edgeList, keys_intern]
      exact prefix_enter e g.edgeList

theorem extends_ofInsertions (is more : List (Insertion C)) :
    (ofInsertions is).Extends (ofInsertions (is ++ more)) := by
  induction more using List.reverseRecOn with
  | nil =>
    rw [List.append_nil]
    exact Extends.refl _
  | append_singleton more i ih =>
    rw [← List.append_assoc, ofInsertions_concat]
    exact ih.trans (extends_insert _ i)

/-- After any insertions every list has its items once and in the order of first insertion, an
addition tells whether it is the first of its item, sites and methods are filed both ways by the same
edges, and no later insertion moves or removes an item of any list. -/
theorem ofInsertions_consistent (is : List (Insertion C)) :
    (ofInsertions is).Records (is.filterMap Insertion.toEntry) (is.filterMap Insertion.toMethod)
        (is.filterMap Insertion.toEdge) ∧
      (∀ m, ((ofInsertions is).addReachable m).2 = true ↔ .method m ∉ is) ∧
      (∀ e, ((ofInsertions is).addEdge e).2 = true ↔ .edge e ∉ is) ∧
      (∀ m, (ofInsertions is).contains m = true ↔ m ∈ (ofInsertions is).methods) ∧
      (∀ s m, (m ∈ (ofInsertions is).calleesOf s ↔ s ∈ (ofInsertions is).callersOf m) ∧
        (s ∈ (ofInsertions is).callersOf m ↔ ∃ kind, ⟨kind, s, m⟩ ∈ (ofInsertions is).edgeList)) ∧
      ∀ more, (ofInsertions is).Extends (ofInsertions (is ++ more)) := by
  have h := records_ofInsertions is
  refine ⟨h, fun m ↦ ?_, fun e ↦ ?_, fun m ↦ contains_iff_mem_methods, fun s m ↦ ?_,
    extends_ofInsertions is⟩
  · rw [addReachable_eq_true_iff, mem_methods_ofInsertions]
  · rw [addEdge_eq_true_iff, mem_edgeList_ofInsertions]
  · exact ⟨h.mem_calleesOf.trans h.mem_callersOf.symm, h.mem_callersOf⟩

end CallGraph

end PointsTo
