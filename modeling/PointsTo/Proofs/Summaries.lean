import PointsTo.Proofs.ContextErasure
import Mathlib.Data.String.Basic

/-!
# Entries of summaries

A summary lists what variables refer to under their names, and a variable is named by its method and its
local name. Nothing keeps variables of one method from having one name, nor methods from having one
signature. Variables of one name share an entry, and the entry shows the objects of the last of them
that was met (`View.Enters`), so that what the others refer to may be lost (`namesake_hides_objects`).
The entry of a variable has all objects of the variable in it if and only if the last variable of the
name refers to objects that read the same (`summary_keeps_iff`).
-/

namespace PointsTo

/-! ## Namesakes -/

/-- The last of some variables that have a name. -/
structure Program.LastNamed (p : Program) (vs : List VarId) (name : String) (u : VarId) : Prop where
  mem : u ∈ vs
  named : p.varName u = .ok name
  last : ∀ v ∈ vs, p.varName v = .ok name → v.index ≤ u.index

namespace Program

variable {p : Program} {vs : List VarId} {name : String} {u v : VarId}

/-- A further variable is the last one that has its name. -/
theorem lastNamed_append_iff (hlt : ∀ w ∈ vs, w.index < v.index) (hname : p.varName v = .ok name) :
    p.LastNamed (vs ++ [v]) name u ↔ u = v := by
  have hmem : v ∈ vs ++ [v] := List.mem_append_right _ (List.mem_singleton_self v)
  constructor
  · intro h
    rcases List.mem_append.1 h.mem with hu | hu
    · exact absurd (hlt u hu) (Nat.not_lt.2 (h.last v hmem hname))
    · exact List.mem_singleton.1 hu
  · rintro rfl
    refine ⟨hmem, hname, fun w hw _ ↦ ?_⟩
    rcases List.mem_append.1 hw with hw | hw
    · exact Nat.le_of_lt (hlt w hw)
    · rw [List.mem_singleton.1 hw]

/-- A further variable of another name changes nothing. -/
theorem lastNamed_append_of_ne (hname : p.varName v ≠ .ok name) :
    p.LastNamed (vs ++ [v]) name u ↔ p.LastNamed vs name u := by
  constructor
  · intro h
    have hu : u ∈ vs := by
      rcases List.mem_append.1 h.mem with hu | hu
      · exact hu
      · exact absurd (List.mem_singleton.1 hu ▸ h.named) hname
    exact ⟨hu, h.named, fun w hw ↦ h.last w (List.mem_append_left _ hw)⟩
  · intro h
    refine ⟨List.mem_append_left _ h.mem, h.named, fun w hw hwname ↦ ?_⟩
    rcases List.mem_append.1 hw with hw | hw
    · exact h.last w hw hwname
    · exact absurd (List.mem_singleton.1 hw ▸ hwname) hname

end Program

/-! ## Entries -/

/-- The entries of some variables: there is one for every name, it shows the last variable of the name,
and the names ascend. -/
structure View.Enters (V : View) (p : Program) (vs : List VarId)
    (entries : List (String × List String)) : Prop where
  ascending : (entries.map Prod.fst).Pairwise fun a b ↦ decide (a < b) = true
  entered : ∀ v ∈ vs, ∃ name objects, p.varName v = .ok name ∧ entries.lookup name = some objects
  lookup_iff : ∀ {name objects}, entries.lookup name = some objects ↔
    ∃ u, p.LastNamed vs name u ∧ (V.pointsTo u).mapM (V.describe p) = .ok objects

/-- There is an entry under the name of the variable, and every object of the variable is described in
it. -/
def Summary.Keeps (s : Summary) (V : View) (p : Program) (v : VarId) : Prop :=
  ∃ name objects, p.varName v = .ok name ∧ s.pointsTo.lookup name = some objects ∧
    ∀ o ∈ V.pointsTo v, ∃ text ∈ objects, V.describe p o = .ok text

/-- Every variable that was met has an entry under its name. The entry shows the last variable of the
name, so that an object of the variable is kept if that one refers to an object which reads the same. -/
def Summary.ShowsLast (s : Summary) (V : View) (p : Program) : Prop :=
  ∀ v ∈ V.vars, ∃ name objects u, p.varName v = .ok name ∧ s.pointsTo.lookup name = some objects ∧
    p.LastNamed V.vars name u ∧ (V.pointsTo u).mapM (V.describe p) = .ok objects ∧
    (s.Keeps V p v ↔ ∀ o ∈ V.pointsTo v, ∃ o' ∈ V.pointsTo u, V.describe p o' = V.describe p o)

namespace View

variable {V : View} {p : Program} {vs : List VarId} {entries entries' : List (String × List String)}
  {v : VarId} {flows : List TaintFlow} {s : Summary}

/-- A variable takes the place of those before it that have its name. -/
theorem Enters.summarizeVar (h : V.Enters p vs entries) (hlt : ∀ u ∈ vs, u.index < v.index)
    (hstep : V.summarizeVar p entries v = .ok entries') : V.Enters p (vs ++ [v]) entries' := by
  obtain ⟨shown, hshown, hstep⟩ := bind_eq_ok.1 hstep
  obtain ⟨name, hname, hstep⟩ := bind_eq_ok.1 hstep
  obtain rfl := Except.ok.inj hstep
  have trans : ∀ {a b c : String}, decide (a < b) = true → decide (b < c) = true →
      decide (a < c) = true := by
    intro a b c hab hbc
    exact decide_eq_true ((of_decide_eq_true hab).trans (of_decide_eq_true hbc))
  have hlookup : ∀ name', (Ordered.alter (fun a b ↦ a < b) name (fun _ ↦ shown) entries).lookup name' =
      if name' = name then some shown else entries.lookup name' :=
    fun _ ↦ Ordered.lookup_alter @trans (by simp) h.ascending
  constructor
  case ascending =>
    apply Ordered.pairwise_alter @trans ?_ h.ascending
    intro a b hne
    simpa using lt_or_gt_of_ne hne
  case entered =>
    intro u hu
    rcases List.mem_append.1 hu with hu | hu
    · obtain ⟨name', objects, hname', hobjects⟩ := h.entered u hu
      by_cases heq : name' = name
      · exact ⟨name', shown, hname', (hlookup name').trans (if_pos heq)⟩
      · exact ⟨name', objects, hname', ((hlookup name').trans (if_neg heq)).trans hobjects⟩
    · exact ⟨name, shown, List.mem_singleton.1 hu ▸ hname, (hlookup name).trans (if_pos rfl)⟩
  case lookup_iff =>
    intro name' objects
    rw [hlookup]
    by_cases heq : name' = name
    · subst heq
      simp only [if_true, Program.lastNamed_append_iff hlt hname, exists_eq_left, hshown,
        Option.some.injEq, Except.ok.injEq]
    · have hne : p.varName v ≠ .ok name' := by
        rw [hname]
        exact fun hok ↦ heq (Except.ok.inj hok).symm
      simp only [if_neg heq, Program.lastNamed_append_of_ne hne, h.lookup_iff]

theorem enters_of_foldlM (hvs : vs.Pairwise fun a b ↦ a.index < b.index)
    (h : vs.foldlM (V.summarizeVar p) [] = .ok entries) : V.Enters p vs entries := by
  induction vs using List.reverseRecOn generalizing entries with
  | nil =>
    obtain rfl := Except.ok.inj h
    refine ⟨.nil, fun v hv ↦ absurd hv List.not_mem_nil, ⟨fun hlookup ↦ (by cases hlookup), ?_⟩⟩
    rintro ⟨u, hu, -⟩
    cases hu.mem
  | append_singleton vs v ih =>
    obtain ⟨hvs, -, hlt⟩ := List.pairwise_append.1 hvs
    rw [List.foldlM_append] at h
    obtain ⟨before, hbefore, hstep⟩ := bind_eq_ok.1 h
    obtain ⟨after, hafter, hnil⟩ := bind_eq_ok.1 hstep
    obtain rfl := Except.ok.inj hnil
    exact (ih hvs hbefore).summarizeVar (fun u hu ↦ hlt u hu v (List.mem_singleton_self v)) hafter

theorem enters_of_summary (hV : V.sets.Ascending) (h : V.summary p flows = .ok s) :
    V.Enters p V.vars s.pointsTo := by
  obtain ⟨methods, -, h⟩ := bind_eq_ok.1 h
  obtain ⟨edges, -, h⟩ := bind_eq_ok.1 h
  obtain ⟨entries, hentries, h⟩ := bind_eq_ok.1 h
  obtain rfl := Except.ok.inj h
  exact enters_of_foldlM (hV.imp of_decide_eq_true) hentries

theorem Enters.showsLast (h : V.Enters p V.vars s.pointsTo) : s.ShowsLast V p := by
  intro v hv
  obtain ⟨name, objects, hname, hlookup⟩ := h.entered v hv
  obtain ⟨u, hu, hobjects⟩ := h.lookup_iff.1 hlookup
  refine ⟨name, objects, u, hname, hlookup, hu, hobjects, ?_⟩
  constructor
  · rintro ⟨name', objects', hname', hlookup', hkept⟩ o ho
    obtain rfl := Except.ok.inj (hname.symm.trans hname')
    obtain rfl := Option.some.inj (hlookup.symm.trans hlookup')
    obtain ⟨text, htext, hdescribe⟩ := hkept o ho
    obtain ⟨o', ho', hdescribe'⟩ := (mem_iff_of_mapM hobjects).1 htext
    exact ⟨o', ho', hdescribe'.trans hdescribe.symm⟩
  · intro hsame
    refine ⟨name, objects, hname, hlookup, fun o ho ↦ ?_⟩
    obtain ⟨o', ho', hdescribe⟩ := hsame o ho
    obtain ⟨text, htext⟩ := of_mapM_eq_ok hobjects ho'
    exact ⟨text, (mem_iff_of_mapM hobjects).2 ⟨o', ho', htext⟩, hdescribe ▸ htext⟩

end View

/-! ## Runs -/

theorem CiState.ascending_of_view {s : CiState} {V : View} (hV : s.view = .ok V) :
    V.sets.Ascending := by
  obtain ⟨sets, hsets, hV⟩ := bind_eq_ok.1 hV
  obtain ⟨sets', hsets', hcollects, -⟩ := VarSets.project_eq_ok (VarSets.known_of_project hsets)
  obtain rfl := Except.ok.inj hV
  obtain rfl := Except.ok.inj (hsets.symm.trans hsets')
  exact hcollects.ascending

theorem CsState.ascending_of_view {s : CsState} {V : View} (hV : s.view = .ok V) :
    V.sets.Ascending :=
  (CsState.reads_of_view hV).2.1.sets.ascending

variable {C : Type} [Contextual C] {e : Entity} {σ : Type}

/-- If everything that the program mentions exists, a run returns and what it returns can be summarized.
Whenever that is done, the summary shows the last variable of every name. -/
structure Setup.Summarizes (S : Setup C e σ) (names : σ) (order : WorkOrder) (entry : MethodId)
    (view : State C e σ → Except UnknownId View) : Prop where
  returns : S.program.InBounds → ∃ s V, S.solve names order entry = .ok s ∧ view s = .ok V ∧
    ∀ flows, ∃ summary, V.summary S.program flows = .ok summary
  showsLast : ∀ {s V flows summary}, S.solve names order entry = .ok s → view s = .ok V →
    V.summary S.program flows = .ok summary → summary.ShowsLast V S.program

theorem Setup.summarizes {S : Setup C e σ} {names : σ} {order : WorkOrder} {entry : MethodId}
    {view : State C e σ → Except UnknownId View}
    (hbounds : S.program.InBounds → S.StaysInBounds names order entry view)
    (hascending : ∀ {s V}, view s = .ok V → V.sets.Ascending) :
    S.Summarizes names order entry view := by
  constructor
  case returns =>
    intro hb
    obtain ⟨s, hs, hsteps⟩ := (hbounds hb).returns
    obtain ⟨V, hV, -, -, hsummary⟩ := (hbounds hb).views hsteps
    exact ⟨s, V, hs, hV, hsummary⟩
  case showsLast =>
    intro s V flows summary _ hV hsummary
    exact (View.enters_of_summary (hascending hV) hsummary).showsLast

/-! ## Results -/

/-- On every accepted program, with and without contexts, whatever the selector, the abstraction of the
heap, the taint rules and the order of work, every variable that was met has an entry in the summary,
and the entry has all its objects in it if and only if the last variable of its name refers to objects
that read the same. -/
theorem summary_keeps_iff {ds : List Declaration} {p : Program} {entry : MethodId} {w : World}
    (hbuilt : Program.ofDeclarations ds = .ok p) (hworld : World.of p entry = .ok w)
    (abstraction : HeapAbstraction) (order : WorkOrder) :
    w.plainSetup.Summarizes { abstraction } order entry CiState.view ∧
    ∀ (selector : Selector) (taint : Option TaintRules),
      (w.selectedSetup selector (taint.map (.resolve p))).Summarizes { heap := { abstraction } } order
        entry CsState.view := by
  obtain ⟨rfl, -⟩ := World.of_eq_ok hworld
  have hi := Program.indexed_of_ofDeclarations hbuilt
  have hentry := World.entry_lt hworld
  have hstems := Program.stems_of_ofDeclarations hbuilt
  have hanalysable : p.InBounds → (World.mk p entry).program.Analysable :=
    fun hb ↦ Program.analysable hbuilt hworld hb.toInRange
  constructor
  · refine Setup.summarizes (fun hb ↦ ?_) CiState.ascending_of_view
    have hp := hanalysable hb
    exact (World.plain_ready hp abstraction).staysInBounds hp hb hi hentry (fun _ ↦ rfl) hstems
      CiState.viewed
  · intro selector taint
    refine Setup.summarizes (fun hb ↦ ?_) CsState.ascending_of_view
    have hp := hanalysable hb
    exact (World.resolved_confined hp selector abstraction taint).staysInBounds hp hb hi hentry
      (fun _ ↦ rfl) hstems CsState.viewed

/-- Two variables are called `post` and two `copy`. Both copies are of the first post. -/
def namesakes : List Declaration :=
  [ .cls { name := "Main" },
    .cls { name := "Letter" },
    .cls { name := "Parcel" },
    .method { cls := ⟨0⟩, subsignature := ⟨"main()"⟩, isStatic := true, items :=
      [.var "post", .var "post", .var "copy", .var "copy",
        .alloc ⟨0⟩ ⟨1⟩, .alloc ⟨1⟩ ⟨2⟩, .copy ⟨2⟩ ⟨0⟩, .copy ⟨3⟩ ⟨2⟩] } ]

def namesakeProgram : Program := (Program.ofDeclarations namesakes).toOption.getD {}

def namesakeWorld : World := ⟨namesakeProgram, ⟨0⟩⟩

theorem namesakeProgram_built : Program.ofDeclarations namesakes = .ok namesakeProgram := by rfl

theorem namesakeWorld_accepted : World.of namesakeProgram ⟨0⟩ = .ok namesakeWorld := by rfl

set_option synthInstance.maxSize 400 in
/-- All but the second post refer to the letter. -/
theorem namesakes_summarized :
    ∃ (s : CiState) (V : View) (summary : Summary),
      namesakeWorld.solvePlain .allocationSite .fifo = .ok s ∧ s.view = .ok V ∧
      V.summary namesakeProgram [] = .ok summary ∧ V.vars = [⟨0⟩, ⟨1⟩, ⟨2⟩, ⟨3⟩] ∧
      V.vars.map V.pointsTo = [[⟨0⟩], [⟨1⟩], [⟨0⟩], [⟨0⟩]] ∧
      V.describe namesakeProgram ⟨0⟩ = .ok "new Letter@alloc#0" ∧
      summary.pointsTo = [("<Main: main()>/copy", ["new Letter@alloc#0"]),
        ("<Main: main()>/post", ["new Parcel@alloc#1"])] := by
  have hrun : (namesakeWorld.plainSetup.runFor 20
      (namesakeWorld.plainSetup.initial { abstraction := .allocationSite } .fifo ⟨0⟩) >>= fun s ↦
      CiState.view s >>= fun V ↦ V.summary namesakeProgram [] >>= fun summary ↦
      .ok (s.pending.poll.isNone, V.vars, V.vars.map V.pointsTo, V.describe namesakeProgram ⟨0⟩,
        summary.pointsTo)) =
      .ok (true, [⟨0⟩, ⟨1⟩, ⟨2⟩, ⟨3⟩], [[⟨0⟩], [⟨1⟩], [⟨0⟩], [⟨0⟩]], .ok "new Letter@alloc#0",
        [("<Main: main()>/copy", ["new Letter@alloc#0"]),
          ("<Main: main()>/post", ["new Parcel@alloc#1"])]) := by decide +kernel
  obtain ⟨s, hs, hrun⟩ := bind_eq_ok.1 hrun
  obtain ⟨V, hV, hrun⟩ := bind_eq_ok.1 hrun
  obtain ⟨summary, hsummary, hread⟩ := bind_eq_ok.1 hrun
  simp only [Except.ok.injEq, Prod.mk.injEq] at hread
  exact ⟨s, V, summary, Setup.run_of_runFor hs (Option.isNone_iff_eq_none.1 hread.1), hV, hsummary,
    hread.2⟩

/-- The first copy is kept, though a later variable has its name. -/
theorem summary_keeps_iff_namesakes :
    Program.ofDeclarations namesakes = .ok namesakeProgram ∧
    World.of namesakeProgram ⟨0⟩ = .ok namesakeWorld ∧
    ∃ (s : CiState) (V : View) (summary : Summary),
      namesakeWorld.solvePlain .allocationSite .fifo = .ok s ∧ s.view = .ok V ∧
      V.summary namesakeProgram [] = .ok summary ∧ summary.ShowsLast V namesakeProgram ∧
      summary.Keeps V namesakeProgram ⟨2⟩ := by
  obtain ⟨s, V, summary, hs, hV, hsummary, hvars, hpoints, -, -⟩ := namesakes_summarized
  obtain ⟨hplain, -⟩ := summary_keeps_iff namesakeProgram_built namesakeWorld_accepted
    .allocationSite .fifo
  have hshows : summary.ShowsLast V namesakeProgram := hplain.showsLast hs hV hsummary
  obtain ⟨name, objects, u, hname, -, hu, -, hkeeps⟩ := hshows ⟨2⟩ (by simp [hvars])
  have hcopy : namesakeProgram.varName ⟨3⟩ = namesakeProgram.varName ⟨2⟩ := by decide +kernel
  have hlast : 3 ≤ u.index := hu.last ⟨3⟩ (by simp [hvars]) (hcopy.trans hname)
  have hu : u = ⟨3⟩ := by
    have hmem := hu.mem
    rw [hvars] at hmem
    simp only [List.mem_cons, List.not_mem_nil, or_false] at hmem
    rcases hmem with rfl | rfl | rfl | rfl <;> simp at hlast ⊢
  simp only [hvars, List.map_cons, List.cons.injEq] at hpoints
  refine ⟨namesakeProgram_built, namesakeWorld_accepted, s, V, summary, hs, hV, hsummary, hshows,
    hkeeps.2 fun o ho ↦ ⟨o, ?_, rfl⟩⟩
  rw [hu, hpoints.2.2.2.1, ← hpoints.2.2.1]
  exact ho

/-- The first post refers to the letter, and the entry under its name shows the parcel alone. -/
theorem namesake_hides_objects :
    Program.ofDeclarations namesakes = .ok namesakeProgram ∧
    World.of namesakeProgram ⟨0⟩ = .ok namesakeWorld ∧ namesakeProgram.InBounds ∧
    ∃ (s : CiState) (V : View) (summary : Summary),
      namesakeWorld.solvePlain .allocationSite .fifo = .ok s ∧ s.view = .ok V ∧
      V.summary namesakeProgram [] = .ok summary ∧ ⟨0⟩ ∈ V.vars ∧ V.pointsTo ⟨0⟩ = [⟨0⟩] ∧
      V.describe namesakeProgram ⟨0⟩ = .ok "new Letter@alloc#0" ∧
      namesakeProgram.varName ⟨0⟩ = .ok "<Main: main()>/post" ∧
      summary.pointsTo.lookup "<Main: main()>/post" = some ["new Parcel@alloc#1"] ∧
      ¬ summary.Keeps V namesakeProgram ⟨0⟩ := by
  obtain ⟨s, V, summary, hs, hV, hsummary, hvars, hpoints, hletter, hentries⟩ := namesakes_summarized
  simp only [hvars, List.map_cons, List.cons.injEq] at hpoints
  have hname : namesakeProgram.varName ⟨0⟩ = .ok "<Main: main()>/post" := by decide +kernel
  have hlookup : summary.pointsTo.lookup "<Main: main()>/post" = some ["new Parcel@alloc#1"] := by
    rw [hentries]
    decide
  refine ⟨namesakeProgram_built, namesakeWorld_accepted, by decide +kernel, s, V, summary, hs, hV,
    hsummary, by simp [hvars], hpoints.1, hletter, hname, hlookup, ?_⟩
  rintro ⟨name, objects, hname', hlookup', hkept⟩
  obtain rfl := Except.ok.inj (hname.symm.trans hname')
  obtain rfl := Option.some.inj (hlookup.symm.trans hlookup')
  obtain ⟨text, htext, hdescribe⟩ := hkept ⟨0⟩ (by simp [hpoints.1])
  obtain rfl := Except.ok.inj (hletter.symm.trans hdescribe)
  simp at htext

end PointsTo
