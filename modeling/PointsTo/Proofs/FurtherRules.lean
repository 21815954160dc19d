import PointsTo.Proofs.Flows
import Mathlib.Tactic.MkIffOfInductiveProp

/-!
# Further taint rules

Rules may be added before, between and after those that there are (`TaintRules.IncludedIn`). All sink
and transfer rules of a method apply, so none of them is lost. Of several source rules of a method the
last one holds: where a further one comes last and lets in objects of another class, calls on what the
source lets in reach other methods, and flows may be lost (`second_source_hides_flow`). If the sources
that there were still let in objects of the classes that they did (`TaintPlan.KeepsSources`), then what
is closed under the further rules is closed under the ones that there were, and all flows are kept
(`further_rules_keep_flows`).
-/

namespace PointsTo

/-! ## Inclusion of rules -/

namespace TaintRules

/-- The rules `r` are among `r'`, in the same order. -/
@[mk_iff]
structure IncludedIn (r r' : TaintRules) : Prop where
  sources : r.sources.Sublist r'.sources
  sinks : r.sinks.Sublist r'.sinks
  transfers : r.transfers.Sublist r'.transfers

instance (r r' : TaintRules) : Decidable (r.IncludedIn r') :=
  decidable_of_iff _ (includedIn_iff r r').symm

end TaintRules

namespace TaintPlan

variable {t u : TaintPlan}

/-- The sources of `t` let in objects of the same classes under `u`. -/
def KeepsSources (t u : TaintPlan) : Prop :=
  ∀ source ∈ t.sources, u.sourceClass? source.1 = t.sourceClass? source.1

instance (t u : TaintPlan) : Decidable (t.KeepsSources u) :=
  inferInstanceAs (Decidable (∀ source ∈ t.sources, u.sourceClass? source.1 = t.sourceClass? source.1))

theorem KeepsSources.sourceClass? (h : t.KeepsSources u) {m : MethodId} {cls : ClassId}
    (hcls : t.sourceClass? m = some cls) : u.sourceClass? m = some cls := by
  have hmem : (m, cls) ∈ t.sources := List.mem_reverse.1 (mem_of_lookup hcls)
  exact (h _ hmem).trans hcls

/-- What `t` says of a method, `u` says too. -/
structure IncludedIn (t u : TaintPlan) : Prop where
  sources : ∀ {m cls}, t.sourceClass? m = some cls → u.sourceClass? m = some cls
  sinks : ∀ {m i}, i ∈ t.guarded m → i ∈ u.guarded m
  transfers : ∀ {m rule}, rule ∈ t.transfersOf m → rule ∈ u.transfersOf m

/-- Rules that name something unknown have no effect in either set. -/
theorem includedIn_resolve {p : Program} {r r' : TaintRules} (h : r.IncludedIn r')
    (hkeep : (resolve p r).KeepsSources (resolve p r')) : (resolve p r).IncludedIn (resolve p r') where
  sources := hkeep.sourceClass?
  sinks hi := (((h.sinks.filterMap _).filter _).map _).subset hi
  transfers hrule := (((h.transfers.filterMap _).filter _).map _).subset hrule

end TaintPlan

/-! ## What further rules find -/

section

variable {K O : Type} {t u : TaintPlan} (htu : t.IncludedIn u)

include htu

/-- What is closed under further rules is closed. -/
theorem TaintPlan.IncludedIn.closed {r : Rules K O} {F : Facts K O}
    (hF : Rules.Closed { r with taint := some u } F) : Rules.Closed { r with taint := some t } F := by
  refine Rules.Closed.withTaint hF.withoutTaint ?_ ?_
  · intro plan id callee receiver site cls result hplan hmakes hsite hcls hresult
    obtain rfl := Option.some.inj hplan
    exact hF.source rfl hmakes hsite (htu.sources hcls) hresult
  · intro plan id callee receiver site rule source target o origin hplan hmakes hsite hrule hsource
      htarget hpts horigin
    obtain rfl := Option.some.inj hplan
    exact hF.transfer rfl hmakes hsite (htu.transfers hrule) hsource htarget hpts horigin

theorem Facts.Flows.mono {F G : Facts K O} (hle : F ≤ G) {p : Program} {D : Domain K O}
    {f : TaintFlow} (h : F.Flows p D t f) : G.Flows p D u f := by
  obtain ⟨hpts, -, hcalls⟩ := Facts.le_iff.1 hle
  obtain ⟨edge, site, arg, o, hedge, hsink, hguarded, hsite, harg, ho, horigin⟩ := h
  exact ⟨edge, site, arg, o, hcalls edge hedge, hsink, htu.sinks hguarded, hsite, harg,
    hpts _ o ho, horigin⟩

end

/-! ## Results -/

/-- On every accepted program, under any contexts and with valid rules, an analysis with further rules
finds all facts and reports all flows that it does without them, if the sources of the rules that there
were still let in objects of the same classes. -/
theorem further_rules_keep_flows {ds : List Declaration} {p : Program} {entry : MethodId} {w : World}
    {rules rules' : TaintRules} (hbuilt : Program.ofDeclarations ds = .ok p)
    (hworld : World.of p entry = .ok w) (hrange : p.InRange) (hrules : rules.validate = .ok ())
    (hrules' : rules'.validate = .ok ()) (hincluded : rules.IncludedIn rules')
    (hkeep : (TaintPlan.resolve p rules).KeepsSources (.resolve p rules')) (selector : Selector)
    (abstraction : HeapAbstraction) (order order' : WorkOrder) :
    ∃ s t fs gs, w.solveSelected selector abstraction order (some (.resolve p rules)) = .ok s ∧
      w.solveSelected selector abstraction order' (some (.resolve p rules')) = .ok t ∧
      s.Faithful .selected ∧ t.Faithful .selected ∧ s.facts .selected ≤ t.facts .selected ∧
      (TaintPlan.resolve p rules).flows p s = .ok fs ∧
      (TaintPlan.resolve p rules').flows p t = .ok gs ∧ fs ⊆ gs := by
  obtain ⟨rfl, -⟩ := World.of_eq_ok hworld
  have hp : (World.mk p entry).program.Analysable := Program.analysable hbuilt hworld hrange
  have hplans := TaintPlan.includedIn_resolve hincluded hkeep
  have hvalid : ∀ {r : TaintRules}, r.validate = .ok () →
      ∀ r', some r = some r' → r'.validate = .ok () := by
    rintro r hr _ ⟨⟩
    exact hr
  have hready := World.resolved_ready hp selector abstraction (hvalid hrules)
  have hready' := World.resolved_ready hp selector abstraction (hvalid hrules')
  obtain ⟨s, hs, -, -, hsfaithful, hleast⟩ := hready.solve_isLeast order
  obtain ⟨t, ht, -, -, htfaithful, hleast'⟩ := hready'.solve_isLeast order'
  obtain ⟨fs, hfs, hlists⟩ := World.flows_of_isLeast hp selector abstraction hready hsfaithful hleast
    (TaintPlan.resolve p rules)
  obtain ⟨gs, hgs, hlists'⟩ := World.flows_of_isLeast hp selector abstraction hready' htfaithful
    hleast' (TaintPlan.resolve p rules')
  have hclosed := hplans.closed
    (r := { program := p, domain := .selected p abstraction selector, entry }) hleast'.1
  have hle : s.facts .selected ≤ t.facts .selected := hleast.2 hclosed
  refine ⟨s, t, fs, gs, hs, ht, hsfaithful, htfaithful, hle, hfs, hgs, fun f hf ↦ ?_⟩
  exact (hlists'.mem_iff f).2 (((hlists.mem_iff f).1 hf).mono hplans hle)

/-- What is received is opened if it is a letter, and what is opened is stored. -/
def receivedPost : List Declaration :=
  [ .cls { name := "Main" },
    .cls { name := "Letter" },
    .cls { name := "Parcel" },
    .method { cls := ⟨0⟩, subsignature := ⟨"receive()"⟩, isStatic := true },
    .method { cls := ⟨0⟩, subsignature := ⟨"store(Object)"⟩, isStatic := true, items :=
      [.param "item"] },
    .method { cls := ⟨1⟩, subsignature := ⟨"open()"⟩, items :=
      [.this, .call .static none none ⟨⟨0⟩, ⟨"store(Object)"⟩⟩ [⟨1⟩]] },
    .method { cls := ⟨0⟩, subsignature := ⟨"main()"⟩, isStatic := true, items :=
      [.var "post", .call .static (some ⟨2⟩) none ⟨⟨0⟩, ⟨"receive()"⟩⟩ [],
        .call .virtual none (some ⟨2⟩) ⟨⟨1⟩, ⟨"open()"⟩⟩ []] } ]

def postProgram : Program := (Program.ofDeclarations receivedPost).toOption.getD {}

def postWorld : World := ⟨postProgram, ⟨3⟩⟩

theorem postProgram_built : Program.ofDeclarations receivedPost = .ok postProgram := by rfl

theorem postWorld_accepted : World.of postProgram ⟨3⟩ = .ok postWorld := by rfl

theorem postProgram_inRange : postProgram.InRange := by decide

/-- Letters are received, and are not to be stored. -/
def letterRules : TaintRules where
  sources := [⟨"Main", "receive()", "Letter"⟩]
  sinks := [⟨"Main", "store(Object)", 0⟩]

/-- A second rule for the same source, which comes last and so is the one that holds. -/
def parcelRules : TaintRules :=
  { letterRules with sources := letterRules.sources ++ [⟨"Main", "receive()", "Parcel"⟩] }

/-- Further rules that leave the last one for the source in its place. One names an unknown class. -/
def stricterRules : TaintRules where
  sources := ⟨"Main", "receive()", "Parcel"⟩ :: ⟨"Main", "send()", "Letter"⟩ :: letterRules.sources
  sinks := letterRules.sinks ++ [⟨"Shop", "sell(Object)", 0⟩]
  transfers := [⟨"Letter", "open()", .base, .result, "Parcel"⟩]

/-- The flows of a run that was followed to its end. -/
theorem World.flows_of_runFor {w : World} {selector : Selector} {abstraction : HeapAbstraction}
    {order : WorkOrder} {plan : TaintPlan} {n : Nat} {fs : List TaintFlow}
    (h : ((w.selectedSetup selector (some plan)).runFor n
        ((w.selectedSetup selector (some plan)).initial { heap := { abstraction } } order w.entry) >>=
      fun s ↦ plan.flows w.program s >>= fun fs ↦ .ok (s.pending.poll.isNone, fs)) = .ok (true, fs)) :
    ∃ s, w.solveSelected selector abstraction order (some plan) = .ok s ∧
      plan.flows w.program s = .ok fs := by
  obtain ⟨s, hs, h⟩ := bind_eq_ok.1 h
  obtain ⟨fs', hfs, h⟩ := bind_eq_ok.1 h
  obtain ⟨hfin, rfl⟩ := Prod.mk.inj (Except.ok.inj h)
  exact ⟨s, Setup.run_of_runFor hs (Option.isNone_iff_eq_none.1 hfin), hfs⟩

theorem letter_flows :
    ∃ s, postWorld.solveSelected ⟨.callSite, 1, 0⟩ .allocationSite .fifo
        (some (.resolve postProgram letterRules)) = .ok s ∧
      (TaintPlan.resolve postProgram letterRules).flows postProgram s = .ok [⟨⟨1⟩, ⟨0⟩, 0⟩] :=
  World.flows_of_runFor (n := 20) (by decide +kernel)

/-- That letters are stored is found with the further rules too, and in the other order. -/
theorem further_rules_keep_flows_post :
    Program.ofDeclarations receivedPost = .ok postProgram ∧
    World.of postProgram ⟨3⟩ = .ok postWorld ∧ postProgram.InRange ∧
    letterRules.validate = .ok () ∧ stricterRules.validate = .ok () ∧
    letterRules.IncludedIn stricterRules ∧
    (TaintPlan.resolve postProgram letterRules).KeepsSources (.resolve postProgram stricterRules) ∧
    ∃ s t fs gs, postWorld.solveSelected ⟨.callSite, 1, 0⟩ .allocationSite .fifo
        (some (.resolve postProgram letterRules)) = .ok s ∧
      postWorld.solveSelected ⟨.callSite, 1, 0⟩ .allocationSite .lifo
        (some (.resolve postProgram stricterRules)) = .ok t ∧
      s.facts .selected ≤ t.facts .selected ∧
      (TaintPlan.resolve postProgram letterRules).flows postProgram s = .ok fs ∧
      (TaintPlan.resolve postProgram stricterRules).flows postProgram t = .ok gs ∧
      ⟨⟨1⟩, ⟨0⟩, 0⟩ ∈ fs ∧ fs ⊆ gs := by
  have hvalid : letterRules.validate = .ok () := by decide +kernel
  have hvalid' : stricterRules.validate = .ok () := by decide +kernel
  have hincluded : letterRules.IncludedIn stricterRules := by decide +kernel
  have hkeep : (TaintPlan.resolve postProgram letterRules).KeepsSources
      (.resolve postProgram stricterRules) := by decide +kernel
  obtain ⟨s, t, fs, gs, hs, ht, -, -, hle, hfs, hgs, hsubset⟩ := further_rules_keep_flows
    postProgram_built postWorld_accepted postProgram_inRange hvalid hvalid' hincluded hkeep
    ⟨.callSite, 1, 0⟩ .allocationSite .fifo .lifo
  obtain ⟨s', hs', hfs'⟩ := letter_flows
  obtain rfl := Except.ok.inj (hs.symm.trans hs')
  obtain rfl := Except.ok.inj (hfs.symm.trans hfs')
  exact ⟨postProgram_built, postWorld_accepted, postProgram_inRange, hvalid, hvalid', hincluded, hkeep,
    s, t, _, gs, hs, ht, hle, hfs, hgs, List.mem_singleton_self _, hsubset⟩

/-- The last rule makes what is received a parcel, which is never opened. -/
theorem second_source_hides_flow :
    Program.ofDeclarations receivedPost = .ok postProgram ∧
    World.of postProgram ⟨3⟩ = .ok postWorld ∧ postProgram.InRange ∧
    letterRules.validate = .ok () ∧ parcelRules.validate = .ok () ∧
    letterRules.IncludedIn parcelRules ∧
    ∃ s t, postWorld.solveSelected ⟨.callSite, 1, 0⟩ .allocationSite .fifo
        (some (.resolve postProgram letterRules)) = .ok s ∧
      postWorld.solveSelected ⟨.callSite, 1, 0⟩ .allocationSite .fifo
        (some (.resolve postProgram parcelRules)) = .ok t ∧
      (TaintPlan.resolve postProgram letterRules).flows postProgram s = .ok [⟨⟨1⟩, ⟨0⟩, 0⟩] ∧
      (TaintPlan.resolve postProgram parcelRules).flows postProgram t = .ok [] := by
  obtain ⟨s, hs, hfs⟩ := letter_flows
  have hlost : ∃ t, postWorld.solveSelected ⟨.callSite, 1, 0⟩ .allocationSite .fifo
        (some (.resolve postProgram parcelRules)) = .ok t ∧
      (TaintPlan.resolve postProgram parcelRules).flows postProgram t = .ok [] :=
    World.flows_of_runFor (n := 20) (by decide +kernel)
  obtain ⟨t, ht, hgs⟩ := hlost
  exact ⟨postProgram_built, postWorld_accepted, postProgram_inRange, by decide +kernel,
    by decide +kernel, by decide +kernel, s, t, hs, ht, hfs, hgs⟩

end PointsTo
