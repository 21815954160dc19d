import PointsTo.Proofs.Changes
import PointsTo.Proofs.Exactness
import PointsTo.Proofs.Hierarchy

/-!
# Arguments and parameters

A world is accepted only if every call passes as many arguments as the method takes that its reference
means. What a call reaches in the end may be another method: one that overrides that method, or one that
implements it where it is abstract and has no parameters to compare with. So arguments and parameters
pair up where the callee takes as many as the method referred to (`Program.Fits`), in particular where
it is that method, as with static calls, and with special calls unless the method is abstract. An
override that takes fewer loses arguments (`linked_ring_loses_argument`).
-/

namespace PointsTo

/-! ## References and receivers -/

namespace Hierarchy

variable {h : Hierarchy} {m : MethodId}

theorem isConcrete_iff :
    h.isConcrete m = true ↔ ∃ info, h.methods[m.index]? = some info ∧ info.isAbstract = false := by
  unfold isConcrete
  cases h.methods[m.index]? <;> simp

/-- What a reference means is what runs on an object of the class it names, if anything runs and it is
not abstract itself. -/
theorem eq_of_dispatch {r : MethodRef} {callee : MethodId} (hm : h.resolve r = .ok (some m))
    (hconcrete : h.isConcrete m = true)
    (hcallee : h.dispatch r.cls r.subsignature = .ok (some callee)) : callee = m := by
  obtain ⟨k, -, hm⟩ := bind_eq_ok.1 hm
  obtain ⟨k', -, hcallee⟩ := bind_eq_ok.1 hcallee
  have hcallee : (h.ancestry r.cls).findSome?
      (fun a ↦ (h.declared? a r.subsignature).filter h.isConcrete) = some callee :=
    Except.ok.inj hcallee
  rcases Option.or_eq_some_iff.1 (Except.ok.inj hm) with hm | ⟨hnone, -⟩
  · obtain ⟨before, a, after, hancestry, ha, hbefore⟩ := List.findSome?_eq_some_iff.1 hm
    have hfirst : before.findSome?
        (fun a ↦ (h.declared? a r.subsignature).filter h.isConcrete) = none := by
      refine List.findSome?_eq_none_iff.2 fun b hb ↦ ?_
      rw [hbefore b hb]
      rfl
    have hself : (h.declared? a r.subsignature).filter h.isConcrete = some m :=
      Option.filter_eq_some_iff.2 ⟨ha, hconcrete⟩
    rw [hancestry, List.findSome?_append, hfirst, Option.none_or, List.findSome?_cons, hself] at hcallee
    exact (Option.some.inj hcallee).symm
  · -- Only interfaces declare it, and dispatch does not look at those.
    obtain ⟨a, ha, hdeclared⟩ := List.exists_of_findSome?_eq_some hcallee
    rw [List.findSome?_eq_none_iff.1 hnone a ha] at hdeclared
    cases hdeclared

end Hierarchy

/-! ## Methods with bodies -/

namespace Program

variable {p q : Program}

/-- No abstract method has a body. -/
def Bodied (p : Program) : Prop :=
  ∀ m body, p.body m = some body → p.hierarchy.isConcrete m = true

theorem Bodied.finish {d : Draft} (hd : d.program.Bodied) {isStatic isAbstract : Bool}
    (hfinish : d.finish isStatic isAbstract = .ok p) : p.Bodied := by
  obtain ⟨d₁, hierarchy, hd₁, hflags, rfl⟩ := Draft.finish_steps hfinish
  have halike := Draft.alike_of_finish hd₁
  obtain ⟨methods, hmethods, hflags⟩ := bind_eq_ok.1 hflags
  obtain rfl := Except.ok.inj hflags
  obtain ⟨hlt, rfl⟩ := Id.update_eq_ok_iff.1 hmethods
  intro m body hbody
  rw [Hierarchy.isConcrete_iff, Array.getElem?_modify]
  rcases Draft.body_of_set hbody with ⟨heq, habstract, -⟩ | ⟨hne, hold⟩
  · rw [← heq, if_pos rfl, Array.getElem?_eq_getElem hlt]
    exact ⟨_, rfl, habstract⟩
  · rw [if_neg hne, halike.hierarchy]
    rw [halike.bodies] at hold
    exact Hierarchy.isConcrete_iff.1 (hd m body hold)

/-- A method that is added has no body until it is finished, and then only if it is concrete. -/
theorem Bodied.addMethod (hp : p.Bodied) {m : MethodDecl} (hadd : p.addMethod m = .ok q) :
    q.Bodied := by
  obtain ⟨hierarchy, d, hmethod, hd, hend⟩ := addMethod_steps hadd
  obtain ⟨hmethods, -⟩ := Hierarchy.addMethod_eq_ok hmethod
  have halike := Draft.alike_items hd
  have hdraft : d.program.Bodied := by
    intro i body hbody
    rw [Program.body, halike.bodies, join_push_none] at hbody
    obtain ⟨info, hinfo, hconcrete⟩ := Hierarchy.isConcrete_iff.1 (hp i body hbody)
    have hne : i.index ≠ p.hierarchy.methods.size :=
      Nat.ne_of_lt (Array.getElem?_eq_some_iff.1 hinfo).1
    rw [halike.hierarchy, Hierarchy.isConcrete_iff, hmethods, Array.getElem?_push, if_neg hne]
    exact ⟨info, hinfo, hconcrete⟩
  rcases hend with ⟨-, hfinish⟩ | ⟨-, rfl⟩
  · exact hdraft.finish hfinish
  · exact hdraft

theorem bodied_of_ofDeclarations {ds : List Declaration} (h : ofDeclarations ds = .ok p) :
    p.Bodied := by
  refine foldlM_induction (P := fun p ↦ p.Bodied) h (fun m body hbody ↦ by simp [Program.body] at hbody) ?_
  intro d _ p q hp hd
  cases d with
  | cls decl =>
    obtain ⟨⟨hierarchy, c⟩, hadd, hd⟩ := bind_eq_ok.1 hd
    obtain rfl := Except.ok.inj hd
    obtain ⟨hmethods, -⟩ := Hierarchy.addClass_eq_ok hadd
    intro m body hbody
    rw [Hierarchy.isConcrete, hmethods]
    exact hp m body hbody
  | field decl =>
    obtain rfl := Except.ok.inj hd
    exact hp
  | method decl => exact hp.addMethod hd

/-! ## Call edges -/

/-- What was compared for the site of a call edge, and what follows for the callee. The reference of the
site means `m`, and `body` is the body of the callee. -/
structure Fits {C : Type} (p : Program) (edge : Edge C) (body : MethodBody) (site : CallSite)
    (m : MethodId) : Prop where
  known : p.callSite edge.site.id = .ok site
  kind : edge.kind = site.kind
  refers : p.hierarchy.resolve site.target = .ok (some m)
  compared : ∀ declared, p.body m = some declared → site.args.length = declared.params.length
  callee : site.kind = .static ∨ site.kind = .special ∧ (p.body m).isSome → edge.callee.id = m
  /-- If the callee is `m` or takes as many arguments as `m`, each argument has its parameter. -/
  paired : (edge.callee.id = m ∨
      ∃ declared, p.body m = some declared ∧ declared.params.length = body.params.length) →
    site.args.length = body.params.length ∧
      (site.args.zip body.params).unzip = (site.args, body.params)

theorem kind_of_callee {c : CallSiteId} {site : CallSite} (hsite : p.callSite c = .ok site)
    {receiver : Option ClassId} {callee : MethodId}
    (hcallee : p.callee receiver c = .ok (some callee)) :
    site.kind ≠ .dynamic ∧
    (site.kind = .static → p.hierarchy.resolve site.target = .ok (some callee)) ∧
    (site.kind = .special →
      p.hierarchy.dispatch site.target.cls site.target.subsignature = .ok (some callee)) := by
  obtain ⟨site', hsite', hcallee⟩ := bind_eq_ok.1 hcallee
  obtain rfl := Except.ok.inj (hsite.symm.trans hsite')
  refine ⟨fun hkind ↦ ?_, fun hkind ↦ ?_, fun hkind ↦ ?_⟩
  · simp [hkind, pure, Except.pure] at hcallee
  · simpa [hkind] using hcallee
  · simpa [hkind] using hcallee

end Program

theorem World.fits {p : Program} {entry : MethodId} {w : World} (hworld : World.of p entry = .ok w)
    (hbodied : p.Bodied) {C : Type} {edge : Edge C} {site : CallSite}
    (hsite : p.callSite edge.site.id = .ok site) (hkind : edge.kind = site.kind)
    {receiver : Option ClassId} (hcallee : p.callee receiver edge.site.id = .ok (some edge.callee.id))
    {body : MethodBody} (hbody : p.body edge.callee.id = some body) : ∃ m, p.Fits edge body site m := by
  obtain ⟨hdynamic, hstatic, hspecial⟩ := Program.kind_of_callee hsite hcallee
  obtain ⟨m, hm, hcompared⟩ :=
    World.resolve_of_checkCall (checkCall_of_accepted hworld hsite) hsite hdynamic
  refine ⟨m, hsite, hkind, hm, fun declared hdeclared ↦ (hcompared declared hdeclared).symm, ?_, ?_⟩
  · rintro (hkind | ⟨hkind, hsome⟩)
    · exact Option.some.inj (Except.ok.inj ((hstatic hkind).symm.trans hm))
    · obtain ⟨declared, hdeclared⟩ := Option.isSome_iff_exists.1 hsome
      exact Hierarchy.eq_of_dispatch hm (hbodied m declared hdeclared) (hspecial hkind)
  · intro hsame
    have hargs : site.args.length = body.params.length := by
      rcases hsame with rfl | ⟨declared, hdeclared, hlength⟩
      · exact (hcompared body hbody).symm
      · rw [← hlength, hcompared declared hdeclared]
    exact ⟨hargs, List.unzip_zip hargs⟩

namespace Setup

variable {C : Type} [Contextual C] {e : Entity} {σ : Type}

theorem Makes.callee {S : Setup C e σ} {s : State C e σ} {id : SiteIn C} {callee : MethodId}
    {receiver : Option (VarId × Id e)} (h : S.Makes s id callee receiver) :
    ∃ cls, S.program.callee cls id.id = .ok (some callee) := by
  cases h with
  | static _ _ _ _ _ hcallee => exact ⟨none, hcallee⟩
  | receiver _ _ _ hcallee => exact ⟨_, hcallee⟩

/-- At any time of a run, calls that were found to reach a method with a body fit. -/
def CallsFit (S : Setup C e σ) (names : σ) (order : WorkOrder) (entry : MethodId) : Prop :=
  ∀ s, Relation.ReflTransGen S.Step (S.initial names order entry) s →
    ∀ edge ∈ s.calls.edgeList, ∀ body, S.program.body edge.callee.id = some body →
      ∃ site m, S.program.Fits edge body site m

theorem callsFit {S : Setup C e σ} {entry : MethodId} {w : World}
    (hworld : World.of S.program entry = .ok w) (hbodied : S.program.Bodied) (names : σ)
    (order : WorkOrder) : S.CallsFit names order entry := by
  intro s hs edge hedge body hbody
  have hcalls : s.Calls edge := Table.mem_keys_iff.1 hedge
  obtain ⟨site, receiver, hsite, hkind, hmakes⟩ := (tracked_of_steps hs).edges hcalls
  obtain ⟨cls, hcallee⟩ := hmakes.callee
  exact ⟨site, World.fits hworld hbodied hsite hkind hcallee hbody⟩

end Setup

/-! ## Results -/

/-- In every accepted world, with and without contexts and whatever the taint rules, the reference of
each call that an analysis finds to reach a method with a body means a method, which takes as many
arguments as the call passes unless it is abstract. Static calls reach this method, and special calls do
if it is not abstract. If the callee is this method or takes as many arguments, then arguments and
parameters are paired without loss. -/
theorem arguments_fit_references {ds : List Declaration} {p : Program} {entry : MethodId} {w : World}
    (hbuilt : Program.ofDeclarations ds = .ok p) (hworld : World.of p entry = .ok w)
    (abstraction : HeapAbstraction) (order : WorkOrder) :
    w.plainSetup.CallsFit { abstraction } order entry ∧
    ∀ (selector : Selector) (taint : Option TaintPlan),
      (w.selectedSetup selector taint).CallsFit { heap := { abstraction } } order entry := by
  obtain ⟨rfl, -⟩ := World.of_eq_ok hworld
  have hbodied : p.Bodied := Program.bodied_of_ofDeclarations hbuilt
  constructor
  · exact Setup.callsFit hworld hbodied _ order
  · intro selector taint
    exact Setup.callsFit hworld hbodied _ order

/-- The one call that passes an argument reaches the method that takes it. -/
theorem arguments_fit_references_linked :
    Program.ofDeclarations linkedShapes = .ok linkedProgram ∧
    World.of linkedProgram ⟨2⟩ = .ok linkedWorld ∧
    ∃ (s : CiState) (body : MethodBody) (site : CallSite) (m : MethodId),
      linkedWorld.solvePlain .allocationSite .fifo = .ok s ∧
      ⟨.virtual, ⟨(), ⟨2⟩⟩, ⟨(), ⟨0⟩⟩⟩ ∈ s.calls.edgeList ∧
      linkedProgram.Fits (⟨.virtual, ⟨(), ⟨2⟩⟩, ⟨(), ⟨0⟩⟩⟩ : Edge Unit) body site m ∧
      m = ⟨0⟩ ∧ body.params = [⟨1⟩] ∧ (site.args.zip body.params).unzip = (site.args, body.params) := by
  have hrun : (linkedWorld.plainSetup.runFor 20
      (linkedWorld.plainSetup.initial { abstraction := .allocationSite } .fifo ⟨2⟩) >>= fun s ↦
      .ok (s.pending.poll.isNone, s.calls.edgeList.getLast?)) =
        .ok (true, some ⟨.virtual, ⟨(), ⟨2⟩⟩, ⟨(), ⟨0⟩⟩⟩) := by decide +kernel
  obtain ⟨s, hs, hread⟩ := bind_eq_ok.1 hrun
  obtain ⟨hfin, hlast⟩ := Prod.mk.inj (Except.ok.inj hread)
  have hedge := List.mem_of_getLast? hlast
  obtain ⟨hplain, -⟩ := arguments_fit_references linkedProgram_built linkedWorld_accepted
    .allocationSite .fifo
  obtain ⟨site, m, hfits⟩ := hplain s (Setup.steps_of_runFor hs) _ hedge
    ⟨some ⟨0⟩, [⟨1⟩], [⟨0⟩], [.storeField ⟨0⟩ ⟨0⟩ ⟨1⟩, .ret (some ⟨0⟩)], []⟩ (by decide +kernel)
  have hm : m = ⟨0⟩ := by
    have hsite := hfits.known
    have hrefers := hfits.refers
    have hsite' : linkedProgram.callSite ⟨2⟩ =
      .ok ⟨.virtual, ⟨⟨1⟩, ⟨"link(Shape)"⟩⟩, some ⟨3⟩, [⟨4⟩], some ⟨5⟩, ⟨2⟩⟩ := by decide +kernel
    obtain rfl := Except.ok.inj (hsite.symm.trans hsite')
    have hrefers' : linkedProgram.hierarchy.resolve ⟨⟨1⟩, ⟨"link(Shape)"⟩⟩ = .ok (some ⟨0⟩) := by
      decide +kernel
    exact Option.some.inj (Except.ok.inj (hrefers.symm.trans hrefers'))
  exact ⟨linkedProgram_built, linkedWorld_accepted, s, _, site, m,
    Setup.run_of_runFor hs (Option.isNone_iff_eq_none.1 hfin), hedge, hfits, hm, rfl,
    (hfits.paired (.inl hm.symm)).2⟩

/-- Rings are linked as circles are, but take nothing to link to. -/
def ringShapes : List Declaration :=
  [ .cls { name := "Main" },
    .cls { name := "Shape", isAbstract := true },
    .cls { name := "Circle", superclass := some ⟨1⟩ },
    .cls { name := "Ring", superclass := some ⟨2⟩ },
    .method { cls := ⟨1⟩, subsignature := ⟨"link(Shape)"⟩, isAbstract := true },
    .method { cls := ⟨2⟩, subsignature := ⟨"link(Shape)"⟩, items := [.param "other"] },
    .method { cls := ⟨3⟩, subsignature := ⟨"link(Shape)"⟩ },
    .method { cls := ⟨0⟩, subsignature := ⟨"main()"⟩, isStatic := true, items :=
      [.var "ring", .alloc ⟨3⟩ ⟨3⟩,
        .call .virtual none (some ⟨3⟩) ⟨⟨1⟩, ⟨"link(Shape)"⟩⟩ [⟨3⟩],
        .call .virtual none (some ⟨3⟩) ⟨⟨2⟩, ⟨"link(Shape)"⟩⟩ [⟨3⟩]] } ]

def ringProgram : Program := (Program.ofDeclarations ringShapes).toOption.getD {}

def ringWorld : World := ⟨ringProgram, ⟨3⟩⟩

/-- Both calls lose their argument: one refers to an abstract method, the other to a method that takes
an argument and is overridden by one that takes none. -/
theorem linked_ring_loses_argument :
    Program.ofDeclarations ringShapes = .ok ringProgram ∧
    World.of ringProgram ⟨3⟩ = .ok ringWorld ∧
    ∃ (s : CiState) (body : MethodBody),
      ringWorld.solvePlain .allocationSite .fifo = .ok s ∧
      s.calls.edgeList =
        [⟨.virtual, ⟨(), ⟨0⟩⟩, ⟨(), ⟨2⟩⟩⟩, ⟨.virtual, ⟨(), ⟨1⟩⟩, ⟨(), ⟨2⟩⟩⟩] ∧
      ringProgram.body ⟨2⟩ = some body ∧
      ∀ edge ∈ s.calls.edgeList, ∃ site, ringProgram.callSite edge.site.id = .ok site ∧
        site.args.length ≠ body.params.length ∧ site.args.zip body.params = [] := by
  have hbuilt : Program.ofDeclarations ringShapes = .ok ringProgram := by rfl
  have hworld : World.of ringProgram ⟨3⟩ = .ok ringWorld := by rfl
  have hrun : (ringWorld.plainSetup.runFor 20
      (ringWorld.plainSetup.initial { abstraction := .allocationSite } .fifo ⟨3⟩) >>= fun s ↦
      .ok (s.pending.poll.isNone, s.calls.edgeList)) = .ok (true,
        [⟨.virtual, ⟨(), ⟨0⟩⟩, ⟨(), ⟨2⟩⟩⟩, ⟨.virtual, ⟨(), ⟨1⟩⟩, ⟨(), ⟨2⟩⟩⟩]) := by decide +kernel
  obtain ⟨s, hs, hread⟩ := bind_eq_ok.1 hrun
  obtain ⟨hfin, hedges⟩ := Prod.mk.inj (Except.ok.inj hread)
  refine ⟨hbuilt, hworld, s, ⟨some ⟨2⟩, [], [], [], []⟩,
    Setup.run_of_runFor hs (Option.isNone_iff_eq_none.1 hfin), hedges, by rfl, fun edge hedge ↦ ?_⟩
  rw [hedges, List.mem_cons, List.mem_singleton] at hedge
  rcases hedge with rfl | rfl
  · exact ⟨⟨.virtual, ⟨⟨1⟩, ⟨"link(Shape)"⟩⟩, some ⟨3⟩, [⟨3⟩], none, ⟨3⟩⟩, by rfl, by decide, rfl⟩
  · exact ⟨⟨.virtual, ⟨⟨2⟩, ⟨"link(Shape)"⟩⟩, some ⟨3⟩, [⟨3⟩], none, ⟨3⟩⟩, by rfl, by decide, rfl⟩

end PointsTo
