import PointsTo.Proofs.Coarsening
import Mathlib.Tactic.MkIffOfInductiveProp

/-!
# Larger programs

A program may get further statements, return values, variables and sites while its classes and methods
stay as they are (`Program.IncludedIn`). Numbers are given in order of discovery, so what is added
changes the numbers of objects and contexts all over a run. The rules know no numbers: those for the
smaller program are among those for the larger one, so what is closed for the larger program is
closed for the smaller one (`IncludedIn.closed`), and nothing that was found is lost
(`larger_finds_more`).
-/

namespace PointsTo

/-! ## Inclusion of programs -/

@[mk_iff]
structure VarIndex.IncludedIn (a b : VarIndex) : Prop where
  storeFields : a.storeFields ⊆ b.storeFields
  loadFields : a.loadFields ⊆ b.loadFields
  storeArrays : a.storeArrays ⊆ b.storeArrays
  loadArrays : a.loadArrays ⊆ b.loadArrays
  invokes : a.invokes ⊆ b.invokes
  argOf : a.argOf ⊆ b.argOf

instance (a b : VarIndex) : Decidable (a.IncludedIn b) :=
  decidable_of_iff _ (VarIndex.includedIn_iff a b).symm

/-- The same variable, with further uses. -/
@[mk_iff]
structure VarInfo.IncludedIn (a b : VarInfo) : Prop where
  name : b.name = a.name
  method : b.method = a.method
  index : a.index.IncludedIn b.index

instance (a b : VarInfo) : Decidable (a.IncludedIn b) :=
  decidable_of_iff _ (VarInfo.includedIn_iff a b).symm

/-- The same parameters, with further statements. -/
@[mk_iff]
structure MethodBody.IncludedIn (a b : MethodBody) : Prop where
  this : b.this = a.this
  params : b.params = a.params
  returnVars : a.returnVars ⊆ b.returnVars
  stmts : a.stmts ⊆ b.stmts

instance (a b : MethodBody) : Decidable (a.IncludedIn b) :=
  decidable_of_iff _ (MethodBody.includedIn_iff a b).symm

/-- The same classes and methods, with further variables and sites and larger bodies. -/
@[mk_iff]
structure Program.IncludedIn (p q : Program) : Prop where
  hierarchy : q.hierarchy = p.hierarchy
  bodies : ∀ i < p.bodies.size, ∀ body ∈ p.body ⟨i⟩, ∃ body' ∈ q.body ⟨i⟩, body.IncludedIn body'
  vars : ∀ i < p.vars.size, ∀ info ∈ p.vars[i]?, ∃ info' ∈ q.vars[i]?, info.IncludedIn info'
  callSites : ∀ i < p.callSites.size, q.callSites[i]? = p.callSites[i]?
  allocSites : ∀ i < p.allocSites.size, q.allocSites[i]? = p.allocSites[i]?

instance (p q : Program) : Decidable (p.IncludedIn q) :=
  decidable_of_iff _ (Program.includedIn_iff p q).symm

namespace Program.IncludedIn

variable {p q : Program} (h : p.IncludedIn q)

include h

theorem body {m : MethodId} {body : MethodBody} (hbody : p.body m = some body) :
    ∃ body', q.body m = some body' ∧ body.IncludedIn body' := by
  have hget : p.bodies[m.index]? = some (some body) := Option.join_eq_some_iff.1 hbody
  exact h.bodies m.index (Array.getElem?_eq_some_iff.1 hget).1 body hbody

theorem var {v : VarId} {info : VarInfo} (hinfo : p.var v = .ok info) :
    ∃ info', q.var v = .ok info' ∧ info.index.IncludedIn info'.index := by
  have hget := Id.lookup_eq_ok_iff.1 hinfo
  obtain ⟨info', hinfo', hincl⟩ := h.vars v.index (Array.getElem?_eq_some_iff.1 hget).1 info hget
  exact ⟨info', Id.lookup_eq_ok_iff.2 hinfo', hincl.index⟩

theorem callSite {c : CallSiteId} {site : CallSite} (hsite : p.callSite c = .ok site) :
    q.callSite c = .ok site := by
  have hget := Id.lookup_eq_ok_iff.1 hsite
  apply Id.lookup_eq_ok_iff.2
  rw [h.callSites c.index (Array.getElem?_eq_some_iff.1 hget).1]
  exact hget

theorem allocSite {a : AllocSiteId} {site : AllocSite} (hsite : p.allocSite a = .ok site) :
    q.allocSite a = .ok site := by
  have hget := Id.lookup_eq_ok_iff.1 hsite
  apply Id.lookup_eq_ok_iff.2
  rw [h.allocSites a.index (Array.getElem?_eq_some_iff.1 hget).1]
  exact hget

theorem thisVar {m : MethodId} {v : VarId} (hv : p.thisVar m = some v) : q.thisVar m = some v := by
  obtain ⟨body, hbody, hthis⟩ := Option.bind_eq_some_iff.1 hv
  obtain ⟨body', hbody', hincl⟩ := h.body hbody
  exact Option.bind_eq_some_iff.2 ⟨body', hbody', hincl.this.trans hthis⟩

theorem callee {k : ClassId} {c : CallSiteId} {m : Option MethodId}
    (hm : p.callee (some k) c = .ok m) : q.callee (some k) c = .ok m := by
  obtain ⟨site, hsite, hm⟩ := bind_eq_ok.1 hm
  refine bind_eq_ok.2 ⟨site, h.callSite hsite, ?_⟩
  rw [h.hierarchy]
  cases hkind : site.kind <;> rw [hkind] at hm <;> exact hm

/-! ## Rules for the smaller program are among those for the larger one -/

variable {K O : Type} {D : Domain K O} {F G : Facts K O}

theorem makes {id : SiteIn K} {callee : MethodId} {receiver : Option (VarId × O)}
    (hm : F.Makes p D id callee receiver) : F.Makes q D id callee receiver := by
  cases hm with
  | static hm hbody hc hsite hkind hcallee =>
    obtain ⟨body', hbody', hincl⟩ := h.body hbody
    rw [← h.hierarchy] at hcallee
    exact .static hm hbody' (hincl.stmts hc) (h.callSite hsite) hkind hcallee
  | receiver hpts hinfo hc hcallee =>
    obtain ⟨info', hinfo', hincl⟩ := h.var hinfo
    exact .receiver hpts hinfo' (hincl.invokes hc) (h.callee hcallee)

/-- What feeds a place in the smaller program feeds it in the larger one. -/
theorem feeds {P Q : Place K O} (hf : F.Feeds p P Q) : F.Feeds q P Q := by
  cases hf with
  | copy hm hbody hs =>
    obtain ⟨body', hbody', hincl⟩ := h.body hbody
    exact .copy hm hbody' (hincl.stmts hs)
  | loadStatic hm hbody hs =>
    obtain ⟨body', hbody', hincl⟩ := h.body hbody
    exact .loadStatic hm hbody' (hincl.stmts hs)
  | storeStatic hm hbody hs =>
    obtain ⟨body', hbody', hincl⟩ := h.body hbody
    exact .storeStatic hm hbody' (hincl.stmts hs)
  | storeField hp hv hs =>
    obtain ⟨info', hinfo', hincl⟩ := h.var hv
    exact .storeField hp hinfo' (hincl.storeFields hs)
  | loadField hp hv hl =>
    obtain ⟨info', hinfo', hincl⟩ := h.var hv
    exact .loadField hp hinfo' (hincl.loadFields hl)
  | storeArray hp hv hs =>
    obtain ⟨info', hinfo', hincl⟩ := h.var hv
    exact .storeArray hp hinfo' (hincl.storeArrays hs)
  | loadArray hp hv hl =>
    obtain ⟨info', hinfo', hincl⟩ := h.var hv
    exact .loadArray hp hinfo' (hincl.loadArrays hl)
  | argument he hsite hbody ha =>
    obtain ⟨body', hbody', hincl⟩ := h.body hbody
    rw [← hincl.params] at ha
    exact .argument he (h.callSite hsite) hbody' ha
  | result he hsite hbody hr hv =>
    obtain ⟨body', hbody', hincl⟩ := h.body hbody
    exact .result he (h.callSite hsite) hbody' hr (hincl.returnVars hv)

theorem mentions (hle : F ≤ G) {P : Place K O} (hP : F.Mentions p P) : G.Mentions q P := by
  rcases hP with ⟨x, hx⟩ | ⟨Q, hQ⟩ | ⟨Q, hQ⟩
  · exact .inl ⟨x, (Facts.le_iff.1 hle).1 P x hx⟩
  · exact .inr (.inl ⟨Q, h.feeds (hQ.mono hle)⟩)
  · exact .inr (.inr ⟨Q, h.feeds (hQ.mono hle)⟩)

variable {entry : MethodId}

/-- Facts that are closed under the rules of the larger program are closed under those of the
smaller. -/
theorem closed (hF : Rules.Closed { program := q, domain := D, entry } F) :
    Rules.Closed { program := p, domain := D, entry } F where
  entry := hF.entry
  alloc := by
    intro m body lhs a site hm hbody hs hsite
    obtain ⟨body', hbody', hincl⟩ := h.body hbody
    exact hF.alloc hm hbody' (hincl.stmts hs) (h.allocSite hsite)
  copy hm hbody hs := hF.includes (h.feeds (.copy hm hbody hs))
  loadStatic hm hbody hs := hF.includes (h.feeds (.loadStatic hm hbody hs))
  storeStatic hm hbody hs := hF.includes (h.feeds (.storeStatic hm hbody hs))
  storeField hp hv hs := hF.includes (h.feeds (.storeField hp hv hs))
  loadField hp hv hl := hF.includes (h.feeds (.loadField hp hv hl))
  storeArray hp hv hs := hF.includes (h.feeds (.storeArray hp hv hs))
  loadArray hp hv hl := hF.includes (h.feeds (.loadArray hp hv hl))
  edge hm hsite := hF.edge (h.makes hm) (h.callSite hsite)
  this hm hthis := hF.this (h.makes hm) (h.thisVar hthis)
  callee he := hF.callee he
  argument he hsite hbody ha := hF.includes (h.feeds (.argument he hsite hbody ha))
  result he hsite hbody hr hv := hF.includes (h.feeds (.result he hsite hbody hr hv))
  source ht := nomatch ht
  transfer ht := nomatch ht

/-- What the least solution for the smaller program says is said by the one for the larger. -/
theorem isLeast_le (hF : IsLeast {F | Rules.Closed { program := p, domain := D, entry } F} F)
    (hG : IsLeast {G | Rules.Closed { program := q, domain := D, entry } G} G) : F ≤ G :=
  hF.2 (h.closed hG.1)

theorem includedIn_views (hle : F ≤ G) {V W : View} {base : O → AbstractObject}
    (hV : V.Shows p F base) (hW : W.Shows q G base) : V.IncludedIn id W :=
  hV.includedIn_of id id hW (fun _ ↦ rfl) ((Facts.le_iff.1 hle).1 _ _) ((Facts.le_iff.1 hle).2.1 _)
    ((Facts.le_iff.1 hle).2.2 _) (h.mentions hle)

end Program.IncludedIn

/-- Contexts of classes are the only ones that look at the program, and they look at its methods. -/
theorem Domain.selected_congr {p q : Program} (h : q.hierarchy = p.hierarchy)
    (abstraction : HeapAbstraction) (s : Selector) :
    Domain.selected q abstraction s = .selected p abstraction s := by
  have hallocator : AbstractObject.allocator q = AbstractObject.allocator p := by
    funext o
    rw [AbstractObject.allocator, AbstractObject.allocator, h]
  have hcallee : s.calleeSteps q = s.calleeSteps p := by
    funext c site receiver
    unfold Selector.calleeSteps
    rw [hallocator]
  rw [Domain.selected, Domain.selected, hcallee]

/-! ## Results -/

/-- On two accepted programs of which one is included in the other, an analysis of the larger program
finds whatever the same analysis finds of the smaller one, without contexts and with those of any
selector, whatever the order of work in either run. This holds of all facts that the final states
stand for, and of the views that leave contexts out. -/
theorem larger_finds_more {ds ds' : List Declaration} {p q : Program} {entry : MethodId} {w w' : World}
    (hbuilt : Program.ofDeclarations ds = .ok p) (hbuilt' : Program.ofDeclarations ds' = .ok q)
    (hworld : World.of p entry = .ok w) (hworld' : World.of q entry = .ok w') (hrange : p.InRange)
    (hrange' : q.InRange) (hincl : p.IncludedIn q) (abstraction : HeapAbstraction)
    (order order' : WorkOrder) :
    (∃ (s t : CiState) (V W : View),
      w.solvePlain abstraction order = .ok s ∧ w'.solvePlain abstraction order' = .ok t ∧
      s.Faithful .plain ∧ t.Faithful .plain ∧ s.facts .plain ≤ t.facts .plain ∧
      s.view = .ok V ∧ t.view = .ok W ∧ V.IncludedIn id W) ∧
    ∀ selector : Selector, ∃ (s t : CsState) (V W : View),
      w.solveSelected selector abstraction order none = .ok s ∧
      w'.solveSelected selector abstraction order' none = .ok t ∧
      s.Faithful .selected ∧ t.Faithful .selected ∧ s.facts .selected ≤ t.facts .selected ∧
      s.view = .ok V ∧ t.view = .ok W ∧ V.IncludedIn id W := by
  obtain ⟨rfl, -⟩ := World.of_eq_ok hworld
  obtain ⟨rfl, -⟩ := World.of_eq_ok hworld'
  have hp : (World.mk p entry).program.Analysable := Program.analysable hbuilt hworld hrange
  have hq : (World.mk q entry).program.Analysable := Program.analysable hbuilt' hworld' hrange'
  constructor
  · obtain ⟨s, V, hs, hV, hfaithful, hF, hshows⟩ := World.shownPlain hp abstraction order
    obtain ⟨t, W, ht, hW, hfaithful', hG, hshows'⟩ := World.shownPlain hq abstraction order'
    have hle := hincl.isLeast_le hF hG
    exact ⟨s, t, V, W, hs, ht, hfaithful, hfaithful', hle, hV, hW,
      hincl.includedIn_views hle hshows hshows'⟩
  · intro selector
    obtain ⟨s, V, hs, hV, hfaithful, hF, hshows⟩ := World.shownSelected hp abstraction order selector
    obtain ⟨t, W, ht, hW, hfaithful', hG, hshows'⟩ := World.shownSelected hq abstraction order' selector
    rw [Domain.selected_congr hincl.hierarchy] at hG
    have hle := hincl.isLeast_le hF hG
    exact ⟨s, t, V, W, hs, ht, hfaithful, hfaithful', hle, hV, hW,
      hincl.includedIn_views hle hshows hshows'⟩

/-- The linked shapes with statements added to `link(Shape)`, and with a variable and statements added
to `main()`. The added allocation comes first, so that its object takes the first number in a run. -/
def relinkedShapes : List Declaration :=
  [ .cls { name := "Main" },
    .cls { name := "Shape" },
    .cls { name := "Circle", superclass := some ⟨1⟩ },
    .field { name := "next", cls := ⟨1⟩ },
    .method { cls := ⟨1⟩, subsignature := ⟨"link(Shape)"⟩, items :=
      [.this, .param "other", .storeField ⟨1⟩ ⟨0⟩ ⟨0⟩, .storeField ⟨0⟩ ⟨0⟩ ⟨1⟩, .ret (some ⟨1⟩),
        .ret (some ⟨0⟩)] },
    .method { cls := ⟨0⟩, subsignature := ⟨"make()"⟩, isStatic := true, items :=
      [.var "made", .alloc ⟨2⟩ ⟨2⟩, .ret (some ⟨2⟩)] },
    .method { cls := ⟨0⟩, subsignature := ⟨"main()"⟩, isStatic := true, items :=
      [.var "a", .var "b", .var "c", .var "d", .var "e",
        .alloc ⟨7⟩ ⟨1⟩,
        .call .static (some ⟨3⟩) none ⟨⟨0⟩, ⟨"make()"⟩⟩ [],
        .call .static (some ⟨4⟩) none ⟨⟨0⟩, ⟨"make()"⟩⟩ [],
        .call .virtual (some ⟨5⟩) (some ⟨3⟩) ⟨⟨1⟩, ⟨"link(Shape)"⟩⟩ [⟨4⟩],
        .call .virtual (some ⟨3⟩) (some ⟨7⟩) ⟨⟨1⟩, ⟨"link(Shape)"⟩⟩ [⟨6⟩],
        .loadField ⟨6⟩ ⟨5⟩ ⟨0⟩] } ]

def relinkedProgram : Program := (Program.ofDeclarations relinkedShapes).toOption.getD {}

def relinkedWorld : World := ⟨relinkedProgram, ⟨2⟩⟩

set_option maxRecDepth 4000 in
theorem larger_finds_more_linked :
    Program.ofDeclarations linkedShapes = .ok linkedProgram ∧
    Program.ofDeclarations relinkedShapes = .ok relinkedProgram ∧
    World.of linkedProgram ⟨2⟩ = .ok linkedWorld ∧ World.of relinkedProgram ⟨2⟩ = .ok relinkedWorld ∧
    linkedProgram.InRange ∧ relinkedProgram.InRange ∧ linkedProgram.IncludedIn relinkedProgram ∧
    ∃ (s t : CsState) (V W : View),
      linkedWorld.solveSelected ⟨.type, 2, 1⟩ .allocationSite .fifo none = .ok s ∧
      relinkedWorld.solveSelected ⟨.type, 2, 1⟩ .allocationSite .lifo none = .ok t ∧
      s.Faithful .selected ∧ t.Faithful .selected ∧ s.facts .selected ≤ t.facts .selected ∧
      s.view = .ok V ∧ t.view = .ok W ∧ V.IncludedIn id W := by
  have hbuilt : Program.ofDeclarations relinkedShapes = .ok relinkedProgram := by rfl
  have hworld : World.of relinkedProgram ⟨2⟩ = .ok relinkedWorld := by rfl
  have hrange : relinkedProgram.InRange := by decide
  have hincl : linkedProgram.IncludedIn relinkedProgram := by decide +kernel
  exact ⟨linkedProgram_built, hbuilt, linkedWorld_accepted, hworld, linkedProgram_inRange, hrange,
    hincl, (larger_finds_more linkedProgram_built hbuilt linkedWorld_accepted hworld
      linkedProgram_inRange hrange hincl .allocationSite .fifo .lifo).2 ⟨.type, 2, 1⟩⟩

end PointsTo
