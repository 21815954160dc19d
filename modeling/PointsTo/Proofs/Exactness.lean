import PointsTo.Proofs.Bounds

/-!
# Solvers find the least solution

A solver returns on every accepted program, with states that are exact: read as facts they are the
least set closed under the inference rules (`solvePlain_isLeast`, `solveSelected_isLeast`). Reading a
state as facts loses nothing (`State.Faithful`).

The general statements are about a setup with an interpretation whose domain has bounds; a solver is
one instance, a run that takes its items in another order is another.
-/

namespace PointsTo

variable {C : Type} [Contextual C] {e : Entity} {σ K O : Type}

/-- Everything in a state has a meaning, and different numbers have different meanings. -/
structure State.Faithful (M : Meaning C e σ K O) (s : State C e σ) : Prop where
  points : ∀ {p o}, s.flow.Points p o →
    (∃ P, M.place s.names p = some P) ∧ ∃ x, M.obj s.names o = some x
  reaches : ∀ {m}, s.Reaches m → ∃ k, M.ctx s.names m.ctx = some k
  calls : ∀ {edge}, s.Calls edge →
    (∃ k, M.ctx s.names edge.site.ctx = some k) ∧ ∃ l, M.ctx s.names edge.callee.ctx = some l
  place_inj : ∀ {p q P}, M.place s.names p = some P → M.place s.names q = some P → p = q
  obj_inj : ∀ {o o' x}, M.obj s.names o = some x → M.obj s.names o' = some x → o = o'
  ctx_inj : ∀ {c c' k}, M.ctx s.names c = some k → M.ctx s.names c' = some k → c = c'

theorem Rules.Answered.mono {r : Rules K O} {F G : Facts K O} (h : r.Answered G) (hle : F ≤ G) :
    r.Answered F where
  alloc hm := h.alloc ((Facts.le_iff.1 hle).2.1 _ hm)
  invoke hm := h.invoke ((Facts.le_iff.1 hle).2.1 _ hm)
  static hm := h.static ((Facts.le_iff.1 hle).2.1 _ hm)
  var hpts := h.var ((Facts.le_iff.1 hle).1 _ _ hpts)
  receiver hpts := h.receiver ((Facts.le_iff.1 hle).1 _ _ hpts)

namespace Interpretation

variable {S : Setup C e σ} {R : Interpretation S K O} {F : Facts K O} {entry : MethodId}
  {s : State C e σ}

theorem Sound.faithful (h : R.Sound F s) : s.Faithful R.meaning where
  points := by
    intro p o hp
    obtain ⟨P, x, hP, hx, -⟩ := h.delivers (.inl hp)
    exact ⟨⟨P, hP⟩, x, hx⟩
  reaches := by
    intro m hm
    obtain ⟨k, hk, -⟩ := h.reaches hm
    exact ⟨k, hk⟩
  calls := by
    intro edge he
    obtain ⟨k, l, hk, hl, -⟩ := h.calls he
    exact ⟨⟨k, hk⟩, l, hl⟩
  place_inj := R.laws.place_inj h.valid
  obj_inj := R.laws.obj_inj h.valid
  ctx_inj := R.laws.ctx_inj h.valid

/-- What it takes for all runs to come to an end: names to start from, and a finite closed set of
facts that is answered. -/
structure Confined (R : Interpretation S K O) (names : σ) (entry : MethodId) (U : Facts K O) :
    Prop where
  valid : R.Valid names
  closed : (R.rules entry).Closed U
  answered : (R.rules entry).Answered U
  finite : U.Finite

/-- What it takes for all runs to be exact: transfers start only from operands that are watched. -/
structure Ready (R : Interpretation S K O) (names : σ) (entry : MethodId) (U : Facts K O) :
    Prop extends R.Confined names entry U where
  watchable : ∀ plan, S.taint = some plan → plan.Watchable

section

variable {names : σ} {U : Facts K O} (h : R.Confined names entry U)

include h

theorem Confined.underway (order : WorkOrder) : R.Underway U (S.initial names order entry) :=
  .initial h.closed h.valid order

theorem Confined.runFor_ok (order : WorkOrder) (n : Nat) :
    ∃ s, S.runFor n (S.initial names order entry) = .ok s :=
  (h.underway order).runFor_ok h.closed h.answered n

theorem Confined.runFor_finishes (order : WorkOrder) :
    ∃ n s, S.runFor n (S.initial names order entry) = .ok s ∧ s.pending.poll = none :=
  (h.underway order).runFor_finishes h.closed h.answered h.finite

theorem Confined.solve_finishes (order : WorkOrder) :
    ∃ s, S.solve names order entry = .ok s ∧
      Relation.ReflTransGen S.Step (S.initial names order entry) s ∧ s.Finished :=
  (h.underway order).run_finishes h.closed h.answered h.finite

/-- Whatever the transfers are, what objects and methods entail besides is seen to. -/
theorem Confined.attended {order : WorkOrder}
    (hs : Relation.ReflTransGen S.Step (S.initial names order entry) s) :
    R.Attended U entry (fun _ _ ↦ False) s :=
  (Attended.initial h.closed h.valid order _).steps h.closed h.answered hs

/-- Whatever order items are taken in, a run never says more than a closed set of facts. -/
theorem Confined.sound {G : Facts K O} (hG : (R.rules entry).Closed G) {order : WorkOrder}
    (hs : Relation.ReflTransGen S.Step (S.initial names order entry) s) : R.Sound G s := by
  -- Within the universe, `G` answers everything that is looked up, so the run keeps to it.
  have hclosed := h.closed.inter hG
  have hanswered := h.answered.mono (U.inter_le_left G)
  have hunder := (Underway.initial hclosed h.valid order).steps hclosed hanswered hs
  exact hunder.sound.mono (U.inter_le_right G)

end

section

variable {names : σ} {U : Facts K O} (h : R.Ready names entry U) {order : WorkOrder}
  (hs : Relation.ReflTransGen S.Step (S.initial names order entry) s)

include h hs

theorem Ready.invariant : R.Invariant U entry s :=
  (Invariant.initial h.closed h.valid order).steps h.closed h.answered h.watchable hs

/-- Whatever order items were taken in, a finished run has found the least solution. -/
theorem Ready.isLeast_facts (hfin : s.Finished) :
    IsLeast {F | (R.rules entry).Closed F} (s.facts R.meaning) :=
  ⟨(h.invariant hs).closed hfin, fun _ hG ↦ (h.sound hG hs).facts_le⟩

end

/-- A solver returns, and what it returns is exact. -/
theorem Ready.solve_isLeast {names : σ} {U : Facts K O} (h : R.Ready names entry U)
    (order : WorkOrder) :
    ∃ s, S.solve names order entry = .ok s ∧
      Relation.ReflTransGen S.Step (S.initial names order entry) s ∧ s.Finished ∧
      s.Faithful R.meaning ∧ IsLeast {F | (R.rules entry).Closed F} (s.facts R.meaning) := by
  obtain ⟨s, hsolve, hsteps, hfin⟩ := h.solve_finishes order
  exact ⟨s, hsolve, hsteps, hfin, (h.invariant hsteps).sound.faithful, h.isLeast_facts hsteps hfin⟩

end Interpretation

/-! ## Programs to run on

Two circles come out of one factory and are linked through a virtual call. In the other program nodes
hold themselves and each other, variables are copied in a circle, and the method that ties nodes calls
itself on those it makes. -/

def linkedShapes : List Declaration :=
  [ .cls { name := "Main" },
    .cls { name := "Shape" },
    .cls { name := "Circle", superclass := some ⟨1⟩ },
    .field { name := "next", cls := ⟨1⟩ },
    .method { cls := ⟨1⟩, subsignature := ⟨"link(Shape)"⟩, items :=
      [.this, .param "other", .storeField ⟨0⟩ ⟨0⟩ ⟨1⟩, .ret (some ⟨0⟩)] },
    .method { cls := ⟨0⟩, subsignature := ⟨"make()"⟩, isStatic := true, items :=
      [.var "made", .alloc ⟨2⟩ ⟨2⟩, .ret (some ⟨2⟩)] },
    .method { cls := ⟨0⟩, subsignature := ⟨"main()"⟩, isStatic := true, items :=
      [.var "a", .var "b", .var "c", .var "d",
        .call .static (some ⟨3⟩) none ⟨⟨0⟩, ⟨"make()"⟩⟩ [],
        .call .static (some ⟨4⟩) none ⟨⟨0⟩, ⟨"make()"⟩⟩ [],
        .call .virtual (some ⟨5⟩) (some ⟨3⟩) ⟨⟨1⟩, ⟨"link(Shape)"⟩⟩ [⟨4⟩],
        .loadField ⟨6⟩ ⟨5⟩ ⟨0⟩] } ]

def linkedProgram : Program := (Program.ofDeclarations linkedShapes).toOption.getD {}

def linkedWorld : World := ⟨linkedProgram, ⟨2⟩⟩

set_option maxRecDepth 4000 in
theorem linkedProgram_built : Program.ofDeclarations linkedShapes = .ok linkedProgram := by rfl

set_option maxRecDepth 4000 in
theorem linkedWorld_accepted : World.of linkedProgram ⟨2⟩ = .ok linkedWorld := by rfl

set_option maxRecDepth 4000 in
theorem linkedProgram_inRange : linkedProgram.InRange := by decide

def knottedNodes : List Declaration :=
  [ .cls { name := "Node" },
    .field { name := "next", cls := ⟨0⟩ },
    .method { cls := ⟨0⟩, subsignature := ⟨"tie(Node)"⟩, items :=
      [.this, .param "other", .var "made", .alloc ⟨2⟩ ⟨0⟩, .storeField ⟨0⟩ ⟨0⟩ ⟨2⟩,
        .storeField ⟨2⟩ ⟨0⟩ ⟨0⟩, .copy ⟨1⟩ ⟨2⟩, .copy ⟨2⟩ ⟨1⟩, .copy ⟨2⟩ ⟨2⟩,
        .call .virtual (some ⟨1⟩) (some ⟨2⟩) ⟨⟨0⟩, ⟨"tie(Node)"⟩⟩ [⟨0⟩], .ret (some ⟨1⟩)] },
    .method { cls := ⟨0⟩, subsignature := ⟨"main()"⟩, isStatic := true, items :=
      [.var "node", .alloc ⟨3⟩ ⟨0⟩, .storeField ⟨3⟩ ⟨0⟩ ⟨3⟩, .loadField ⟨3⟩ ⟨3⟩ ⟨0⟩,
        .call .virtual (some ⟨3⟩) (some ⟨3⟩) ⟨⟨0⟩, ⟨"tie(Node)"⟩⟩ [⟨3⟩]] } ]

def knottedProgram : Program := (Program.ofDeclarations knottedNodes).toOption.getD {}

def knottedWorld : World := ⟨knottedProgram, ⟨1⟩⟩

set_option maxRecDepth 4000 in
theorem knottedProgram_built : Program.ofDeclarations knottedNodes = .ok knottedProgram := by rfl

set_option maxRecDepth 4000 in
theorem knottedWorld_accepted : World.of knottedProgram ⟨1⟩ = .ok knottedWorld := by rfl

set_option maxRecDepth 4000 in
theorem knottedProgram_inRange : knottedProgram.InRange := by decide

/-! ## Without contexts -/

/-- The reading of an analysis without contexts. -/
def World.plainInterpretation (w : World) (abstraction : HeapAbstraction) :
    Interpretation w.plainSetup Unit AbstractObject where
  meaning := .plain
  domain := .plain abstraction
  Valid := (Heap.Keyed · w.program abstraction)
  laws := Meaning.lawful_plain w.program abstraction

theorem World.plain_ready {w : World} (hp : w.program.Analysable) (abstraction : HeapAbstraction) :
    (w.plainInterpretation abstraction).Ready { abstraction } w.entry
      ((Domain.plainBounds hp abstraction).allFacts w.entry) where
  valid := Heap.keyed_empty w.program abstraction
  closed := (Domain.plainBounds hp abstraction).closed_allFacts hp fun _ h ↦ nomatch h
  answered := (Domain.plainBounds hp abstraction).answered_allFacts hp
  finite := (Domain.plainBounds hp abstraction).finite_allFacts
  watchable _ h := nomatch h

/-- On every accepted program, whatever the abstraction of the heap and the order of work, an analysis
without contexts returns exactly the least solution of the inference rules. -/
theorem solvePlain_isLeast {ds : List Declaration} {p : Program} {entry : MethodId} {w : World}
    (hbuilt : Program.ofDeclarations ds = .ok p) (hworld : World.of p entry = .ok w)
    (hrange : p.InRange) (abstraction : HeapAbstraction) (order : WorkOrder) :
    ∃ s, w.solvePlain abstraction order = .ok s ∧ s.Faithful .plain ∧
      IsLeast {F | Rules.Closed { program := p, domain := .plain abstraction, entry } F}
        (s.facts .plain) := by
  obtain ⟨rfl, -⟩ := World.of_eq_ok hworld
  have hp : (World.mk p entry).program.Analysable := Program.analysable hbuilt hworld hrange
  obtain ⟨s, hsolve, -, -, hfaithful, hleast⟩ := (World.plain_ready hp abstraction).solve_isLeast order
  exact ⟨s, hsolve, hfaithful, hleast⟩

theorem solvePlain_isLeast_linked :
    Program.ofDeclarations linkedShapes = .ok linkedProgram ∧
    World.of linkedProgram ⟨2⟩ = .ok linkedWorld ∧ linkedProgram.InRange ∧
    ∃ s, linkedWorld.solvePlain .allocationSite .lifo = .ok s ∧ s.Faithful .plain ∧
      IsLeast {F | Rules.Closed
          { program := linkedProgram, domain := .plain .allocationSite, entry := ⟨2⟩ } F}
        (s.facts .plain) :=
  ⟨linkedProgram_built, linkedWorld_accepted, linkedProgram_inRange,
    solvePlain_isLeast linkedProgram_built linkedWorld_accepted linkedProgram_inRange
      .allocationSite .lifo⟩

/-! ## With contexts -/

/-- The reading of an analysis with contexts. -/
def World.selectedInterpretation (w : World) (hp : w.program.Analysable) (selector : Selector)
    (abstraction : HeapAbstraction) (taint : Option TaintPlan) :
    Interpretation (w.selectedSetup selector taint) (List ContextStep) HeapObject where
  meaning := .selected
  domain := .selected w.program abstraction selector
  Valid := (CsHeap.Valid · w.program abstraction)
  laws := Meaning.lawful_selected (fun hsite ↦ hp.allocator hsite) abstraction selector

theorem World.selected_confined {w : World} (hp : w.program.Analysable) (selector : Selector)
    (abstraction : HeapAbstraction) {taint : Option TaintPlan}
    (hknown : ∀ plan, taint = some plan → plan.Known w.program) :
    (w.selectedInterpretation hp selector abstraction taint).Confined { heap := { abstraction } }
      w.entry ((Domain.selectedBounds hp abstraction selector).allFacts w.entry) where
  valid := CsHeap.valid_start w.program abstraction
  closed := (Domain.selectedBounds hp abstraction selector).closed_allFacts hp hknown
  answered := (Domain.selectedBounds hp abstraction selector).answered_allFacts hp
  finite := (Domain.selectedBounds hp abstraction selector).finite_allFacts

theorem World.selected_ready {w : World} (hp : w.program.Analysable) (selector : Selector)
    (abstraction : HeapAbstraction) {taint : Option TaintPlan}
    (hknown : ∀ plan, taint = some plan → plan.Known w.program)
    (hwatch : ∀ plan, taint = some plan → plan.Watchable) :
    (w.selectedInterpretation hp selector abstraction taint).Ready { heap := { abstraction } } w.entry
      ((Domain.selectedBounds hp abstraction selector).allFacts w.entry) where
  toConfined := selected_confined hp selector abstraction hknown
  watchable := hwatch

/-- On every accepted program, whatever the contexts, the abstraction of the heap and the order of
work, an analysis with contexts returns exactly the least solution of the inference rules, contexts
and objects being read as what they stand for. -/
theorem solveSelected_isLeast {ds : List Declaration} {p : Program} {entry : MethodId} {w : World}
    (hbuilt : Program.ofDeclarations ds = .ok p) (hworld : World.of p entry = .ok w)
    (hrange : p.InRange) (selector : Selector) (abstraction : HeapAbstraction) (order : WorkOrder) :
    ∃ s, w.solveSelected selector abstraction order none = .ok s ∧ s.Faithful .selected ∧
      IsLeast {F | Rules.Closed
          { program := p, domain := .selected p abstraction selector, entry } F}
        (s.facts .selected) := by
  obtain ⟨rfl, -⟩ := World.of_eq_ok hworld
  have hp : (World.mk p entry).program.Analysable := Program.analysable hbuilt hworld hrange
  have hnone : ∀ {P : TaintPlan → Prop} plan, (none : Option TaintPlan) = some plan → P plan :=
    fun _ h ↦ nomatch h
  obtain ⟨s, hsolve, -, -, hfaithful, hleast⟩ :=
    (World.selected_ready hp selector abstraction hnone hnone).solve_isLeast order
  exact ⟨s, hsolve, hfaithful, hleast⟩

theorem solveSelected_isLeast_linked :
    Program.ofDeclarations linkedShapes = .ok linkedProgram ∧
    World.of linkedProgram ⟨2⟩ = .ok linkedWorld ∧ linkedProgram.InRange ∧
    ∃ s, linkedWorld.solveSelected ⟨.object, 2, 1⟩ .allocationSite .fifo none = .ok s ∧
      s.Faithful .selected ∧
      IsLeast {F | Rules.Closed
          { program := linkedProgram
            domain := .selected linkedProgram .allocationSite ⟨.object, 2, 1⟩
            entry := ⟨2⟩ } F}
        (s.facts .selected) :=
  ⟨linkedProgram_built, linkedWorld_accepted, linkedProgram_inRange,
    solveSelected_isLeast linkedProgram_built linkedWorld_accepted linkedProgram_inRange
      ⟨.object, 2, 1⟩ .allocationSite .fifo⟩

end PointsTo
