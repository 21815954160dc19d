import PointsTo.Config.Basic
import PointsTo.Proofs.Exactness

/-!
# Taint rules on call edges

The rules for taint speak of the calls that are made, each with the receiver it is made on. A reader
would rather have them speak of call edges and of the receiver variable that a call site names. If call
sites name a receiver exactly where their kind has one, the two readings have the same least solution
(`isLeast_taintClosed`): a transfer is made for every call edge and every mark that its operands refer
to in the end, whichever of them was found first.
-/

namespace PointsTo

/-- Call sites name a receiver exactly if their kind has one. -/
def Program.ReceiversMatch (p : Program) : Prop :=
  ∀ site ∈ p.callSites.toList, site.receiver.isSome = site.kind.hasReceiver

instance (p : Program) : Decidable p.ReceiversMatch := by
  unfold Program.ReceiversMatch
  infer_instance

/-- What follows from call edges is there: marks from sources, and marks handed on. -/
structure Rules.TaintClosed {K O : Type} (r : Rules K O) (F : Facts K O) : Prop where
  /-- The rules other than those for taint. -/
  base : Rules.Closed { r with taint := none } F
  /-- An edge to a source puts a mark of the call into its result. -/
  source : ∀ {plan edge site cls result}, r.taint = some plan → F.calls edge →
    r.program.callSite edge.site.id = .ok site → plan.sourceClass? edge.callee.id = some cls →
    site.result = some result →
    F.pts (.var edge.site.ctx result) (r.domain.mark edge.site.id cls)
  /-- An edge to a method with a transfer rule hands on every mark at one operand to the other. -/
  transfer : ∀ {plan edge site rule source target o origin}, r.taint = some plan → F.calls edge →
    r.program.callSite edge.site.id = .ok site → rule ∈ plan.transfersOf edge.callee.id →
    rule.source.operand site site.receiver = some source →
    rule.target.operand site site.receiver = some target →
    F.pts (.var edge.site.ctx source) o → r.domain.sourceOf o = some origin →
    F.pts (.var edge.site.ctx target) (r.domain.mark origin rule.cls)

section

variable {K O : Type} {r : Rules K O} {F : Facts K O}

theorem Rules.Closed.withoutTaint (h : r.Closed F) : Rules.Closed { r with taint := none } F where
  entry := h.entry
  alloc := h.alloc
  copy := h.copy
  loadStatic := h.loadStatic
  storeStatic := h.storeStatic
  storeField := h.storeField
  loadField := h.loadField
  storeArray := h.storeArray
  loadArray := h.loadArray
  edge := h.edge
  this := h.this
  callee := h.callee
  argument := h.argument
  result := h.result
  source h := nomatch h
  transfer h := nomatch h

/-- In the least solution every edge belongs to a call that is made. -/
theorem makes_of_calls (h : IsLeast {F | r.Closed F} F) {edge : Edge K} (hedge : F.calls edge) :
    ∃ receiver, F.Makes r.program r.domain edge.site edge.callee.id receiver := by
  have hF : r.Closed F := h.1
  -- Leaving out all other edges gives a closed set, which the least one cannot exceed.
  let G : Facts K O :=
    { pts := F.pts
      reaches := F.reaches
      calls := fun edge ↦ F.calls edge ∧
        ∃ receiver, F.Makes r.program r.domain edge.site edge.callee.id receiver }
  have hle : G ≤ F := Facts.le_iff.2 ⟨fun _ _ ↦ id, fun _ ↦ id, fun _ ↦ And.left⟩
  have hG : r.Closed G :=
    { entry := hF.entry
      alloc := hF.alloc
      copy := hF.copy
      loadStatic := hF.loadStatic
      storeStatic := hF.storeStatic
      storeField := hF.storeField
      loadField := hF.loadField
      storeArray := hF.storeArray
      loadArray := hF.loadArray
      edge := fun {_ _ receiver _} hmakes hsite ↦
        ⟨hF.edge (hmakes.mono hle) hsite, receiver, hmakes.mono hle⟩
      this := fun hmakes ↦ hF.this (hmakes.mono hle)
      callee := fun he ↦ hF.callee he.1
      argument := fun he ↦ hF.argument he.1
      result := fun he ↦ hF.result he.1
      source := fun hplan hmakes ↦ hF.source hplan (hmakes.mono hle)
      transfer := fun hplan hmakes ↦ hF.transfer hplan (hmakes.mono hle) }
  have hmin : F ≤ G := h.2 hG
  exact ((Facts.le_iff.1 hmin).2.2 edge hedge).2

/-- The variable that a call is made through is the receiver that its site names. -/
theorem Facts.Makes.base {p : Program} {D : Domain K O} (hp : p.Analysable) (hr : p.ReceiversMatch)
    {id : SiteIn K} {callee : MethodId} {receiver : Option (VarId × O)}
    (h : F.Makes p D id callee receiver) {site : CallSite}
    (hsite : p.callSite id.id = .ok site) : receiver.map Prod.fst = site.receiver := by
  cases h with
  | static _ _ _ hsite' hkind _ =>
    obtain rfl := Except.ok.inj (hsite.symm.trans hsite')
    have hnone := hr site (Program.mem_callSites hsite)
    rw [hkind] at hnone
    exact (Option.isSome_eq_false_iff.1 hnone |> Option.isNone_iff_eq_none.1).symm
  | receiver _ hinfo hc _ =>
    obtain ⟨site', hsite', hreceiver⟩ := hp.invokes hinfo hc
    obtain rfl := Except.ok.inj (hsite.symm.trans hsite')
    exact hreceiver.symm

theorem Rules.TaintClosed.closed (hp : r.program.Analysable) (hr : r.program.ReceiversMatch)
    (h : r.TaintClosed F) : r.Closed F := by
  refine h.base.withTaint ?_ ?_
  · intro plan id callee receiver site cls result hplan hmakes hsite hcls hresult
    exact h.source hplan (h.base.edge hmakes hsite) hsite hcls hresult
  · intro plan id callee receiver site rule source target o origin hplan hmakes hsite hrule hsource
      htarget hpts horigin
    rw [hmakes.base hp hr hsite] at hsource htarget
    exact h.transfer hplan (h.base.edge hmakes hsite) hsite hrule hsource htarget hpts horigin

/-- The two readings of the taint rules have the same least solution. -/
theorem isLeast_taintClosed (hp : r.program.Analysable) (hr : r.program.ReceiversMatch)
    (h : IsLeast {F | r.Closed F} F) : IsLeast {F | r.TaintClosed F} F := by
  have hF : r.Closed F := h.1
  refine ⟨⟨hF.withoutTaint, ?_, ?_⟩, fun G hG ↦ h.2 (Rules.TaintClosed.closed hp hr hG)⟩
  · intro plan edge site cls result hplan hedge hsite hcls hresult
    obtain ⟨receiver, hmakes⟩ := makes_of_calls h hedge
    exact hF.source hplan hmakes hsite hcls hresult
  · intro plan edge site rule source target o origin hplan hedge hsite hrule hsource htarget hpts
      horigin
    obtain ⟨receiver, hmakes⟩ := makes_of_calls h hedge
    rw [← hmakes.base hp hr hsite] at hsource htarget
    exact hF.transfer hplan hmakes hsite hrule hsource htarget hpts horigin

end

/-! ## Plans -/

namespace TaintPlan

variable {p : Program} {rules : TaintRules}

theorem mem_transfersOf {t : TaintPlan} {m : MethodId} {rule : Transfer}
    (h : rule ∈ t.transfersOf m) : (m, rule) ∈ t.transfers := by
  obtain ⟨⟨m', rule'⟩, hfiltered, rfl⟩ := List.mem_map.1 h
  obtain ⟨htransfers, hm⟩ := List.mem_filter.1 hfiltered
  obtain rfl : m' = m := of_decide_eq_true hm
  exact htransfers

/-- Valid rules hand on taint from receivers and arguments only. -/
theorem watchable_resolve (h : rules.validate = .ok ()) : (resolve p rules).Watchable := by
  intro m rule hrule
  obtain ⟨r, hr, heq⟩ := List.mem_filterMap.1 (mem_transfersOf hrule)
  obtain ⟨method, -, heq⟩ := Option.bind_eq_some_iff.1 heq
  obtain ⟨cls, -, heq⟩ := Option.bind_eq_some_iff.1 heq
  obtain ⟨-, rfl⟩ := Prod.mk.inj (Option.some.inj heq)
  have hvalid : r.validate = .ok () := by
    unfold TaintRules.validate at h
    split at h
    · cases h
    · exact forM_eq_ok h hr
  intro hsource
  have hresult : r.source = .result := hsource
  simp [TransferRule.validate, hresult] at hvalid

/-- The classes that a plan speaks of are classes of the program. -/
theorem known_resolve (hp : p.Coherent) (rules : TaintRules) : (resolve p rules).Known p := by
  have hnamed : ∀ {name cls}, p.hierarchy.classNamed name = some cls →
      ∃ info, p.hierarchy.cls cls = .ok info :=
    fun hname ↦ Hierarchy.cls_eq_ok (hp.names (mem_of_lookup hname))
  constructor
  case source =>
    intro m cls hcls
    have hmem : (m, cls) ∈ (resolve p rules).sources :=
      List.mem_reverse.1 (mem_of_lookup hcls)
    obtain ⟨r, -, heq⟩ := List.mem_filterMap.1 hmem
    obtain ⟨method, -, heq⟩ := Option.bind_eq_some_iff.1 heq
    obtain ⟨cls', hcls', heq⟩ := Option.bind_eq_some_iff.1 heq
    obtain ⟨-, rfl⟩ := Prod.mk.inj (Option.some.inj heq)
    exact hnamed hcls'
  case transfer =>
    intro m rule hrule
    obtain ⟨r, -, heq⟩ := List.mem_filterMap.1 (mem_transfersOf hrule)
    obtain ⟨method, -, heq⟩ := Option.bind_eq_some_iff.1 heq
    obtain ⟨cls, hcls, heq⟩ := Option.bind_eq_some_iff.1 heq
    obtain ⟨-, rfl⟩ := Prod.mk.inj (Option.some.inj heq)
    exact hnamed hcls

end TaintPlan

end PointsTo
