import PointsTo.Proofs.Accepted
import PointsTo.Proofs.Leads
import PointsTo.Proofs.Termination
import Mathlib.Data.Set.Finite.List

/-!
# A finite closed set of facts

Whatever an analysis of a program can find out is about the variables, sites, classes and methods of
the program. All such facts together are closed under the rules, finitely many, and everything the
rules look up for them is there. What contexts and objects there can be depends on the domain; it is
enough to know finite sets that the domain does not lead out of (`Domain.Bounds`).
-/

namespace PointsTo

/-- Finite sets of contexts and objects that the operations of a domain stay within. -/
structure Domain.Bounds {K O : Type} (D : Domain K O) (p : Program) where
  contexts : Set K
  objects : Set O
  finite_contexts : contexts.Finite
  finite_objects : objects.Finite
  start : D.start ∈ contexts
  allocate : ∀ {k a site}, k ∈ contexts → p.allocSite a = .ok site → D.allocate k a site ∈ objects
  calleeContext : ∀ {k c site r}, k ∈ contexts → p.callSite c = .ok site →
    (∀ x, r = some x → x ∈ objects) → D.calleeContext k c r ∈ contexts
  mark : ∀ {c site cls info}, p.callSite c = .ok site → p.hierarchy.cls cls = .ok info →
    D.mark c cls ∈ objects
  classOf : ∀ {x}, x ∈ objects → ∃ info, p.hierarchy.cls (D.classOf x) = .ok info
  sourceOf : ∀ {x c}, x ∈ objects → D.sourceOf x = some c → ∃ site, p.callSite c = .ok site

/-- The classes of the marks that a plan hands out are known. -/
structure TaintPlan.Known (t : TaintPlan) (p : Program) : Prop where
  source : ∀ {m cls}, t.sourceClass? m = some cls → ∃ info, p.hierarchy.cls cls = .ok info
  transfer : ∀ {m rule}, rule ∈ t.transfersOf m → ∃ info, p.hierarchy.cls rule.cls = .ok info

/-- The static field that a statement stores to. -/
def Stmt.storedField? : Stmt → Option FieldId
  | .storeStatic field _ => some field
  | _ => none

/-- The fields that something is stored to. -/
def Program.storedFields (p : Program) : List FieldId :=
  (p.bodies.toList.reduceOption.flatMap fun body ↦ body.stmts.filterMap Stmt.storedField?) ++
    p.vars.toList.flatMap fun info ↦ info.index.storeFields.map (·.field)

theorem Program.mem_storedFields_of_stmt {p : Program} {m : MethodId} {body : MethodBody}
    (hbody : p.body m = some body) {field : FieldId} {rhs : VarId}
    (hstmt : .storeStatic field rhs ∈ body.stmts) : field ∈ p.storedFields := by
  refine List.mem_append_left _ (List.mem_flatMap.2 ⟨body, mem_bodies hbody, ?_⟩)
  exact List.mem_filterMap.2 ⟨_, hstmt, rfl⟩

theorem Program.mem_storedFields_of_store {p : Program} {v : VarId} {info : VarInfo}
    (hinfo : p.var v = .ok info) {store : FieldStore} (hstore : store ∈ info.index.storeFields) :
    store.field ∈ p.storedFields := by
  refine List.mem_append_right _ (List.mem_flatMap.2 ⟨info, mem_vars hinfo, ?_⟩)
  exact List.mem_map.2 ⟨store, hstore, rfl⟩

namespace Domain.Bounds

variable {K O : Type} {D : Domain K O} {p : Program} (B : D.Bounds p)

/-- The places that can refer to something. -/
def Within : Place K O → Prop
  | .var k v => k ∈ B.contexts ∧ ∃ info, p.var v = .ok info
  | .staticField f => f ∈ p.storedFields
  | .instanceField x f => x ∈ B.objects ∧ f ∈ p.storedFields
  | .arrayIndex x => x ∈ B.objects

/-- All facts about what the program speaks of. -/
def allFacts (entry : MethodId) : Facts K O where
  pts P x := B.Within P ∧ x ∈ B.objects
  reaches m := m.ctx ∈ B.contexts ∧ m.id ∈ entry :: p.hierarchy.declaredMethods
  calls e := e.site.ctx ∈ B.contexts ∧ e.callee.ctx ∈ B.contexts ∧
    e.callee.id ∈ p.hierarchy.declaredMethods

variable {entry : MethodId} {taint : Option TaintPlan}

theorem includes_allFacts {P Q : Place K O} (hQ : B.Within P → B.Within Q) :
    (B.allFacts entry).Includes P Q :=
  fun _ h ↦ ⟨hQ h.1, h.2⟩

/-- What a call in the universe is like. -/
theorem makes_allFacts {id : SiteIn K} {callee : MethodId} {receiver : Option (VarId × O)}
    (h : (B.allFacts entry).Makes p D id callee receiver) :
    id.ctx ∈ B.contexts ∧ callee ∈ p.hierarchy.declaredMethods ∧
      (∀ v x, receiver = some (v, x) → (∃ info, p.var v = .ok info) ∧ x ∈ B.objects) := by
  cases h with
  | static hm _ _ _ _ hcallee =>
    exact ⟨hm.1, Hierarchy.mem_of_resolve hcallee, fun v x h ↦ nomatch h⟩
  | receiver hpts _ _ hcallee =>
    refine ⟨hpts.1.1, Program.mem_of_callee hcallee, fun v x h ↦ ?_⟩
    obtain ⟨rfl, rfl⟩ := Prod.mk.inj (Option.some.inj h)
    exact ⟨hpts.1.2, hpts.2⟩

theorem receiver_allFacts {id : SiteIn K} {callee : MethodId} {receiver : Option (VarId × O)}
    (h : (B.allFacts entry).Makes p D id callee receiver) {x : O}
    (hx : receiver.map Prod.snd = some x) : x ∈ B.objects := by
  obtain ⟨⟨v, y⟩, hr, rfl⟩ := Option.map_eq_some_iff.1 hx
  exact ((B.makes_allFacts h).2.2 v y hr).2

/-- The operands of a call are variables. -/
theorem operand_allFacts (hp : p.Analysable) {id : SiteIn K} {callee : MethodId}
    {receiver : Option (VarId × O)} (h : (B.allFacts entry).Makes p D id callee receiver)
    {site : CallSite} (hsite : p.callSite id.id = .ok site) {point : TransferPoint} {v : VarId}
    (hv : point.operand site (receiver.map Prod.fst) = some v) : ∃ info, p.var v = .ok info := by
  cases point with
  | base =>
    obtain ⟨⟨w, x⟩, hr, rfl⟩ := Option.map_eq_some_iff.1 hv
    exact ((B.makes_allFacts h).2.2 w x hr).1
  | result => exact hp.result hsite hv
  | arg index => exact hp.arg hsite (List.mem_of_getElem? hv)

/-- Rules conclude nothing about what the program does not speak of. -/
theorem closed_allFacts (hp : p.Analysable) (htaint : ∀ plan, taint = some plan → plan.Known p) :
    Rules.Closed { program := p, domain := D, entry, taint } (B.allFacts entry) where
  entry := ⟨B.start, List.mem_cons_self⟩
  alloc hm hbody hstmt hsite :=
    ⟨⟨hm.1, hp.target hbody hstmt rfl⟩, B.allocate hm.1 hsite⟩
  copy hm hbody hstmt := B.includes_allFacts fun _ ↦ ⟨hm.1, hp.target hbody hstmt rfl⟩
  loadStatic hm hbody hstmt := B.includes_allFacts fun _ ↦ ⟨hm.1, hp.target hbody hstmt rfl⟩
  storeStatic _ hbody hstmt :=
    B.includes_allFacts fun _ ↦ Program.mem_storedFields_of_stmt hbody hstmt
  storeField hpts hinfo hstore :=
    B.includes_allFacts fun _ ↦ ⟨hpts.2, Program.mem_storedFields_of_store hinfo hstore⟩
  loadField := by
    intro k v x info load hpts hinfo hload
    have hlhs := (hp.inRange.loads info (Program.mem_vars hinfo)).1 load hload
    exact B.includes_allFacts fun _ ↦ ⟨hpts.1.1, Program.var_eq_ok_iff.2 hlhs⟩
  storeArray hpts _ _ := B.includes_allFacts fun _ ↦ hpts.2
  loadArray := by
    intro k v x info lhs hpts hinfo hload
    have hlhs := (hp.inRange.loads info (Program.mem_vars hinfo)).2 lhs hload
    exact B.includes_allFacts fun _ ↦ ⟨hpts.1.1, Program.var_eq_ok_iff.2 hlhs⟩
  edge := by
    intro id callee receiver site hmakes hsite
    obtain ⟨hctx, hcallee, -⟩ := B.makes_allFacts hmakes
    have hcontext : D.calleeContext id.ctx id.id (receiver.map Prod.snd) ∈ B.contexts :=
      B.calleeContext hctx hsite fun x hx ↦ B.receiver_allFacts hmakes hx
    exact ⟨hctx, hcontext, hcallee⟩
  this := by
    intro id callee v x this hmakes hthis
    have hx : x ∈ B.objects := B.receiver_allFacts hmakes rfl
    have hsite : ∃ site, p.callSite id.id = .ok site := by
      cases hmakes with
      | receiver _ hinfo hc _ =>
        obtain ⟨site, hsite, -⟩ := hp.invokes hinfo hc
        exact ⟨site, hsite⟩
    obtain ⟨site, hsite⟩ := hsite
    have hcontext : D.calleeContext id.ctx id.id (some x) ∈ B.contexts :=
      B.calleeContext (B.makes_allFacts hmakes).1 hsite fun y hy ↦ Option.some.inj hy ▸ hx
    exact ⟨⟨hcontext, hp.this hthis⟩, hx⟩
  callee he := ⟨he.2.1, List.mem_cons_of_mem _ he.2.2⟩
  argument := by
    intro e site body arg param he _ hbody harg
    exact B.includes_allFacts fun _ ↦ ⟨he.2.1, hp.param hbody (List.of_mem_zip harg).2⟩
  result he hsite _ hresult _ := B.includes_allFacts fun _ ↦ ⟨he.1, hp.result hsite hresult⟩
  source := by
    intro plan id callee receiver site cls result hplan hmakes hsite hcls hresult
    obtain ⟨info, hinfo⟩ := (htaint plan hplan).source hcls
    exact ⟨⟨(B.makes_allFacts hmakes).1, hp.result hsite hresult⟩, B.mark hsite hinfo⟩
  transfer := by
    intro plan id callee receiver site rule source target x origin hplan hmakes hsite hrule _ htarget
      hpts horigin
    obtain ⟨info, hinfo⟩ := (htaint plan hplan).transfer hrule
    obtain ⟨site', hsite'⟩ := B.sourceOf hpts.2 horigin
    exact ⟨⟨(B.makes_allFacts hmakes).1, B.operand_allFacts hp hmakes hsite htarget⟩,
      B.mark hsite' hinfo⟩

theorem answered_allFacts (hp : p.Analysable) :
    Rules.Answered { program := p, domain := D, entry, taint } (B.allFacts entry) where
  alloc _ hbody hstmt := hp.allocSite hbody hstmt
  invoke _ hbody hstmt := hp.callSite hbody hstmt
  static := by
    intro m body c site _ _ _ hsite hkind
    have hdynamic : site.kind ≠ .dynamic := by
      rw [hkind]
      decide
    obtain ⟨info, hinfo⟩ := hp.calls hsite hdynamic
    exact Hierarchy.resolve_ok hinfo
  var hpts := hpts.1.2
  receiver := by
    intro k v x info c hpts hinfo hc
    obtain ⟨site, hsite, -⟩ := hp.invokes hinfo hc
    obtain ⟨cls, hcls⟩ := B.classOf hpts.2
    obtain ⟨callee, hcallee⟩ := hp.callee hsite hcls
    exact ⟨site, callee, hsite, hcallee⟩

/-! ## Finiteness -/

theorem finite_ids (e : Entity) (n : Nat) : {i : Id e | i.index < n}.Finite := by
  refine (Set.finite_range fun i : Fin n ↦ (⟨i⟩ : Id e)).subset fun i hi ↦ ?_
  exact ⟨⟨i.index, hi⟩, rfl⟩

theorem finite_within : {P | B.Within P}.Finite := by
  have hvars : {v : VarId | ∃ info, p.var v = .ok info}.Finite := by
    simp only [Program.var_eq_ok_iff]
    exact finite_ids .var p.vars.size
  have hfields : {f | f ∈ p.storedFields}.Finite := List.finite_toSet p.storedFields
  have hvar := (B.finite_contexts.prod hvars).image fun q ↦ (Place.var q.1 q.2 : Place K O)
  have hstatic := hfields.image fun f ↦ (Place.staticField f : Place K O)
  have hinstance := (B.finite_objects.prod hfields).image
    fun q ↦ (Place.instanceField q.1 q.2 : Place K O)
  have harray := B.finite_objects.image fun x ↦ (Place.arrayIndex x : Place K O)
  refine (((hvar.union hstatic).union hinstance).union harray).subset fun P hP ↦ ?_
  cases P with
  | var k v => exact .inl (.inl (.inl ⟨(k, v), hP, rfl⟩))
  | staticField f => exact .inl (.inl (.inr ⟨f, hP, rfl⟩))
  | instanceField x f => exact .inl (.inr ⟨(x, f), hP, rfl⟩)
  | arrayIndex x => exact .inr ⟨x, hP, rfl⟩

theorem finite_allFacts : (B.allFacts entry).Finite where
  pts := (B.finite_within.prod B.finite_objects).subset fun _ hq ↦ hq
  reaches := by
    have hmethods := List.finite_toSet (entry :: p.hierarchy.declaredMethods)
    have hpairs := (B.finite_contexts.prod hmethods).image fun q ↦ (⟨q.1, q.2⟩ : MethodIn K)
    exact hpairs.subset fun m hm ↦ ⟨(m.ctx, m.id), hm, rfl⟩

end Domain.Bounds

end PointsTo
