import PointsTo.CallGraph.Basic
import PointsTo.Context.Selector
import PointsTo.Taint.Rules
import Mathlib.Data.List.DropRight
import Mathlib.Order.Bounds.Basic

/-!
# Inference rules of points-to analysis

What an analysis is to find out, said without worklists, numbers or orders of discovery. A set of
`Facts` tells which objects a place refers to, which methods are reachable and which calls reach which
methods. The rules say which facts follow from others; `Rules.Closed` is the conjunction of them all,
and the result that an analysis is after is the least closed set of facts.

Contexts and objects are values here and not numbers given by a run. A `Domain` says how they are
formed; with the one-element type of contexts the rules are those of an analysis without contexts.
-/

namespace PointsTo

/-- A place that refers to objects of type `O`, under contexts of type `K`. -/
inductive Place (K O : Type) where
  | var (ctx : K) (v : VarId)
  | staticField (field : FieldId)
  | instanceField (base : O) (field : FieldId)
  | arrayIndex (base : O)

/-- How contexts and objects are formed. -/
structure Domain (K O : Type) where
  /-- The context of the entry method. -/
  start : K
  /-- The object that a method under the given context allocates at a site. -/
  allocate : K → AllocSiteId → AllocSite → O
  /-- The context of the callee of a call, given the receiver if there is one. -/
  calleeContext : K → CallSiteId → Option O → K
  classOf : O → ClassId
  /-- The taint mark of a source call, as an object of the given class. -/
  mark : CallSiteId → ClassId → O
  /-- The source call of a taint mark; `none` for other objects. -/
  sourceOf : O → Option CallSiteId

/-! ## Facts -/

@[ext]
structure Facts (K O : Type) where
  pts : Place K O → O → Prop
  reaches : MethodIn K → Prop
  calls : Edge K → Prop

namespace Facts

variable {K O : Type}

/-- Facts are ordered by inclusion. -/
instance : PartialOrder (Facts K O) :=
  PartialOrder.lift (fun F ↦ (F.pts, F.reaches, F.calls)) fun F G h ↦ by
    simp only [Prod.mk.injEq] at h
    exact Facts.ext h.1 h.2.1 h.2.2

theorem le_iff {F G : Facts K O} :
    F ≤ G ↔ (∀ P o, F.pts P o → G.pts P o) ∧ (∀ m, F.reaches m → G.reaches m) ∧
      ∀ e, F.calls e → G.calls e := Iff.rfl

/-- The facts common to two sets. -/
def inter (F G : Facts K O) : Facts K O where
  pts P o := F.pts P o ∧ G.pts P o
  reaches m := F.reaches m ∧ G.reaches m
  calls e := F.calls e ∧ G.calls e

theorem inter_le_left (F G : Facts K O) : F.inter G ≤ F :=
  le_iff.2 ⟨fun _ _ ↦ And.left, fun _ ↦ And.left, fun _ ↦ And.left⟩

theorem inter_le_right (F G : Facts K O) : F.inter G ≤ G :=
  le_iff.2 ⟨fun _ _ ↦ And.right, fun _ ↦ And.right, fun _ ↦ And.right⟩

/-- Whatever `P` refers to, `Q` refers to as well. -/
def Includes (F : Facts K O) (P Q : Place K O) : Prop := ∀ o, F.pts P o → F.pts Q o

theorem Includes.inter {F G : Facts K O} {P Q : Place K O} (hF : F.Includes P Q)
    (hG : G.Includes P Q) : (F.inter G).Includes P Q :=
  fun o h ↦ ⟨hF o h.1, hG o h.2⟩

/-- The calls that are made, each with its callee, and with the variable called through and the
receiver if it is made on one. A static call is made as soon as its method is reachable, any other
on every object that its receiver variable refers to. -/
inductive Makes (p : Program) (D : Domain K O) (F : Facts K O) :
    SiteIn K → MethodId → Option (VarId × O) → Prop
  | static {m : MethodIn K} {body : MethodBody} {c : CallSiteId} {site : CallSite}
      {callee : MethodId} :
      F.reaches m → p.body m.id = some body → .invoke c ∈ body.stmts → p.callSite c = .ok site →
      site.kind = .static → p.hierarchy.resolve site.target = .ok (some callee) →
      Makes p D F ⟨m.ctx, c⟩ callee none
  | receiver {k : K} {v : VarId} {o : O} {info : VarInfo} {c : CallSiteId} {callee : MethodId} :
      F.pts (.var k v) o → p.var v = .ok info → c ∈ info.index.invokes →
      p.callee (some (D.classOf o)) c = .ok (some callee) →
      Makes p D F ⟨k, c⟩ callee (some (v, o))

theorem Makes.mono {p : Program} {D : Domain K O} {F G : Facts K O} (h : F ≤ G) {id : SiteIn K}
    {callee : MethodId} {receiver : Option (VarId × O)} (hm : F.Makes p D id callee receiver) :
    G.Makes p D id callee receiver := by
  cases hm with
  | static hm hbody hc hsite hkind hcallee =>
    exact .static ((le_iff.1 h).2.1 _ hm) hbody hc hsite hkind hcallee
  | receiver hpts hinfo hc hcallee => exact .receiver ((le_iff.1 h).1 _ _ hpts) hinfo hc hcallee

/-- What the first place refers to flows on to the second, because of a statement of a reachable
method, of an object that a field or an array is accessed on, or of a call. -/
inductive Feeds (p : Program) (F : Facts K O) : Place K O → Place K O → Prop
  | copy {m : MethodIn K} {body : MethodBody} {lhs rhs : VarId} :
      F.reaches m → p.body m.id = some body → .copy lhs rhs ∈ body.stmts →
      Feeds p F (.var m.ctx rhs) (.var m.ctx lhs)
  | loadStatic {m : MethodIn K} {body : MethodBody} {lhs : VarId} {field : FieldId} :
      F.reaches m → p.body m.id = some body → .loadStatic lhs field ∈ body.stmts →
      Feeds p F (.staticField field) (.var m.ctx lhs)
  | storeStatic {m : MethodIn K} {body : MethodBody} {field : FieldId} {rhs : VarId} :
      F.reaches m → p.body m.id = some body → .storeStatic field rhs ∈ body.stmts →
      Feeds p F (.var m.ctx rhs) (.staticField field)
  | storeField {k : K} {v : VarId} {o : O} {info : VarInfo} {store : FieldStore} :
      F.pts (.var k v) o → p.var v = .ok info → store ∈ info.index.storeFields →
      Feeds p F (.var k store.rhs) (.instanceField o store.field)
  | loadField {k : K} {v : VarId} {o : O} {info : VarInfo} {load : FieldLoad} :
      F.pts (.var k v) o → p.var v = .ok info → load ∈ info.index.loadFields →
      Feeds p F (.instanceField o load.field) (.var k load.lhs)
  | storeArray {k : K} {v : VarId} {o : O} {info : VarInfo} {rhs : VarId} :
      F.pts (.var k v) o → p.var v = .ok info → rhs ∈ info.index.storeArrays →
      Feeds p F (.var k rhs) (.arrayIndex o)
  | loadArray {k : K} {v : VarId} {o : O} {info : VarInfo} {lhs : VarId} :
      F.pts (.var k v) o → p.var v = .ok info → lhs ∈ info.index.loadArrays →
      Feeds p F (.arrayIndex o) (.var k lhs)
  | argument {e : Edge K} {site : CallSite} {body : MethodBody} {arg param : VarId} :
      F.calls e → p.callSite e.site.id = .ok site → p.body e.callee.id = some body →
      (arg, param) ∈ site.args.zip body.params →
      Feeds p F (.var e.site.ctx arg) (.var e.callee.ctx param)
  | result {e : Edge K} {site : CallSite} {body : MethodBody} {v result : VarId} :
      F.calls e → p.callSite e.site.id = .ok site → p.body e.callee.id = some body →
      site.result = some result → v ∈ body.returnVars →
      Feeds p F (.var e.callee.ctx v) (.var e.site.ctx result)

theorem Feeds.mono {p : Program} {F G : Facts K O} (h : F ≤ G) {P Q : Place K O}
    (hf : F.Feeds p P Q) : G.Feeds p P Q := by
  obtain ⟨hpts, hreaches, hcalls⟩ := le_iff.1 h
  cases hf with
  | copy hm hbody hs => exact .copy (hreaches _ hm) hbody hs
  | loadStatic hm hbody hs => exact .loadStatic (hreaches _ hm) hbody hs
  | storeStatic hm hbody hs => exact .storeStatic (hreaches _ hm) hbody hs
  | storeField hp hv hs => exact .storeField (hpts _ _ hp) hv hs
  | loadField hp hv hl => exact .loadField (hpts _ _ hp) hv hl
  | storeArray hp hv hs => exact .storeArray (hpts _ _ hp) hv hs
  | loadArray hp hv hl => exact .loadArray (hpts _ _ hp) hv hl
  | argument he hsite hbody ha => exact .argument (hcalls _ he) hsite hbody ha
  | result he hsite hbody hr hv => exact .result (hcalls _ he) hsite hbody hr hv

end Facts

/-! ## Rules -/

/-- What the rules of an analysis depend on. -/
structure Rules (K O : Type) where
  program : Program
  domain : Domain K O
  entry : MethodId
  taint : Option TaintPlan := none

namespace Rules

variable {K O : Type}

/-- The facts `F` contain whatever follows from them. -/
structure Closed (r : Rules K O) (F : Facts K O) : Prop where
  entry : F.reaches ⟨r.domain.start, r.entry⟩
  /-- `lhs = new ...` in a reachable method. -/
  alloc : ∀ {m body lhs a site}, F.reaches m → r.program.body m.id = some body →
    .alloc lhs a ∈ body.stmts → r.program.allocSite a = .ok site →
    F.pts (.var m.ctx lhs) (r.domain.allocate m.ctx a site)
  /-- `lhs = rhs` -/
  copy : ∀ {m body lhs rhs}, F.reaches m → r.program.body m.id = some body →
    .copy lhs rhs ∈ body.stmts → F.Includes (.var m.ctx rhs) (.var m.ctx lhs)
  loadStatic : ∀ {m body lhs field}, F.reaches m → r.program.body m.id = some body →
    .loadStatic lhs field ∈ body.stmts → F.Includes (.staticField field) (.var m.ctx lhs)
  storeStatic : ∀ {m body field rhs}, F.reaches m → r.program.body m.id = some body →
    .storeStatic field rhs ∈ body.stmts → F.Includes (.var m.ctx rhs) (.staticField field)
  /-- `v.field = rhs`, for every object that `v` refers to. -/
  storeField : ∀ {k v o info store}, F.pts (.var k v) o → r.program.var v = .ok info →
    store ∈ info.index.storeFields →
    F.Includes (.var k store.rhs) (.instanceField o store.field)
  /-- `lhs = v.field` -/
  loadField : ∀ {k v o info load}, F.pts (.var k v) o → r.program.var v = .ok info →
    load ∈ info.index.loadFields →
    F.Includes (.instanceField o load.field) (.var k load.lhs)
  /-- `v[*] = rhs` -/
  storeArray : ∀ {k v o info rhs}, F.pts (.var k v) o → r.program.var v = .ok info →
    rhs ∈ info.index.storeArrays → F.Includes (.var k rhs) (.arrayIndex o)
  /-- `lhs = v[*]` -/
  loadArray : ∀ {k v o info lhs}, F.pts (.var k v) o → r.program.var v = .ok info →
    lhs ∈ info.index.loadArrays → F.Includes (.arrayIndex o) (.var k lhs)
  /-- A call that is made has an edge to its callee. -/
  edge : ∀ {id callee receiver site}, F.Makes r.program r.domain id callee receiver →
    r.program.callSite id.id = .ok site →
    F.calls ⟨site.kind, id, r.domain.calleeContext id.ctx id.id (receiver.map Prod.snd), callee⟩
  /-- The receiver of a call is what `this` refers to in the callee. -/
  this : ∀ {id callee v o this}, F.Makes r.program r.domain id callee (some (v, o)) →
    r.program.thisVar callee = some this →
    F.pts (.var (r.domain.calleeContext id.ctx id.id (some o)) this) o
  callee : ∀ {e}, F.calls e → F.reaches e.callee
  argument : ∀ {e site body arg param}, F.calls e → r.program.callSite e.site.id = .ok site →
    r.program.body e.callee.id = some body → (arg, param) ∈ site.args.zip body.params →
    F.Includes (.var e.site.ctx arg) (.var e.callee.ctx param)
  result : ∀ {e site body v result}, F.calls e → r.program.callSite e.site.id = .ok site →
    r.program.body e.callee.id = some body → site.result = some result → v ∈ body.returnVars →
    F.Includes (.var e.callee.ctx v) (.var e.site.ctx result)
  /-- The result of calling a source is a mark of that call. -/
  source : ∀ {plan id callee receiver site cls result}, r.taint = some plan →
    F.Makes r.program r.domain id callee receiver → r.program.callSite id.id = .ok site →
    plan.sourceClass? callee = some cls → site.result = some result →
    F.pts (.var id.ctx result) (r.domain.mark id.id cls)
  /-- A call hands marks on between its operands, as the rules for its callee say. -/
  transfer : ∀ {plan id callee receiver site rule source target o origin}, r.taint = some plan →
    F.Makes r.program r.domain id callee receiver → r.program.callSite id.id = .ok site →
    rule ∈ plan.transfersOf callee →
    rule.source.operand site (receiver.map Prod.fst) = some source →
    rule.target.operand site (receiver.map Prod.fst) = some target →
    F.pts (.var id.ctx source) o → r.domain.sourceOf o = some origin →
    F.pts (.var id.ctx target) (r.domain.mark origin rule.cls)

/-- In a closed set, whatever flows on has arrived. -/
theorem Closed.includes {r : Rules K O} {F : Facts K O} (hF : r.Closed F) {P Q : Place K O}
    (h : F.Feeds r.program P Q) : F.Includes P Q := by
  cases h with
  | copy hm hbody hs => exact hF.copy hm hbody hs
  | loadStatic hm hbody hs => exact hF.loadStatic hm hbody hs
  | storeStatic hm hbody hs => exact hF.storeStatic hm hbody hs
  | storeField hp hv hs => exact hF.storeField hp hv hs
  | loadField hp hv hl => exact hF.loadField hp hv hl
  | storeArray hp hv hs => exact hF.storeArray hp hv hs
  | loadArray hp hv hl => exact hF.loadArray hp hv hl
  | argument he hsite hbody ha => exact hF.argument he hsite hbody ha
  | result he hsite hbody hr hv => exact hF.result he hsite hbody hr hv

/-- The rules for taint may be seen to apart from the others. -/
theorem Closed.withTaint {r : Rules K O} {F : Facts K O} (hF : Closed { r with taint := none } F)
    (source : ∀ {plan id callee receiver site cls result}, r.taint = some plan →
      F.Makes r.program r.domain id callee receiver → r.program.callSite id.id = .ok site →
      plan.sourceClass? callee = some cls → site.result = some result →
      F.pts (.var id.ctx result) (r.domain.mark id.id cls))
    (transfer : ∀ {plan id callee receiver site rule source target o origin}, r.taint = some plan →
      F.Makes r.program r.domain id callee receiver → r.program.callSite id.id = .ok site →
      rule ∈ plan.transfersOf callee →
      rule.source.operand site (receiver.map Prod.fst) = some source →
      rule.target.operand site (receiver.map Prod.fst) = some target →
      F.pts (.var id.ctx source) o → r.domain.sourceOf o = some origin →
      F.pts (.var id.ctx target) (r.domain.mark origin rule.cls)) : r.Closed F where
  entry := hF.entry
  alloc := hF.alloc
  copy := hF.copy
  loadStatic := hF.loadStatic
  storeStatic := hF.storeStatic
  storeField := hF.storeField
  loadField := hF.loadField
  storeArray := hF.storeArray
  loadArray := hF.loadArray
  edge := hF.edge
  this := hF.this
  callee := hF.callee
  argument := hF.argument
  result := hF.result
  source := source
  transfer := transfer

/-- Rules have a single conclusion, so what is common to two closed sets is closed. -/
theorem Closed.inter {r : Rules K O} {F G : Facts K O} (hF : r.Closed F) (hG : r.Closed G) :
    r.Closed (F.inter G) where
  entry := ⟨hF.entry, hG.entry⟩
  alloc hm hbody hs hsite := ⟨hF.alloc hm.1 hbody hs hsite, hG.alloc hm.2 hbody hs hsite⟩
  copy hm hbody hs := (hF.copy hm.1 hbody hs).inter (hG.copy hm.2 hbody hs)
  loadStatic hm hbody hs := (hF.loadStatic hm.1 hbody hs).inter (hG.loadStatic hm.2 hbody hs)
  storeStatic hm hbody hs := (hF.storeStatic hm.1 hbody hs).inter (hG.storeStatic hm.2 hbody hs)
  storeField hp hv hs := (hF.storeField hp.1 hv hs).inter (hG.storeField hp.2 hv hs)
  loadField hp hv hs := (hF.loadField hp.1 hv hs).inter (hG.loadField hp.2 hv hs)
  storeArray hp hv hs := (hF.storeArray hp.1 hv hs).inter (hG.storeArray hp.2 hv hs)
  loadArray hp hv hs := (hF.loadArray hp.1 hv hs).inter (hG.loadArray hp.2 hv hs)
  edge hm hsite :=
    ⟨hF.edge (hm.mono (F.inter_le_left G)) hsite, hG.edge (hm.mono (F.inter_le_right G)) hsite⟩
  this hm hthis :=
    ⟨hF.this (hm.mono (F.inter_le_left G)) hthis, hG.this (hm.mono (F.inter_le_right G)) hthis⟩
  callee he := ⟨hF.callee he.1, hG.callee he.2⟩
  argument he hsite hbody ha :=
    (hF.argument he.1 hsite hbody ha).inter (hG.argument he.2 hsite hbody ha)
  result he hsite hbody hr hv :=
    (hF.result he.1 hsite hbody hr hv).inter (hG.result he.2 hsite hbody hr hv)
  source ht hm hsite hcls hr :=
    ⟨hF.source ht (hm.mono (F.inter_le_left G)) hsite hcls hr,
      hG.source ht (hm.mono (F.inter_le_right G)) hsite hcls hr⟩
  transfer ht hm hsite hrule hs htarget hp ho :=
    ⟨hF.transfer ht (hm.mono (F.inter_le_left G)) hsite hrule hs htarget hp.1 ho,
      hG.transfer ht (hm.mono (F.inter_le_right G)) hsite hrule hs htarget hp.2 ho⟩

end Rules

/-! ## Objects and contexts -/

/-- The object that stands for what a site allocates. -/
def AllocSite.object (abstraction : HeapAbstraction) (a : AllocSiteId) (site : AllocSite) :
    AbstractObject :=
  match abstraction with
  | .allocationSite => { cls := site.cls, kind := .alloc a, container := some site.container }
  | .allocationType => { cls := site.cls, kind := .merged }

/-- The taint mark of a source call, as an object of class `cls`. -/
def AbstractObject.mark (source : CallSiteId) (cls : ClassId) : AbstractObject :=
  { cls, kind := .taint source }

/-- No contexts: an object is one allocation site or one class. -/
def Domain.plain (abstraction : HeapAbstraction) : Domain Unit AbstractObject where
  start := ()
  allocate _ a site := site.object abstraction a
  calleeContext _ _ _ := ()
  classOf o := o.cls
  mark := .mark
  sourceOf o := o.kind.source?

/-- One step of a context, with the receiver object itself where a run has its number. -/
inductive ContextStep where
  | callSite (site : CallSiteId)
  | object (object : AbstractObject)
  | cls (cls : ClassId)
  deriving DecidableEq, Repr

/-- An object together with the heap context of its allocation. -/
structure HeapObject where
  ctx : List ContextStep
  object : AbstractObject
  deriving DecidableEq, Repr

/-- The class of the method that allocated an object, or the object's own class if none did. -/
def AbstractObject.allocator (p : Program) (o : AbstractObject) : ClassId :=
  match o.container.bind fun m ↦ p.hierarchy.methods[m.index]? with
  | some m => m.cls
  | none => o.cls

namespace Selector

/-- The heap context of what a method under the context `c` allocates. -/
def heapSteps (s : Selector) (c : List ContextStep) : List ContextStep :=
  match s.strategy with
  | .insensitive => []
  | _ => c.rtake s.hk

/-- The context of the callee of a call under the context `c`. -/
def calleeSteps (s : Selector) (p : Program) (c : List ContextStep) (site : CallSiteId)
    (receiver : Option HeapObject) : List ContextStep :=
  match s.strategy, receiver with
  | .insensitive, _ => []
  | .callSite, _ => .rtake (c ++ [.callSite site]) s.k
  | .object, some o => .rtake (o.ctx ++ [.object o.object]) s.k
  | .type, some o => .rtake (o.ctx ++ [.cls (o.object.allocator p)]) s.k
  | .object, none | .type, none => c

end Selector

/-- Contexts as a selector chooses them, and objects under the heap contexts it chooses. Taint marks
carry no heap context. -/
def Domain.selected (p : Program) (abstraction : HeapAbstraction) (s : Selector) :
    Domain (List ContextStep) HeapObject where
  start := []
  allocate c a site := ⟨s.heapSteps c, site.object abstraction a⟩
  calleeContext := s.calleeSteps p
  classOf o := o.object.cls
  mark source cls := ⟨[], .mark source cls⟩
  sourceOf o := o.object.kind.source?

end PointsTo
