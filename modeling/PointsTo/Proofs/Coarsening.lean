import PointsTo.Proofs.Projection

/-!
# Coarser domains

Contexts and objects of one domain can be read as those of another, coarser one, if the reading
commutes with the way in which they are formed (`Domain.Coarsening`). Facts that are closed for the
coarser domain are then closed for the finer one as well, once they are read back
(`Coarsening.closed_refine`). So the least solution for the finer domain, read coarsely, lies within
the one for the coarser domain, and views of the two compare in the same way
(`View.Shows.includedIn`).

Three readings: contexts may be left out altogether, contexts may be cut off, and the objects of a
class may be merged.
-/

namespace PointsTo

/-- A reading of the contexts and objects of `D` as those of `D'`. -/
structure Domain.Coarsening {K O K' O' : Type} (D : Domain K O) (D' : Domain K' O') where
  ctx : K → K'
  obj : O → O'
  start : ctx D.start = D'.start
  allocate : ∀ k a site, obj (D.allocate k a site) = D'.allocate (ctx k) a site
  calleeContext : ∀ k c r, ctx (D.calleeContext k c r) = D'.calleeContext (ctx k) c (r.map obj)
  classOf : ∀ o, D'.classOf (obj o) = D.classOf o

namespace Domain.Coarsening

variable {K O K' O' : Type} {D : Domain K O} {D' : Domain K' O'} (f : D.Coarsening D')

def place : Place K O → Place K' O'
  | .var k v => .var (f.ctx k) v
  | .staticField field => .staticField field
  | .instanceField o field => .instanceField (f.obj o) field
  | .arrayIndex o => .arrayIndex (f.obj o)

def edge (e : Edge K) : Edge K' :=
  ⟨e.kind, ⟨f.ctx e.site.ctx, e.site.id⟩, ⟨f.ctx e.callee.ctx, e.callee.id⟩⟩

/-- The facts that `G` contains when they are read coarsely. -/
def refine (G : Facts K' O') : Facts K O where
  pts P o := G.pts (f.place P) (f.obj o)
  reaches m := G.reaches ⟨f.ctx m.ctx, m.id⟩
  calls e := G.calls (f.edge e)

variable {G : Facts K' O'} {p : Program}

theorem makes_of_refine {id : SiteIn K} {callee : MethodId} {receiver : Option (VarId × O)}
    (h : (f.refine G).Makes p D id callee receiver) :
    G.Makes p D' ⟨f.ctx id.ctx, id.id⟩ callee (receiver.map fun r ↦ (r.1, f.obj r.2)) := by
  cases h with
  | @static m _ _ _ _ hm hbody hc hsite hkind hcallee =>
    exact .static (m := ⟨f.ctx m.ctx, m.id⟩) hm hbody hc hsite hkind hcallee
  | receiver hpts hinfo hc hcallee =>
    rw [← f.classOf] at hcallee
    exact .receiver hpts hinfo hc hcallee

theorem feeds_of_refine {P Q : Place K O} (h : (f.refine G).Feeds p P Q) :
    G.Feeds p (f.place P) (f.place Q) := by
  cases h with
  | @copy m _ _ _ hm hbody hs => exact .copy (m := ⟨f.ctx m.ctx, m.id⟩) hm hbody hs
  | @loadStatic m _ _ _ hm hbody hs => exact .loadStatic (m := ⟨f.ctx m.ctx, m.id⟩) hm hbody hs
  | @storeStatic m _ _ _ hm hbody hs => exact .storeStatic (m := ⟨f.ctx m.ctx, m.id⟩) hm hbody hs
  | storeField hp hv hs => exact .storeField hp hv hs
  | loadField hp hv hl => exact .loadField hp hv hl
  | storeArray hp hv hs => exact .storeArray hp hv hs
  | loadArray hp hv hl => exact .loadArray hp hv hl
  | @argument e _ _ _ _ he hsite hbody ha => exact .argument (e := f.edge e) he hsite hbody ha
  | @result e _ _ _ _ he hsite hbody hr hv => exact .result (e := f.edge e) he hsite hbody hr hv

theorem mentions_of_refine {F : Facts K O} (hle : F ≤ f.refine G) {P : Place K O}
    (h : F.Mentions p P) : G.Mentions p (f.place P) := by
  rcases h with ⟨x, hx⟩ | ⟨Q, hQ⟩ | ⟨Q, hQ⟩
  · exact .inl ⟨f.obj x, (Facts.le_iff.1 hle).1 _ _ hx⟩
  · exact .inr (.inl ⟨f.place Q, f.feeds_of_refine (hQ.mono hle)⟩)
  · exact .inr (.inr ⟨f.place Q, f.feeds_of_refine (hQ.mono hle)⟩)

variable {entry : MethodId}

/-- What flows in the finer reading flows in the coarser one, where it has arrived. -/
theorem includes_refine (hG : Rules.Closed { program := p, domain := D', entry } G) {P Q : Place K O}
    (h : (f.refine G).Feeds p P Q) : (f.refine G).Includes P Q :=
  fun o ho ↦ hG.includes (f.feeds_of_refine h) (f.obj o) ho

/-- A closed set for the coarser domain is closed for the finer one. -/
theorem closed_refine (hG : Rules.Closed { program := p, domain := D', entry } G) :
    Rules.Closed { program := p, domain := D, entry } (f.refine G) where
  entry := by
    change G.reaches ⟨f.ctx D.start, entry⟩
    rw [f.start]
    exact hG.entry
  alloc := by
    intro m body lhs a site hm hbody hstmt hsite
    change G.pts (.var (f.ctx m.ctx) lhs) (f.obj (D.allocate m.ctx a site))
    rw [f.allocate]
    exact hG.alloc hm hbody hstmt hsite
  copy hm hbody hs := f.includes_refine hG (.copy hm hbody hs)
  loadStatic hm hbody hs := f.includes_refine hG (.loadStatic hm hbody hs)
  storeStatic hm hbody hs := f.includes_refine hG (.storeStatic hm hbody hs)
  storeField hp hv hs := f.includes_refine hG (.storeField hp hv hs)
  loadField hp hv hl := f.includes_refine hG (.loadField hp hv hl)
  storeArray hp hv hs := f.includes_refine hG (.storeArray hp hv hs)
  loadArray hp hv hl := f.includes_refine hG (.loadArray hp hv hl)
  edge := by
    intro id callee receiver site hmakes hsite
    have hedge := hG.edge (f.makes_of_refine hmakes) hsite
    have hctx : f.ctx (D.calleeContext id.ctx id.id (receiver.map Prod.snd)) =
        D'.calleeContext (f.ctx id.ctx) id.id
          ((receiver.map fun r ↦ (r.1, f.obj r.2)).map Prod.snd) := by
      rw [f.calleeContext, Option.map_map, Option.map_map]
      rfl
    change G.calls ⟨site.kind, ⟨f.ctx id.ctx, id.id⟩, ⟨f.ctx (D.calleeContext _ _ _), callee⟩⟩
    rw [hctx]
    exact hedge
  this := by
    intro id callee v o this hmakes hthis
    have hpts := hG.this (f.makes_of_refine hmakes) hthis
    have hctx : f.ctx (D.calleeContext id.ctx id.id (some o)) =
        D'.calleeContext (f.ctx id.ctx) id.id (some (f.obj o)) := f.calleeContext _ _ _
    change G.pts (.var (f.ctx (D.calleeContext id.ctx id.id (some o))) this) (f.obj o)
    rw [hctx]
    exact hpts
  callee he := hG.callee he
  argument he hsite hbody ha := f.includes_refine hG (.argument he hsite hbody ha)
  result he hsite hbody hr hv := f.includes_refine hG (.result he hsite hbody hr hv)
  source h := nomatch h
  transfer h := nomatch h

/-- The least solution for the finer domain lies within any for the coarser one. -/
theorem le_refine {F : Facts K O}
    (hF : IsLeast {F | Rules.Closed { program := p, domain := D, entry } F} F)
    (hG : IsLeast {G | Rules.Closed { program := p, domain := D', entry } G} G) : F ≤ f.refine G :=
  hF.2 (f.closed_refine hG.1)

end Domain.Coarsening

/-! ## Views -/

/-- Once objects are replaced as `g` says, whatever `V` shows is shown by `W`. -/
structure View.IncludedIn (g : AbstractObject → AbstractObject) (V W : View) : Prop where
  objects : ∀ {v i}, i ∈ V.pointsTo v →
    ∃ x, V.heap.object i = .ok x ∧ ∃ j ∈ W.pointsTo v, W.heap.object j = .ok (g x)
  edges : ∀ edge ∈ V.edges, edge ∈ W.edges
  methods : ∀ m ∈ V.methods, m ∈ W.methods
  vars : ∀ v ∈ V.vars, v ∈ W.vars

/-- Views compare as the facts that they show, read in another domain. -/
theorem View.Shows.includedIn_of {K O K' O' : Type} (ctx : K → K') (obj : O → O') {p q : Program}
    {F : Facts K O} {G : Facts K' O'} {V W : View} {base : O → AbstractObject}
    {base' : O' → AbstractObject} {g : AbstractObject → AbstractObject} (hV : V.Shows p F base)
    (hW : W.Shows q G base') (hbase : ∀ y, base' (obj y) = g (base y))
    (hpts : ∀ {k v y}, F.pts (.var k v) y → G.pts (.var (ctx k) v) (obj y))
    (hreaches : ∀ {k m}, F.reaches ⟨k, m⟩ → G.reaches ⟨ctx k, m⟩)
    (hcalls : ∀ {e : Edge K}, F.calls e →
      G.calls ⟨e.kind, ⟨ctx e.site.ctx, e.site.id⟩, ⟨ctx e.callee.ctx, e.callee.id⟩⟩)
    (hvars : ∀ {k v}, F.Mentions p (.var k v) → G.Mentions q (.var (ctx k) v)) :
    V.IncludedIn g W := by
  constructor
  case objects =>
    intro v i hi
    obtain ⟨x, hx⟩ := hV.known hi
    obtain ⟨k, y, hy, rfl⟩ := hV.refers.1 ⟨i, hi, hx⟩
    exact ⟨base y, hx, hW.refers.2 ⟨ctx k, obj y, hpts hy, hbase y⟩⟩
  case edges =>
    intro edge hedge
    obtain ⟨edge', hcall, rfl⟩ := hV.edges.1 hedge
    exact hW.edges.2 ⟨_, hcalls hcall, rfl⟩
  case methods =>
    intro m hm
    obtain ⟨k, hk⟩ := hV.methods.1 hm
    exact hW.methods.2 ⟨ctx k, hreaches hk⟩
  case vars =>
    intro v hv
    obtain ⟨k, hk⟩ := hV.vars.1 hv
    exact hW.vars.2 ⟨ctx k, hvars hk⟩

theorem View.Shows.includedIn {K O K' O' : Type} {D : Domain K O} {D' : Domain K' O'}
    (f : D.Coarsening D') {p : Program} {F : Facts K O} {G : Facts K' O'} {V W : View}
    {base : O → AbstractObject} {base' : O' → AbstractObject} {g : AbstractObject → AbstractObject}
    (hV : V.Shows p F base) (hW : W.Shows p G base') (hle : F ≤ f.refine G)
    (hbase : ∀ y, base' (f.obj y) = g (base y)) : V.IncludedIn g W := by
  obtain ⟨hpts, hreaches, hcalls⟩ := Facts.le_iff.1 hle
  exact hV.includedIn_of f.ctx f.obj hW hbase (hpts _ _) (hreaches _) (hcalls _)
    (f.mentions_of_refine hle)

/-! ## Leaving contexts out -/

/-- Contexts are forgotten, and so are the heap contexts of objects. -/
def Domain.Coarsening.forget (p : Program) (abstraction : HeapAbstraction) (s : Selector) :
    (Domain.selected p abstraction s).Coarsening (.plain abstraction) where
  ctx _ := ()
  obj := HeapObject.object
  start := rfl
  allocate _ _ _ := rfl
  calleeContext _ _ _ := rfl
  classOf _ := rfl

/-! ## Cutting contexts off -/

theorem rtake_rtake {α : Type} {k j : Nat} (h : k ≤ j) (as : List α) :
    (as.rtake j).rtake k = as.rtake k := by
  rw [List.rtake, List.rtake, List.rtake, List.length_drop, List.drop_drop]
  congr 1
  omega

/-- Of a longer list only the last items matter for the last items of an extension. -/
theorem rtake_concat_rtake {α : Type} {k j : Nat} (h : k ≤ j + 1) (as : List α) (a : α) :
    (as.rtake j ++ [a]).rtake k = (as ++ [a]).rtake k := by
  cases k with
  | zero => rw [List.rtake_zero, List.rtake_zero]
  | succ k =>
    rw [List.rtake_concat_succ, List.rtake_concat_succ, rtake_rtake (by omega)]

namespace Selector

variable {s t : Selector} (hstrategy : t.strategy = s.strategy)

include hstrategy

theorem rtake_heapSteps (hheap : t.hk ≤ s.hk) (hshort : t.hk ≤ t.k) (c : List ContextStep) :
    (s.heapSteps c).rtake t.hk = t.heapSteps (c.rtake t.k) := by
  unfold heapSteps
  rw [hstrategy]
  cases s.strategy with
  | insensitive => exact List.rtake_nil _
  | _ => exact (rtake_rtake hheap c).trans (rtake_rtake hshort c).symm

/-- To cut off what the finer selector chooses for a callee is to choose by the coarser one, from
contexts that are cut off already. A receiver's context is cut one step shorter than the callee's
may be, hence `hlong`. -/
theorem rtake_calleeSteps (hmethod : t.k ≤ s.k) (hlong : t.k ≤ t.hk + 1) (p : Program)
    (c : List ContextStep) (site : CallSiteId) (receiver : Option HeapObject) :
    (s.calleeSteps p c site receiver).rtake t.k =
      t.calleeSteps p (c.rtake t.k) site
        (receiver.map fun o ↦ ⟨o.ctx.rtake t.hk, o.object⟩) := by
  unfold calleeSteps
  rw [hstrategy]
  cases s.strategy with
  | insensitive => exact List.rtake_nil _
  | callSite =>
    calc ((c ++ [ContextStep.callSite site]).rtake s.k).rtake t.k
      _ = (c ++ [ContextStep.callSite site]).rtake t.k := rtake_rtake hmethod _
      _ = (c.rtake t.k ++ [ContextStep.callSite site]).rtake t.k :=
        (rtake_concat_rtake (Nat.le_succ _) _ _).symm
  | object =>
    cases receiver with
    | none => rfl
    | some o =>
      calc ((o.ctx ++ [ContextStep.object o.object]).rtake s.k).rtake t.k
        _ = (o.ctx ++ [ContextStep.object o.object]).rtake t.k := rtake_rtake hmethod _
        _ = (o.ctx.rtake t.hk ++ [ContextStep.object o.object]).rtake t.k :=
          (rtake_concat_rtake hlong _ _).symm
  | type =>
    cases receiver with
    | none => rfl
    | some o =>
      calc ((o.ctx ++ [ContextStep.cls (o.object.allocator p)]).rtake s.k).rtake t.k
        _ = (o.ctx ++ [ContextStep.cls (o.object.allocator p)]).rtake t.k := rtake_rtake hmethod _
        _ = (o.ctx.rtake t.hk ++ [ContextStep.cls (o.object.allocator p)]).rtake t.k :=
          (rtake_concat_rtake hlong _ _).symm

end Selector

/-- Contexts are cut off to the lengths of `t`. Heap contexts of `t` must be as long as method
contexts, or one shorter: cut off further, they would forget what contexts of callees begin with. -/
def Domain.Coarsening.truncate (p : Program) (abstraction : HeapAbstraction) {s t : Selector}
    (hstrategy : t.strategy = s.strategy) (hmethod : t.k ≤ s.k) (hheap : t.hk ≤ s.hk)
    (hshort : t.hk ≤ t.k) (hlong : t.k ≤ t.hk + 1) :
    (Domain.selected p abstraction s).Coarsening (.selected p abstraction t) where
  ctx c := c.rtake t.k
  obj o := ⟨o.ctx.rtake t.hk, o.object⟩
  start := List.rtake_nil _
  allocate c a site :=
    congrArg (HeapObject.mk · (site.object abstraction a))
      (Selector.rtake_heapSteps hstrategy hheap hshort c)
  calleeContext := Selector.rtake_calleeSteps hstrategy hmethod hlong p
  classOf _ := rfl

/-! ## Merging objects of a class -/

/-- The object that stands for all objects of the class. -/
def AbstractObject.merge (o : AbstractObject) : AbstractObject := { cls := o.cls, kind := .merged }

/-- Receivers in contexts are merged as well. -/
def ContextStep.merge : ContextStep → ContextStep
  | callSite c => callSite c
  | object o => object o.merge
  | cls c => cls c

def Domain.Coarsening.mergePlain :
    (Domain.plain .allocationSite).Coarsening (.plain .allocationType) where
  ctx := id
  obj := AbstractObject.merge
  start := rfl
  allocate _ _ _ := rfl
  calleeContext _ _ _ := rfl
  classOf _ := rfl

namespace Selector

variable (s : Selector)

theorem map_heapSteps (g : ContextStep → ContextStep) (c : List ContextStep) :
    (s.heapSteps c).map g = s.heapSteps (c.map g) := by
  unfold heapSteps
  cases s.strategy with
  | insensitive => rfl
  | _ => exact map_rtake g s.hk c

/-- Contexts of allocator classes are left aside: a merged object has no allocator. -/
theorem map_merge_calleeSteps (hstrategy : s.strategy ≠ .type) (p : Program) (c : List ContextStep)
    (site : CallSiteId) (receiver : Option HeapObject) :
    (s.calleeSteps p c site receiver).map ContextStep.merge =
      s.calleeSteps p (c.map ContextStep.merge) site
        (receiver.map fun o ↦ ⟨o.ctx.map ContextStep.merge, o.object.merge⟩) := by
  unfold calleeSteps
  cases hs : s.strategy with
  | insensitive => rfl
  | callSite => rw [map_rtake, List.map_append, List.map_singleton, ContextStep.merge]
  | object =>
    cases receiver with
    | none => rfl
    | some o =>
      change ((o.ctx ++ [ContextStep.object o.object]).rtake s.k).map ContextStep.merge =
        (o.ctx.map ContextStep.merge ++ [ContextStep.object o.object.merge]).rtake s.k
      rw [map_rtake, List.map_append, List.map_singleton, ContextStep.merge]
  | type => exact absurd hs hstrategy

end Selector

def Domain.Coarsening.mergeSelected (p : Program) (s : Selector) (hstrategy : s.strategy ≠ .type) :
    (Domain.selected p .allocationSite s).Coarsening (.selected p .allocationType s) where
  ctx := List.map ContextStep.merge
  obj o := ⟨o.ctx.map ContextStep.merge, o.object.merge⟩
  start := rfl
  allocate c a site :=
    congrArg (HeapObject.mk · (site.object .allocationType a)) (s.map_heapSteps ContextStep.merge c)
  calleeContext := s.map_merge_calleeSteps hstrategy p
  classOf _ := rfl

end PointsTo
