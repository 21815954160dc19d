import PointsTo.Proofs.ContextErasure
import PointsTo.Proofs.Origins

/-!
# Indices mirror statements

A program says most things twice. Loads, stores and calls stand in the bodies of methods, and again with
the variables that they go through; the sites of calls and allocations name the methods that contain
them; and a body lists its calls and the variables that it returns beside its statements. When every
method is finished, and none that is abstract has statements, the two always agree
(`indices_mirror_statements`).

Statements are read as lines (`Program.lines`), each with the method in which it stands, in the order in
which they were written. A line is written at the same time as it is entered elsewhere, so that what is
entered follows the lines (`Program.Mirrors`), and the method being written adds its lines after all
others (`Draft.lines`).
-/

namespace PointsTo

/-! ## Indices by statements -/

/-- The numbers of the call sites that satisfy `P`, in order. -/
def CallSite.idsWhere (sites : Array CallSite) (P : CallSite → Bool) : List CallSiteId :=
  (Id.upTo .callSite sites.size).filter fun c ↦ (sites[c.index]?).any P

namespace VarIndex

/-- The index that `v` has by the statements and call sites of a program. -/
def ofStmts (stmts : List Stmt) (sites : Array CallSite) (v : VarId) : VarIndex where
  storeFields := stmts.filterMap (Stmt.fieldStore? v)
  loadFields := stmts.filterMap (Stmt.fieldLoad? v)
  storeArrays := stmts.filterMap (Stmt.arrayStore? v)
  loadArrays := stmts.filterMap (Stmt.arrayLoad? v)
  invokes := CallSite.idsWhere sites fun site ↦ site.receiver = some v
  argOf := CallSite.idsWhere sites fun site ↦ site.args.contains v

/-- The index of `v` after one more call site. -/
def noteCall (v : VarId) (ix : VarIndex) (c : CallSiteId) (site : CallSite) : VarIndex :=
  { ix with
    invokes := ix.invokes ++ if site.receiver = some v then [c] else []
    argOf := ix.argOf ++ if site.args.contains v then [c] else [] }

theorem ofStmts_concat (stmts : List Stmt) (stmt : Stmt) (sites : Array CallSite) (v : VarId) :
    ofStmts (stmts ++ [stmt]) sites v = (ofStmts stmts sites v).note v stmt := by
  simp only [ofStmts, note, filterMap_concat]

/-- A statement concerns no variable but the one that it goes through. -/
theorem note_of_base_ne {stmt : Stmt} {v : VarId} (h : stmt.base? ≠ some v) (ix : VarIndex) :
    ix.note v stmt = ix := by
  cases stmt <;> simp_all [note]

end VarIndex

theorem Id.upTo_succ (e : Entity) (n : Nat) : Id.upTo e (n + 1) = Id.upTo e n ++ [⟨n⟩] := by
  rw [upTo, List.range_succ, List.map_append]
  rfl

theorem CallSite.idsWhere_push (sites : Array CallSite) (site : CallSite) (P : CallSite → Bool) :
    idsWhere (sites.push site) P = idsWhere sites P ++ if P site then [⟨sites.size⟩] else [] := by
  have hold : ∀ c ∈ Id.upTo .callSite sites.size,
      ((sites.push site)[c.index]?).any P = (sites[c.index]?).any P := by
    intro c hc
    have hlt := Id.mem_upTo.1 hc
    rw [Array.getElem?_push_lt hlt, ← Array.getElem?_eq_getElem hlt]
  rw [idsWhere, Array.size_push, Id.upTo_succ, List.filter_append, List.filter_congr hold]
  cases hP : P site <;> simp [idsWhere, hP]

theorem VarIndex.ofStmts_push (stmts : List Stmt) (sites : Array CallSite) (site : CallSite)
    (v : VarId) :
    ofStmts stmts (sites.push site) v = (ofStmts stmts sites v).noteCall v ⟨sites.size⟩ site := by
  simp only [ofStmts, noteCall, CallSite.idsWhere_push, decide_eq_true_eq]

/-! ## Lines -/

/-- The lines of bodies, each with the number of its body. -/
def linesOf (bodies : Array (Option MethodBody)) : List (MethodId × Stmt) :=
  (Id.upTo .method bodies.size).flatMap fun m ↦
    (((bodies[m.index]?).join.map MethodBody.stmts).getD []).map (Prod.mk m)

theorem linesOf_push (bodies : Array (Option MethodBody)) (body : Option MethodBody) :
    linesOf (bodies.push body) =
      linesOf bodies ++ ((body.map MethodBody.stmts).getD []).map (Prod.mk ⟨bodies.size⟩) := by
  rw [linesOf, Array.size_push, Id.upTo_succ, List.flatMap_append, List.flatMap_singleton]
  congr 1
  · apply List.flatMap_congr
    intro m hm
    have hlt := Id.mem_upTo.1 hm
    rw [Array.getElem?_push_lt hlt, ← Array.getElem?_eq_getElem hlt]
  · rw [Array.getElem?_push_size]
    rfl

/-- The sites that lines speak of are numbered in order, and contained in the methods of the lines. -/
def Sited {e : Entity} (site? : Stmt → Option (Id e)) (lines : List (MethodId × Stmt))
    (containers : List MethodId) : Prop :=
  lines.filterMap (fun line ↦ (site? line.2).map (Prod.mk line.1)) =
    containers.zipIdx.map fun x ↦ (x.1, ⟨x.2⟩)

section Sited

variable {e : Entity} {site? : Stmt → Option (Id e)} {lines : List (MethodId × Stmt)}
  {containers : List MethodId} {m : MethodId} {stmt : Stmt}

theorem Sited.other (h : Sited site? lines containers) (hstmt : site? stmt = none) :
    Sited site? (lines ++ [(m, stmt)]) containers := by
  rw [Sited, filterMap_concat, hstmt, ← h]
  exact List.append_nil _

theorem Sited.nodup (h : Sited site? lines containers) :
    (lines.filterMap fun line ↦ (site? line.2).map (Prod.mk line.1)).Nodup := by
  rw [h]
  apply List.Nodup.of_map fun y ↦ y.2.index
  rw [List.map_map]
  change (containers.zipIdx.map Prod.snd).Nodup
  rw [List.zipIdx_map_snd]
  exact List.nodup_range'

theorem Sited.mem_iff (h : Sited site? lines containers) {i : Id e} :
    (∃ stmt, (m, stmt) ∈ lines ∧ site? stmt = some i) ↔ containers[i.index]? = some m := by
  constructor
  · rintro ⟨stmt, hline, hstmt⟩
    have hmem : (m, i) ∈ lines.filterMap fun line ↦ (site? line.2).map (Prod.mk line.1) :=
      List.mem_filterMap.2 ⟨(m, stmt), hline, by rw [hstmt]; rfl⟩
    rw [h] at hmem
    obtain ⟨x, hx, heq⟩ := List.mem_map.1 hmem
    cases heq
    exact List.mem_zipIdx_iff_getElem?.1 hx
  · intro hm
    have hmem : (m, i) ∈ containers.zipIdx.map fun x ↦ (x.1, (⟨x.2⟩ : Id e)) :=
      List.mem_map.2 ⟨(m, i.index), List.mem_zipIdx_iff_getElem?.2 hm, rfl⟩
    rw [← h] at hmem
    obtain ⟨line, hline, heq⟩ := List.mem_filterMap.1 hmem
    obtain ⟨j, hj, heq⟩ := Option.map_eq_some_iff.1 heq
    cases heq
    exact ⟨line.2, hline, hj⟩

theorem Sited.push (h : Sited site? lines containers) (hstmt : site? stmt = some ⟨containers.length⟩) :
    Sited site? (lines ++ [(m, stmt)]) (containers ++ [m]) := by
  rw [Sited, filterMap_concat, hstmt, List.zipIdx_append, List.map_append, h]
  simp

end Sited

/-! ## Programs and drafts -/

/-- The lists that a body keeps beside its statements are read off these. -/
structure MethodBody.Tallies (body : MethodBody) : Prop where
  callSites : body.callSites = body.stmts.filterMap Stmt.callSite?
  returnVars : FirstOccurrences (body.stmts.filterMap Stmt.returned?) body.returnVars

/-- The index of `v` among `vars`, empty if there is no such variable. -/
def indexAt (vars : Array VarInfo) (v : VarId) : VarIndex := ((vars[v.index]?).map VarInfo.index).getD {}

namespace Program

/-- The lines of all bodies. -/
def lines (p : Program) : List (MethodId × Stmt) := linesOf p.bodies

/-- What is entered beside statements agrees with the given lines. -/
structure Mirrors (p : Program) (lines : List (MethodId × Stmt)) : Prop where
  index : ∀ v, VarIndex.ofStmts (lines.map Prod.snd) p.callSites v = indexAt p.vars v
  calls : Sited Stmt.callSite? lines (p.callSites.toList.map CallSite.container)
  allocs : Sited Stmt.allocSite? lines (p.allocSites.toList.map AllocSite.container)
  bodies : ∀ {m body}, p.body m = some body → body.Tallies
  sizes : p.bodies.size = p.hierarchy.methods.size

/-- Bodies and methods may be added as long as bodies tally. -/
theorem Mirrors.withBodies {p : Program} {lines : List (MethodId × Stmt)} (h : p.Mirrors lines)
    {hierarchy : Hierarchy} {bodies : Array (Option MethodBody)}
    (hsizes : bodies.size = hierarchy.methods.size)
    (hbodies : ∀ {i : Nat} {body : MethodBody}, bodies[i]? = some (some body) → body.Tallies) :
    { p with hierarchy, bodies }.Mirrors lines where
  index := h.index
  calls := h.calls
  allocs := h.allocs
  bodies hbody := hbodies (Option.join_eq_some_iff.1 hbody)
  sizes := hsizes

theorem Mirrors.tallies {p : Program} {lines : List (MethodId × Stmt)} (h : p.Mirrors lines) {i : Nat}
    {body : MethodBody} (hbody : p.bodies[i]? = some (some body)) : body.Tallies :=
  h.bodies (m := ⟨i⟩) (Option.join_eq_some_iff.2 hbody)

theorem mirrors_empty : ({} : Program).Mirrors [] where
  index _ := rfl
  calls := rfl
  allocs := rfl
  bodies h := by simp [body] at h
  sizes := rfl

end Program

theorem indexAt_push (vars : Array VarInfo) {info : VarInfo} (hinfo : info.index = {}) (v : VarId) :
    indexAt (vars.push info) v = indexAt vars v := by
  unfold indexAt
  rw [Array.getElem?_push]
  split
  case isTrue heq =>
    rw [heq, Array.getElem?_eq_none (Nat.le_refl _)]
    exact hinfo
  case isFalse => rfl

namespace Draft

variable {d d' : Draft} {stmt : Stmt}

/-- The lines of all bodies, those of the method being written last. -/
def lines (d : Draft) : List (MethodId × Stmt) :=
  d.program.lines ++ d.body.stmts.map (Prod.mk d.method)

/-- What holds while a method is being written. -/
structure Mirrors (d : Draft) : Prop where
  program : d.program.Mirrors d.lines
  body : d.body.Tallies

/-! ### Indices -/

theorem reindex_eq_ok {u : VarId} {f : VarIndex → VarIndex} (h : d.reindex u f = .ok d') :
    ∃ vars, d' = { d with program.vars := vars } ∧
      ∀ v, indexAt vars v =
        if v = u then f (indexAt d.program.vars v) else indexAt d.program.vars v := by
  obtain ⟨vars, hvars, h⟩ := bind_eq_ok.1 h
  obtain ⟨hu, rfl⟩ := Id.update_eq_ok_iff.1 hvars
  refine ⟨_, (Except.ok.inj h).symm, fun v ↦ ?_⟩
  unfold indexAt
  rw [Array.getElem?_modify]
  by_cases hv : v = u
  · subst hv
    rw [if_pos rfl, if_pos rfl, Array.getElem?_eq_getElem hu]
    rfl
  · rw [if_neg fun heq ↦ hv (Id.index_inj.1 heq).symm, if_neg hv]

/-- Going through variables changes the index of each as often as it comes up. -/
theorem reindex_foldlM_eq_ok {vs : List VarId} {f : VarIndex → VarIndex}
    (h : vs.foldlM (fun d v ↦ d.reindex v f) d = .ok d') :
    ∃ vars, d' = { d with program.vars := vars } ∧
      ∀ v, indexAt vars v = f^[vs.count v] (indexAt d.program.vars v) := by
  induction vs generalizing d with
  | nil =>
    obtain rfl := Except.ok.inj h
    exact ⟨d.program.vars, rfl, fun v ↦ rfl⟩
  | cons u vs ih =>
    rw [List.foldlM_cons] at h
    obtain ⟨d₁, hd₁, h⟩ := bind_eq_ok.1 h
    obtain ⟨vars₁, rfl, hvars₁⟩ := reindex_eq_ok hd₁
    obtain ⟨vars, rfl, hvars⟩ := ih h
    refine ⟨vars, rfl, fun v ↦ ?_⟩
    rw [hvars, hvars₁, List.count_cons]
    by_cases hv : v = u
    · rw [if_pos hv, if_pos (by simpa using hv.symm), Function.iterate_succ_apply]
    · rw [if_neg hv, if_neg (by simpa using Ne.symm hv), Nat.add_zero]

/-! ### Writing a line -/

theorem lines_of_alike (h : d.Alike d') (hstmts : d'.body.stmts = d.body.stmts ++ [stmt]) :
    d'.lines = d.lines ++ [(d.method, stmt)] := by
  rw [lines, lines, Program.lines, Program.lines, h.bodies, h.method, hstmts, List.map_append,
    List.append_assoc]
  rfl

/-- If a further statement is entered everywhere, then all are. -/
theorem Mirrors.write (h : d.Mirrors) (stmt : Stmt) (halike : d.Alike d')
    (hstmts : d'.body.stmts = d.body.stmts ++ [stmt])
    (hindex : ∀ v, (VarIndex.ofStmts (d.lines.map Prod.snd) d'.program.callSites v).note v stmt =
      indexAt d'.program.vars v)
    (hcalls : Sited Stmt.callSite? (d.lines ++ [(d.method, stmt)])
      (d'.program.callSites.toList.map CallSite.container))
    (hallocs : Sited Stmt.allocSite? (d.lines ++ [(d.method, stmt)])
      (d'.program.allocSites.toList.map AllocSite.container))
    (hbody : d'.body.Tallies) : d'.Mirrors := by
  refine ⟨?_, hbody⟩
  rw [lines_of_alike halike hstmts]
  constructor
  case index =>
    intro v
    rw [List.map_append, List.map_singleton, VarIndex.ofStmts_concat]
    exact hindex v
  case calls => exact hcalls
  case allocs => exact hallocs
  case bodies =>
    intro m body hm
    rw [Program.body, halike.bodies] at hm
    exact h.program.bodies hm
  case sizes =>
    rw [halike.bodies, halike.hierarchy]
    exact h.program.sizes

theorem tallies_addStmt (h : d.body.Tallies) (hcall : stmt.callSite? = none)
    (hret : stmt.returned? = none) : (d.addStmt stmt).body.Tallies where
  callSites := by
    change d.body.callSites = (d.body.stmts ++ [stmt]).filterMap _
    rw [filterMap_concat, hcall, h.callSites]
    exact (List.append_nil _).symm
  returnVars := by
    change FirstOccurrences ((d.body.stmts ++ [stmt]).filterMap _) _
    rw [filterMap_concat, hret]
    exact (List.append_nil _).symm ▸ h.returnVars

theorem Mirrors.addStmt (h : d.Mirrors) (hbase : stmt.base? = none) (hcall : stmt.callSite? = none)
    (halloc : stmt.allocSite? = none) (hret : stmt.returned? = none) : (d.addStmt stmt).Mirrors := by
  refine h.write stmt ⟨rfl, rfl, rfl⟩ rfl (fun v ↦ ?_) (h.program.calls.other hcall)
    (h.program.allocs.other halloc) (tallies_addStmt h.body hcall hret)
  rw [VarIndex.note_of_base_ne (hbase ▸ Option.some_ne_none v |>.symm)]
  exact h.program.index v

/-- An access is entered into the index of its base, and written down. -/
theorem Mirrors.addAccess (h : d.Mirrors) {base : VarId} {d₁ : Draft}
    (hindex : d.reindex base (·.note base stmt) = .ok d₁) (hbase : stmt.base? = some base)
    (hcall : stmt.callSite? = none) (halloc : stmt.allocSite? = none)
    (hret : stmt.returned? = none) : (d₁.addStmt stmt).Mirrors := by
  obtain ⟨vars, rfl, hvars⟩ := reindex_eq_ok hindex
  refine h.write stmt ⟨rfl, rfl, rfl⟩ rfl (fun v ↦ ?_) (h.program.calls.other hcall)
    (h.program.allocs.other halloc) (tallies_addStmt h.body hcall hret)
  change (VarIndex.ofStmts _ d.program.callSites v).note v stmt = indexAt vars v
  rw [hvars, h.program.index]
  by_cases hv : v = base
  · rw [if_pos hv, hv]
  · rw [if_neg hv, VarIndex.note_of_base_ne]
    rw [hbase]
    exact fun heq ↦ hv (Option.some.inj heq).symm

theorem Mirrors.addAlloc (h : d.Mirrors) (lhs : VarId) (cls : ClassId) :
    (d.addAlloc lhs cls).Mirrors := by
  refine h.write (.alloc lhs ⟨d.program.allocSites.size⟩) ⟨rfl, rfl, rfl⟩ rfl (fun v ↦ ?_)
    (h.program.calls.other rfl) ?_ (tallies_addStmt h.body rfl rfl)
  · rw [VarIndex.note_of_base_ne (by simp)]
    exact h.program.index v
  · change Sited _ _ ((d.program.allocSites.push _).toList.map AllocSite.container)
    rw [Array.toList_push, List.map_append]
    apply h.program.allocs.push
    simp

/-- A return adds its variable to those that are listed, unless it was returned before. -/
theorem Mirrors.addReturn (h : d.Mirrors) (value : Option VarId) : (d.addReturn value).Mirrors := by
  refine h.write (.ret value) ⟨rfl, rfl, rfl⟩ rfl (fun v ↦ ?_) (h.program.calls.other rfl)
    (h.program.allocs.other rfl) ⟨?_, ?_⟩
  · rw [VarIndex.note_of_base_ne (by simp)]
    exact h.program.index v
  · change d.body.callSites = (d.body.stmts ++ [Stmt.ret value]).filterMap _
    rw [filterMap_concat, h.body.callSites]
    exact (List.append_nil _).symm
  · change FirstOccurrences ((d.body.stmts ++ [Stmt.ret value]).filterMap Stmt.returned?)
      (d.body.returnVars ++ value.toList.filter (· ∉ d.body.returnVars))
    rw [filterMap_concat]
    cases value with
    | none =>
      change FirstOccurrences (_ ++ []) (_ ++ [])
      rw [List.append_nil, List.append_nil]
      exact h.body.returnVars
    | some v =>
      -- A variable that was returned before is not listed again.
      by_cases hv : v ∈ d.body.returnVars
      · simpa [hv] using h.body.returnVars.again ((h.body.returnVars.mem_iff v).1 hv)
      · simpa [hv] using
          h.body.returnVars.concat (mt (h.body.returnVars.mem_iff v).2 hv)

/-! ### Calls -/

theorem iterate_enterReceiver (c : CallSiteId) (ix : VarIndex) (v : VarId) (receiver : Option VarId) :
    (enterReceiver c)^[receiver.toList.count v] ix =
      { ix with invokes := ix.invokes ++ if receiver = some v then [c] else [] } := by
  cases receiver with
  | none => simp
  | some u => by_cases hu : u = v <;> simp [enterReceiver, hu]

/-- However often an argument comes up, the call is listed once. -/
theorem iterate_enterArg {c : CallSiteId} {ix : VarIndex} (hc : c ∉ ix.argOf) (v : VarId)
    (args : List VarId) :
    (enterArg c)^[args.count v] ix =
      { ix with argOf := ix.argOf ++ if args.contains v then [c] else [] } := by
  induction args with
  | nil => simp
  | cons u args ih =>
    rw [List.count_cons]
    by_cases hu : u = v
    · rw [if_pos (by simpa using hu), Function.iterate_succ_apply', ih]
      by_cases hv : v ∈ args
      · simp [enterArg, hv]
      · simp [enterArg, hv, hu, hc]
    · rw [if_neg (by simpa using hu), Nat.add_zero, ih]
      simp [Ne.symm hu]

/-- A call is entered into the arena, into the body, with its receiver, and with its arguments, with each
of these once. -/
theorem index_of_addCall {kind : CallKind} {result receiver : Option VarId} {target : MethodRef}
    {args : List VarId} (hadd : d.addCall kind result receiver target args = .ok d')
    (hfresh : ∀ v, ⟨d.program.callSites.size⟩ ∉ (indexAt d.program.vars v).argOf) :
    let site : CallSite := { kind, target, receiver, args, result, container := d.method }
    let c : CallSiteId := ⟨d.program.callSites.size⟩
    ∃ vars, (∀ v, indexAt vars v = (indexAt d.program.vars v).noteCall v c site) ∧
      d' = { d with
        program := { d.program with callSites := d.program.callSites.push site, vars }
        body.callSites := d.body.callSites ++ [c]
        body.stmts := d.body.stmts ++ [.invoke c] } := by
  intro site c
  obtain ⟨d₂, d₃, hd₂, hd₃, rfl⟩ := addCall_steps hadd
  obtain ⟨vars₂, rfl, hvars₂⟩ := reindex_foldlM_eq_ok hd₂
  obtain ⟨vars₃, rfl, hvars₃⟩ := reindex_foldlM_eq_ok hd₃
  refine ⟨vars₃, fun v ↦ ?_, rfl⟩
  calc
    indexAt vars₃ v = (enterArg c)^[args.count v] (indexAt vars₂ v) := hvars₃ v
    _ = (enterArg c)^[args.count v]
        ((enterReceiver c)^[receiver.toList.count v] (indexAt d.program.vars v)) := by rw [hvars₂]
    _ = (indexAt d.program.vars v).noteCall v c site := by
      rw [iterate_enterReceiver, iterate_enterArg]
      · rfl
      · exact hfresh v

/-- A call has a number that no index lists yet, and is entered with it wherever the statement is to
be found. -/
theorem Mirrors.addCall (h : d.Mirrors) {kind : CallKind} {result receiver : Option VarId}
    {target : MethodRef} {args : List VarId}
    (hadd : d.addCall kind result receiver target args = .ok d') : d'.Mirrors := by
  have hfresh : ∀ v, ⟨d.program.callSites.size⟩ ∉ (indexAt d.program.vars v).argOf := by
    intro v hmem
    rw [← h.program.index v] at hmem
    exact Nat.lt_irrefl _ (Id.mem_upTo.1 (List.mem_filter.1 hmem).1)
  obtain ⟨vars, hvars, rfl⟩ := index_of_addCall hadd hfresh
  refine h.write (.invoke ⟨d.program.callSites.size⟩) ⟨rfl, rfl, rfl⟩ rfl (fun v ↦ ?_) ?_
    (h.program.allocs.other rfl) ⟨?_, ?_⟩
  · change (VarIndex.ofStmts _ (d.program.callSites.push _) v).note v _ = indexAt vars v
    rw [VarIndex.note_of_base_ne (by simp), VarIndex.ofStmts_push, hvars,
      h.program.index]
  · change Sited _ _ ((d.program.callSites.push _).toList.map CallSite.container)
    rw [Array.toList_push, List.map_append]
    apply h.program.calls.push
    simp
  · change d.body.callSites ++ [_] = (d.body.stmts ++ [Stmt.invoke _]).filterMap _
    rw [filterMap_concat, h.body.callSites]
    rfl
  · change FirstOccurrences ((d.body.stmts ++ [Stmt.invoke _]).filterMap _) _
    rw [filterMap_concat]
    exact (List.append_nil _).symm ▸ h.body.returnVars

/-! ### Items -/

/-- Variables that are added have nothing in their indices. -/
theorem Mirrors.newVar (h : d.Mirrors) (name : String) : (d.newVar name).1.Mirrors where
  program :=
    { h.program with index := fun v ↦ (h.program.index v).trans (indexAt_push _ rfl v).symm }
  body := h.body

theorem Mirrors.addParam (h : d.Mirrors) (name : String) : (d.addParam name).Mirrors where
  program := (h.newVar name).program
  body := ⟨h.body.callSites, h.body.returnVars⟩

theorem Mirrors.addThis (h : d.Mirrors) : d.addThis.Mirrors := by
  unfold Draft.addThis
  cases hthis : d.body.this with
  | some v => exact h
  | none => exact ⟨(h.newVar "this").program, ⟨h.body.callSites, h.body.returnVars⟩⟩

theorem Mirrors.add (h : d.Mirrors) {item : Item} (hadd : d.add item = .ok d') : d'.Mirrors := by
  cases adds_of_add hadd with
  | var name => exact h.newVar name
  | param name => exact h.addParam name
  | this => exact h.addThis
  | alloc lhs cls => exact h.addAlloc lhs cls
  | plain hstmt hbase =>
    obtain ⟨hcall, halloc, hret⟩ := Item.apart_of_stmt? hstmt
    exact h.addStmt hbase hcall halloc hret
  | access hstmt hbase hindex =>
    obtain ⟨hcall, halloc, hret⟩ := Item.apart_of_stmt? hstmt
    exact h.addAccess hindex hbase hcall halloc hret
  | ret value => exact h.addReturn value
  | call hcall => exact h.addCall hcall

end Draft

/-! ## Whole programs -/

/-- Items that declare variables add no statement. -/
def Item.isStmt : Item → Bool
  | .var _ | .param _ | .this => false
  | _ => true

theorem Item.isStmt_of_stmt? {item : Item} {stmt : Stmt} (h : item.stmt? = some stmt) :
    item.isStmt = true := by
  cases item <;> first | rfl | cases h

/-- The method is finished, and has no statements if it is abstract. -/
def MethodDecl.Complete (decl : MethodDecl) : Prop :=
  decl.isFinished = true ∧ (decl.isAbstract = true → ∀ item ∈ decl.items, item.isStmt = false)

instance MethodDecl.decidableComplete (decl : MethodDecl) : Decidable decl.Complete :=
  inferInstanceAs (Decidable (_ ∧ (_ → _)))

namespace Draft

variable {d d' : Draft}

theorem stmts_addThis (d : Draft) : d.addThis.body.stmts = d.body.stmts := by
  unfold addThis
  cases d.body.this <;> rfl

theorem stmts_of_declarations {items : List Item} (hadd : items.foldlM add d = .ok d')
    (hitems : ∀ item ∈ items, item.isStmt = false) : d'.body.stmts = d.body.stmts := by
  refine foldlM_induction (P := fun d' ↦ d'.body.stmts = d.body.stmts) hadd rfl ?_
  intro item hitem d₁ d₂ h₁ hadd
  have hdeclares := hitems item hitem
  cases adds_of_add hadd with
  | var name => exact h₁
  | param name => exact h₁
  | this => rw [stmts_addThis, h₁]
  | plain hstmt _ => cases hdeclares.symm.trans (Item.isStmt_of_stmt? hstmt)
  | access hstmt _ _ => cases hdeclares.symm.trans (Item.isStmt_of_stmt? hstmt)
  | _ => cases hdeclares

theorem set_push_size {α : Type} (as : Array α) (a b : α) : (as.push a).set! as.size b = as.push b := by
  apply Array.ext'
  simp

/-- The method that was the last to get its number gets a body with the statements that were written. -/
theorem Mirrors.close (h : d.Mirrors) {bodies : Array (Option MethodBody)}
    (hbodies : d.program.bodies = bodies.push none) (hmethod : d.method = ⟨bodies.size⟩)
    {hierarchy : Hierarchy} (hsize : hierarchy.methods.size = d.program.hierarchy.methods.size)
    {body : Option MethodBody} (hstmts : (body.map MethodBody.stmts).getD [] = d.body.stmts)
    (htallies : ∀ b, body = some b → b.Tallies) :
    { d.program with hierarchy, bodies := bodies.push body }.Mirrors (linesOf (bodies.push body)) := by
  have hlines : linesOf (bodies.push body) = d.lines := by
    rw [linesOf_push, hstmts, lines, Program.lines, hbodies, linesOf_push, hmethod]
    simp
  have hsizes := h.program.sizes
  rw [hbodies, Array.size_push] at hsizes
  rw [hlines]
  apply h.program.withBodies
  · rw [Array.size_push, hsizes, hsize]
  · intro i b hb
    rw [Array.getElem?_push] at hb
    split at hb
    case isTrue => exact htallies b (Option.some.inj hb)
    case isFalse hne =>
      apply h.program.tallies (i := i)
      rw [hbodies, Array.getElem?_push, if_neg hne]
      exact hb

/-- The body that is kept has the lines that were written. Where none is kept, there were no lines.
-/
theorem Mirrors.finish (h : d.Mirrors) {isStatic isAbstract : Bool} {p : Program}
    (hfinish : d.finish isStatic isAbstract = .ok p) {bodies : Array (Option MethodBody)}
    (hbodies : d.program.bodies = bodies.push none) (hmethod : d.method = ⟨bodies.size⟩)
    (habstract : isAbstract = true → d.body.stmts = []) : p.Mirrors p.lines := by
  obtain ⟨d₁, hierarchy, hd₁, hflags, rfl⟩ := finish_steps hfinish
  have halike := alike_of_finish hd₁
  obtain ⟨hmirrors, hstmts⟩ : d₁.Mirrors ∧ d₁.body.stmts = d.body.stmts := by
    rcases hd₁ with rfl | rfl
    · exact ⟨h, rfl⟩
    · exact ⟨h.addThis, d.stmts_addThis⟩
  have hset : d₁.program.bodies.set! d₁.method.index (if isAbstract then none else some d₁.body) =
      bodies.push (if isAbstract then none else some d₁.body) := by
    rw [halike.bodies, halike.method, hbodies, hmethod, set_push_size]
  simp only [hset]
  apply hmirrors.close (halike.bodies.trans hbodies) (halike.method.trans hmethod)
    (Hierarchy.setMethodFlags_eq_ok hflags).1
  · cases isAbstract with
    | true => exact (hstmts.trans (habstract rfl)).symm
    | false => rfl
  · intro b hb
    cases isAbstract with
    | true => cases hb
    | false => exact Option.some.inj hb ▸ hmirrors.body

end Draft

namespace Program

variable {p q : Program}

/-- A method starts without lines, and its number is the last, so that its lines come after all
others. -/
theorem Mirrors.addMethod (hp : p.Mirrors p.lines) {m : MethodDecl} (hm : m.Complete)
    (hadd : p.addMethod m = .ok q) : q.Mirrors q.lines := by
  obtain ⟨hierarchy, d, hmethod, hd, hend⟩ := addMethod_steps hadd
  obtain ⟨hmethods, -⟩ := Hierarchy.addMethod_eq_ok hmethod
  have hstart : Draft.Mirrors
      { program := { p with hierarchy, bodies := p.bodies.push none },
        method := ⟨p.hierarchy.methods.size⟩ } := by
    refine ⟨?_, rfl, .nil⟩
    have hlines : linesOf (p.bodies.push none) ++ [] = p.lines := by
      rw [linesOf_push]
      simp [lines]
    change Mirrors _ (linesOf (p.bodies.push none) ++ [])
    rw [hlines]
    apply hp.withBodies
    · rw [Array.size_push, hmethods, Array.size_push, hp.sizes]
    · intro i body hbody
      rw [← Option.join_eq_some_iff, join_push_none, Option.join_eq_some_iff] at hbody
      exact hp.tallies hbody
  have halike := Draft.alike_items hd
  have hdraft : d.Mirrors := foldlM_induction hd hstart fun _ _ _ _ h hadd ↦ h.add hadd
  obtain ⟨-, hfinish⟩ := hend.resolve_right fun h ↦ Bool.false_ne_true (h.1.symm.trans hm.1)
  refine hdraft.finish hfinish halike.bodies ?_ fun habstract ↦ ?_
  · rw [halike.method, hp.sizes]
  · rw [Draft.stmts_of_declarations hd (hm.2 habstract)]

theorem Mirrors.declare (hp : p.Mirrors p.lines) {d : Declaration}
    (hcomplete : ∀ decl, d = .method decl → decl.Complete) (hd : p.declare d = .ok q) :
    q.Mirrors q.lines := by
  cases d with
  | cls decl =>
    obtain ⟨⟨hierarchy, c⟩, hclass, hd⟩ := bind_eq_ok.1 hd
    obtain rfl := Except.ok.inj hd
    refine hp.withBodies ?_ fun hbody ↦ hp.tallies hbody
    rw [(Hierarchy.addClass_eq_ok hclass).1, hp.sizes]
  | field decl =>
    obtain rfl := Except.ok.inj hd
    exact ⟨hp.index, hp.calls, hp.allocs, hp.bodies, hp.sizes⟩
  | method decl => exact hp.addMethod (hcomplete decl rfl) hd

theorem mirrors_of_ofDeclarations {ds : List Declaration} (h : ofDeclarations ds = .ok p)
    (hcomplete : ∀ decl, .method decl ∈ ds → decl.Complete) : p.Mirrors p.lines := by
  refine foldlM_induction (P := fun p ↦ p.Mirrors p.lines) h mirrors_empty ?_
  intro d hd q q' hq hdeclare
  exact hq.declare (fun decl heq ↦ hcomplete decl (heq ▸ hd)) hdeclare

end Program

/-! ## Results -/

namespace Program

variable {p : Program} {m : MethodId} {stmt : Stmt}

/-- The statements in the body of `m`; none without a body. -/
def stmtsIn (p : Program) (m : MethodId) : List Stmt := ((p.body m).map MethodBody.stmts).getD []

/-- The statements in all bodies, in the order in which they were written. -/
def stmts (p : Program) : List Stmt := (Id.upTo .method p.bodies.size).flatMap p.stmtsIn

theorem map_snd_lines (p : Program) : p.lines.map Prod.snd = p.stmts := by
  rw [lines, linesOf, List.map_flatMap, stmts]
  apply List.flatMap_congr
  intro m _
  rw [List.map_map]
  exact List.map_id _

theorem lt_of_mem_stmtsIn (h : stmt ∈ p.stmtsIn m) : m.index < p.bodies.size := by
  by_contra hge
  rw [stmtsIn, body, Array.getElem?_eq_none (Nat.le_of_not_lt hge)] at h
  cases h

theorem mem_lines : (m, stmt) ∈ p.lines ↔ stmt ∈ p.stmtsIn m := by
  rw [lines, linesOf, List.mem_flatMap]
  constructor
  · rintro ⟨m', -, hmem⟩
    obtain ⟨stmt', hstmt', heq⟩ := List.mem_map.1 hmem
    obtain ⟨rfl, rfl⟩ := Prod.mk.inj heq
    exact hstmt'
  · intro h
    exact ⟨m, Id.mem_upTo.2 (lt_of_mem_stmtsIn h), List.mem_map_of_mem h⟩

theorem stmtsIn_sublist_lines (p : Program) (m : MethodId) :
    ((p.stmtsIn m).map (Prod.mk m)).Sublist p.lines := by
  by_cases hm : m.index < p.bodies.size
  · apply List.sublist_flatten_of_mem
    exact List.mem_map.2 ⟨m, Id.mem_upTo.2 hm, rfl⟩
  · have hnil : p.stmtsIn m = [] :=
      List.eq_nil_iff_forall_not_mem.2 fun stmt hstmt ↦ hm (lt_of_mem_stmtsIn hstmt)
    rw [hnil]
    exact List.nil_sublist _

/-- Each site occurs once, in the method that contains it. -/
theorem count_of_sited {e : Entity} {site? : Stmt → Option (Id e)} {containers : List MethodId}
    (h : Sited site? p.lines containers) {i : Id e} (hm : containers[i.index]? = some m)
    (m' : MethodId) : ((p.stmtsIn m').filterMap site?).count i = if m' = m then 1 else 0 := by
  have hnodup : ((p.stmtsIn m').filterMap site?).Nodup := by
    apply List.Nodup.of_map (Prod.mk m')
    rw [List.map_filterMap]
    have hsub := (p.stmtsIn_sublist_lines m').filterMap fun line ↦ (site? line.2).map (Prod.mk line.1)
    rw [List.filterMap_map] at hsub
    exact h.nodup.sublist hsub
  have hmem : i ∈ (p.stmtsIn m').filterMap site? ↔ m' = m := by
    calc
      i ∈ (p.stmtsIn m').filterMap site? ↔ ∃ stmt, (m', stmt) ∈ p.lines ∧ site? stmt = some i := by
        rw [List.mem_filterMap]
        simp only [mem_lines]
      _ ↔ containers[i.index]? = some m' := h.mem_iff
      _ ↔ m' = m := by rw [hm, Option.some.injEq, eq_comm]
  rw [hnodup.count]
  simp only [hmem]

/-- Everything that is entered beside statements can be read off these. -/
structure Mirrored (p : Program) : Prop where
  /-- Accesses are listed with their bases, calls with their receivers and arguments. -/
  indices : ∀ {v info}, p.var v = .ok info → info.index = VarIndex.ofStmts p.stmts p.callSites v
  callSites : ∀ {m body}, p.body m = some body →
    body.callSites = body.stmts.filterMap Stmt.callSite?
  returnVars : ∀ {m body}, p.body m = some body →
    FirstOccurrences (body.stmts.filterMap Stmt.returned?) body.returnVars
  /-- A call site occurs in one statement, which stands in the method that contains the site. -/
  calls : ∀ {c site}, p.callSite c = .ok site → ∀ m,
    ((p.stmtsIn m).filterMap Stmt.callSite?).count c = if m = site.container then 1 else 0
  allocs : ∀ {a site}, p.allocSite a = .ok site → ∀ m,
    ((p.stmtsIn m).filterMap Stmt.allocSite?).count a = if m = site.container then 1 else 0

theorem Mirrors.mirrored (h : p.Mirrors p.lines) : p.Mirrored where
  indices := by
    intro v info hinfo
    rw [← map_snd_lines, h.index, indexAt, Id.lookup_eq_ok_iff.1 hinfo]
    rfl
  callSites hbody := (h.bodies hbody).callSites
  returnVars hbody := (h.bodies hbody).returnVars
  calls := by
    intro c site hsite
    apply count_of_sited h.calls
    rw [List.getElem?_map, Array.getElem?_toList, Id.lookup_eq_ok_iff.1 hsite]
    rfl
  allocs := by
    intro a site hsite
    apply count_of_sited h.allocs
    rw [List.getElem?_map, Array.getElem?_toList, Id.lookup_eq_ok_iff.1 hsite]
    rfl

end Program

/-- In every program that is built from finished methods, of which those that are abstract have no
statements, the indices of variables, the lists of bodies and the containers of sites say what the
statements say. -/
theorem indices_mirror_statements {ds : List Declaration} {p : Program}
    (hbuilt : Program.ofDeclarations ds = .ok p)
    (hcomplete : ∀ decl, .method decl ∈ ds → decl.Complete) : p.Mirrored :=
  (Program.mirrors_of_ofDeclarations hbuilt hcomplete).mirrored

/-- A shape with a method that is abstract, one that returns `this` twice, and one that goes through
variables of the other, and passes a variable twice. -/
def crossedShapes : List Declaration :=
  [ .cls { name := "Shape" },
    .field { name := "next", cls := ⟨0⟩ },
    .method { cls := ⟨0⟩, subsignature := ⟨"join(Shape)"⟩, isAbstract := true, items :=
      [.this, .param "other"] },
    .method { cls := ⟨0⟩, subsignature := ⟨"link(Shape,Shape)"⟩, items :=
      [.this, .param "left", .param "right", .storeField ⟨2⟩ ⟨0⟩ ⟨3⟩, .loadField ⟨4⟩ ⟨2⟩ ⟨0⟩,
        .ret (some ⟨2⟩), .ret (some ⟨3⟩), .ret (some ⟨2⟩)] },
    .method { cls := ⟨0⟩, subsignature := ⟨"main()"⟩, isStatic := true, items :=
      [.var "shape", .alloc ⟨5⟩ ⟨0⟩, .storeField ⟨2⟩ ⟨0⟩ ⟨5⟩, .storeArray ⟨2⟩ ⟨5⟩, .loadArray ⟨5⟩ ⟨2⟩,
        .call .virtual none (some ⟨5⟩) ⟨⟨0⟩, ⟨"link(Shape,Shape)"⟩⟩ [⟨2⟩, ⟨5⟩, ⟨2⟩],
        .call .special none (some ⟨2⟩) ⟨⟨0⟩, ⟨"link(Shape,Shape)"⟩⟩ [⟨5⟩, ⟨2⟩]] } ]

def crossedProgram : Program := (Program.ofDeclarations crossedShapes).toOption.getD {}

set_option maxRecDepth 4000 in
theorem indices_mirror_statements_crossed :
    Program.ofDeclarations crossedShapes = .ok crossedProgram ∧
    (∀ decl, .method decl ∈ crossedShapes → decl.Complete) ∧ crossedProgram.Mirrored ∧
    indexAt crossedProgram.vars ⟨2⟩ =
      { storeFields := [⟨⟨0⟩, ⟨3⟩⟩, ⟨⟨0⟩, ⟨5⟩⟩], loadFields := [⟨⟨4⟩, ⟨0⟩⟩], storeArrays := [⟨5⟩],
        loadArrays := [⟨5⟩], invokes := [⟨1⟩], argOf := [⟨0⟩, ⟨1⟩] } ∧
    (crossedProgram.body ⟨1⟩).map MethodBody.returnVars = some [⟨2⟩, ⟨3⟩] := by
  have hbuilt : Program.ofDeclarations crossedShapes = .ok crossedProgram := by rfl
  have hcomplete : ∀ decl, .method decl ∈ crossedShapes → decl.Complete := by
    intro decl hdecl
    simp only [crossedShapes, List.mem_cons, List.not_mem_nil, Declaration.method.injEq, reduceCtorEq,
      false_or, or_false] at hdecl
    obtain rfl | rfl | rfl := hdecl <;> decide
  exact ⟨hbuilt, hcomplete, indices_mirror_statements hbuilt hcomplete, rfl, rfl⟩

end PointsTo
