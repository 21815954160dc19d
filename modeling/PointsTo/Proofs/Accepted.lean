import PointsTo.Program.World
import PointsTo.Proofs.Building

/-!
# What an analysis relies on

A program that was built and accepted as a world, and whose assignments are to variables that exist,
never makes an analysis ask for something unknown. `Program.Analysable` collects what the proofs about
runs need; it follows from building, from acceptance and from `Program.InRange`, which can be checked.
-/

namespace PointsTo

theorem forM_eq_ok {ε α : Type} {f : α → Except ε Unit} {as : List α} (h : as.forM f = .ok ())
    {a : α} (ha : a ∈ as) : f a = .ok () := by
  induction as with
  | nil => cases ha
  | cons b as ih =>
    obtain ⟨u, hb, hrest⟩ := bind_eq_ok.1 h
    rcases List.mem_cons.1 ha with rfl | ha
    · exact hb
    · exact ih hrest ha

theorem mem_of_lookup {α β : Type} [BEq α] [LawfulBEq α] {a : α} {b : β} {l : List (α × β)}
    (hl : l.lookup a = some b) : (a, b) ∈ l := by
  obtain ⟨before, after, rfl, -⟩ := List.lookup_eq_some_iff.1 hl
  exact List.mem_append_right before List.mem_cons_self

/-! ## The hierarchy answers -/

namespace Hierarchy

variable {h : Hierarchy}

theorem cls_eq_ok {c : ClassId} (hc : c.index < h.classes.size) : ∃ k, h.cls c = .ok k :=
  ⟨h.classes[c.index], Id.lookup_eq_ok_iff.2 (Array.getElem?_eq_getElem hc)⟩

theorem resolve_ok {r : MethodRef} {k : ClassInfo} (hk : h.cls r.cls = .ok k) :
    ∃ m, h.resolve r = .ok m := by
  simp [resolve, hk, bind, Except.bind, pure, Except.pure]

theorem dispatch_ok {c : ClassId} {s : Subsignature} {k : ClassInfo} (hk : h.cls c = .ok k) :
    ∃ m, h.dispatch c s = .ok m := by
  simp [dispatch, hk, bind, Except.bind, pure, Except.pure]

/-- All methods that some class declares. -/
def declaredMethods (h : Hierarchy) : List MethodId :=
  h.classes.toList.flatMap fun k ↦ k.declared.map Prod.snd

theorem mem_of_declared? {c : ClassId} {s : Subsignature} {m : MethodId}
    (hm : h.declared? c s = some m) : m ∈ h.declaredMethods := by
  obtain ⟨k, hk, hm⟩ := Option.bind_eq_some_iff.1 hm
  refine List.mem_flatMap.2 ⟨k, Array.mem_toList_iff.2 (Array.mem_of_getElem? hk), ?_⟩
  exact List.mem_map.2 ⟨(s, m), mem_of_lookup hm, rfl⟩

theorem mem_of_resolve {r : MethodRef} {m : MethodId} (hm : h.resolve r = .ok (some m)) :
    m ∈ h.declaredMethods := by
  obtain ⟨k, -, hm⟩ := bind_eq_ok.1 hm
  rcases Option.or_eq_some_iff.1 (Except.ok.inj hm) with hm | ⟨-, hm⟩
  · obtain ⟨c, -, hc⟩ := List.exists_of_findSome?_eq_some hm
    exact mem_of_declared? hc
  · obtain ⟨c, -, hc⟩ := List.exists_of_findSome?_eq_some hm
    exact mem_of_declared? hc

theorem mem_of_dispatch {c : ClassId} {s : Subsignature} {m : MethodId}
    (hm : h.dispatch c s = .ok (some m)) : m ∈ h.declaredMethods := by
  obtain ⟨k, -, hm⟩ := bind_eq_ok.1 hm
  obtain ⟨a, -, ha⟩ := List.exists_of_findSome?_eq_some (Except.ok.inj hm)
  exact mem_of_declared? (Option.filter_eq_some_iff.1 ha).1

end Hierarchy

/-! ## Programs in range -/

namespace Program

variable {p : Program}

/-- Every variable that something is assigned to exists, and so does every class that is
instantiated. -/
structure InRange (p : Program) : Prop where
  targets : ∀ body ∈ p.bodies.toList.reduceOption, ∀ stmt ∈ body.stmts, ∀ v ∈ stmt.target,
    v.index < p.vars.size
  loads : ∀ info ∈ p.vars.toList,
    (∀ load ∈ info.index.loadFields, load.lhs.index < p.vars.size) ∧
      ∀ lhs ∈ info.index.loadArrays, lhs.index < p.vars.size
  results : ∀ site ∈ p.callSites.toList, ∀ v ∈ site.result, v.index < p.vars.size
  classes : ∀ site ∈ p.allocSites.toList, site.cls.index < p.hierarchy.classes.size

instance (p : Program) : Decidable p.InRange :=
  decidable_of_iff
    ((∀ body ∈ p.bodies.toList.reduceOption, ∀ stmt ∈ body.stmts, ∀ v ∈ stmt.target,
        v.index < p.vars.size) ∧
      (∀ info ∈ p.vars.toList,
        (∀ load ∈ info.index.loadFields, load.lhs.index < p.vars.size) ∧
          ∀ lhs ∈ info.index.loadArrays, lhs.index < p.vars.size) ∧
      (∀ site ∈ p.callSites.toList, ∀ v ∈ site.result, v.index < p.vars.size) ∧
      ∀ site ∈ p.allocSites.toList, site.cls.index < p.hierarchy.classes.size)
    ⟨fun h ↦ ⟨h.1, h.2.1, h.2.2.1, h.2.2.2⟩, fun h ↦ ⟨h.1, h.2, h.3, h.4⟩⟩

/-- What an analysis may rely on. -/
structure Analysable (p : Program) : Prop where
  coherent : p.Coherent
  inRange : p.InRange
  /-- The classes that calls name are known, dynamic calls apart. -/
  calls : ∀ {c site}, p.callSite c = .ok site → site.kind ≠ .dynamic →
    ∃ k, p.hierarchy.cls site.target.cls = .ok k

theorem var_eq_ok_iff {v : VarId} : (∃ info, p.var v = .ok info) ↔ v.index < p.vars.size := by
  constructor
  · intro h
    obtain ⟨info, hinfo⟩ := h
    exact (Array.getElem?_eq_some_iff.1 (Id.lookup_eq_ok_iff.1 hinfo)).1
  · intro h
    exact ⟨p.vars[v.index], Id.lookup_eq_ok_iff.2 (Array.getElem?_eq_getElem h)⟩

theorem mem_bodies {m : MethodId} {body : MethodBody} (h : p.body m = some body) :
    body ∈ p.bodies.toList.reduceOption := by
  have hget : p.bodies[m.index]? = some (some body) := Option.join_eq_some_iff.1 h
  have hmem : some body ∈ p.bodies.toList := Array.mem_toList_iff.2 (Array.mem_of_getElem? hget)
  exact List.mem_filterMap.2 ⟨some body, hmem, rfl⟩

theorem mem_vars {v : VarId} {info : VarInfo} (h : p.var v = .ok info) : info ∈ p.vars.toList :=
  Array.mem_toList_iff.2 (Array.mem_of_getElem? (Id.lookup_eq_ok_iff.1 h))

theorem mem_callSites {c : CallSiteId} {site : CallSite} (h : p.callSite c = .ok site) :
    site ∈ p.callSites.toList :=
  Array.mem_toList_iff.2 (Array.mem_of_getElem? (Id.lookup_eq_ok_iff.1 h))

theorem mem_allocSites {a : AllocSiteId} {site : AllocSite} (h : p.allocSite a = .ok site) :
    site ∈ p.allocSites.toList :=
  Array.mem_toList_iff.2 (Array.mem_of_getElem? (Id.lookup_eq_ok_iff.1 h))

namespace Analysable

variable (hp : p.Analysable)

include hp

theorem target {m : MethodId} {body : MethodBody} (hbody : p.body m = some body) {stmt : Stmt}
    (hstmt : stmt ∈ body.stmts) {v : VarId} (hv : stmt.target = some v) :
    ∃ info, p.var v = .ok info :=
  var_eq_ok_iff.2 (hp.inRange.targets body (mem_bodies hbody) stmt hstmt v hv)

theorem result {c : CallSiteId} {site : CallSite} (hsite : p.callSite c = .ok site) {v : VarId}
    (hv : site.result = some v) : ∃ info, p.var v = .ok info :=
  var_eq_ok_iff.2 (hp.inRange.results site (mem_callSites hsite) v hv)

theorem arg {c : CallSiteId} {site : CallSite} (hsite : p.callSite c = .ok site) {v : VarId}
    (hv : v ∈ site.args) : ∃ info, p.var v = .ok info :=
  var_eq_ok_iff.2 (hp.coherent.args (Id.lookup_eq_ok_iff.1 hsite) hv)

theorem param {m : MethodId} {body : MethodBody} (hbody : p.body m = some body) {v : VarId}
    (hv : v ∈ body.params) : ∃ info, p.var v = .ok info :=
  var_eq_ok_iff.2 ((hp.coherent.holds hbody).params hv)

theorem this {m : MethodId} {v : VarId} (hv : p.thisVar m = some v) :
    ∃ info, p.var v = .ok info := by
  obtain ⟨body, hbody, hthis⟩ := Option.bind_eq_some_iff.1 hv
  exact var_eq_ok_iff.2 ((hp.coherent.holds hbody).this hthis)

theorem allocSite {m : MethodId} {body : MethodBody} (hbody : p.body m = some body) {lhs : VarId}
    {a : AllocSiteId} (hstmt : .alloc lhs a ∈ body.stmts) : ∃ site, p.allocSite a = .ok site := by
  have ha : a.index < p.allocSites.size := (hp.coherent.holds hbody).stmts hstmt
  exact ⟨p.allocSites[a.index], Id.lookup_eq_ok_iff.2 (Array.getElem?_eq_getElem ha)⟩

theorem callSite {m : MethodId} {body : MethodBody} (hbody : p.body m = some body) {c : CallSiteId}
    (hstmt : .invoke c ∈ body.stmts) : ∃ site, p.callSite c = .ok site := by
  have hc : c.index < p.callSites.size := (hp.coherent.holds hbody).stmts hstmt
  exact ⟨p.callSites[c.index], Id.lookup_eq_ok_iff.2 (Array.getElem?_eq_getElem hc)⟩

/-- A call listed with a variable exists, and the variable is its receiver. -/
theorem invokes {v : VarId} {info : VarInfo} (hinfo : p.var v = .ok info) {c : CallSiteId}
    (hc : c ∈ info.index.invokes) :
    ∃ site, p.callSite c = .ok site ∧ site.receiver = some v := by
  obtain ⟨site, hsite, hreceiver⟩ := hp.coherent.invokes (Id.lookup_eq_ok_iff.1 hinfo) hc
  exact ⟨site, Id.lookup_eq_ok_iff.2 hsite, hreceiver⟩

theorem allocator {a : AllocSiteId} {site : AllocSite} (hsite : p.allocSite a = .ok site) :
    ∃ m, p.hierarchy.method site.container = .ok m := by
  have hm := hp.coherent.containers (Id.lookup_eq_ok_iff.1 hsite)
  exact ⟨p.hierarchy.methods[site.container.index],
    Id.lookup_eq_ok_iff.2 (Array.getElem?_eq_getElem hm)⟩

theorem cls {a : AllocSiteId} {site : AllocSite} (hsite : p.allocSite a = .ok site) :
    ∃ k, p.hierarchy.cls site.cls = .ok k :=
  Hierarchy.cls_eq_ok (hp.inRange.classes site (mem_allocSites hsite))

/-- Every call has an answer on a receiver of a known class. -/
theorem callee {c : CallSiteId} {site : CallSite} (hsite : p.callSite c = .ok site) {k : ClassId}
    {info : ClassInfo} (hk : p.hierarchy.cls k = .ok info) : ∃ m, p.callee (some k) c = .ok m := by
  cases hkind : site.kind with
  | dynamic => simp [Program.callee, hsite, hkind, bind, Except.bind, pure, Except.pure]
  | static =>
    obtain ⟨info', hinfo'⟩ := hp.calls hsite (by simp [hkind])
    obtain ⟨m, hm⟩ := Hierarchy.resolve_ok hinfo'
    exact ⟨m, by simp [Program.callee, hsite, hkind, hm, bind, Except.bind]⟩
  | special =>
    obtain ⟨info', hinfo'⟩ := hp.calls hsite (by simp [hkind])
    obtain ⟨m, hm⟩ := Hierarchy.dispatch_ok (s := site.target.subsignature) hinfo'
    exact ⟨m, by simp [Program.callee, hsite, hkind, hm, bind, Except.bind]⟩
  | virtual =>
    obtain ⟨m, hm⟩ := Hierarchy.dispatch_ok (s := site.target.subsignature) hk
    exact ⟨m, by simp [Program.callee, hsite, hkind, hm, bind, Except.bind]⟩
  | interface =>
    obtain ⟨m, hm⟩ := Hierarchy.dispatch_ok (s := site.target.subsignature) hk
    exact ⟨m, by simp [Program.callee, hsite, hkind, hm, bind, Except.bind]⟩

end Analysable

/-- A call on a receiver only ever reaches a declared method. -/
theorem mem_of_callee {c : CallSiteId} {k : ClassId} {m : MethodId}
    (hm : p.callee (some k) c = .ok (some m)) : m ∈ p.hierarchy.declaredMethods := by
  obtain ⟨site, hsite, hm⟩ := bind_eq_ok.1 hm
  cases hkind : site.kind with
  | dynamic => simp [hkind, pure, Except.pure] at hm
  | static =>
    rw [hkind] at hm
    exact Hierarchy.mem_of_resolve hm
  | special =>
    rw [hkind] at hm
    exact Hierarchy.mem_of_dispatch hm
  | virtual =>
    rw [hkind] at hm
    exact Hierarchy.mem_of_dispatch hm
  | interface =>
    rw [hkind] at hm
    exact Hierarchy.mem_of_dispatch hm

end Program

/-! ## Worlds -/

namespace World

variable {p : Program}

theorem read_eq_ok {α : Type} {x : Except UnknownId α} {a : α} (h : read x = .ok a) : x = .ok a := by
  cases x with
  | error e => cases h
  | ok b => exact congrArg _ (Except.ok.inj h)

theorem cls_of_checkCall {c : CallSiteId} (h : checkCall p c = .ok ()) {site : CallSite}
    (hsite : p.callSite c = .ok site) (hkind : site.kind ≠ .dynamic) :
    ∃ k, p.hierarchy.cls site.target.cls = .ok k := by
  obtain ⟨site', hsite', h⟩ := bind_eq_ok.1 h
  obtain rfl := Except.ok.inj (hsite.symm.trans (read_eq_ok hsite'))
  rw [if_neg hkind] at h
  obtain ⟨k, hk, -⟩ := bind_eq_ok.1 h
  exact ⟨k, read_eq_ok hk⟩

/-- What a call refers to is declared, and takes as many arguments as the call passes if it has a
body. -/
theorem resolve_of_checkCall {c : CallSiteId} (h : checkCall p c = .ok ()) {site : CallSite}
    (hsite : p.callSite c = .ok site) (hkind : site.kind ≠ .dynamic) :
    ∃ m, p.hierarchy.resolve site.target = .ok (some m) ∧
      ∀ body, p.body m = some body → body.params.length = site.args.length := by
  obtain ⟨site', hsite', h⟩ := bind_eq_ok.1 h
  obtain rfl := Except.ok.inj (hsite.symm.trans (read_eq_ok hsite'))
  rw [if_neg hkind] at h
  obtain ⟨k, -, h⟩ := bind_eq_ok.1 h
  obtain ⟨caller, -, h⟩ := bind_eq_ok.1 h
  obtain ⟨found, hfound, h⟩ := bind_eq_ok.1 h
  cases found with
  | none => cases h
  | some m =>
    refine ⟨m, read_eq_ok hfound, fun body hbody ↦ ?_⟩
    simp only [hbody] at h
    split at h
    case isTrue hlength => exact hlength
    case isFalse =>
      obtain ⟨callee, -, h⟩ := bind_eq_ok.1 h
      cases h

theorem checkCall_of_accepted {entry : MethodId} {w : World} (h : World.of p entry = .ok w)
    {c : CallSiteId} {site : CallSite} (hsite : p.callSite c = .ok site) : checkCall p c = .ok () := by
  obtain ⟨_, -, h⟩ := bind_eq_ok.1 h
  obtain ⟨_, -, h⟩ := bind_eq_ok.1 h
  obtain ⟨_, hcalls, -⟩ := bind_eq_ok.1 h
  have hlt := (Array.getElem?_eq_some_iff.1 (Id.lookup_eq_ok_iff.1 hsite)).1
  exact forM_eq_ok hcalls (Id.mem_upTo.2 hlt)

theorem of_eq_ok {entry : MethodId} {w : World} (h : World.of p entry = .ok w) :
    w = ⟨p, entry⟩ ∧ ∀ {c site}, p.callSite c = .ok site → site.kind ≠ .dynamic →
      ∃ k, p.hierarchy.cls site.target.cls = .ok k := by
  refine ⟨?_, fun hsite ↦ cls_of_checkCall (checkCall_of_accepted h hsite) hsite⟩
  obtain ⟨_, -, h⟩ := bind_eq_ok.1 h
  obtain ⟨_, -, h⟩ := bind_eq_ok.1 h
  obtain ⟨_, -, h⟩ := bind_eq_ok.1 h
  exact (Except.ok.inj h).symm

theorem entry_lt {entry : MethodId} {w : World} (h : World.of p entry = .ok w) :
    entry.index < p.hierarchy.methods.size := by
  obtain ⟨_, hentry, -⟩ := bind_eq_ok.1 h
  cases hm : p.hierarchy.methods[entry.index]? with
  | none => simp [checkEntry, hm] at hentry
  | some m => exact (Array.getElem?_eq_some_iff.1 hm).1

end World

theorem Program.analysable {ds : List Declaration} {p : Program}
    (hbuilt : Program.ofDeclarations ds = .ok p) {entry : MethodId} {w : World}
    (hw : World.of p entry = .ok w) (hrange : p.InRange) : p.Analysable where
  coherent := coherent_of_ofDeclarations hbuilt
  inRange := hrange
  calls := (World.of_eq_ok hw).2

end PointsTo
