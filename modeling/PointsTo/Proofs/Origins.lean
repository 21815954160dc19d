import PointsTo.Proofs.Building

/-!
# Where the parts of a program come from

Building takes items apart: what a method was given ends up in its body, in the arena of call sites and
in the indices of variables, where it stays even if the body is discarded. `Program.Stems` says that
nothing else ends up there. Every statement, every access that is listed with a variable, every
call site and every variable returned stems from an item, the call sites in a body are those of its
method, and parameters and receivers belong to their methods and are told apart.

It follows that a program is as tidy as its declarations: if items only mention variables of the method
they are given to (`Program.MentionsOwn`), then so does everything made from them.
-/

namespace PointsTo

/-! ## Items -/

/-- The variables that an item assigns or reads. What a method returns is read by its callers, and is
not counted. -/
def Item.vars : Item → List VarId
  | .alloc lhs _ | .loadStatic lhs _ => [lhs]
  | .storeStatic _ rhs => [rhs]
  | .copy lhs rhs => [lhs, rhs]
  | .loadField lhs base _ | .loadArray lhs base => [lhs, base]
  | .storeField base _ rhs | .storeArray base rhs => [base, rhs]
  | .call _ result receiver _ args => result.toList ++ receiver.toList ++ args
  | .var _ | .param _ | .this | .ret _ | .nop => []

/-- The variables that a statement assigns or reads. Those of a call belong to its call site. -/
def Stmt.vars : Stmt → List VarId
  | .ret _ => []
  | stmt => stmt.target.toList ++ stmt.uses

theorem Item.vars_of_stmt? {item : Item} {stmt : Stmt} (h : item.stmt? = some stmt) :
    stmt.vars = item.vars := by
  cases item <;> cases h <;> rfl

/-- The item that a call site is made from. -/
def CallSite.item (site : CallSite) : Item :=
  .call site.kind site.result site.receiver site.target site.args

/-- The access `item` goes through `v` and is listed in the index of `v`. -/
inductive VarIndex.Lists (ix : VarIndex) (v : VarId) : Item → Prop
  | loadField {load : FieldLoad} : load ∈ ix.loadFields → Lists ix v (.loadField load.lhs v load.field)
  | storeField {store : FieldStore} :
      store ∈ ix.storeFields → Lists ix v (.storeField v store.field store.rhs)
  | loadArray {lhs : VarId} : lhs ∈ ix.loadArrays → Lists ix v (.loadArray lhs v)
  | storeArray {rhs : VarId} : rhs ∈ ix.storeArrays → Lists ix v (.storeArray v rhs)

/-- Calls that are listed in addition do not matter. -/
theorem VarIndex.Lists.withoutCalls {ix : VarIndex} {v : VarId} {item : Item}
    {invokes argOf : List CallSiteId} (h : Lists { ix with invokes, argOf } v item) :
    ix.Lists v item := by
  cases h with
  | loadField h => exact .loadField h
  | storeField h => exact .storeField h
  | loadArray h => exact .loadArray h
  | storeArray h => exact .storeArray h

/-- Noting the statement of an item lists at most this item in addition. -/
theorem VarIndex.Lists.of_note {ix : VarIndex} {v : VarId} {item item' : Item} {stmt : Stmt}
    (hstmt : item.stmt? = some stmt) (h : (ix.note v stmt).Lists v item') :
    ix.Lists v item' ∨ item' = item := by
  cases h with
  | @loadField load h =>
    refine (List.mem_append.1 h).imp .loadField fun h ↦ ?_
    cases load
    cases item <;> cases hstmt <;> simp_all
  | @storeField store h =>
    refine (List.mem_append.1 h).imp .storeField fun h ↦ ?_
    cases store
    cases item <;> cases hstmt <;> simp_all
  | loadArray h =>
    refine (List.mem_append.1 h).imp .loadArray fun h ↦ ?_
    cases item <;> cases hstmt <;> simp_all
  | storeArray h =>
    refine (List.mem_append.1 h).imp .storeArray fun h ↦ ?_
    cases item <;> cases hstmt <;> simp_all

def Declaration.method? : Declaration → Option MethodDecl
  | .method decl => some decl
  | _ => none

/-- The methods that are declared, each with its number. -/
def numberedMethods (ds : List Declaration) : List (MethodDecl × Nat) :=
  (ds.filterMap Declaration.method?).zipIdx

/-- The item is given to the method `m`. -/
def Gives (ds : List Declaration) (m : MethodId) (item : Item) : Prop :=
  ∃ decl, (decl, m.index) ∈ numberedMethods ds ∧ item ∈ decl.items

namespace Program

variable {p q : Program} {given : MethodId → Item → Prop}

/-- The method to which a variable belongs. -/
def owner? (p : Program) (v : VarId) : Option MethodId := (p.vars[v.index]?).map (·.method)

theorem lt_of_owner? {v : VarId} {m : MethodId} (h : p.owner? v = some m) :
    v.index < p.vars.size := by
  obtain ⟨info, hinfo, -⟩ := Option.map_eq_some_iff.1 h
  exact (Array.getElem?_eq_some_iff.1 hinfo).1

def Lists (p : Program) (v : VarId) (item : Item) : Prop :=
  ∃ info : VarInfo, p.vars[v.index]? = some info ∧ info.index.Lists v item

/-- Whatever is given to a method assigns and reads only variables of this method. -/
def MentionsOwn (p : Program) (ds : List Declaration) : Prop :=
  ∀ entry ∈ numberedMethods ds, ∀ item ∈ entry.1.items, ∀ v ∈ item.vars, p.owner? v = some ⟨entry.2⟩

instance (p : Program) (ds : List Declaration) : Decidable (p.MentionsOwn ds) :=
  inferInstanceAs (Decidable (∀ entry ∈ numberedMethods ds, ∀ item ∈ entry.1.items, ∀ v ∈ item.vars,
    p.owner? v = some ⟨entry.2⟩))

theorem MentionsOwn.owner {ds : List Declaration} (h : p.MentionsOwn ds) {m : MethodId} {item : Item}
    (hitem : Gives ds m item) {v : VarId} (hv : v ∈ item.vars) : p.owner? v = some m := by
  obtain ⟨decl, hdecl, hitem⟩ := hitem
  exact h _ hdecl item hitem v hv

/-! ## Provenance -/

/-- The body of `m` stems from items given to `m`. -/
structure BodyStems (p : Program) (given : MethodId → Item → Prop) (m : MethodId)
    (body : MethodBody) : Prop where
  stmts : ∀ {stmt}, stmt ∈ body.stmts → ∃ item, given m item ∧ ∀ v ∈ stmt.vars, v ∈ item.vars
  params : ∀ {v}, v ∈ body.params → p.owner? v = some m
  this : ∀ {v}, body.this = some v → p.owner? v = some m ∧ v ∉ body.params
  callSites : ∀ {c : CallSiteId}, c ∈ body.callSites ↔
    ∃ site, p.callSites[c.index]? = some site ∧ site.container = m
  invokes : ∀ {c}, .invoke c ∈ body.stmts → c ∈ body.callSites
  returns : ∀ {v}, v ∈ body.returnVars → given m (.ret (some v))

/-- The parts of a program stem from items given to its methods. -/
structure Stems (p : Program) (given : MethodId → Item → Prop) : Prop where
  bodies : ∀ {m body}, p.body m = some body → p.BodyStems given m body
  listed : ∀ {v item}, p.Lists v item → ∃ m, given m item
  calls : ∀ {i : Nat} {site : CallSite}, p.callSites[i]? = some site → given site.container site.item
  containers : ∀ {i : Nat} {site : CallSite}, p.callSites[i]? = some site →
    site.container.index < p.hierarchy.methods.size
  owners : ∀ {v m}, p.owner? v = some m → m.index < p.hierarchy.methods.size
  sizes : p.bodies.size = p.hierarchy.methods.size

/-- Exchanging the variables of `p` for `vars` keeps their owners, adds only variables that methods
own, and lists only accesses in `new` in addition. -/
structure Relists (p : Program) (vars : Array VarInfo) (new : Item → Prop) : Prop where
  owners : ∀ {v m}, p.owner? v = some m → { p with vars }.owner? v = some m
  owned : ∀ {v m}, { p with vars }.owner? v = some m →
    p.owner? v = some m ∨ m.index < p.hierarchy.methods.size
  lists : ∀ {v item}, { p with vars }.Lists v item → p.Lists v item ∨ new item

theorem Relists.trans {vars vars' : Array VarInfo} {new : Item → Prop} (h : p.Relists vars new)
    (h' : { p with vars }.Relists vars' new) : p.Relists vars' new where
  owners hv := h'.owners (h.owners hv)
  owned hv := (h'.owned hv).elim h.owned .inr
  lists hl := (h'.lists hl).elim h.lists .inr

/-- A new variable belongs to a method, and nothing is listed with it. -/
theorem relists_push (p : Program) (info : VarInfo) (hinfo : info.index = {})
    (hmethod : info.method.index < p.hierarchy.methods.size) {new : Item → Prop} :
    p.Relists (p.vars.push info) new where
  owners := by
    intro v m hv
    have hlt := lt_of_owner? hv
    unfold owner?
    rw [Array.getElem?_push_lt hlt, ← Array.getElem?_eq_getElem hlt]
    exact hv
  owned := by
    intro v m hv
    unfold owner? at hv
    rw [Array.getElem?_push] at hv
    split at hv
    · obtain rfl := Option.some.inj hv
      exact .inr hmethod
    · exact .inl hv
  lists := by
    intro v item hl
    obtain ⟨info', hinfo', hl⟩ := hl
    rw [Array.getElem?_push] at hinfo'
    split at hinfo'
    · -- Nothing is listed with a new variable.
      obtain rfl := Option.some.inj hinfo'
      rw [hinfo] at hl
      cases hl <;> contradiction
    · exact .inl ⟨info', hinfo', hl⟩

/-- Changing the index of a variable changes no owner, and lists nothing with others. -/
theorem relists_modify (p : Program) (v : VarId) {f : VarIndex → VarIndex} {new : Item → Prop}
    (hf : ∀ {ix item}, (f ix).Lists v item → ix.Lists v item ∨ new item) :
    p.Relists (p.vars.modify v.index fun info ↦ { info with index := f info.index }) new where
  owners := by
    intro w m hw
    unfold owner? at hw ⊢
    rw [Array.getElem?_modify]
    split
    · rw [Option.map_map]
      exact hw
    · exact hw
  owned := by
    intro w m hw
    unfold owner? at hw ⊢
    rw [Array.getElem?_modify] at hw
    split at hw
    · rw [Option.map_map] at hw
      exact .inl hw
    · exact .inl hw
  lists := by
    intro w item hl
    obtain ⟨info, hinfo, hl⟩ := hl
    rw [Array.getElem?_modify] at hinfo
    split at hinfo
    case isTrue heq =>
      obtain ⟨old, hold, rfl⟩ := Option.map_eq_some_iff.1 hinfo
      obtain rfl : v = w := Id.index_inj.1 heq
      exact (hf hl).imp_left fun hl ↦ ⟨old, hold, hl⟩
    case isFalse => exact .inl ⟨info, hinfo, hl⟩

theorem BodyStems.mono {m : MethodId} {body : MethodBody} (h : p.BodyStems given m body)
    (howners : ∀ {v m}, p.owner? v = some m → q.owner? v = some m)
    (hsites : ∀ {i : Nat} {site : CallSite}, site.container = m →
      (q.callSites[i]? = some site ↔ p.callSites[i]? = some site)) :
    q.BodyStems given m body where
  stmts := h.stmts
  params hv := howners (h.params hv)
  this hv := ⟨howners (h.this hv).1, (h.this hv).2⟩
  callSites := by
    intro c
    rw [h.callSites]
    apply exists_congr
    intro site
    apply and_congr_left
    intro hm
    exact (hsites hm).symm
  invokes := h.invokes
  returns := h.returns

theorem stems_empty : Stems {} given where
  bodies h := by simp [body] at h
  listed h := by
    obtain ⟨info, hinfo, -⟩ := h
    simp at hinfo
  calls h := by simp at h
  containers h := by simp at h
  owners h := by simp [owner?] at h
  sizes := rfl

/-- Bodies and methods may be added as long as bodies stem from items. -/
theorem Stems.withBodies (hp : p.Stems given) {h : Hierarchy} {bodies : Array (Option MethodBody)}
    (hmethods : p.hierarchy.methods.size ≤ h.methods.size) (hsize : bodies.size = h.methods.size)
    (hbodies : ∀ {m : MethodId} {body}, (bodies[m.index]?).join = some body →
      p.BodyStems given m body) : { p with hierarchy := h, bodies }.Stems given where
  bodies hbody := (hbodies hbody).mono id fun _ ↦ .rfl
  listed := hp.listed
  calls := hp.calls
  containers hsite := Nat.lt_of_lt_of_le (hp.containers hsite) hmethods
  owners hv := Nat.lt_of_lt_of_le (hp.owners hv) hmethods
  sizes := hsize

end Program

/-! ## Writing a method -/

namespace Draft

variable {d d' : Draft} {given : MethodId → Item → Prop}

theorem relists_of_reindex {v : VarId} {f : VarIndex → VarIndex} {new : Item → Prop}
    (h : d.reindex v f = .ok d')
    (hf : ∀ {ix item}, (f ix).Lists v item → ix.Lists v item ∨ new item) :
    ∃ vars, d' = { d with program.vars := vars } ∧ d.program.Relists vars new := by
  obtain ⟨vars, hvars, h⟩ := bind_eq_ok.1 h
  obtain ⟨-, rfl⟩ := Id.update_eq_ok_iff.1 hvars
  exact ⟨_, (Except.ok.inj h).symm, d.program.relists_modify v hf⟩

theorem relists_of_foldlM {vs : List VarId} {f : VarIndex → VarIndex}
    (h : vs.foldlM (fun d v ↦ d.reindex v f) d = .ok d')
    (hf : ∀ {v ix item}, (f ix).Lists v item → ix.Lists v item) :
    ∃ vars, d' = { d with program.vars := vars } ∧ d.program.Relists vars fun _ ↦ False := by
  refine foldlM_induction
    (P := fun d' ↦ ∃ vars, d' = { d with program.vars := vars } ∧
      d.program.Relists vars fun _ ↦ False) h ⟨d.program.vars, rfl, id, .inl, .inl⟩ ?_
  intro v _ d₁ d₂ hd₁ hd₂
  obtain ⟨vars, rfl, hr⟩ := hd₁
  obtain ⟨vars', rfl, hr'⟩ := relists_of_reindex hd₂ fun hl ↦ .inl (hf hl)
  exact ⟨vars', rfl, hr.trans hr'⟩

/-- A call is entered into the arena, into the body and with its operands. -/
theorem addCall_eq_ok {kind : CallKind} {result receiver : Option VarId} {target : MethodRef}
    {args : List VarId} (hadd : d.addCall kind result receiver target args = .ok d') :
    let sites := d.program.callSites.push
      { kind, target, receiver, args, result, container := d.method }
    ∃ vars, { d.program with callSites := sites }.Relists vars (fun _ ↦ False) ∧
      d' = { d with
        program := { d.program with callSites := sites, vars }
        body.callSites := d.body.callSites ++ [⟨d.program.callSites.size⟩]
        body.stmts := d.body.stmts ++ [.invoke ⟨d.program.callSites.size⟩] } := by
  obtain ⟨d₂, d₃, hd₂, hd₃, rfl⟩ := addCall_steps hadd
  -- Entering the call with its operands leaves what is listed about accesses as it is.
  obtain ⟨vars₂, rfl, hr₂⟩ := relists_of_foldlM hd₂ VarIndex.Lists.withoutCalls
  obtain ⟨vars₃, rfl, hr₃⟩ := relists_of_foldlM hd₃ fun {v ix item} hl ↦ by
    unfold enterArg at hl
    split at hl
    · exact hl
    · exact hl.withoutCalls
  exact ⟨vars₃, hr₂.trans hr₃, rfl⟩

/-- What holds while a method is being written. -/
structure Stems (d : Draft) (given : MethodId → Item → Prop) : Prop where
  program : d.program.Stems given
  body : d.program.BodyStems given d.method d.body
  unwritten : d.program.body d.method = none
  method : d.method.index < d.program.hierarchy.methods.size

theorem Stems.withVars (h : d.Stems given) {vars : Array VarInfo} {new : Item → Prop}
    (hr : d.program.Relists vars new) (hnew : ∀ {item}, new item → given d.method item) :
    Stems { d with program.vars := vars } given where
  program :=
    { bodies := fun hbody ↦ (h.program.bodies hbody).mono hr.owners fun _ ↦ .rfl
      listed := fun hl ↦ (hr.lists hl).elim h.program.listed fun hn ↦ ⟨d.method, hnew hn⟩
      calls := h.program.calls
      containers := h.program.containers
      owners := fun hv ↦ (hr.owned hv).elim h.program.owners id
      sizes := h.program.sizes }
  body := h.body.mono hr.owners fun _ ↦ .rfl
  unwritten := h.unwritten
  method := h.method

theorem Stems.newVar (h : d.Stems given) (name : String) : (d.newVar name).1.Stems given :=
  h.withVars (d.program.relists_push _ rfl h.method) False.elim

theorem owner?_newVar (d : Draft) (name : String) :
    (d.newVar name).1.program.owner? (d.newVar name).2 = some d.method := by
  unfold Program.owner?
  change ((d.program.vars.push _)[d.program.vars.size]?).map _ = _
  rw [Array.getElem?_push_size]
  rfl

/-- A variable that belongs to a method is not the one that comes next. -/
theorem ne_newVar {v : VarId} {m : MethodId} (h : d.program.owner? v = some m) (name : String) :
    v ≠ (d.newVar name).2 := by
  rintro rfl
  exact Nat.lt_irrefl _ (Program.lt_of_owner? h)

/-- A parameter is a variable that was not there before, and thus not the receiver. -/
theorem Stems.addParam (h : d.Stems given) (name : String) : (d.addParam name).Stems given where
  program := (h.newVar name).program
  body :=
    { stmts := h.body.stmts
      params := by
        intro v hv
        rcases List.mem_append.1 hv with hv | hv
        · exact (h.newVar name).body.params hv
        · rw [List.mem_singleton.1 hv]
          exact d.owner?_newVar name
      this := by
        intro v hv
        refine ⟨((h.newVar name).body.this hv).1, fun hmem ↦ ?_⟩
        rcases List.mem_append.1 hmem with hmem | hmem
        · exact (h.body.this hv).2 hmem
        · exact ne_newVar (h.body.this hv).1 name (List.mem_singleton.1 hmem)
      callSites := h.body.callSites
      invokes := h.body.invokes
      returns := h.body.returns }
  unwritten := h.unwritten
  method := h.method

theorem Stems.addThis (h : d.Stems given) : d.addThis.Stems given := by
  unfold Draft.addThis
  cases hthis : d.body.this with
  | some v => exact h
  | none =>
    exact
      { program := (h.newVar "this").program
        body :=
          { stmts := h.body.stmts
            params := (h.newVar "this").body.params
            this := by
              intro v hv
              obtain rfl := Option.some.inj hv
              exact ⟨d.owner?_newVar "this", fun hmem ↦ ne_newVar (h.body.params hmem) "this" rfl⟩
            callSites := h.body.callSites
            invokes := h.body.invokes
            returns := h.body.returns }
        unwritten := h.unwritten
        method := h.method }

/-- A statement may be written that mentions what some item mentions, and calls from a site of the
body. -/
theorem Stems.addStmt (h : d.Stems given) {stmt : Stmt} {item : Item} (hitem : given d.method item)
    (hvars : ∀ v ∈ stmt.vars, v ∈ item.vars) (hcall : ∀ c, stmt = .invoke c → c ∈ d.body.callSites) :
    (d.addStmt stmt).Stems given where
  program := h.program
  body :=
    { stmts := by
        intro stmt' hmem
        rcases List.mem_append.1 hmem with hmem | hmem
        · exact h.body.stmts hmem
        · rw [List.mem_singleton.1 hmem]
          exact ⟨item, hitem, hvars⟩
      params := h.body.params
      this := h.body.this
      callSites := h.body.callSites
      invokes := by
        intro c hmem
        rcases List.mem_append.1 hmem with hmem | hmem
        · exact h.body.invokes hmem
        · exact hcall c (List.mem_singleton.1 hmem).symm
      returns := h.body.returns }
  unwritten := h.unwritten
  method := h.method

theorem Stems.addAlloc (h : d.Stems given) {lhs : VarId} {cls : ClassId}
    (hitem : given d.method (.alloc lhs cls)) : (d.addAlloc lhs cls).Stems given := by
  have hsites : Stems { d with
      program.allocSites := d.program.allocSites.push { cls, container := d.method } } given :=
    { program :=
        { bodies := fun hbody ↦ (h.program.bodies hbody).mono id fun _ ↦ .rfl
          listed := h.program.listed
          calls := h.program.calls
          containers := h.program.containers
          owners := h.program.owners
          sizes := h.program.sizes }
      body := h.body.mono id fun _ ↦ .rfl
      unwritten := h.unwritten
      method := h.method }
  exact hsites.addStmt hitem (fun v hv ↦ hv) fun c hc ↦ nomatch hc

theorem Stems.addReturn (h : d.Stems given) {value : Option VarId}
    (hitem : given d.method (.ret value)) : (d.addReturn value).Stems given := by
  have hreturns : Stems { d with
      body.returnVars := d.body.returnVars ++ value.toList.filter (· ∉ d.body.returnVars) } given :=
    { program := h.program
      body :=
        { stmts := h.body.stmts
          params := h.body.params
          this := h.body.this
          callSites := h.body.callSites
          invokes := h.body.invokes
          returns := by
            intro v hv
            rcases List.mem_append.1 hv with hv | hv
            · exact h.body.returns hv
            · obtain rfl := Option.mem_toList.1 (List.mem_filter.1 hv).1
              exact hitem }
      unwritten := h.unwritten
      method := h.method }
  exact hreturns.addStmt hitem (fun v hv ↦ hv) fun c hc ↦ nomatch hc

theorem Stems.addPlain (h : d.Stems given) {item : Item} (hitem : given d.method item) {stmt : Stmt}
    (hstmt : item.stmt? = some stmt) : (d.addStmt stmt).Stems given := by
  apply h.addStmt hitem
  · rw [Item.vars_of_stmt? hstmt]
    exact fun v hv ↦ hv
  · rintro c rfl
    cases (Item.apart_of_stmt? hstmt).1

/-- A call site is entered into the arena and into the body. -/
theorem Stems.pushCall (h : d.Stems given) {site : CallSite} (hitem : given d.method site.item)
    (hcontainer : site.container = d.method) :
    Stems { d with
      program.callSites := d.program.callSites.push site
      body.callSites := d.body.callSites ++ [⟨d.program.callSites.size⟩] } given := by
  have hpush : ∀ {i : Nat} {site' : CallSite}, (d.program.callSites.push site)[i]? = some site' ↔
      d.program.callSites[i]? = some site' ∨ i = d.program.callSites.size ∧ site' = site := by
    intro i site'
    rw [Array.getElem?_push]
    split
    case isTrue heq =>
      subst heq
      simp [eq_comm]
    case isFalse hne => simp [hne]
  constructor
  case program =>
    constructor
    case bodies =>
      intro m body hbody
      refine (h.program.bodies hbody).mono id fun {i site'} hsite' ↦ ?_
      -- The method being written has no body yet.
      have hne : site' ≠ site := by
        rintro rfl
        obtain rfl := hcontainer.symm.trans hsite'
        exact nomatch h.unwritten.symm.trans hbody
      exact hpush.trans (or_iff_left fun hnew ↦ hne hnew.2)
    case listed => exact h.program.listed
    case calls =>
      intro i site' hsite'
      rcases hpush.1 hsite' with hsite' | ⟨-, rfl⟩
      · exact h.program.calls hsite'
      · rw [hcontainer]
        exact hitem
    case containers =>
      intro i site' hsite'
      rcases hpush.1 hsite' with hsite' | ⟨-, rfl⟩
      · exact h.program.containers hsite'
      · rw [hcontainer]
        exact h.method
    case owners => exact h.program.owners
    case sizes => exact h.program.sizes
  case body =>
    constructor
    case stmts => exact h.body.stmts
    case params => exact h.body.params
    case this => exact h.body.this
    case callSites =>
      intro c
      constructor
      · intro hc
        rcases List.mem_append.1 hc with hc | hc
        · obtain ⟨site', hsite', hm⟩ := h.body.callSites.1 hc
          exact ⟨site', hpush.2 (.inl hsite'), hm⟩
        · rw [List.mem_singleton.1 hc]
          exact ⟨site, hpush.2 (.inr ⟨rfl, rfl⟩), hcontainer⟩
      · intro hc
        obtain ⟨site', hsite', hm⟩ := hc
        rcases hpush.1 hsite' with hsite' | ⟨hsize, -⟩
        · exact List.mem_append_left _ (h.body.callSites.2 ⟨site', hsite', hm⟩)
        · exact List.mem_append_right _ (List.mem_singleton.2 (Id.index_inj.1 hsize))
    case invokes => exact fun hc ↦ List.mem_append_left _ (h.body.invokes hc)
    case returns => exact h.body.returns
  case unwritten => exact h.unwritten
  case method => exact h.method

theorem Stems.addCall (h : d.Stems given) {kind : CallKind} {result receiver : Option VarId}
    {target : MethodRef} {args : List VarId}
    (hitem : given d.method (.call kind result receiver target args))
    (hadd : d.addCall kind result receiver target args = .ok d') : d'.Stems given := by
  obtain ⟨vars, hr, rfl⟩ := addCall_eq_ok hadd
  have hpushed := @Stems.pushCall _ _ h
    { kind, target, receiver, args, result, container := d.method } hitem rfl
  refine (hpushed.withVars hr False.elim).addStmt hitem ?_ ?_
  · intro v hv
    cases hv
  · rintro c ⟨⟩
    exact List.mem_append_right _ List.mem_cons_self

theorem Stems.add (h : d.Stems given) {item : Item} (hitem : given d.method item)
    (hadd : d.add item = .ok d') : d'.Stems given := by
  cases adds_of_add hadd with
  | var name => exact h.newVar name
  | param name => exact h.addParam name
  | this => exact h.addThis
  | alloc lhs cls => exact h.addAlloc hitem
  | plain hstmt _ => exact h.addPlain hitem hstmt
  | access hstmt _ hindex =>
    obtain ⟨vars, rfl, hr⟩ := relists_of_reindex hindex (VarIndex.Lists.of_note hstmt)
    exact (h.withVars hr fun heq ↦ heq ▸ hitem).addPlain hitem hstmt
  | ret value => exact h.addReturn hitem
  | call hcall => exact h.addCall hitem hcall

/-- Two drafts of one method, with the same hierarchy and the same bodies of other methods. -/
structure Alike (d d' : Draft) : Prop where
  method : d'.method = d.method
  hierarchy : d'.program.hierarchy = d.program.hierarchy
  bodies : d'.program.bodies = d.program.bodies

/-- Writing a method changes neither the hierarchy nor the bodies that there are. -/
theorem alike_add {item : Item} (hadd : d.add item = .ok d') : d.Alike d' := by
  cases adds_of_add hadd with
  | this =>
    unfold addThis
    cases d.body.this <;> exact ⟨rfl, rfl, rfl⟩
  | access _ _ hindex =>
    obtain ⟨vars, -, heq⟩ := bind_eq_ok.1 hindex
    obtain rfl := Except.ok.inj heq
    exact ⟨rfl, rfl, rfl⟩
  | call hcall =>
    obtain ⟨vars, -, rfl⟩ := addCall_eq_ok hcall
    exact ⟨rfl, rfl, rfl⟩
  | _ => exact ⟨rfl, rfl, rfl⟩

theorem alike_items {items : List Item} (hadd : items.foldlM add d = .ok d') : d.Alike d' := by
  refine foldlM_induction (P := d.Alike) hadd ⟨rfl, rfl, rfl⟩ ?_
  intro item _ d₁ d₂ h₁ hadd
  have h₂ := alike_add hadd
  exact ⟨h₂.method.trans h₁.method, h₂.hierarchy.trans h₁.hierarchy, h₂.bodies.trans h₁.bodies⟩

theorem Stems.items (h : d.Stems given) {items : List Item}
    (hitems : ∀ item ∈ items, given d.method item) (hadd : items.foldlM Draft.add d = .ok d') :
    d'.Stems given := by
  refine (foldlM_induction (P := fun d' ↦ d'.method = d.method ∧ d'.Stems given) hadd ⟨rfl, h⟩ ?_).2
  intro item hitem d₁ d₂ h₁ hadd
  obtain ⟨hmethod, hstems⟩ := h₁
  have hgiven := hitems item hitem
  rw [← hmethod] at hgiven
  exact ⟨(alike_add hadd).method.trans hmethod, hstems.add hgiven hadd⟩

theorem Stems.finish (h : d.Stems given) {isStatic isAbstract : Bool} {p : Program}
    (hfinish : d.finish isStatic isAbstract = .ok p) : p.Stems given := by
  obtain ⟨d₁, hierarchy, hd₁, hflags, rfl⟩ := finish_steps hfinish
  have hd : d₁.Stems given := by
    rcases hd₁ with rfl | rfl
    · exact h
    · exact h.addThis
  obtain ⟨hmethods, -, -⟩ := Hierarchy.setMethodFlags_eq_ok hflags
  refine hd.program.withBodies (Nat.le_of_eq hmethods.symm) ?_ fun {m body} hbody ↦ ?_
  · rw [Array.set!_eq_setIfInBounds, Array.size_setIfInBounds, hmethods]
    exact hd.program.sizes
  · rcases body_of_set hbody with ⟨heq, -, rfl⟩ | ⟨-, hold⟩
    · obtain rfl : d₁.method = m := Id.index_inj.1 heq
      exact hd.body
    · exact hd.program.bodies hold

theorem alike_of_finish {d₁ : Draft} (h : d₁ = d ∨ d₁ = d.addThis) : d.Alike d₁ := by
  rcases h with rfl | rfl
  · exact ⟨rfl, rfl, rfl⟩
  · exact @alike_add d _ .this rfl

/-- Finishing a method sets its flags and leaves the hierarchy alone otherwise. -/
theorem finish_hierarchy {isStatic isAbstract : Bool} {p : Program}
    (hfinish : d.finish isStatic isAbstract = .ok p) :
    d.program.hierarchy.setMethodFlags d.method isStatic isAbstract = .ok p.hierarchy := by
  obtain ⟨d₁, hierarchy, hd₁, hflags, rfl⟩ := finish_steps hfinish
  have halike := alike_of_finish hd₁
  rw [halike.method, halike.hierarchy] at hflags
  exact hflags

end Draft

/-! ## Whole programs -/

namespace Program

variable {p q : Program} {given : MethodId → Item → Prop}

/-- Adding a method adds it to the hierarchy, and sets its flags if it is finished. -/
theorem addMethod_hierarchy {m : MethodDecl} (hadd : p.addMethod m = .ok q) :
    ∃ h i, p.hierarchy.addMethod { cls := m.cls, subsignature := m.subsignature } = .ok (h, i) ∧
      (q.hierarchy = h ∨ h.setMethodFlags i m.isStatic m.isAbstract = .ok q.hierarchy) := by
  obtain ⟨hierarchy, d, hmethod, hd, hend⟩ := addMethod_steps hadd
  have halike := Draft.alike_items hd
  refine ⟨hierarchy, _, hmethod, ?_⟩
  rcases hend with ⟨-, hfinish⟩ | ⟨-, rfl⟩
  · have hflags := Draft.finish_hierarchy hfinish
    rw [halike.method, halike.hierarchy] at hflags
    exact .inr hflags
  · exact .inl halike.hierarchy

theorem size_addMethod {m : MethodDecl} (hadd : p.addMethod m = .ok q) :
    q.hierarchy.methods.size = p.hierarchy.methods.size + 1 := by
  obtain ⟨h, i, hmethod, hflags⟩ := addMethod_hierarchy hadd
  obtain ⟨hmethods, -⟩ := Hierarchy.addMethod_eq_ok hmethod
  have hsize : h.methods.size = p.hierarchy.methods.size + 1 := by rw [hmethods, Array.size_push]
  rcases hflags with heq | hflags
  · rw [heq, hsize]
  · rw [(Hierarchy.setMethodFlags_eq_ok hflags).1, hsize]

/-- A method is written under a number that no call site and no body had before. -/
theorem Stems.addMethod (hp : p.Stems given) {m : MethodDecl}
    (hitems : ∀ item ∈ m.items, given ⟨p.hierarchy.methods.size⟩ item)
    (hadd : p.addMethod m = .ok q) : q.Stems given := by
  obtain ⟨hierarchy, d, hmethod, hd, hend⟩ := addMethod_steps hadd
  obtain ⟨hmethods, -⟩ := Hierarchy.addMethod_eq_ok hmethod
  have hsize : hierarchy.methods.size = p.hierarchy.methods.size + 1 := by
    rw [hmethods, Array.size_push]
  have hstart : Draft.Stems
      { program := { p with hierarchy, bodies := p.bodies.push none },
        method := ⟨p.hierarchy.methods.size⟩ } given := by
    constructor
    case program =>
      refine hp.withBodies (hsize ▸ Nat.le_succ _) ?_ fun {m body} hbody ↦ ?_
      · rw [Array.size_push, hsize, hp.sizes]
      · rw [join_push_none] at hbody
        exact hp.bodies hbody
    case body =>
      refine ⟨fun h ↦ ?_, fun h ↦ ?_, fun h ↦ ?_, fun {c} ↦ ⟨fun h ↦ ?_, fun h ↦ ?_⟩, fun h ↦ ?_,
        fun h ↦ ?_⟩
      case refine_5 =>
        -- All call sites so far belong to earlier methods.
        obtain ⟨site, hsite, hm⟩ := h
        have hlt := hp.containers hsite
        rw [hm] at hlt
        exact absurd hlt (Nat.lt_irrefl _)
      all_goals cases h
    case unwritten =>
      refine (join_push_none _ _).trans ?_
      rw [Array.getElem?_eq_none (Nat.le_of_eq hp.sizes)]
      rfl
    case method => exact hsize ▸ Nat.lt_succ_self _
  have hdraft := hstart.items hitems hd
  rcases hend with ⟨-, hfinish⟩ | ⟨-, rfl⟩
  · exact hdraft.finish hfinish
  · exact hdraft.program

/-- Methods are numbered as they are declared, so that an induction has to count on from those there
are. -/
theorem Stems.declarations {ds : List Declaration} (hp : p.Stems given)
    (hgiven : ∀ decl i, (decl, i) ∈ (ds.filterMap Declaration.method?).zipIdx p.hierarchy.methods.size →
      ∀ item ∈ decl.items, given ⟨i⟩ item)
    (h : ds.foldlM declare p = .ok q) : q.Stems given := by
  induction ds generalizing p with
  | nil =>
    obtain rfl := Except.ok.inj h
    exact hp
  | cons d ds ih =>
    rw [List.foldlM_cons] at h
    obtain ⟨p₁, hp₁, hrest⟩ := bind_eq_ok.1 h
    cases d with
    | cls decl =>
      obtain ⟨next, hclass, hp₁⟩ := bind_eq_ok.1 hp₁
      obtain ⟨hierarchy, c⟩ := next
      obtain rfl := Except.ok.inj hp₁
      have hmethods := (Hierarchy.addClass_eq_ok hclass).1
      refine ih (hp.withBodies (Nat.le_of_eq ?_) ?_ hp.bodies) ?_ hrest
      · rw [hmethods]
      · rw [hmethods, hp.sizes]
      · rw [hmethods]
        exact hgiven
    | field decl =>
      obtain rfl := Except.ok.inj hp₁
      have hstems : { p with fields := p.fields.push decl }.Stems given :=
        { bodies := fun hbody ↦ (hp.bodies hbody).mono id fun _ ↦ .rfl
          listed := hp.listed
          calls := hp.calls
          containers := hp.containers
          owners := hp.owners
          sizes := hp.sizes }
      exact ih hstems hgiven hrest
    | method decl =>
      refine ih (hp.addMethod (hgiven decl _ List.mem_cons_self) hp₁) ?_ hrest
      rw [size_addMethod hp₁]
      exact fun decl' i hmem ↦ hgiven decl' i (List.mem_cons_of_mem _ hmem)

/-- The parts of a program stem from the items that its declarations give. -/
theorem stems_of_ofDeclarations {ds : List Declaration} (h : ofDeclarations ds = .ok p) :
    p.Stems (Gives ds) :=
  stems_empty.declarations (fun decl _ hdecl _ hitem ↦ ⟨decl, hdecl, hitem⟩) h

end Program

end PointsTo
