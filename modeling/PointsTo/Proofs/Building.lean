import PointsTo.Program.Declaration

/-!
# What building a program guarantees

Declarations may mention variables, fields and classes that do not exist. Some things hold of every
program all the same, because the numbers concerned are given by the building itself or looked at
while building: sites in bodies exist, parameters, receivers and arguments are variables, and a call
that is listed with a variable has this variable as its receiver (`Program.Coherent`).

What building does is said once and for all of its invariants: what an item adds to the method being
written (`Draft.Adds`), how a call is entered (`Draft.addCall_steps`), and how methods are finished and
added (`Draft.finish_steps`, `Program.addMethod_steps`).
-/

namespace PointsTo

theorem bind_eq_ok {ε α β : Type} {x : Except ε α} {f : α → Except ε β} {b : β} :
    x >>= f = .ok b ↔ ∃ a, x = .ok a ∧ f a = .ok b := by
  cases x with
  | error e => simp [bind, Except.bind]
  | ok a => simp [bind, Except.bind]

theorem foldlM_induction {ε α β : Type} {f : β → α → Except ε β} {P : β → Prop} {as : List α}
    {b b' : β} (h : as.foldlM f b = .ok b') (hb : P b)
    (hf : ∀ a ∈ as, ∀ c c', P c → f c a = .ok c' → P c') : P b' := by
  induction as generalizing b with
  | nil =>
    obtain rfl := Except.ok.inj h
    exact hb
  | cons a as ih =>
    rw [List.foldlM_cons] at h
    obtain ⟨c, hc, hrest⟩ := bind_eq_ok.1 h
    exact ih hrest (hf a List.mem_cons_self b c hb hc) fun a' ha' ↦ hf a' (List.mem_cons_of_mem _ ha')

/-- If every item has an answer, a list of items has the list of their answers. -/
theorem mapM_eq_ok {α β ε : Type} {f : α → Except ε β} {as : List α}
    (h : ∀ a ∈ as, ∃ b, f a = .ok b) :
    ∃ bs, as.mapM f = .ok bs ∧ ∀ b, b ∈ bs ↔ ∃ a ∈ as, f a = .ok b := by
  induction as with
  | nil => exact ⟨[], rfl, by simp⟩
  | cons a as ih =>
    obtain ⟨b, hb⟩ := h a List.mem_cons_self
    obtain ⟨bs, hbs, hmem⟩ := ih fun a' ha' ↦ h a' (List.mem_cons_of_mem _ ha')
    refine ⟨b :: bs, by simp [List.mapM_cons, hb, hbs, bind, Except.bind, pure, Except.pure], ?_⟩
    intro b'
    simp [hmem, hb, eq_comm]

theorem of_mapM_eq_ok {α β ε : Type} {f : α → Except ε β} {as : List α} {bs : List β}
    (h : as.mapM f = .ok bs) {a : α} (ha : a ∈ as) : ∃ b, f a = .ok b := by
  induction as generalizing bs with
  | nil => cases ha
  | cons a' as ih =>
    rw [List.mapM_cons] at h
    obtain ⟨b, hb, h⟩ := bind_eq_ok.1 h
    obtain ⟨rest, hrest, -⟩ := bind_eq_ok.1 h
    rcases List.mem_cons.1 ha with rfl | ha
    · exact ⟨b, hb⟩
    · exact ih hrest ha

theorem mem_iff_of_mapM {α β ε : Type} {f : α → Except ε β} {as : List α} {bs : List β}
    (h : as.mapM f = .ok bs) {b : β} : b ∈ bs ↔ ∃ a ∈ as, f a = .ok b := by
  obtain ⟨bs', hbs', hmem⟩ := mapM_eq_ok fun a ha ↦ of_mapM_eq_ok h ha
  obtain rfl := Except.ok.inj (h.symm.trans hbs')
  exact hmem b

/-- If every item has an answer at any time, a list of items can be gone through. -/
theorem foldlM_eq_ok {α β ε : Type} {f : β → α → Except ε β} {as : List α}
    (h : ∀ a ∈ as, ∀ b, ∃ b', f b a = .ok b') (b : β) : ∃ b', as.foldlM f b = .ok b' := by
  induction as generalizing b with
  | nil => exact ⟨b, rfl⟩
  | cons a as ih =>
    obtain ⟨b₁, hb₁⟩ := h a List.mem_cons_self b
    obtain ⟨b', hb'⟩ := ih (fun a' ha' ↦ h a' (List.mem_cons_of_mem _ ha')) b₁
    exact ⟨b', bind_eq_ok.2 ⟨b₁, hb₁, hb'⟩⟩

theorem nodup_eraseDups {α : Type} [DecidableEq α] (as : List α) : as.eraseDups.Nodup := by
  -- The tail is filtered before the recursion, so the induction is on the length.
  induction h : as.length using Nat.strongRecOn generalizing as with
  | ind n ih =>
    cases as with
    | nil => exact List.nodup_nil
    | cons a as =>
      rw [List.eraseDups_cons]
      have hlt : (as.filter fun b ↦ !b == a).length < n := by
        have hle := List.length_filter_le (fun b ↦ !b == a) as
        rw [List.length_cons] at h
        omega
      refine List.nodup_cons.2 ⟨fun hmem ↦ ?_, ih _ hlt _ rfl⟩
      simpa using (List.mem_filter.1 (List.mem_eraseDups.1 hmem)).2

theorem Id.update_eq_ok_iff {e : Entity} {α : Type} {i : Id e} {as as' : Array α} {f : α → α} :
    i.update as f = .ok as' ↔ i.index < as.size ∧ as.modify i.index f = as' := by
  unfold update
  by_cases h : i.index < as.size
  · simp [h]
  · simp [h]

theorem Id.size_of_foldlM_update {e : Entity} {α : Type} {f : α → α} {is : List (Id e)}
    {as as' : Array α} (h : is.foldlM (fun as i ↦ i.update as f) as = .ok as') :
    as'.size = as.size := by
  refine foldlM_induction (P := (·.size = as.size)) h rfl ?_
  intro i _ as₁ as₂ hsize hupdate
  obtain ⟨-, rfl⟩ := Id.update_eq_ok_iff.1 hupdate
  rw [Array.size_modify, hsize]

/-! ## Hierarchies -/

namespace Hierarchy

variable {h h' : Hierarchy}

/-- A class is entered with its superclass first and then with its interfaces, and is added last. -/
theorem addClass_steps {d : ClassDecl} {c : ClassId} (hadd : h.addClass d = .ok (h', c)) :
    ∃ classes classes',
      d.superclass.toList.foldlM (fun classes s ↦ s.update classes fun k ↦
        { k with subclasses := k.subclasses ++ [⟨h.classes.size⟩] }) h.classes = .ok classes ∧
      d.interfaces.foldlM (fun classes s ↦ s.update classes fun k ↦
        if d.isInterface then { k with subinterfaces := k.subinterfaces ++ [⟨h.classes.size⟩] }
        else { k with implementors := k.implementors ++ [⟨h.classes.size⟩] }) classes = .ok classes' ∧
      h' = { h with
        classes := classes'.push { d with isAbstract := d.isAbstract || d.isInterface }
        names := (d.name, ⟨h.classes.size⟩) :: h.names } ∧ c = ⟨h.classes.size⟩ := by
  unfold addClass at hadd
  cases hsuper : d.superclass with
  | none =>
    rw [hsuper] at hadd
    obtain ⟨classes, hclasses, hadd⟩ := bind_eq_ok.1 hadd
    obtain ⟨classes', hclasses', hadd⟩ := bind_eq_ok.1 hadd
    obtain ⟨rfl, rfl⟩ := Prod.mk.inj (Except.ok.inj hadd)
    exact ⟨classes, classes', hclasses, hclasses', rfl, rfl⟩
  | some s =>
    rw [hsuper] at hadd
    obtain ⟨classes, hclasses, hadd⟩ := bind_eq_ok.1 hadd
    obtain ⟨classes', hclasses', hadd⟩ := bind_eq_ok.1 hadd
    obtain ⟨rfl, rfl⟩ := Prod.mk.inj (Except.ok.inj hadd)
    exact ⟨classes, classes', bind_eq_ok.2 ⟨classes, hclasses, rfl⟩, hclasses', rfl, rfl⟩

theorem addClass_eq_ok {d : ClassDecl} {c : ClassId} (hadd : h.addClass d = .ok (h', c)) :
    h'.methods = h.methods ∧ h'.classes.size = h.classes.size + 1 ∧
      h'.names = (d.name, ⟨h.classes.size⟩) :: h.names ∧ c = ⟨h.classes.size⟩ := by
  obtain ⟨classes, classes', hsuper, hinterfaces, rfl, hc⟩ := addClass_steps hadd
  refine ⟨rfl, ?_, rfl, hc⟩
  rw [Array.size_push, Id.size_of_foldlM_update hinterfaces, Id.size_of_foldlM_update hsuper]

theorem addMethod_eq_ok {m : MethodInfo} {i : MethodId} (hadd : h.addMethod m = .ok (h', i)) :
    h'.methods = h.methods.push m ∧ h'.classes.size = h.classes.size ∧ h'.names = h.names ∧
      i = ⟨h.methods.size⟩ := by
  obtain ⟨classes, hclasses, hadd⟩ := bind_eq_ok.1 hadd
  obtain ⟨rfl, rfl⟩ := Prod.mk.inj (Except.ok.inj hadd)
  obtain ⟨-, rfl⟩ := Id.update_eq_ok_iff.1 hclasses
  exact ⟨rfl, Array.size_modify, rfl, rfl⟩

theorem setMethodFlags_eq_ok {m : MethodId} {isStatic isAbstract : Bool}
    (hset : h.setMethodFlags m isStatic isAbstract = .ok h') :
    h'.methods.size = h.methods.size ∧ h'.classes = h.classes ∧ h'.names = h.names := by
  obtain ⟨methods, hmethods, hset⟩ := bind_eq_ok.1 hset
  obtain rfl := Except.ok.inj hset
  obtain ⟨-, rfl⟩ := Id.update_eq_ok_iff.1 hmethods
  exact ⟨Array.size_modify, rfl, rfl⟩

end Hierarchy

/-! ## What statements say -/

namespace Stmt

/-- The store, as `v` sees it if it is the base. -/
@[simp]
def fieldStore? (v : VarId) : Stmt → Option FieldStore
  | .storeField base field rhs => if base = v then some ⟨field, rhs⟩ else none
  | _ => none

@[simp]
def fieldLoad? (v : VarId) : Stmt → Option FieldLoad
  | .loadField lhs base field => if base = v then some ⟨lhs, field⟩ else none
  | _ => none

@[simp]
def arrayStore? (v : VarId) : Stmt → Option VarId
  | .storeArray base rhs => if base = v then some rhs else none
  | _ => none

@[simp]
def arrayLoad? (v : VarId) : Stmt → Option VarId
  | .loadArray lhs base => if base = v then some lhs else none
  | _ => none

/-- The variable that an access goes through. -/
@[simp]
def base? : Stmt → Option VarId
  | .storeField base _ _ | .loadField _ base _ | .storeArray base _ | .loadArray _ base => some base
  | _ => none

@[simp]
def callSite? : Stmt → Option CallSiteId
  | .invoke c => some c
  | _ => none

@[simp]
def allocSite? : Stmt → Option AllocSiteId
  | .alloc _ a => some a
  | _ => none

@[simp]
def returned? : Stmt → Option VarId
  | .ret value => value
  | _ => none

end Stmt

/-- The index of `v` after one more statement. -/
def VarIndex.note (v : VarId) (ix : VarIndex) (stmt : Stmt) : VarIndex :=
  { ix with
    storeFields := ix.storeFields ++ (stmt.fieldStore? v).toList
    loadFields := ix.loadFields ++ (stmt.fieldLoad? v).toList
    storeArrays := ix.storeArrays ++ (stmt.arrayStore? v).toList
    loadArrays := ix.loadArrays ++ (stmt.arrayLoad? v).toList }

/-- The statement that an item becomes, if this speaks of no site and returns nothing. -/
def Item.stmt? : Item → Option Stmt
  | .copy lhs rhs => some (.copy lhs rhs)
  | .loadStatic lhs field => some (.loadStatic lhs field)
  | .storeStatic field rhs => some (.storeStatic field rhs)
  | .loadField lhs base field => some (.loadField lhs base field)
  | .storeField base field rhs => some (.storeField base field rhs)
  | .loadArray lhs base => some (.loadArray lhs base)
  | .storeArray base rhs => some (.storeArray base rhs)
  | .nop => some .nop
  | _ => none

theorem Item.apart_of_stmt? {item : Item} {stmt : Stmt} (h : item.stmt? = some stmt) :
    stmt.callSite? = none ∧ stmt.allocSite? = none ∧ stmt.returned? = none := by
  cases item <;> cases h <;> exact ⟨rfl, rfl, rfl⟩

/-! ## Programs -/

namespace Program

/-- The site that a statement speaks of exists. -/
def Refers (p : Program) : Stmt → Prop
  | .alloc _ a => a.index < p.allocSites.size
  | .invoke c => c.index < p.callSites.size
  | _ => True

/-- What a body speaks of exists, as far as building sees to it. -/
structure Holds (p : Program) (body : MethodBody) : Prop where
  stmts : ∀ {stmt}, stmt ∈ body.stmts → p.Refers stmt
  params : ∀ {v}, v ∈ body.params → v.index < p.vars.size
  this : ∀ {v}, body.this = some v → v.index < p.vars.size

/-- What building guarantees. -/
structure Coherent (p : Program) : Prop where
  holds : ∀ {m body}, p.body m = some body → p.Holds body
  /-- Calls are listed with their receivers. -/
  invokes : ∀ {i : Nat} {info : VarInfo} {c}, p.vars[i]? = some info → c ∈ info.index.invokes →
    ∃ site : CallSite, p.callSites[c.index]? = some site ∧ site.receiver = some ⟨i⟩
  args : ∀ {i : Nat} {site : CallSite} {v}, p.callSites[i]? = some site → v ∈ site.args →
    v.index < p.vars.size
  containers : ∀ {i : Nat} {site : AllocSite}, p.allocSites[i]? = some site →
    site.container.index < p.hierarchy.methods.size
  names : ∀ {name c}, (name, c) ∈ p.hierarchy.names → c.index < p.hierarchy.classes.size

variable {p q : Program}

theorem refers_of_apart {stmt : Stmt} (hcall : stmt.callSite? = none)
    (halloc : stmt.allocSite? = none) : p.Refers stmt := by
  cases stmt with
  | alloc lhs a => cases halloc
  | invoke c => cases hcall
  | _ => trivial

theorem Refers.mono (hallocs : p.allocSites.size ≤ q.allocSites.size)
    (hcalls : p.callSites.size ≤ q.callSites.size) {stmt : Stmt} (h : p.Refers stmt) :
    q.Refers stmt := by
  cases stmt with
  | alloc lhs a => exact Nat.lt_of_lt_of_le h hallocs
  | invoke c => exact Nat.lt_of_lt_of_le h hcalls
  | _ => trivial

theorem Holds.mono (hvars : p.vars.size ≤ q.vars.size)
    (hallocs : p.allocSites.size ≤ q.allocSites.size)
    (hcalls : p.callSites.size ≤ q.callSites.size) {body : MethodBody} (h : p.Holds body) :
    q.Holds body where
  stmts hstmt := (h.stmts hstmt).mono hallocs hcalls
  params hv := Nat.lt_of_lt_of_le (h.params hv) hvars
  this hv := Nat.lt_of_lt_of_le (h.this hv) hvars

theorem coherent_empty : Coherent {} where
  holds h := by simp [body] at h
  invokes h := by simp at h
  args h := by simp at h
  containers h := by simp at h
  names h := by simp at h

/-- Changes of the hierarchy that keep all numbers. -/
theorem Coherent.withHierarchy (hp : p.Coherent) {h : Hierarchy}
    (hmethods : p.hierarchy.methods.size ≤ h.methods.size)
    (hnames : ∀ {name c}, (name, c) ∈ h.names → c.index < h.classes.size) :
    { p with hierarchy := h }.Coherent where
  holds hbody := by apply (hp.holds hbody).mono <;> exact Nat.le_refl _
  invokes := hp.invokes
  args := hp.args
  containers hsite := Nat.lt_of_lt_of_le (hp.containers hsite) hmethods
  names := hnames

/-- Changes of the bodies, as long as what the new ones speak of exists. -/
theorem Coherent.withBodies (hp : p.Coherent) {bodies : Array (Option MethodBody)}
    (hbodies : ∀ {i : Nat} {body}, bodies[i]? = some (some body) → p.Holds body) :
    { p with bodies }.Coherent where
  holds := by
    intro m body hbody
    have hget : bodies[m.index]? = some (some body) := Option.join_eq_some_iff.1 hbody
    apply (hbodies hget).mono <;> exact Nat.le_refl _
  invokes := hp.invokes
  args := hp.args
  containers := hp.containers
  names := hp.names

theorem Coherent.body_holds (hp : p.Coherent) {i : Nat} {body : MethodBody}
    (hbody : p.bodies[i]? = some (some body)) : p.Holds body :=
  hp.holds (m := ⟨i⟩) (Option.join_eq_some_iff.2 hbody)

end Program

/-! ## Drafts -/

namespace Draft

variable {d d' : Draft}

/-! ### Items -/

/-- What adding an item does. A statement is written down, after an access through some base has been
entered into the index of this base. -/
inductive Adds (d : Draft) : Item → Draft → Prop
  | var (name : String) : Adds d (.var name) (d.newVar name).1
  | param (name : String) : Adds d (.param name) (d.addParam name)
  | this : Adds d .this d.addThis
  | alloc (lhs : VarId) (cls : ClassId) : Adds d (.alloc lhs cls) (d.addAlloc lhs cls)
  | plain {item : Item} {stmt : Stmt} (hstmt : item.stmt? = some stmt) (hbase : stmt.base? = none) :
      Adds d item (d.addStmt stmt)
  | access {item : Item} {stmt : Stmt} {base : VarId} {d₁ : Draft} (hstmt : item.stmt? = some stmt)
      (hbase : stmt.base? = some base) (hindex : d.reindex base (·.note base stmt) = .ok d₁) :
      Adds d item (d₁.addStmt stmt)
  | ret (value : Option VarId) : Adds d (.ret value) (d.addReturn value)
  | call {kind : CallKind} {result receiver : Option VarId} {target : MethodRef} {args : List VarId}
      {d' : Draft} (hcall : d.addCall kind result receiver target args = .ok d') :
      Adds d (.call kind result receiver target args) d'

theorem add_of_plain {item : Item} {stmt : Stmt} (hstmt : item.stmt? = some stmt)
    (hbase : stmt.base? = none) : d.add item = .ok (d.addStmt stmt) := by
  cases item <;> cases hstmt <;> first | rfl | cases hbase

theorem add_of_access {item : Item} {stmt : Stmt} {base : VarId} (hstmt : item.stmt? = some stmt)
    (hbase : stmt.base? = some base) :
    d.add item = (do
      let d₁ ← d.reindex base (·.note base stmt)
      pure (d₁.addStmt stmt)) := by
  cases item <;> cases hstmt <;> cases hbase <;> simp [add, VarIndex.note]

/-- Nothing else is done. -/
theorem adds_of_add {item : Item} (hadd : d.add item = .ok d') : d.Adds item d' := by
  cases hstmt : item.stmt? with
  | some stmt =>
    cases hbase : stmt.base? with
    | none =>
      obtain rfl := Except.ok.inj ((add_of_plain hstmt hbase).symm.trans hadd)
      exact .plain hstmt hbase
    | some base =>
      obtain ⟨d₁, hindex, heq⟩ := bind_eq_ok.1 ((add_of_access hstmt hbase).symm.trans hadd)
      obtain rfl := Except.ok.inj heq
      exact .access hstmt hbase hindex
  | none =>
    cases item with
    | var name =>
      obtain rfl := Except.ok.inj hadd
      exact .var name
    | param name =>
      obtain rfl := Except.ok.inj hadd
      exact .param name
    | this =>
      obtain rfl := Except.ok.inj hadd
      exact .this
    | alloc lhs cls =>
      obtain rfl := Except.ok.inj hadd
      exact .alloc lhs cls
    | ret value =>
      obtain rfl := Except.ok.inj hadd
      exact .ret value
    | call kind result receiver target args => exact .call hadd
    | _ => cases hstmt

/-! ### Coherence -/

/-- What holds while a method is being written. -/
structure Coherent (d : Draft) : Prop where
  program : d.program.Coherent
  body : d.program.Holds d.body
  method : d.method.index < d.program.hierarchy.methods.size

theorem Coherent.addStmt (h : d.Coherent) (stmt : Stmt) (hstmt : d.program.Refers stmt) :
    (d.addStmt stmt).Coherent where
  program := h.program
  body :=
    { stmts := by
        intro stmt' hmem
        rcases List.mem_append.1 hmem with hmem | hmem
        · exact h.body.stmts hmem
        · rw [List.mem_singleton.1 hmem]
          exact hstmt
      params := h.body.params
      this := h.body.this }
  method := h.method

theorem Coherent.newVar (h : d.Coherent) (name : String) : (d.newVar name).1.Coherent := by
  have hsize : d.program.vars.size ≤ (d.newVar name).1.program.vars.size := by
    change _ ≤ (d.program.vars.push _).size
    rw [Array.size_push]
    exact Nat.le_succ _
  have hholds : ∀ {body}, d.program.Holds body → (d.newVar name).1.program.Holds body :=
    fun hbody ↦ hbody.mono hsize (Nat.le_refl _) (Nat.le_refl _)
  refine ⟨⟨fun hbody ↦ hholds (h.program.holds hbody), ?_, ?_, h.program.containers,
    h.program.names⟩, hholds h.body, h.method⟩
  · -- The new variable has no calls yet.
    intro i info c hinfo hc
    change (d.program.vars.push _)[i]? = some info at hinfo
    rw [Array.getElem?_push] at hinfo
    split at hinfo
    · obtain rfl := Option.some.inj hinfo
      cases hc
    · exact h.program.invokes hinfo hc
  · intro i site v hsite hv
    exact Nat.lt_of_lt_of_le (h.program.args hsite hv) hsize

theorem newVar_lt (d : Draft) (name : String) :
    (d.newVar name).2.index < (d.newVar name).1.program.vars.size := by
  change d.program.vars.size < (d.program.vars.push _).size
  rw [Array.size_push]
  exact Nat.lt_succ_self _

theorem Coherent.addParam (h : d.Coherent) (name : String) : (d.addParam name).Coherent where
  program := (h.newVar name).program
  body :=
    { stmts := (h.newVar name).body.stmts
      params := by
        intro v hv
        rcases List.mem_append.1 hv with hv | hv
        · exact (h.newVar name).body.params hv
        · rw [List.mem_singleton.1 hv]
          exact d.newVar_lt name
      this := (h.newVar name).body.this }
  method := (h.newVar name).method

theorem Coherent.addThis (h : d.Coherent) : d.addThis.Coherent := by
  unfold Draft.addThis
  cases hthis : d.body.this with
  | some v => exact h
  | none =>
    refine ⟨(h.newVar "this").program, ⟨(h.newVar "this").body.stmts, (h.newVar "this").body.params,
      fun {v} hv ↦ ?_⟩, (h.newVar "this").method⟩
    obtain rfl := Option.some.inj hv
    exact d.newVar_lt "this"

/-- The new site stands in the method being written, so that its container exists. -/
theorem Coherent.addAlloc (h : d.Coherent) (lhs : VarId) (cls : ClassId) :
    (d.addAlloc lhs cls).Coherent := by
  let sites := d.program.allocSites.push { cls, container := d.method }
  have hsize : sites.size = d.program.allocSites.size + 1 := Array.size_push _
  have hholds : ∀ {body}, d.program.Holds body → { d.program with allocSites := sites }.Holds body := by
    intro body hbody
    apply hbody.mono
    · exact Nat.le_refl _
    · exact Nat.le_of_lt (hsize ▸ Nat.lt_succ_self _)
    · exact Nat.le_refl _
  have hcoherent : Coherent { d with program.allocSites := sites } := by
    refine ⟨⟨fun hbody ↦ hholds (h.program.holds hbody), h.program.invokes, h.program.args, ?_,
      h.program.names⟩, hholds h.body, h.method⟩
    intro i site hsite
    change sites[i]? = some site at hsite
    rw [Array.getElem?_push] at hsite
    split at hsite
    · obtain rfl := Option.some.inj hsite
      exact h.method
    · exact h.program.containers hsite
  refine hcoherent.addStmt _ ?_
  change d.program.allocSites.size < sites.size
  rw [hsize]
  exact Nat.lt_succ_self _

theorem Coherent.addReturn (h : d.Coherent) (value : Option VarId) : (d.addReturn value).Coherent := by
  have hbody : Coherent { d with
      body.returnVars := d.body.returnVars ++ value.toList.filter (· ∉ d.body.returnVars) } :=
    ⟨h.program, ⟨h.body.stmts, h.body.params, h.body.this⟩, h.method⟩
  exact hbody.addStmt (.ret value) trivial

/-! ### Indices -/

/-- From `d` to `d'` the indices of some variables `vs` were changed; calls were only listed with
variables as `Q` says. -/
structure Reindexed (vs : List VarId) (Q : CallSiteId → VarId → Prop) (d d' : Draft) : Prop where
  known : ∀ {v}, v ∈ vs → v.index < d.program.vars.size
  method : d'.method = d.method
  body : d'.body = d.body
  program : d'.program = { d.program with vars := d'.program.vars }
  size : d'.program.vars.size = d.program.vars.size
  invokes : ∀ (i : Nat) (info : VarInfo) c, d'.program.vars[i]? = some info →
    c ∈ info.index.invokes →
      (∃ old : VarInfo, d.program.vars[i]? = some old ∧ c ∈ old.index.invokes) ∨ Q c ⟨i⟩

theorem reindexed_of_reindex {Q : CallSiteId → VarId → Prop} {v : VarId} {f : VarIndex → VarIndex}
    (h : d.reindex v f = .ok d') (hf : ∀ ix c, c ∈ (f ix).invokes → c ∈ ix.invokes ∨ Q c v) :
    Reindexed [v] Q d d' := by
  obtain ⟨vars, hvars, h⟩ := bind_eq_ok.1 h
  obtain rfl := Except.ok.inj h
  obtain ⟨hv, rfl⟩ := Id.update_eq_ok_iff.1 hvars
  refine ⟨fun hw ↦ List.mem_singleton.1 hw ▸ hv, rfl, rfl, rfl, Array.size_modify, ?_⟩
  intro i info c hinfo hc
  change (d.program.vars.modify _ _)[i]? = some info at hinfo
  rw [Array.getElem?_modify] at hinfo
  split at hinfo
  case isTrue heq =>
    obtain ⟨old, hold, rfl⟩ := Option.map_eq_some_iff.1 hinfo
    subst heq
    exact (hf old.index c hc).imp_left fun hc' ↦ ⟨old, hold, hc'⟩
  case isFalse => exact .inl ⟨info, hinfo, hc⟩

/-- The indices of several variables may be changed one after another. -/
theorem reindexed_of_foldlM {Q : CallSiteId → VarId → Prop} {vs : List VarId}
    {f : VarIndex → VarIndex} (h : vs.foldlM (fun d v ↦ d.reindex v f) d = .ok d')
    (hf : ∀ v ∈ vs, ∀ ix c, c ∈ (f ix).invokes → c ∈ ix.invokes ∨ Q c v) :
    Reindexed vs Q d d' := by
  induction vs generalizing d with
  | nil =>
    obtain rfl := Except.ok.inj h
    exact ⟨fun hv ↦ by simp at hv, rfl, rfl, rfl, rfl, fun i info c hinfo hc ↦ .inl ⟨info, hinfo, hc⟩⟩
  | cons v vs ih =>
    rw [List.foldlM_cons] at h
    obtain ⟨d₁, hd₁, h⟩ := bind_eq_ok.1 h
    have h₁ := reindexed_of_reindex hd₁ (hf v List.mem_cons_self)
    have h₂ := ih h fun w hw ↦ hf w (List.mem_cons_of_mem _ hw)
    refine ⟨?_, h₂.method.trans h₁.method, h₂.body.trans h₁.body, ?_, h₂.size.trans h₁.size, ?_⟩
    · intro w hw
      rcases List.mem_cons.1 hw with rfl | hw
      · exact h₁.known List.mem_cons_self
      · exact h₁.size ▸ h₂.known hw
    · rw [h₂.program, h₁.program]
    · intro i info c hinfo hc
      rcases h₂.invokes i info c hinfo hc with ⟨old, hold, hc⟩ | hq
      · exact h₁.invokes i old c hold hc
      · exact .inr hq

/-- Indices may be changed as long as every call that they list in addition has the variable as its
receiver. -/
theorem Coherent.reindexed (h : d.Coherent) {vs : List VarId} {Q : CallSiteId → VarId → Prop}
    (hr : Reindexed vs Q d d')
    (hQ : ∀ {c v}, Q c v →
      ∃ site, d.program.callSites[c.index]? = some site ∧ site.receiver = some v) :
    d'.Coherent := by
  obtain ⟨program, method, body⟩ := d'
  obtain rfl : method = d.method := hr.method
  obtain rfl : body = d.body := hr.body
  have hprogram : program = { d.program with vars := program.vars } := hr.program
  have hsize : program.vars.size = d.program.vars.size := hr.size
  have hinvokes := hr.invokes
  generalize program.vars = vars at hprogram hsize hinvokes
  subst hprogram
  have hholds : ∀ {body}, d.program.Holds body → { d.program with vars }.Holds body := by
    intro body hbody
    apply hbody.mono
    · exact Nat.le_of_eq hsize.symm
    · exact Nat.le_refl _
    · exact Nat.le_refl _
  refine ⟨⟨fun hbody ↦ hholds (h.program.holds hbody), ?_, ?_, h.program.containers,
    h.program.names⟩, hholds h.body, h.method⟩
  · intro i info c hinfo hc
    rcases hinvokes i info c hinfo hc with ⟨old, hold, hc⟩ | hq
    · exact h.program.invokes hold hc
    · exact hQ hq
  · intro i site v hsite hv
    exact hsize ▸ h.program.args hsite hv

/-- Changing an index in other respects than its calls. -/
theorem Coherent.reindex (h : d.Coherent) {v : VarId} {f : VarIndex → VarIndex}
    (hr : d.reindex v f = .ok d') (hf : ∀ ix, (f ix).invokes = ix.invokes) : d'.Coherent := by
  have hreindexed : Reindexed [v] (fun _ _ ↦ False) d d' :=
    reindexed_of_reindex hr fun ix c hc ↦ .inl (hf ix ▸ hc)
  exact h.reindexed hreindexed fun hq ↦ hq.elim

/-! ### Calls -/

/-- The index of a receiver after the call `c`. -/
def enterReceiver (c : CallSiteId) (ix : VarIndex) : VarIndex :=
  { ix with invokes := ix.invokes ++ [c] }

/-- The index of an argument after the call `c`. -/
def enterArg (c : CallSiteId) (ix : VarIndex) : VarIndex :=
  if ix.argOf.contains c then ix else { ix with argOf := ix.argOf ++ [c] }

/-- A call gets a site, and is entered with its receiver and then with its arguments before it is
written down. -/
theorem addCall_steps {kind : CallKind} {result receiver : Option VarId} {target : MethodRef}
    {args : List VarId} (hadd : d.addCall kind result receiver target args = .ok d') :
    let site : CallSite := { kind, target, receiver, args, result, container := d.method }
    let c : CallSiteId := ⟨d.program.callSites.size⟩
    ∃ d₂ d₃,
      receiver.toList.foldlM (fun d v ↦ d.reindex v (enterReceiver c))
        { d with program.callSites := d.program.callSites.push site } = .ok d₂ ∧
      args.foldlM (fun d v ↦ d.reindex v (enterArg c)) d₂ = .ok d₃ ∧
      d' = { d₃ with body.callSites := d₃.body.callSites ++ [c] }.addStmt (.invoke c) := by
  intro site c
  obtain ⟨d₂, hd₂, hadd⟩ := bind_eq_ok.1 hadd
  obtain ⟨d₃, hd₃, hadd⟩ := bind_eq_ok.1 hadd
  have henter : enterArg c =
      fun ix ↦ if c ∈ ix.argOf then ix else { ix with argOf := ix.argOf ++ [c] } := by
    funext ix
    simp [enterArg]
  exact ⟨d₂, d₃, hd₂, henter ▸ hd₃, (Except.ok.inj hadd).symm⟩

/-- A call is listed with the receiver that its site has. Its arguments exist, since each was looked
up to be entered. -/
theorem Coherent.addCall (h : d.Coherent) {kind : CallKind} {result receiver : Option VarId}
    {target : MethodRef} {args : List VarId}
    (hadd : d.addCall kind result receiver target args = .ok d') : d'.Coherent := by
  let site : CallSite := { kind, target, receiver, args, result, container := d.method }
  let c : CallSiteId := ⟨d.program.callSites.size⟩
  let d₁ : Draft := { d with program.callSites := d.program.callSites.push site }
  obtain ⟨d₂, d₃, hd₂, hd₃, rfl⟩ := addCall_steps hadd
  have h₂ : Reindexed receiver.toList (fun c' v ↦ c' = c ∧ receiver = some v) d₁ d₂ := by
    refine reindexed_of_foldlM hd₂ fun v hv ix c' hc' ↦ ?_
    rcases List.mem_append.1 hc' with hc' | hc'
    · exact .inl hc'
    · exact .inr ⟨List.mem_singleton.1 hc', Option.mem_toList.1 hv⟩
  have h₃ : Reindexed args (fun _ _ ↦ False) d₂ d₃ := by
    refine reindexed_of_foldlM hd₃ fun v _ ix c' hc' ↦ .inl ?_
    unfold enterArg at hc'
    split at hc' <;> exact hc'
  have hcalls : d.program.callSites.size + 1 = d₁.program.callSites.size := (Array.size_push _).symm
  have hsite : d₁.program.callSites[c.index]? = some site := Array.getElem?_push_size
  -- That all arguments were found in the end makes the state in between coherent already.
  have hcoherent : d₁.Coherent := by
    have hholds : ∀ {body}, d.program.Holds body → d₁.program.Holds body := by
      intro body hbody
      apply hbody.mono
      · exact Nat.le_refl _
      · exact Nat.le_refl _
      · exact hcalls ▸ Nat.le_succ _
    refine ⟨⟨fun hbody ↦ hholds (h.program.holds hbody), ?_, ?_, h.program.containers,
      h.program.names⟩, hholds h.body, h.method⟩
    · intro i info c' hinfo hc'
      obtain ⟨site', hsite', hreceiver⟩ := h.program.invokes hinfo hc'
      have hlt := (Array.getElem?_eq_some_iff.1 hsite').1
      refine ⟨site', ?_, hreceiver⟩
      change (d.program.callSites.push site)[c'.index]? = some site'
      rw [Array.getElem?_push_lt hlt, ← Array.getElem?_eq_getElem hlt]
      exact hsite'
    · intro i site' v hsite' hv
      change (d.program.callSites.push site)[i]? = some site' at hsite'
      rw [Array.getElem?_push] at hsite'
      split at hsite'
      · obtain rfl := Option.some.inj hsite'
        exact h₂.size ▸ h₃.known hv
      · exact h.program.args hsite' hv
  have hcoherent₂ : d₂.Coherent := by
    refine hcoherent.reindexed h₂ fun hq ↦ ?_
    obtain ⟨rfl, hreceiver⟩ := hq
    exact ⟨site, hsite, hreceiver⟩
  have hcoherent₃ : d₃.Coherent := hcoherent₂.reindexed h₃ fun hq ↦ hq.elim
  have hcoherent₄ : Coherent { d₃ with body.callSites := d₃.body.callSites ++ [c] } :=
    ⟨hcoherent₃.program, ⟨hcoherent₃.body.stmts, hcoherent₃.body.params, hcoherent₃.body.this⟩,
      hcoherent₃.method⟩
  refine hcoherent₄.addStmt _ ?_
  change d.program.callSites.size < d₃.program.callSites.size
  rw [h₃.program, h₂.program, ← hcalls]
  exact Nat.lt_succ_self _

theorem Coherent.add (h : d.Coherent) {item : Item} (hadd : d.add item = .ok d') : d'.Coherent := by
  cases adds_of_add hadd with
  | var name => exact h.newVar name
  | param name => exact h.addParam name
  | this => exact h.addThis
  | alloc lhs cls => exact h.addAlloc lhs cls
  | plain hstmt _ =>
    obtain ⟨hcall, halloc, -⟩ := Item.apart_of_stmt? hstmt
    exact h.addStmt _ (Program.refers_of_apart hcall halloc)
  | access hstmt _ hindex =>
    obtain ⟨hcall, halloc, -⟩ := Item.apart_of_stmt? hstmt
    exact (h.reindex hindex fun _ ↦ rfl).addStmt _ (Program.refers_of_apart hcall halloc)
  | ret value => exact h.addReturn value
  | call hcall => exact h.addCall hcall

/-! ### Finishing -/

/-- A method that is finished may get a receiver first. Then its flags are set and its body is kept. -/
theorem finish_steps {isStatic isAbstract : Bool} {p : Program}
    (hfinish : d.finish isStatic isAbstract = .ok p) :
    ∃ d₁ hierarchy, (d₁ = d ∨ d₁ = d.addThis) ∧
      d₁.program.hierarchy.setMethodFlags d₁.method isStatic isAbstract = .ok hierarchy ∧
      p = { d₁.program with
        hierarchy
        bodies := d₁.program.bodies.set! d₁.method.index
          (if isAbstract then none else some d₁.body) } := by
  obtain ⟨hierarchy, hflags, heq⟩ := bind_eq_ok.1 hfinish
  refine ⟨_, hierarchy, ?_, hflags, (Except.ok.inj heq).symm⟩
  split
  · exact .inl rfl
  · exact .inr rfl

/-- A body is the one that was kept last, or it was there before. -/
theorem body_of_set {bodies : Array (Option MethodBody)} {i j : Nat} {isAbstract : Bool}
    {written body : MethodBody}
    (h : ((bodies.set! i (if isAbstract then none else some written))[j]?).join = some body) :
    i = j ∧ isAbstract = false ∧ body = written ∨ i ≠ j ∧ (bodies[j]?).join = some body := by
  rw [Array.set!_eq_setIfInBounds, Array.getElem?_setIfInBounds] at h
  split at h
  case isTrue heq =>
    split at h
    · cases isAbstract with
      | true => cases h
      | false => exact .inl ⟨heq, rfl, (Option.some.inj h).symm⟩
    · cases h
  case isFalse hne => exact .inr ⟨hne, h⟩

theorem Coherent.finish (h : d.Coherent) {isStatic isAbstract : Bool} {p : Program}
    (hfinish : d.finish isStatic isAbstract = .ok p) : p.Coherent := by
  obtain ⟨d₁, hierarchy, hd₁, hflags, rfl⟩ := finish_steps hfinish
  have hd : d₁.Coherent := by
    rcases hd₁ with rfl | rfl
    · exact h
    · exact h.addThis
  obtain ⟨hmethods, hclasses, hnames⟩ := Hierarchy.setMethodFlags_eq_ok hflags
  have hcoherent : { d₁.program with hierarchy }.Coherent := by
    refine hd.program.withHierarchy (Nat.le_of_eq hmethods.symm) fun {name c} hc ↦ ?_
    rw [hnames] at hc
    rw [hclasses]
    exact hd.program.names hc
  have hbody : { d₁.program with hierarchy }.Holds d₁.body := by
    apply hd.body.mono <;> exact Nat.le_refl _
  refine hcoherent.withBodies fun {i body} hget ↦ ?_
  rcases body_of_set (Option.join_eq_some_iff.2 hget) with ⟨-, -, rfl⟩ | ⟨-, hold⟩
  · exact hbody
  · exact hcoherent.body_holds (Option.join_eq_some_iff.1 hold)

end Draft

namespace Program

variable {p q : Program}

/-- A method gets the next number and no body, then its items are added, and it is finished or not. -/
theorem addMethod_steps {m : MethodDecl} (hadd : p.addMethod m = .ok q) :
    ∃ hierarchy d,
      p.hierarchy.addMethod { cls := m.cls, subsignature := m.subsignature } =
        .ok (hierarchy, ⟨p.hierarchy.methods.size⟩) ∧
      m.items.foldlM Draft.add
        { program := { p with hierarchy, bodies := p.bodies.push none },
          method := ⟨p.hierarchy.methods.size⟩ } = .ok d ∧
      (m.isFinished = true ∧ d.finish m.isStatic m.isAbstract = .ok q ∨
        m.isFinished = false ∧ q = d.program) := by
  obtain ⟨next, hmethod, hadd⟩ := bind_eq_ok.1 hadd
  obtain ⟨hierarchy, method⟩ := next
  obtain ⟨d, hd, hend⟩ := bind_eq_ok.1 hadd
  obtain ⟨-, -, -, rfl⟩ := Hierarchy.addMethod_eq_ok hmethod
  refine ⟨hierarchy, d, hmethod, hd, ?_⟩
  split at hend
  case isTrue hfinished => exact .inl ⟨hfinished, hend⟩
  case isFalse hunfinished =>
    exact .inr ⟨Bool.eq_false_iff.2 hunfinished, (Except.ok.inj hend).symm⟩

theorem join_push_none (bodies : Array (Option MethodBody)) (i : Nat) :
    ((bodies.push none)[i]?).join = (bodies[i]?).join := by
  rw [Array.getElem?_push]
  split
  case isTrue heq =>
    rw [heq, Array.getElem?_eq_none (Nat.le_refl _)]
    rfl
  case isFalse => rfl

/-- A method starts with nothing written, and each of its items keeps the draft coherent. -/
theorem Coherent.addMethod (hp : p.Coherent) {m : MethodDecl} (hadd : p.addMethod m = .ok q) :
    q.Coherent := by
  obtain ⟨hierarchy, d, hmethod, hd, hend⟩ := addMethod_steps hadd
  obtain ⟨hmethods, hclasses, hnames, -⟩ := Hierarchy.addMethod_eq_ok hmethod
  have hsize : p.hierarchy.methods.size + 1 = hierarchy.methods.size := by
    rw [hmethods, Array.size_push]
  have hcoherent : { p with hierarchy }.Coherent := by
    refine hp.withHierarchy (hsize ▸ Nat.le_succ _) fun {name c} hc ↦ ?_
    rw [hnames] at hc
    rw [hclasses]
    exact hp.names hc
  have hstart : Draft.Coherent
      { program := { p with hierarchy, bodies := p.bodies.push none },
        method := ⟨p.hierarchy.methods.size⟩ } := by
    refine ⟨hcoherent.withBodies fun {i body} hget ↦ ?_, ⟨fun h ↦ ?_, fun h ↦ ?_, fun h ↦ ?_⟩, ?_⟩
    · rw [← Option.join_eq_some_iff, join_push_none, Option.join_eq_some_iff] at hget
      exact hcoherent.body_holds hget
    · cases h
    · cases h
    · cases h
    · exact hsize ▸ Nat.lt_succ_self _
  have hdraft : d.Coherent := foldlM_induction hd hstart fun _ _ _ _ h hadd ↦ h.add hadd
  rcases hend with ⟨-, hfinish⟩ | ⟨-, rfl⟩
  · exact hdraft.finish hfinish
  · exact hdraft.program

theorem Coherent.declare (hp : p.Coherent) {d : Declaration} (hd : p.declare d = .ok q) :
    q.Coherent := by
  cases d with
  | cls decl =>
    obtain ⟨⟨hierarchy, c⟩, hclass, hd⟩ := bind_eq_ok.1 hd
    obtain rfl := Except.ok.inj hd
    obtain ⟨hmethods, hclasses, hnames, -⟩ := Hierarchy.addClass_eq_ok hclass
    refine hp.withHierarchy (hmethods ▸ Nat.le_refl _) fun {name c} hc ↦ ?_
    rw [hnames] at hc
    rw [hclasses]
    rcases List.mem_cons.1 hc with heq | hc
    · obtain ⟨-, rfl⟩ := Prod.mk.inj heq
      exact Nat.lt_succ_self _
    · exact Nat.lt_succ_of_lt (hp.names hc)
  | field decl =>
    obtain rfl := Except.ok.inj hd
    exact ⟨fun hbody ↦ ⟨(hp.holds hbody).stmts, (hp.holds hbody).params, (hp.holds hbody).this⟩,
      hp.invokes, hp.args, hp.containers, hp.names⟩
  | method decl => exact hp.addMethod hd

/-- Every program that can be built is coherent. -/
theorem coherent_of_ofDeclarations {ds : List Declaration} (h : ofDeclarations ds = .ok p) :
    p.Coherent :=
  foldlM_induction h coherent_empty fun _ _ _ _ hp hd ↦ hp.declare hd

end Program

end PointsTo
