import PointsTo.Proofs.Accepted
import PointsTo.Proofs.Origins
import Mathlib.Logic.Function.Iterate

/-!
# What building guarantees of the hierarchy

Every class keeps lists of the classes that name it, which are written when such a class is added and
never again. They are exact at any time: a class is listed with another if and only if it names it, as
its superclass or among its interfaces (`Hierarchy.Indexed`). Classes name earlier ones only, so there
are no cycles, and the methods that classes declare and the classes of methods exist. All this holds
of whatever additions lead to (`Hierarchy.Built`), the hierarchies of programs among them.
-/

namespace PointsTo

/-- The classes that a class names. -/
def ClassDecl.supers (d : ClassDecl) : List ClassId := d.superclass.toList ++ d.interfaces

theorem ClassDecl.mem_supers {d : ClassDecl} {c : ClassId} :
    c ∈ d.supers ↔ d.superclass = some c ∨ c ∈ d.interfaces := by
  simp [supers]

/-- Entries that are updated one after another are updated as often as they occur. -/
theorem Id.getElem?_foldlM_update {e : Entity} {α : Type} {f : α → α} {is : List (Id e)}
    {as as' : Array α} (h : is.foldlM (fun as i ↦ i.update as f) as = .ok as') :
    (∀ i ∈ is, i.index < as.size) ∧ ∀ n : Nat, as'[n]? = (as[n]?).map f^[is.count ⟨n⟩] := by
  induction is generalizing as with
  | nil =>
    obtain rfl := Except.ok.inj h
    simp
  | cons i is ih =>
    rw [List.foldlM_cons] at h
    obtain ⟨as₁, has₁, h⟩ := bind_eq_ok.1 h
    obtain ⟨hi, rfl⟩ := Id.update_eq_ok_iff.1 has₁
    obtain ⟨hlt, hget⟩ := ih h
    rw [Array.size_modify] at hlt
    refine ⟨List.forall_mem_cons.2 ⟨hi, hlt⟩, fun n ↦ ?_⟩
    rw [hget, Array.getElem?_modify]
    by_cases hn : i.index = n
    · obtain rfl : i = ⟨n⟩ := Id.index_inj.1 hn
      rw [if_pos rfl, Option.map_map, List.count_cons_self, Function.iterate_succ]
    · have hne : i ≠ ⟨n⟩ := fun heq ↦ hn (congrArg Id.index heq)
      rw [if_neg hn, List.count_cons_of_ne hne]

/-- A list that is part of `g l` grows by one element at a time. -/
theorem iterate_append {α β : Type} {f : α → α} {g : List β → α} {b : β}
    (h : ∀ l, f (g l) = g (l ++ [b])) (n : Nat) (l : List β) :
    f^[n] (g l) = g (l ++ .replicate n b) := by
  induction n generalizing l with
  | zero => rw [Function.iterate_zero_apply, List.replicate_zero, List.append_nil]
  | succ n ih =>
    rw [Function.iterate_succ_apply, h, ih, List.append_assoc, List.singleton_append,
      List.replicate_succ]

namespace ClassInfo

/-- The class `k`, whose number is `self`, after the class `id` declared by `d` has been entered with
the classes that it names. -/
def enter (k : ClassInfo) (self id : ClassId) (d : ClassDecl) : ClassInfo :=
  { k with
    subclasses := k.subclasses ++ .replicate (d.superclass.toList.count self) id
    subinterfaces :=
      k.subinterfaces ++ .replicate (if d.isInterface then d.interfaces.count self else 0) id
    implementors :=
      k.implementors ++ .replicate (if d.isInterface then 0 else d.interfaces.count self) id }

variable {k : ClassInfo} {self id x : ClassId} {d : ClassDecl}

theorem mem_subclasses_enter :
    x ∈ (k.enter self id d).subclasses ↔ x ∈ k.subclasses ∨ x = id ∧ d.superclass = some self := by
  simp [enter, List.mem_replicate, List.count_eq_zero, and_comm]

theorem mem_subinterfaces_enter :
    x ∈ (k.enter self id d).subinterfaces ↔
      x ∈ k.subinterfaces ∨ x = id ∧ d.isInterface = true ∧ self ∈ d.interfaces := by
  simp [enter, List.mem_replicate, List.count_eq_zero, and_comm]

theorem mem_implementors_enter :
    x ∈ (k.enter self id d).implementors ↔
      x ∈ k.implementors ∨ x = id ∧ d.isInterface = false ∧ self ∈ d.interfaces := by
  simp [enter, List.mem_replicate, List.count_eq_zero, and_comm]

end ClassInfo

namespace Hierarchy

variable {h h' : Hierarchy}

/-! ## Added classes and methods -/

/-- A class may name classes that are there. It is entered with each of these and comes last. -/
theorem addClass_classes {d : ClassDecl} {c : ClassId} (hadd : h.addClass d = .ok (h', c)) :
    (∀ s ∈ d.supers, s.index < h.classes.size) ∧
    ∀ i, h'.classes[i]? =
      if i = h.classes.size then some { d with isAbstract := d.isAbstract || d.isInterface }
      else (h.classes[i]?).map (·.enter ⟨i⟩ ⟨h.classes.size⟩ d) := by
  obtain ⟨classes, classes', hsuper, hinterfaces, rfl, -⟩ := addClass_steps hadd
  have hsize := Id.size_of_foldlM_update hsuper
  have hsize' := Id.size_of_foldlM_update hinterfaces
  obtain ⟨hlt, hget⟩ := Id.getElem?_foldlM_update hsuper
  obtain ⟨hlt', hget'⟩ := Id.getElem?_foldlM_update hinterfaces
  rw [hsize] at hlt'
  refine ⟨fun s hs ↦ (List.mem_append.1 hs).elim (hlt s) (hlt' s), fun i ↦ ?_⟩
  rw [Array.getElem?_push, hsize', hsize]
  split
  case isTrue => rfl
  case isFalse =>
    rw [hget', hget, Option.map_map]
    congr 1
    funext k
    -- Each list grows by itself.
    have hsubclasses := @iterate_append _ _
      (fun k : ClassInfo ↦ { k with subclasses := k.subclasses ++ [⟨h.classes.size⟩] })
      (fun l ↦ { k with subclasses := l }) _ (fun _ ↦ rfl)
      (d.superclass.toList.count ⟨i⟩) k.subclasses
    rw [Function.comp_apply, hsubclasses]
    unfold ClassInfo.enter
    cases d.isInterface with
    | true =>
      simp only [if_true, List.replicate_zero, List.append_nil]
      exact @iterate_append _ _
        (fun k : ClassInfo ↦ { k with subinterfaces := k.subinterfaces ++ [⟨h.classes.size⟩] })
        (fun l ↦ { k with subclasses := k.subclasses ++ _, subinterfaces := l }) _ (fun _ ↦ rfl)
        (d.interfaces.count ⟨i⟩) k.subinterfaces
    | false =>
      simp only [Bool.false_eq_true, if_false, List.replicate_zero, List.append_nil]
      exact @iterate_append _ _
        (fun k : ClassInfo ↦ { k with implementors := k.implementors ++ [⟨h.classes.size⟩] })
        (fun l ↦ { k with subclasses := k.subclasses ++ _, implementors := l }) _ (fun _ ↦ rfl)
        (d.interfaces.count ⟨i⟩) k.implementors

theorem addMethod_classes {m : MethodInfo} {i : MethodId} (hadd : h.addMethod m = .ok (h', i)) :
    h'.classes = h.classes.modify m.cls.index fun k ↦
      { k with declared := (m.subsignature, ⟨h.methods.size⟩) :: k.declared } := by
  obtain ⟨classes, hclasses, hadd⟩ := bind_eq_ok.1 hadd
  obtain ⟨rfl, -⟩ := Prod.mk.inj (Except.ok.inj hadd)
  obtain ⟨-, rfl⟩ := Id.update_eq_ok_iff.1 hclasses
  rfl

/-! ## Exact indices -/

/-- There is a class `x`, and its declaration is as `P` says. -/
def Declares (h : Hierarchy) (x : ClassId) (P : ClassDecl → Prop) : Prop :=
  ∃ k : ClassInfo, h.classes[x.index]? = some k ∧ P k.toClassDecl

theorem declares_addClass {d : ClassDecl} {c x : ClassId} {P : ClassDecl → Prop}
    (hadd : h.addClass d = .ok (h', c)) :
    h'.Declares x P ↔ h.Declares x P ∨
      x = ⟨h.classes.size⟩ ∧ P { d with isAbstract := d.isAbstract || d.isInterface } := by
  unfold Declares
  rw [(addClass_classes hadd).2 x.index]
  split
  case isTrue hx =>
    obtain rfl : x = ⟨h.classes.size⟩ := Id.index_inj.1 hx
    simp
  case isFalse hx =>
    have hne : x ≠ ⟨h.classes.size⟩ := fun heq ↦ hx (congrArg Id.index heq)
    simp [hne, ClassInfo.enter]

theorem declares_addMethod {m : MethodInfo} {i : MethodId} {x : ClassId} {P : ClassDecl → Prop}
    (hadd : h.addMethod m = .ok (h', i)) : h'.Declares x P ↔ h.Declares x P := by
  unfold Declares
  rw [addMethod_classes hadd, Array.getElem?_modify]
  split
  case isTrue => simp
  case isFalse => rfl

/-- What `list` holds for each class are the classes whose declarations relate to it by `Q`. -/
def Exact (h : Hierarchy) (list : ClassInfo → List ClassId) (Q : ClassDecl → ClassId → Prop) : Prop :=
  ∀ (i : Nat) (k : ClassInfo), h.classes[i]? = some k → ∀ x, x ∈ list k ↔ h.Declares x (Q · ⟨i⟩)

section Exact

variable {list : ClassInfo → List ClassId} {Q : ClassDecl → ClassId → Prop}

theorem Exact.addClass (hl : h.Exact list Q) {d : ClassDecl} {c : ClassId}
    (hadd : h.addClass d = .ok (h', c)) (hempty : ∀ d : ClassDecl, list { d with } = [])
    (henter : ∀ {k self id x}, x ∈ list (k.enter self id d) ↔ x ∈ list k ∨ x = id ∧ Q d self)
    (hflag : ∀ {isAbstract c}, Q { d with isAbstract } c ↔ Q d c)
    (hnew : ∀ x, ¬ h'.Declares x (Q · ⟨h.classes.size⟩)) : h'.Exact list Q := by
  intro i k hk x
  rw [(addClass_classes hadd).2] at hk
  split at hk
  case isTrue heq =>
    obtain rfl := Option.some.inj hk
    subst heq
    rw [hempty]
    exact iff_of_false List.not_mem_nil (hnew x)
  case isFalse =>
    obtain ⟨old, hold, rfl⟩ := Option.map_eq_some_iff.1 hk
    rw [henter, declares_addClass hadd, hl i old hold]
    exact or_congr_right (and_congr_right fun _ ↦ hflag.symm)

theorem Exact.addMethod (hl : h.Exact list Q) {m : MethodInfo} {id : MethodId}
    (hadd : h.addMethod m = .ok (h', id))
    (hlist : ∀ (k : ClassInfo) declared, list { k with declared } = list k) : h'.Exact list Q := by
  intro i k hk x
  rw [addMethod_classes hadd, Array.getElem?_modify] at hk
  rw [declares_addMethod hadd]
  split at hk
  case isTrue =>
    obtain ⟨old, hold, rfl⟩ := Option.map_eq_some_iff.1 hk
    rw [hlist, hl i old hold]
  case isFalse => exact hl i k hk x

end Exact

/-- Classes list exactly those that name them. -/
structure Indexed (h : Hierarchy) : Prop where
  /-- Classes name earlier classes only. -/
  earlier : ∀ {i : Nat} {k : ClassInfo} {c}, h.classes[i]? = some k → c ∈ k.supers → c.index < i
  subclasses : h.Exact (·.subclasses) fun d c ↦ d.superclass = some c
  subinterfaces : h.Exact (·.subinterfaces) fun d c ↦ d.isInterface = true ∧ c ∈ d.interfaces
  implementors : h.Exact (·.implementors) fun d c ↦ d.isInterface = false ∧ c ∈ d.interfaces
  declared : ∀ {i : Nat} {k : ClassInfo} {s m}, h.classes[i]? = some k → (s, m) ∈ k.declared →
    m.index < h.methods.size
  owners : ∀ {i : Nat} {m : MethodInfo}, h.methods[i]? = some m → m.cls.index < h.classes.size

theorem indexed_empty : Indexed {} where
  earlier h := by simp at h
  subclasses _ _ h := by simp at h
  subinterfaces _ _ h := by simp at h
  implementors _ _ h := by simp at h
  declared h := by simp at h
  owners h := by simp at h

/-- The new class names earlier ones only, and these list it as they list all others that name them.
-/
theorem Indexed.addClass (hi : h.Indexed) {d : ClassDecl} {c : ClassId}
    (hadd : h.addClass d = .ok (h', c)) : h'.Indexed := by
  obtain ⟨hsupers, hget⟩ := addClass_classes hadd
  obtain ⟨hmethods, hsize, -⟩ := addClass_eq_ok hadd
  have hearlier : ∀ {i : Nat} {k : ClassInfo} {c}, h'.classes[i]? = some k → c ∈ k.supers →
      c.index < i := by
    intro i k c hk hc
    rw [hget] at hk
    split at hk
    case isTrue heq =>
      obtain rfl := Option.some.inj hk
      rw [heq]
      exact hsupers c hc
    case isFalse =>
      obtain ⟨old, hold, rfl⟩ := Option.map_eq_some_iff.1 hk
      exact hi.earlier hold hc
  -- Nothing names the new class yet.
  have hnew : ∀ {P : ClassDecl → Prop}, (∀ {d}, P d → ⟨h.classes.size⟩ ∈ d.supers) →
      ∀ x, ¬ h'.Declares x P := by
    intro P hP x hx
    obtain ⟨k, hk, hx⟩ := hx
    have hlt := (Array.getElem?_eq_some_iff.1 hk).1
    have hlt' := hearlier hk (hP hx)
    rw [hsize] at hlt
    exact absurd (Nat.lt_succ_iff.1 hlt) (Nat.not_le.2 hlt')
  constructor
  case earlier => exact hearlier
  case subclasses =>
    exact hi.subclasses.addClass hadd (fun _ ↦ rfl) ClassInfo.mem_subclasses_enter .rfl
      (hnew fun hd ↦ ClassDecl.mem_supers.2 (.inl hd))
  case subinterfaces =>
    exact hi.subinterfaces.addClass hadd (fun _ ↦ rfl) ClassInfo.mem_subinterfaces_enter .rfl
      (hnew fun hd ↦ ClassDecl.mem_supers.2 (.inr hd.2))
  case implementors =>
    exact hi.implementors.addClass hadd (fun _ ↦ rfl) ClassInfo.mem_implementors_enter .rfl
      (hnew fun hd ↦ ClassDecl.mem_supers.2 (.inr hd.2))
  case declared =>
    intro i k s m hk hm
    rw [hget] at hk
    rw [hmethods]
    split at hk
    case isTrue =>
      obtain rfl := Option.some.inj hk
      cases hm
    case isFalse =>
      obtain ⟨old, hold, rfl⟩ := Option.map_eq_some_iff.1 hk
      exact hi.declared hold hm
  case owners =>
    intro i m hm
    rw [hmethods] at hm
    rw [hsize]
    exact Nat.lt_succ_of_lt (hi.owners hm)

/-- A method is added to what its class declares, which concerns no list of classes. -/
theorem Indexed.addMethod (hi : h.Indexed) {m : MethodInfo} {id : MethodId}
    (hadd : h.addMethod m = .ok (h', id)) : h'.Indexed := by
  constructor
  case earlier =>
    intro i k c hk hc
    rw [addMethod_classes hadd, Array.getElem?_modify] at hk
    split at hk
    case isTrue =>
      obtain ⟨old, hold, rfl⟩ := Option.map_eq_some_iff.1 hk
      exact hi.earlier hold hc
    case isFalse => exact hi.earlier hk hc
  case subclasses => exact hi.subclasses.addMethod hadd fun _ _ ↦ rfl
  case subinterfaces => exact hi.subinterfaces.addMethod hadd fun _ _ ↦ rfl
  case implementors => exact hi.implementors.addMethod hadd fun _ _ ↦ rfl
  case declared =>
    intro i k s m' hk hm'
    rw [addMethod_classes hadd, Array.getElem?_modify] at hk
    rw [(addMethod_eq_ok hadd).1, Array.size_push]
    split at hk
    case isTrue =>
      obtain ⟨old, hold, rfl⟩ := Option.map_eq_some_iff.1 hk
      rcases List.mem_cons.1 hm' with heq | hm'
      · rw [(Prod.mk.inj heq).2]
        exact Nat.lt_succ_self _
      · exact Nat.lt_succ_of_lt (hi.declared hold hm')
    case isFalse => exact Nat.lt_succ_of_lt (hi.declared hk hm')
  case owners =>
    intro i m' hm'
    obtain ⟨hmethods, hsize, -, -⟩ := addMethod_eq_ok hadd
    obtain ⟨classes, hclasses, -⟩ := bind_eq_ok.1 hadd
    rw [hmethods, Array.getElem?_push] at hm'
    rw [hsize]
    split at hm'
    case isTrue =>
      obtain rfl := Option.some.inj hm'
      exact (Id.update_eq_ok_iff.1 hclasses).1
    case isFalse => exact hi.owners hm'

theorem Indexed.setMethodFlags (hi : h.Indexed) {m : MethodId} {isStatic isAbstract : Bool}
    (hset : h.setMethodFlags m isStatic isAbstract = .ok h') : h'.Indexed := by
  obtain ⟨methods, hmethods, hset⟩ := bind_eq_ok.1 hset
  obtain rfl := Except.ok.inj hset
  obtain ⟨-, rfl⟩ := Id.update_eq_ok_iff.1 hmethods
  refine ⟨hi.earlier, hi.subclasses, hi.subinterfaces, hi.implementors, fun hk hm ↦ ?_, fun hm ↦ ?_⟩
  · rw [Array.size_modify]
    exact hi.declared hk hm
  · rw [Array.getElem?_modify] at hm
    split at hm
    case isTrue =>
      obtain ⟨old, hold, rfl⟩ := Option.map_eq_some_iff.1 hm
      have hcls : old.cls.index < h.classes.size := hi.owners hold
      exact hcls
    case isFalse => exact hi.owners hm

/-- The hierarchies that additions lead to. -/
inductive Built : Hierarchy → Prop
  | empty : Built {}
  | addClass {h h' : Hierarchy} {d : ClassDecl} {c : ClassId} :
      Built h → h.addClass d = .ok (h', c) → Built h'
  | addMethod {h h' : Hierarchy} {m : MethodInfo} {i : MethodId} :
      Built h → h.addMethod m = .ok (h', i) → Built h'
  | setMethodFlags {h h' : Hierarchy} {m : MethodId} {isStatic isAbstract : Bool} :
      Built h → h.setMethodFlags m isStatic isAbstract = .ok h' → Built h'

theorem Built.indexed (hb : h.Built) : h.Indexed := by
  induction hb with
  | empty => exact indexed_empty
  | addClass _ hadd ih => exact ih.addClass hadd
  | addMethod _ hadd ih => exact ih.addMethod hadd
  | setMethodFlags _ hset ih => exact ih.setMethodFlags hset

theorem Indexed.lt_of_mem_declaredMethods (hi : h.Indexed) {m : MethodId}
    (hm : m ∈ h.declaredMethods) : m.index < h.methods.size := by
  obtain ⟨k, hk, hm⟩ := List.mem_flatMap.1 hm
  obtain ⟨⟨s, m'⟩, hentry, rfl⟩ := List.mem_map.1 hm
  obtain ⟨i, hi', rfl⟩ := Array.mem_iff_getElem.1 (Array.mem_toList_iff.1 hk)
  exact hi.declared (Array.getElem?_eq_getElem hi') hentry

theorem Indexed.signature_eq_ok (hi : h.Indexed) {m : MethodId}
    (hm : m.index < h.methods.size) : ∃ text, h.signature m = .ok text := by
  have hget : h.methods[m.index]? = some h.methods[m.index] := Array.getElem?_eq_getElem hm
  have hcls := hi.owners hget
  exact ⟨_, bind_eq_ok.2 ⟨_, Id.lookup_eq_ok_iff.2 hget, bind_eq_ok.2
    ⟨_, Id.lookup_eq_ok_iff.2 (Array.getElem?_eq_getElem hcls), rfl⟩⟩⟩

end Hierarchy

/-- The hierarchy of a program comes from additions. -/
theorem Program.built_of_ofDeclarations {ds : List Declaration} {p : Program}
    (h : ofDeclarations ds = .ok p) : p.hierarchy.Built := by
  refine foldlM_induction (P := fun p ↦ p.hierarchy.Built) h .empty ?_
  intro d _ p q hp hd
  cases d with
  | cls decl =>
    obtain ⟨⟨hierarchy, c⟩, hadd, hd⟩ := bind_eq_ok.1 hd
    obtain rfl := Except.ok.inj hd
    exact hp.addClass hadd
  | field decl =>
    obtain rfl := Except.ok.inj hd
    exact hp
  | method decl =>
    obtain ⟨hierarchy, i, hadd, hflags⟩ := addMethod_hierarchy hd
    have hadded := hp.addMethod hadd
    rcases hflags with heq | hflags
    · rw [heq]
      exact hadded
    · exact hadded.setMethodFlags hflags

/-- The hierarchy of a program that was built is indexed. -/
theorem Program.indexed_of_ofDeclarations {ds : List Declaration} {p : Program}
    (h : ofDeclarations ds = .ok p) : p.hierarchy.Indexed :=
  (built_of_ofDeclarations h).indexed

end PointsTo
