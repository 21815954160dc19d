import PointsTo.Proofs.Identity
import PointsTo.Proofs.Resolution

/-!
# Hierarchies by their histories

A class is added below classes that exist, a method is added to a class that exists, and flags are set
of a method that exists. Whatever sequence of this was accepted, classes stand above earlier ones only,
and each class lists exactly those that name it. A name means the class that got it last, and so does a
subsignature within a class (`Hierarchy.Traces`). The way up from a class, which is defined here without
any bound (`Hierarchy.Climbs`), has an end, and the searches for methods go along it
(`hierarchy_in_order`).
-/

namespace PointsTo

/-- In a list with the latest first, what is found is what came last. -/
theorem lookup_reverse {α β : Type} [DecidableEq α] (as : List (α × β)) (a : α) :
    as.reverse.lookup a = ((as.filter (·.1 = a)).map Prod.snd).getLast? := by
  induction as using List.reverseRecOn with
  | nil => rfl
  | append_singleton as x ih =>
    obtain ⟨b, v⟩ := x
    rw [List.reverse_concat, List.filter_append, List.map_append]
    by_cases hb : b = a
    · subst hb
      simp
    · have hne : (a == b) = false := by simpa using Ne.symm hb
      rw [List.lookup_cons, hne, ih]
      simp [hb]

namespace Hierarchy

/-! ## Events -/

/-- What is done to a hierarchy, with the number that it gives. -/
inductive Event where
  | cls (d : ClassDecl) (c : ClassId)
  | method (m : MethodInfo) (i : MethodId)
  | flags (i : MethodId) (isStatic isAbstract : Bool)

namespace Event

def named? : Event → Option (String × ClassId)
  | cls d c => some (d.name, c)
  | method _ _ => none
  | flags _ _ _ => none

/-- What the class `c` is given to declare. -/
def declared? (c : ClassId) : Event → Option (Subsignature × MethodId)
  | cls _ _ => none
  | method m i => if m.cls = c then some (m.subsignature, i) else none
  | flags _ _ _ => none

end Event

/-- The classes that were added under that name, in order. -/
def classesNamed (events : List Event) (name : String) : List ClassId :=
  ((events.filterMap Event.named?).filter (·.1 = name)).map Prod.snd

/-- The methods of that subsignature that were added to the class `c`, in order. -/
def methodsOf (events : List Event) (c : ClassId) (s : Subsignature) : List MethodId :=
  ((events.filterMap (Event.declared? c)).filter (·.1 = s)).map Prod.snd

inductive Happens (h : Hierarchy) : Event → Hierarchy → Prop
  | cls {d : ClassDecl} {h' : Hierarchy} {c : ClassId} :
      h.addClass d = .ok (h', c) → Happens h (.cls d c) h'
  | method {m : MethodInfo} {h' : Hierarchy} {i : MethodId} :
      h.addMethod m = .ok (h', i) → Happens h (.method m i) h'
  | flags {i : MethodId} {isStatic isAbstract : Bool} {h' : Hierarchy} :
      h.setMethodFlags i isStatic isAbstract = .ok h' → Happens h (.flags i isStatic isAbstract) h'

variable {h h' : Hierarchy} {events : List Event} {event : Event} {c : ClassId}

theorem built_of_history (hh : History Happens {} events h) : h.Built := by
  induction hh with
  | start => exact .empty
  | next _ hlast ih =>
    cases hlast with
    | cls hadd => exact ih.addClass hadd
    | method hadd => exact ih.addMethod hadd
    | flags hset => exact ih.setMethodFlags hset

/-- What holds of a hierarchy to which this was done. -/
structure Traces (h : Hierarchy) (events : List Event) : Prop where
  names : h.names = (events.filterMap Event.named?).reverse
  declared : ∀ {i : Nat} {k : ClassInfo}, h.classes[i]? = some k →
    k.declared = (events.filterMap (Event.declared? ⟨i⟩)).reverse
  owners : ∀ {m i}, .method m i ∈ events → m.cls.index < h.classes.size
  cls : ∀ {d c}, .cls d c ∈ events →
    h.Declares c (· = { d with isAbstract := d.isAbstract || d.isInterface })
  added : ∀ {c : ClassId}, c.index < h.classes.size → ∃ d, .cls d c ∈ events

namespace Traces

variable (ht : h.Traces events)

include ht

/-- Nothing was added to classes that do not exist. -/
theorem declared?_eq_nil (hc : h.classes.size ≤ c.index) :
    events.filterMap (Event.declared? c) = [] := by
  rw [List.filterMap_eq_nil_iff]
  intro event hmem
  cases event with
  | cls d c => rfl
  | method m i =>
    have hlt := ht.owners hmem
    have hne : m.cls ≠ c := fun heq ↦ absurd hlt (Nat.not_lt.2 (heq ▸ hc))
    exact if_neg hne
  | flags i isStatic isAbstract => rfl

/-- A class takes its name from whatever had it before, and declares nothing yet. -/
theorem addClass {d : ClassDecl} (hadd : h.addClass d = .ok (h', c)) :
    h'.Traces (events ++ [.cls d c]) := by
  obtain ⟨-, hsize, hnames, rfl⟩ := addClass_eq_ok hadd
  constructor
  case names =>
    rw [hnames, ht.names, filterMap_concat]
    simp [Event.named?]
  case declared =>
    intro i k hk
    rw [filterMap_concat, Event.declared?, Option.toList_none, List.append_nil]
    rw [(addClass_classes hadd).2] at hk
    split at hk
    case isTrue heq =>
      obtain rfl := Option.some.inj hk
      rw [ht.declared?_eq_nil (Nat.le_of_eq heq.symm)]
      rfl
    case isFalse =>
      obtain ⟨old, hold, rfl⟩ := Option.map_eq_some_iff.1 hk
      have hdeclared := ht.declared hold
      exact hdeclared
  case owners =>
    intro m i hmem
    rw [hsize]
    exact Nat.lt_succ_of_lt (ht.owners (by simpa using hmem))
  case cls =>
    intro d' c' hmem
    rw [declares_addClass hadd]
    rcases List.mem_append.1 hmem with hmem | hmem
    · exact .inl (ht.cls hmem)
    · obtain ⟨rfl, rfl⟩ := Event.cls.inj (List.mem_singleton.1 hmem)
      exact .inr ⟨rfl, rfl⟩
  case added =>
    intro c' hc'
    rw [hsize] at hc'
    rcases Nat.lt_succ_iff_lt_or_eq.1 hc' with hlt | heq
    · obtain ⟨d', hmem⟩ := ht.added hlt
      exact ⟨d', List.mem_append_left _ hmem⟩
    · obtain rfl : c' = ⟨h.classes.size⟩ := Id.index_inj.1 heq
      exact ⟨d, List.mem_append_right _ (List.mem_singleton_self _)⟩

/-- A method comes before those that its class declared earlier. -/
theorem addMethod {m : MethodInfo} {i : MethodId} (hadd : h.addMethod m = .ok (h', i)) :
    h'.Traces (events ++ [.method m i]) := by
  obtain ⟨hmethods, hsize, hnames, rfl⟩ := addMethod_eq_ok hadd
  constructor
  case names =>
    rw [hnames, ht.names, filterMap_concat, Event.named?, Option.toList_none, List.append_nil]
  case declared =>
    intro j k hk
    rw [filterMap_concat, Event.declared?]
    rw [addMethod_classes hadd, Array.getElem?_modify] at hk
    split at hk
    case isTrue heq =>
      obtain ⟨old, hold, rfl⟩ := Option.map_eq_some_iff.1 hk
      have hcls : m.cls = ⟨j⟩ := Id.index_inj.1 heq
      rw [if_pos hcls, Option.toList_some, List.reverse_concat, ht.declared hold]
    case isFalse hne =>
      have hcls : m.cls ≠ ⟨j⟩ := fun heq ↦ hne (congrArg Id.index heq)
      rw [if_neg hcls, Option.toList_none, List.append_nil]
      exact ht.declared hk
  case owners =>
    intro m' i' hmem
    rw [hsize]
    rcases List.mem_append.1 hmem with hmem | hmem
    · exact ht.owners hmem
    · obtain ⟨rfl, -⟩ := Event.method.inj (List.mem_singleton.1 hmem)
      obtain ⟨classes, hclasses, -⟩ := bind_eq_ok.1 hadd
      exact (Id.update_eq_ok_iff.1 hclasses).1
  case cls =>
    intro d c hmem
    rw [declares_addMethod hadd]
    exact ht.cls (by simpa using hmem)
  case added =>
    intro c hc
    rw [hsize] at hc
    obtain ⟨d, hmem⟩ := ht.added hc
    exact ⟨d, List.mem_append_left _ hmem⟩

/-- Flags concern neither names nor what is declared. -/
theorem setMethodFlags {i : MethodId} {isStatic isAbstract : Bool}
    (hset : h.setMethodFlags i isStatic isAbstract = .ok h') :
    h'.Traces (events ++ [.flags i isStatic isAbstract]) := by
  obtain ⟨-, hclasses, hnames⟩ := setMethodFlags_eq_ok hset
  constructor
  case names =>
    rw [hnames, ht.names, filterMap_concat, Event.named?, Option.toList_none, List.append_nil]
  case declared =>
    intro j k hk
    rw [filterMap_concat, Event.declared?, Option.toList_none, List.append_nil]
    rw [hclasses] at hk
    exact ht.declared hk
  case owners =>
    intro m i hmem
    rw [hclasses]
    exact ht.owners (by simpa using hmem)
  case cls =>
    intro d c hmem
    unfold Declares
    rw [hclasses]
    exact ht.cls (by simpa using hmem)
  case added =>
    intro c hc
    rw [hclasses] at hc
    obtain ⟨d, hmem⟩ := ht.added hc
    exact ⟨d, List.mem_append_left _ hmem⟩

end Traces

theorem traces_of_history (hh : History Happens {} events h) : h.Traces events := by
  induction hh with
  | start => exact ⟨rfl, by simp, by simp, by simp, by simp⟩
  | next _ hlast ih =>
    cases hlast with
    | cls hadd => exact ih.addClass hadd
    | method hadd => exact ih.addMethod hadd
    | flags hset => exact ih.setMethodFlags hset

/-! ## The way up -/

/-- Going up from here leads along these classes, and to an end. -/
inductive Climbs (h : Hierarchy) : Option ClassId → List ClassId → Prop
  | top : Climbs h none []
  | up {c : ClassId} {next : Option ClassId} {way : List ClassId} :
      h.superclassOf c = .ok next → Climbs h next way → Climbs h (some c) (c :: way)

theorem declares_iff {P : ClassDecl → Prop} :
    h.Declares c P ↔ ∃ k, h.cls c = .ok k ∧ P k.toClassDecl :=
  exists_congr fun _ ↦ and_congr_left' Id.lookup_eq_ok_iff.symm

theorem superclassOf_eq_ok_iff {s : Option ClassId} :
    h.superclassOf c = .ok s ↔ h.Declares c (·.superclass = s) := by
  rw [declares_iff]
  constructor
  · intro hs
    obtain ⟨k, hk, hs⟩ := bind_eq_ok.1 hs
    exact ⟨k, hk, Except.ok.inj hs⟩
  · rintro ⟨k, hk, rfl⟩
    exact bind_eq_ok.2 ⟨k, hk, rfl⟩

section Indexed

variable (hi : h.Indexed)

include hi

theorem Indexed.lt_of_extends {s : ClassId} (hs : h.Extends c s) : s.index < c.index := by
  obtain ⟨k, hk, hmem⟩ := hs
  exact hi.earlier hk hmem

theorem Indexed.superclass_lt {s : ClassId} (hs : h.superclassOf c = .ok (some s)) :
    s.index < c.index := by
  obtain ⟨k, hk, hs⟩ := superclassOf_eq_ok_iff.1 hs
  exact hi.earlier hk (ClassDecl.mem_supers.2 (.inl hs))

theorem Indexed.acyclic (c : ClassId) : ¬ Relation.TransGen h.Extends c c := by
  have hlt : ∀ {a b}, Relation.TransGen h.Extends a b → b.index < a.index := by
    intro a b hab
    induction hab with
    | single hs => exact hi.lt_of_extends hs
    | tail _ hs ih => exact (hi.lt_of_extends hs).trans ih
  intro hcycle
  exact absurd (hlt hcycle) (Nat.lt_irrefl _)

/-- The bound on the walk is never met. -/
theorem Indexed.climbs_ancestry (hc : c.index < h.classes.size) :
    h.Climbs (some c) (h.ancestry c) := by
  obtain ⟨n, hn⟩ : ∃ n, c.index = n := ⟨_, rfl⟩
  induction n using Nat.strong_induction_on generalizing c with
  | _ n ih =>
    have hk : h.classes[c.index]? = some h.classes[c.index] := Array.getElem?_eq_getElem hc
    have hup : h.superclassOf c = .ok h.classes[c.index].superclass :=
      superclassOf_eq_ok_iff.2 ⟨_, hk, rfl⟩
    cases hs : h.classes[c.index].superclass with
    | none =>
      have hway : h.ancestry c = [c] := by simp [ancestry, chain, hk, hs]
      rw [hway]
      exact .up (hs ▸ hup) .top
    | some s =>
      have hlt : s.index < c.index := hi.superclass_lt (hs ▸ hup)
      have hway : h.ancestry c = c :: h.ancestry s := by
        rw [← hi.chain_eq_ancestry hlt]
        simp [ancestry, chain, hk, hs]
      rw [hway]
      exact .up (hs ▸ hup) (ih s.index (hn ▸ hlt) (hlt.trans hc) rfl)

/-- Every step up leads to a smaller number. -/
theorem Climbs.descends {next : Option ClassId} {way : List ClassId} (hw : h.Climbs next way) :
    way.Pairwise (fun a b ↦ b.index < a.index) ∧ ∀ c ∈ next, ∀ a ∈ way, a.index ≤ c.index := by
  induction hw with
  | top => exact ⟨.nil, fun _ _ _ ha ↦ absurd ha List.not_mem_nil⟩
  | @up c next way hup hrest ih =>
    have hbelow : ∀ a ∈ way, a.index < c.index := by
      intro a ha
      cases next with
      | none =>
        cases hrest
        cases ha
      | some s => exact (ih.2 s rfl a ha).trans_lt (hi.superclass_lt hup)
    refine ⟨List.pairwise_cons.2 ⟨hbelow, ih.1⟩, ?_⟩
    intro d hd a ha
    obtain rfl := Option.some.inj hd
    rcases List.mem_cons.1 ha with rfl | ha
    · exact Nat.le_refl _
    · exact Nat.le_of_lt (hbelow a ha)

end Indexed

/-! ## Hierarchies in order -/

/-- What the hierarchy says, by what was done to it. -/
structure InOrder (h : Hierarchy) (events : List Event) : Prop where
  cls : ∀ {d c}, .cls d c ∈ events → ∃ k, h.cls c = .ok k ∧
    k.toClassDecl = { d with isAbstract := d.isAbstract || d.isInterface }
  added : ∀ {c k}, h.cls c = .ok k → ∃ d, .cls d c ∈ events
  superclass_lt : ∀ {c s}, h.superclassOf c = .ok (some s) → s.index < c.index
  interface_lt : ∀ {c k s}, h.cls c = .ok k → s ∈ k.interfaces → s.index < c.index
  acyclic : ∀ c, ¬ Relation.TransGen h.Extends c c
  subclasses : ∀ {c k}, h.cls c = .ok k →
    ∀ d, d ∈ k.subclasses ↔ h.superclassOf d = .ok (some c)
  subinterfaces : ∀ {c k}, h.cls c = .ok k →
    ∀ d, d ∈ k.subinterfaces ↔ ∃ l, h.cls d = .ok l ∧ l.isInterface = true ∧ c ∈ l.interfaces
  implementors : ∀ {c k}, h.cls c = .ok k →
    ∀ d, d ∈ k.implementors ↔ ∃ l, h.cls d = .ok l ∧ l.isInterface = false ∧ c ∈ l.interfaces
  /-- A name means the class that got it last. -/
  classNamed : ∀ name, h.classNamed name = (classesNamed events name).getLast?
  /-- A subsignature means the method of the class that got it last. -/
  declaredMethod : ∀ {c k}, h.cls c = .ok k →
    ∀ s, h.declaredMethod c s = .ok (methodsOf events c s).getLast?
  /-- The way up ends, and searches go along it. -/
  climbs : ∀ {c k}, h.cls c = .ok k → ∃ way, h.Climbs (some c) way ∧
    way.Pairwise (fun a b ↦ b.index < a.index) ∧ ∀ s,
      h.dispatch c s =
        .ok (way.findSome? fun a ↦ (h.declared? a s).filter h.isConcrete) ∧
      h.resolve ⟨c, s⟩ = .ok ((way.findSome? (h.declared? · s)).or
        ((Closure.order h.interfacesOf h.classes.size (way.flatMap h.interfacesOf)).findSome?
          (h.declared? · s)))

/-- Names and methods are looked up from the last to the first, and every way up ends since it leads
to ever earlier classes. -/
theorem Traces.inOrder (ht : h.Traces events) (hi : h.Indexed) : h.InOrder events := by
  constructor
  case cls =>
    intro d c hmem
    exact declares_iff.1 (ht.cls hmem)
  case added =>
    intro c k hk
    exact ht.added (Array.getElem?_eq_some_iff.1 (Id.lookup_eq_ok_iff.1 hk)).1
  case superclass_lt => exact hi.superclass_lt
  case interface_lt =>
    intro c k s hk hs
    exact hi.earlier (Id.lookup_eq_ok_iff.1 hk) (ClassDecl.mem_supers.2 (.inr hs))
  case acyclic => exact hi.acyclic
  case subclasses =>
    intro c k hk d
    rw [superclassOf_eq_ok_iff]
    exact hi.subclasses c.index k (Id.lookup_eq_ok_iff.1 hk) d
  case subinterfaces =>
    intro c k hk d
    exact (hi.subinterfaces c.index k (Id.lookup_eq_ok_iff.1 hk) d).trans declares_iff
  case implementors =>
    intro c k hk d
    exact (hi.implementors c.index k (Id.lookup_eq_ok_iff.1 hk) d).trans declares_iff
  case classNamed =>
    intro name
    rw [Hierarchy.classNamed, ht.names, lookup_reverse]
    rfl
  case declaredMethod =>
    intro c k hk s
    refine bind_eq_ok.2 ⟨k, hk, congrArg Except.ok ?_⟩
    rw [ht.declared (Id.lookup_eq_ok_iff.1 hk), lookup_reverse]
    rfl
  case climbs =>
    intro c k hk
    have hclimbs := hi.climbs_ancestry (Array.getElem?_eq_some_iff.1 (Id.lookup_eq_ok_iff.1 hk)).1
    refine ⟨h.ancestry c, hclimbs, (hclimbs.descends hi).1, fun s ↦ ⟨?_, ?_⟩⟩
    · exact bind_eq_ok.2 ⟨k, hk, rfl⟩
    · exact bind_eq_ok.2 ⟨k, hk, rfl⟩

end Hierarchy

/-- Hierarchies have no cycles, their lists are exact and their searches end, whatever was added. -/
theorem hierarchy_in_order {h : Hierarchy} {events : List Hierarchy.Event}
    (hh : History Hierarchy.Happens {} events h) : h.InOrder events :=
  (Hierarchy.traces_of_history hh).inOrder (Hierarchy.built_of_history hh).indexed

/-- There are two classes of one name, the second below the first and both below one interface, and two
methods of one subsignature. -/
def renamedShapes : List Hierarchy.Event :=
  [ .cls { name := "Drawable", isInterface := true } ⟨0⟩,
    .cls { name := "Shape", interfaces := [⟨0⟩] } ⟨1⟩,
    .cls { name := "Shape", superclass := some ⟨1⟩, interfaces := [⟨0⟩] } ⟨2⟩,
    .method { cls := ⟨1⟩, subsignature := ⟨"draw()"⟩ } ⟨0⟩,
    .method { cls := ⟨1⟩, subsignature := ⟨"draw()"⟩ } ⟨1⟩,
    .flags ⟨0⟩ false true ]

theorem hierarchy_in_order_renamed :
    ∃ h, History Hierarchy.Happens {} renamedShapes h ∧ h.InOrder renamedShapes := by
  have hsteps : ∃ h, History Hierarchy.Happens {} renamedShapes h :=
    ⟨_, .head (.cls rfl) (.head (.cls rfl) (.head (.cls rfl) (.head (.method rfl)
      (.head (.method rfl) (.head (.flags rfl) .start)))))⟩
  obtain ⟨h, hh⟩ := hsteps
  exact ⟨h, hh, hierarchy_in_order hh⟩

end PointsTo
