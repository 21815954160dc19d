import PointsTo.Proofs.CallStrings
import PointsTo.Proofs.Insertions

/-!
# Numbers as identities

Objects, and objects under heap contexts, are told apart by their numbers alone. A number is the place
of its key among the different keys, in the order in which these were asked for first, and remains so
(`Table.Interned`). What was asked and answered, one after another, is a `History`, and the tables of
heaps and of names are read off theirs (`Heap.Identifies`, `CsNames.Identifies`).
-/

namespace PointsTo

/-! ## Histories -/

/-- From `s` on, the given events happened one after another. -/
inductive History {S E : Type} (Step : S → E → S → Prop) (s : S) : List E → S → Prop
  | start : History Step s [] s
  | next {events : List E} {t u : S} {event : E} :
      History Step s events t → Step t event u → History Step s (events ++ [event]) u

theorem History.head {S E : Type} {Step : S → E → S → Prop} {s t u : S} {event : E}
    {events : List E} (hfirst : Step s event t) (h : History Step t events u) :
    History Step s (event :: events) u := by
  induction h with
  | start => exact .next .start hfirst
  | next _ hlast ih => exact ih.next hlast

/-- What every step keeps, whole histories keep. -/
theorem History.keeps {S E : Type} {Step : S → E → S → Prop} {R : S → S → Prop}
    (hrefl : ∀ s, R s s) (htrans : ∀ {s t u}, R s t → R t u → R s u)
    (hstep : ∀ {s event t}, Step s event t → R s t) {s t : S} {events : List E}
    (h : History Step s events t) : R s t := by
  induction h with
  | start => exact hrefl s
  | next _ hlast ih => exact htrans ih (hstep hlast)

/-! ## Tables -/

namespace Table

variable {κ ν : Type} [Coded κ] {t : Table κ ν}

theorem toList_isPrefix_intern (t : Table κ ν) (k : κ) (v : ν) :
    t.toList <+: (t.intern k v).1.toList := by
  cases h : t.find? k with
  | some i => rw [intern_of_find? h]
  | none =>
    rw [intern_of_fresh h, toList_push]
    exact List.prefix_append _ _

variable [DecidableEq κ] {e : Entity} {asked : List (κ × Id e)}

/-- The keys that were asked for have the numbers that they got: their places among the different keys,
in the order in which these were asked for first. -/
structure Interned (t : Table κ ν) (asked : List (κ × Id e)) : Prop where
  keys : FirstOccurrences (asked.map Prod.fst) t.keys
  number_iff : ∀ {k i}, (k, i) ∈ asked ↔ t.keys[i.index]? = some k
  /-- Equal keys get equal numbers, and different keys different ones. -/
  same_iff : ∀ {k l i j}, (k, i) ∈ asked → (l, j) ∈ asked → (i = j ↔ k = l)

theorem Interned.of_key? (hkeys : FirstOccurrences (asked.map Prod.fst) t.keys)
    (hnumber : ∀ {k i}, (k, i) ∈ asked → t.key? i.index = some k) : t.Interned asked where
  keys := hkeys
  number_iff := by
    intro k i
    rw [getElem?_keys]
    refine ⟨hnumber, fun hi ↦ ?_⟩
    have hmem : k ∈ t.keys := mem_keys_iff.2 (contains_iff.2 ⟨_, hi⟩)
    obtain ⟨⟨k', j⟩, hj, rfl⟩ := List.mem_map.1 ((hkeys.mem_iff k).1 hmem)
    have heq : i.index = j.index := key?_inj hi (hnumber hj)
    rwa [Id.index_inj.1 heq]
  same_iff := by
    intro k l i j hi hj
    have hk := hnumber hi
    have hl := hnumber hj
    constructor
    · rintro rfl
      exact Option.some.inj (hk.symm.trans hl)
    · rintro rfl
      exact Id.index_inj.1 (key?_inj hk hl)

namespace Interned

theorem empty : (∅ : Table κ ν).Interned ([] : List (κ × Id e)) :=
  .of_key? .nil fun hi ↦ absurd hi List.not_mem_nil

variable (h : t.Interned asked)

include h

theorem key? {k : κ} {i : Id e} (hi : (k, i) ∈ asked) : t.key? i.index = some k := by
  rw [← getElem?_keys]
  exact h.number_iff.1 hi

theorem intern (k : κ) (v : ν) :
    (t.intern k v).1.Interned (asked ++ [(k, ⟨(t.intern k v).2⟩)]) := by
  apply Interned.of_key?
  · rw [List.map_append, keys_intern]
    exact h.keys.enter k
  · intro l i hi
    rcases List.mem_append.1 hi with hi | hi
    · exact key?_intern_of_key? (h.key? hi)
    · obtain ⟨rfl, rfl⟩ := Prod.mk.inj (List.mem_singleton.1 hi)
      exact key?_intern_self t l v

/-- Only keys count. -/
theorem congr {t' : Table κ ν} (hkeys : t'.keys = t.keys) : t'.Interned asked where
  keys := hkeys ▸ h.keys
  number_iff := hkeys ▸ h.number_iff
  same_iff := h.same_iff

end Interned

end Table

/-! ## Heaps -/

namespace Heap

/-- What a heap is asked for. A site is one of the program that is given with it. -/
inductive Request where
  | site (p : Program) (a : AllocSiteId)
  | taint (source : CallSiteId) (cls : ClassId)
  | mock (descriptor : String) (cls : ClassId)

namespace Request

/-- The key of what is asked for; `none` if there is no such site. -/
def key? (abstraction : HeapAbstraction) : Request → Option ObjectKey
  | site p a => (p.allocSites[a.index]?).map (·.key abstraction a)
  | taint source cls => some (.taint source cls)
  | mock descriptor cls => some (.mock descriptor cls)

/-- What is asked for; `none` if there is no such site. -/
def object? (abstraction : HeapAbstraction) : Request → Option AbstractObject
  | site p a => (p.allocSites[a.index]?).map (·.object abstraction a)
  | taint source cls => some (.mark source cls)
  | mock descriptor cls => some { cls, kind := .mock descriptor }

end Request

def ask (h : Heap) : Request → Except UnknownId (Heap × ObjectId)
  | .site p a => h.allocated p a
  | .taint source cls => .ok (h.taint source cls)
  | .mock descriptor cls => .ok (h.mock descriptor cls)

/-- The heap is asked, and answers. -/
def Answers (h : Heap) (event : Request × ObjectId) (h' : Heap) : Prop :=
  h.ask event.1 = .ok (h', event.2)

/-- The keys of what was asked for, with the answers. -/
def asked (abstraction : HeapAbstraction) (log : List (Request × ObjectId)) :
    List (ObjectKey × ObjectId) :=
  log.filterMap fun event ↦ (event.1.key? abstraction).map (·, event.2)

variable {h h' : Heap} {abstraction : HeapAbstraction} {log : List (Request × ObjectId)} {r : Request}
  {i : ObjectId}

theorem allocated_of_allocSite {p : Program} {a : AllocSiteId} {site : AllocSite}
    (hsite : p.allocSite a = .ok site) :
    h.allocated p a = .ok (h.intern (site.key h.abstraction a) (site.object h.abstraction a)) := by
  refine bind_eq_ok.2 ⟨site, hsite, ?_⟩
  obtain ⟨abstraction, objects⟩ := h
  cases abstraction <;> rfl

/-- A heap answers if there is something to ask for, and interns it under its key. -/
theorem ask_eq_ok_iff : h.ask r = .ok (h', i) ↔
    ∃ k x, r.key? h.abstraction = some k ∧ r.object? h.abstraction = some x ∧
      h' = (h.intern k x).1 ∧ i = (h.intern k x).2 := by
  cases r with
  | site p a =>
    simp only [ask, Request.key?, Request.object?, Option.map_eq_some_iff]
    constructor
    · intro hok
      obtain ⟨site, hsite, -⟩ := bind_eq_ok.1 hok
      have hget : p.allocSites[a.index]? = some site := Id.lookup_eq_ok_iff.1 hsite
      have heq := Except.ok.inj ((allocated_of_allocSite hsite).symm.trans hok)
      exact ⟨_, _, ⟨site, hget, rfl⟩, ⟨site, hget, rfl⟩, congrArg Prod.fst heq.symm,
        congrArg Prod.snd heq.symm⟩
    · rintro ⟨k, x, ⟨site, hget, rfl⟩, ⟨site', hget', rfl⟩, rfl, rfl⟩
      obtain rfl := Option.some.inj (hget.symm.trans hget')
      exact allocated_of_allocSite (Id.lookup_eq_ok_iff.2 hget)
  | taint source cls =>
    simp [ask, Request.key?, Request.object?, Heap.taint, AbstractObject.mark, Prod.ext_iff, eq_comm]
  | mock descriptor cls =>
    simp [ask, Request.key?, Request.object?, Heap.mock, Prod.ext_iff, eq_comm]

theorem mem_asked {k : ObjectKey} :
    (k, i) ∈ asked abstraction log ↔ ∃ r, (r, i) ∈ log ∧ r.key? abstraction = some k := by
  simp [asked]

/-- What holds of a heap that has answered in this way. -/
structure Traces (h : Heap) (abstraction : HeapAbstraction) (log : List (Request × ObjectId)) :
    Prop where
  abstraction_eq : h.abstraction = abstraction
  interned : h.objects.Interned (asked abstraction log)
  keyed : ∀ {r i}, (r, i) ∈ log → ∃ k, r.key? abstraction = some k
  made : ∀ {i k x}, h.objects.nth? i = some (k, x) →
    ∃ r, (r, ⟨i⟩) ∈ log ∧ r.key? abstraction = some k ∧ r.object? abstraction = some x

/-- A request is answered by the number of its key, which is a new one if nothing had the key
before. -/
theorem Traces.answers (ht : h.Traces abstraction log) (hanswers : h.Answers (r, i) h') :
    h'.Traces abstraction (log ++ [(r, i)]) := by
  obtain rfl := ht.abstraction_eq
  obtain ⟨k, x, hkey, hobject, rfl, rfl⟩ := ask_eq_ok_iff.1 hanswers
  constructor
  case abstraction_eq => rfl
  case interned =>
    have hasked : asked h.abstraction (log ++ [(r, (h.intern k x).2)]) =
        asked h.abstraction log ++ [(k, ⟨(h.objects.intern k x).2⟩)] := by
      rw [asked, filterMap_concat, hkey]
      rfl
    rw [hasked]
    exact ht.interned.intern k x
  case keyed =>
    intro s j hs
    rcases List.mem_append.1 hs with hs | hs
    · exact ht.keyed hs
    · obtain ⟨rfl, -⟩ := Prod.mk.inj (List.mem_singleton.1 hs)
      exact ⟨k, hkey⟩
  case made =>
    intro j l y hj
    rcases Table.nth?_intern_iff.1 hj with hj | ⟨hfresh, rfl, heq⟩
    · obtain ⟨s, hs, hmade⟩ := ht.made hj
      exact ⟨s, List.mem_append_left _ hs, hmade⟩
    · obtain ⟨rfl, rfl⟩ := Prod.mk.inj heq
      have hnumber : (h.intern l y).2 = ⟨h.objects.size⟩ :=
        congrArg Id.mk (congrArg Prod.snd (Table.intern_of_fresh hfresh))
      rw [hnumber]
      exact ⟨r, List.mem_append_right _ (List.mem_singleton_self _), hkey, hobject⟩

theorem traces_of_history (hh : History Answers { abstraction } log h) :
    h.Traces abstraction log := by
  induction hh with
  | start =>
    exact ⟨rfl, .empty, fun hr ↦ absurd hr List.not_mem_nil, fun hi ↦ by simp at hi⟩
  | next _ hanswers ih => exact ih.answers hanswers

theorem toList_isPrefix_of_history (hh : History Answers h log h') :
    h.objects.toList <+: h'.objects.toList := by
  refine hh.keeps (R := fun h h' ↦ h.objects.toList <+: h'.objects.toList) (fun _ ↦ List.prefix_rfl)
    List.IsPrefix.trans fun hanswers ↦ ?_
  obtain ⟨k, x, -, -, rfl, -⟩ := ask_eq_ok_iff.1 hanswers
  exact Table.toList_isPrefix_intern _ k x

/-- Numbers tell objects apart as their keys do, and every object is what was asked for. -/
structure Identifies (h : Heap) (log : List (Request × ObjectId)) : Prop where
  /-- Nothing but a site that does not exist is refused. -/
  answers_iff : ∀ {r}, (∃ i h', h.Answers (r, i) h') ↔ ∃ k, r.key? h.abstraction = some k
  interned : h.objects.Interned (asked h.abstraction log)
  number : ∀ {r i}, (r, i) ∈ log →
    ∃ k, r.key? h.abstraction = some k ∧ h.objects.keys[i.index]? = some k
  same_iff : ∀ {r s i j}, (r, i) ∈ log → (s, j) ∈ log →
    (i = j ↔ r.key? h.abstraction = s.key? h.abstraction)
  sites : h.abstraction = .allocationSite → ∀ {p q a b i j},
    (.site p a, i) ∈ log → (.site q b, j) ∈ log → (i = j ↔ a = b)
  classes : h.abstraction = .allocationType → ∀ {p q a b s t i j},
    (.site p a, i) ∈ log → (.site q b, j) ∈ log →
    p.allocSite a = .ok s → q.allocSite b = .ok t → (i = j ↔ s.cls = t.cls)
  site_ne_taint : ∀ {p a source cls i j},
    (.site p a, i) ∈ log → (.taint source cls, j) ∈ log → i ≠ j
  site_ne_mock : ∀ {p a descriptor cls i j},
    (.site p a, i) ∈ log → (.mock descriptor cls, j) ∈ log → i ≠ j
  taint_ne_mock : ∀ {source cls descriptor cls' i j},
    (.taint source cls, i) ∈ log → (.mock descriptor cls', j) ∈ log → i ≠ j
  object : ∀ {r i}, (r, i) ∈ log →
    ∃ s x, (s, i) ∈ log ∧ s.object? h.abstraction = some x ∧ h.object i = .ok x
  /-- As long as all sites are those of one program, an object is what its key stands for there. -/
  keyed : ∀ p, (∀ {q a i}, (.site q a, i) ∈ log → q = p) → h.Keyed p h.abstraction
  keeps : ∀ {later h'}, History Answers h later h' → h.objects.toList <+: h'.objects.toList

section

variable (ht : h.Traces h.abstraction log)

include ht

theorem Traces.same_iff {s : Request} {j : ObjectId} (hr : (r, i) ∈ log) (hs : (s, j) ∈ log) :
    i = j ↔ r.key? h.abstraction = s.key? h.abstraction := by
  obtain ⟨k, hk⟩ := ht.keyed hr
  obtain ⟨l, hl⟩ := ht.keyed hs
  rw [hk, hl, Option.some.injEq]
  exact ht.interned.same_iff (mem_asked.2 ⟨r, hr, hk⟩) (mem_asked.2 ⟨s, hs, hl⟩)

/-- What a site has as its key, it has by its own data. -/
theorem Traces.site {p : Program} {a : AllocSiteId} (hr : (.site p a, i) ∈ log) :
    ∃ site, p.allocSite a = .ok site ∧
      (Request.site p a).key? h.abstraction = some (site.key h.abstraction a) := by
  obtain ⟨k, hk⟩ := ht.keyed hr
  obtain ⟨site, hsite, rfl⟩ := Option.map_eq_some_iff.1 hk
  exact ⟨site, Id.lookup_eq_ok_iff.2 hsite, hk⟩

/-- Requests get one number if and only if they have one key, and the object of a number is what one
of them asked for. -/
theorem Traces.identifies : h.Identifies log := by
  constructor
  case answers_iff =>
    intro r
    constructor
    · rintro ⟨i, h', hanswers⟩
      obtain ⟨k, x, hk, -, -⟩ := ask_eq_ok_iff.1 hanswers
      exact ⟨k, hk⟩
    · rintro ⟨k, hk⟩
      obtain ⟨x, hx⟩ : ∃ x, r.object? h.abstraction = some x := by
        cases r with
        | site p a =>
          obtain ⟨site, hsite, -⟩ := Option.map_eq_some_iff.1 hk
          exact ⟨_, Option.map_eq_some_iff.2 ⟨site, hsite, rfl⟩⟩
        | taint source cls => exact ⟨_, rfl⟩
        | mock descriptor cls => exact ⟨_, rfl⟩
      exact ⟨_, _, ask_eq_ok_iff.2 ⟨k, x, hk, hx, rfl, rfl⟩⟩
  case interned => exact ht.interned
  case number =>
    intro r i hr
    obtain ⟨k, hk⟩ := ht.keyed hr
    exact ⟨k, hk, ht.interned.number_iff.1 (mem_asked.2 ⟨r, hr, hk⟩)⟩
  case same_iff => exact ht.same_iff
  case sites =>
    intro habs p q a b i j ha hb
    obtain ⟨s, -, hs⟩ := ht.site ha
    obtain ⟨t, -, ht'⟩ := ht.site hb
    rw [ht.same_iff ha hb, hs, ht', habs]
    simp [AllocSite.key]
  case classes =>
    intro habs p q a b s t i j ha hb hs ht'
    obtain ⟨s', hs', hkey⟩ := ht.site ha
    obtain ⟨t', ht'', hkey'⟩ := ht.site hb
    obtain rfl := Except.ok.inj (hs.symm.trans hs')
    obtain rfl := Except.ok.inj (ht'.symm.trans ht'')
    rw [ht.same_iff ha hb, hkey, hkey', habs]
    simp [AllocSite.key]
  case site_ne_taint =>
    intro p a source cls i j ha hb heq
    obtain ⟨s, -, hs⟩ := ht.site ha
    rw [ht.same_iff ha hb, hs] at heq
    cases habs : h.abstraction <;> simp [AllocSite.key, Request.key?, habs] at heq
  case site_ne_mock =>
    intro p a descriptor cls i j ha hb heq
    obtain ⟨s, -, hs⟩ := ht.site ha
    rw [ht.same_iff ha hb, hs] at heq
    cases habs : h.abstraction <;> simp [AllocSite.key, Request.key?, habs] at heq
  case taint_ne_mock =>
    intro source cls descriptor cls' i j ha hb heq
    rw [ht.same_iff ha hb] at heq
    simp [Request.key?] at heq
  case object =>
    intro r i hr
    obtain ⟨k, hk⟩ := ht.keyed hr
    obtain ⟨x, hx⟩ := Table.key?_eq_some_iff.1 (ht.interned.key? (mem_asked.2 ⟨r, hr, hk⟩))
    obtain ⟨s, hs, -, hobject⟩ := ht.made hx
    exact ⟨s, x, hs, hobject, object_eq_ok (get?_eq_some_iff.2 ⟨k, hx⟩)⟩
  case keyed =>
    intro p hone
    refine ⟨rfl, fun {i k x} hi ↦ ?_⟩
    obtain ⟨r, hr, hk, hx⟩ := ht.made hi
    cases r with
    | site q a =>
      obtain rfl := hone hr
      obtain ⟨site, hsite, rfl⟩ := Option.map_eq_some_iff.1 hk
      rw [AllocSite.object?_key (Id.lookup_eq_ok_iff.2 hsite), ← hx, Request.object?, hsite]
      rfl
    | taint source cls =>
      obtain rfl := Option.some.inj hk
      exact hx
    | mock descriptor cls =>
      obtain rfl := Option.some.inj hk
      exact hx
  case keeps => exact toList_isPrefix_of_history

end

end Heap

/-! ## Objects under heap contexts -/

namespace CsNames

/-- An object is given its name, or the name that it has. -/
def Names (n : CsNames) (event : CsObject × CsObjectId) (n' : CsNames) : Prop :=
  n.intern event.1 = (n', event.2)

variable {n n' : CsNames} {contexts : ContextTable} {log : List (CsObject × CsObjectId)}

theorem interned_of_history (hh : History Names { contexts } log n) : n.objects.Interned log := by
  induction hh with
  | start => exact .empty
  | @next log n n' event _ hnames ih =>
    obtain ⟨o, i⟩ := event
    obtain rfl : n' = (n.intern o).1 := congrArg Prod.fst hnames.symm
    obtain rfl : i = (n.intern o).2 := congrArg Prod.snd hnames.symm
    exact ih.intern o ()

theorem toList_isPrefix_of_history (hh : History Names n log n') :
    n.objects.toList <+: n'.objects.toList := by
  refine hh.keeps (R := fun n n' ↦ n.objects.toList <+: n'.objects.toList) (fun _ ↦ List.prefix_rfl)
    List.IsPrefix.trans fun {n event n'} hnames ↦ ?_
  obtain rfl : n' = (n.intern event.1).1 := congrArg Prod.fst hnames.symm
  exact Table.toList_isPrefix_intern n.objects event.1 ()

/-- Numbers tell objects apart, and are found again. -/
structure Identifies (n : CsNames) (log : List (CsObject × CsObjectId)) : Prop where
  interned : n.objects.Interned log
  object_iff : ∀ {i o}, n.object i = .ok o ↔ (o, i) ∈ log
  find?_iff : ∀ {o i}, n.find? o = some i ↔ (o, i) ∈ log
  keeps : ∀ {later n'}, History Names n later n' → n.objects.toList <+: n'.objects.toList

theorem identifies_of_history (hh : History Names { contexts } log n) : n.Identifies log := by
  have hi := interned_of_history hh
  constructor
  case interned => exact hi
  case object_iff =>
    intro i o
    rw [hi.number_iff, Table.getElem?_keys]
    unfold CsNames.object
    split <;> simp_all
  case find?_iff =>
    intro o i
    rw [hi.number_iff, Table.getElem?_keys, ← Table.find?_eq_some_iff]
    obtain ⟨i⟩ := i
    simp [CsNames.find?]
  case keeps => exact toList_isPrefix_of_history

end CsNames

end PointsTo
