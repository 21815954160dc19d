import PointsTo.Proofs.Meaning
import PointsTo.Proofs.State
import Mathlib.Logic.Relation

/-!
# Moves of a solver

Everything a solver does between two arrivals of objects is a sequence of five kinds of moves: giving
names, sending an object, linking two pointers, entering a call edge, watching a call. A move is only
ever made where a closed set of facts `F` allows it (`Move`), which is all that later proofs need to
know about the solver's code. Moves keep states `Sound` (a state never says more than `F`) and
`Settled` (nothing that a state should have followed up is forgotten), and only extend what is known.
-/

namespace PointsTo

namespace Meaning

variable {C : Type} {e : Entity} {σ K O : Type} (M : Meaning C e σ K O) (F : Facts K O) (n : σ)

/-! ## Facts about numbers -/

/-- What `F` says of a pointer and an object, read at the names `n`. -/
def pts (p : Pointer C e) (o : Id e) : Prop :=
  ∃ P x, M.place n p = some P ∧ M.obj n o = some x ∧ F.pts P x

def feeds (program : Program) (p q : Pointer C e) : Prop :=
  ∃ P Q, M.place n p = some P ∧ M.place n q = some Q ∧ F.Feeds program P Q

def reaches (m : MethodIn C) : Prop := ∃ k, M.ctx n m.ctx = some k ∧ F.reaches ⟨k, m.id⟩

def calls (edge : Edge C) : Prop :=
  ∃ k l, M.ctx n edge.site.ctx = some k ∧ M.ctx n edge.callee.ctx = some l ∧
    F.calls ⟨edge.kind, ⟨k, edge.site.id⟩, ⟨l, edge.callee.id⟩⟩

/-- The call `t` is made, according to `F`. -/
def makes (p : Program) (D : Domain K O) (t : TransferSite C) : Prop :=
  ∃ k receiver, M.ctx n t.site.ctx = some k ∧ receiver.map Prod.fst = t.base ∧
    F.Makes p D ⟨k, t.site.id⟩ t.callee receiver

variable {M F n} {n' : σ}

theorem pts.mono (hn : M.Grows n n') {p : Pointer C e} {o : Id e} (h : M.pts F n p o) :
    M.pts F n' p o := by
  obtain ⟨P, x, hP, hx, hF⟩ := h
  exact ⟨P, x, hn.place hP, hn.obj hx, hF⟩

theorem feeds.mono (hn : M.Grows n n') {program : Program} {p q : Pointer C e}
    (h : M.feeds F n program p q) : M.feeds F n' program p q := by
  obtain ⟨P, Q, hP, hQ, hF⟩ := h
  exact ⟨P, Q, hn.place hP, hn.place hQ, hF⟩

theorem reaches.mono (hn : M.Grows n n') {m : MethodIn C} (h : M.reaches F n m) :
    M.reaches F n' m := by
  obtain ⟨k, hk, hF⟩ := h
  exact ⟨k, hn.ctx hk, hF⟩

theorem calls.mono (hn : M.Grows n n') {edge : Edge C} (h : M.calls F n edge) :
    M.calls F n' edge := by
  obtain ⟨k, l, hk, hl, hF⟩ := h
  exact ⟨k, l, hn.ctx hk, hn.ctx hl, hF⟩

theorem makes.mono (hn : M.Grows n n') {p : Program} {D : Domain K O} {t : TransferSite C}
    (h : M.makes F n p D t) : M.makes F n' p D t := by
  obtain ⟨k, r, hk, hr, hF⟩ := h
  exact ⟨k, r, hn.ctx hk, hr, hF⟩

/-- In a closed set, what is at one end of a flow is at the other. -/
theorem feeds.pts {r : Rules K O} (hF : r.Closed F) {p q : Pointer C e} {o : Id e}
    (h : M.feeds F n r.program p q) (ho : M.pts F n p o) : M.pts F n q o := by
  obtain ⟨P, Q, hP, hQ, hfeeds⟩ := h
  obtain ⟨P', x, hP', hx, hpts⟩ := ho
  obtain rfl := Option.some.inj (hP.symm.trans hP')
  exact ⟨Q, x, hQ, hx, hF.includes hfeeds x hpts⟩

end Meaning

/-- A reading of the names of a solver, together with the proof that the solver keeps to it. -/
structure Interpretation {C : Type} {e : Entity} {σ : Type} (S : Setup C e σ) (K O : Type) where
  meaning : Meaning C e σ K O
  domain : Domain K O
  Valid : σ → Prop
  laws : meaning.Lawful S.naming S.program domain Valid

namespace Interpretation

variable {C : Type} [Contextual C] {e : Entity} {σ K O : Type} {S : Setup C e σ}

/-- The rules that the solver is to follow from `entry` on. -/
def rules (R : Interpretation S K O) (entry : MethodId) : Rules K O where
  program := S.program
  domain := R.domain
  entry := entry
  taint := S.taint

/-- One change of a state, allowed by the facts `F`. -/
inductive Move (R : Interpretation S K O) (F : Facts K O) : State C e σ → State C e σ → Prop
  | name {s : State C e σ} {n : σ} : R.Valid n → R.meaning.Grows s.names n →
      Move R F s { s with names := n }
  | seed {s : State C e σ} {p : Pointer C e} {o : Id e} : R.meaning.pts F s.names p o →
      Move R F s (s.seed p o)
  | link {s : State C e σ} {p q : Pointer C e} : R.meaning.feeds F s.names S.program p q →
      Move R F s (s.link p q)
  | connect {s : State C e σ} {id : SiteIn C} {site : CallSite} {callee : MethodIn C} :
      S.program.callSite id.id = .ok site →
      R.meaning.calls F s.names ⟨site.kind, id, callee⟩ → Move R F s (S.connect id site callee s)
  | watch {s : State C e σ} {t : TransferSite C} {operands : List VarId} :
      R.meaning.makes F s.names S.program R.domain t → Move R F s (s.watch t operands)

/-- Any number of moves. -/
abbrev Moves (R : Interpretation S K O) (F : Facts K O) : State C e σ → State C e σ → Prop :=
  Relation.ReflTransGen (R.Move F)

/-! ## Soundness -/

/-- The state says nothing beyond `F`. -/
structure Sound (R : Interpretation S K O) (F : Facts K O) (s : State C e σ) : Prop where
  valid : R.Valid s.names
  wellFormed : s.WellFormed
  delivers : ∀ {p o}, s.Delivers p o → R.meaning.pts F s.names p o
  links : ∀ {p q}, s.flow.Links p q → R.meaning.feeds F s.names S.program p q
  reaches : ∀ {m}, s.Reaches m → R.meaning.reaches F s.names m
  calls : ∀ {edge}, s.Calls edge → R.meaning.calls F s.names edge
  watches : ∀ {c v t}, s.Watches c v t → R.meaning.makes F s.names S.program R.domain t

variable {R : Interpretation S K O} {F : Facts K O} {entry : MethodId} {s s' : State C e σ}

omit [Contextual C] in
/-- The flows of a call edge are flows of the rules. -/
theorem feeds_of_callFlows {n : σ} {id : SiteIn C} {site : CallSite} {callee : MethodIn C}
    (hsite : S.program.callSite id.id = .ok site)
    (hedge : R.meaning.calls F n ⟨site.kind, id, callee⟩) {flow : Pointer C e × Pointer C e}
    (hflow : flow ∈ S.callFlows site id.ctx callee) :
    R.meaning.feeds F n S.program flow.1 flow.2 := by
  obtain ⟨k, l, hk, hl, hcalls⟩ := hedge
  obtain ⟨body, hbody, ⟨arg, param, harg, rfl⟩ | ⟨v, hv, result, hresult, rfl⟩⟩ :=
    Setup.mem_callFlows.1 hflow
  · exact ⟨_, _, Meaning.place_var hk, Meaning.place_var hl, .argument hcalls hsite hbody harg⟩
  · exact ⟨_, _, Meaning.place_var hl, Meaning.place_var hk, .result hcalls hsite hbody hresult hv⟩

omit [Contextual C] in
theorem reaches_of_calls (hF : (R.rules entry).Closed F) {n : σ} {edge : Edge C}
    (hedge : R.meaning.calls F n edge) : R.meaning.reaches F n edge.callee := by
  obtain ⟨k, l, -, hl, hcalls⟩ := hedge
  exact ⟨l, hl, hF.callee hcalls⟩

theorem Sound.mono {G : Facts K O} (h : R.Sound F s) (hle : F ≤ G) : R.Sound G s where
  valid := h.valid
  wellFormed := h.wellFormed
  delivers hd := by
    obtain ⟨P, x, hP, hx, hF⟩ := h.delivers hd
    exact ⟨P, x, hP, hx, (Facts.le_iff.1 hle).1 P x hF⟩
  links hl := by
    obtain ⟨P, Q, hP, hQ, hF⟩ := h.links hl
    exact ⟨P, Q, hP, hQ, hF.mono hle⟩
  reaches hm := by
    obtain ⟨k, hk, hF⟩ := h.reaches hm
    exact ⟨k, hk, (Facts.le_iff.1 hle).2.1 _ hF⟩
  calls he := by
    obtain ⟨k, l, hk, hl, hF⟩ := h.calls he
    exact ⟨k, l, hk, hl, (Facts.le_iff.1 hle).2.2 _ hF⟩
  watches ht := by
    obtain ⟨k, r, hk, hr, hF⟩ := h.watches ht
    exact ⟨k, r, hk, hr, hF.mono hle⟩

theorem Sound.name (h : R.Sound F s) {n : σ} (hn : R.Valid n)
    (hgrows : R.meaning.Grows s.names n) : R.Sound F { s with names := n } where
  valid := hn
  wellFormed := ⟨h.wellFormed.flow, h.wellFormed.pending⟩
  delivers hd := (h.delivers hd).mono hgrows
  links hl := (h.links hl).mono hgrows
  reaches hm := (h.reaches hm).mono hgrows
  calls he := (h.calls he).mono hgrows
  watches ht := (h.watches ht).mono hgrows

theorem Sound.seed (h : R.Sound F s) {p : Pointer C e} {o : Id e}
    (hp : R.meaning.pts F s.names p o) : R.Sound F (s.seed p o) where
  valid := h.valid
  wellFormed := h.wellFormed.seed p o
  delivers hd := by
    rcases h.wellFormed.delivers_seed.1 hd with hd | ⟨rfl, rfl⟩
    · exact h.delivers hd
    · exact hp
  links hl := h.links (h.wellFormed.links_seed.1 hl)
  reaches hm := h.reaches hm
  calls he := h.calls he
  watches ht := h.watches ht

/-- Links where `F` says that objects flow. -/
theorem Sound.linkAll (hF : (R.rules entry).Closed F) (h : R.Sound F s)
    {flows : List (Pointer C e × Pointer C e)}
    (hflows : ∀ flow ∈ flows, R.meaning.feeds F s.names S.program flow.1 flow.2) :
    R.Sound F (s.linkAll flows) := by
  have hl := h.wellFormed.linkAll flows
  constructor
  case valid =>
    rw [hl.names]
    exact h.valid
  case wellFormed => exact hl.wellFormed
  case delivers =>
    intro p o hd
    rw [hl.names]
    rcases hl.origin hd with hd | ⟨q, hq, ho⟩
    · exact h.delivers hd
    · exact (hflows _ hq).pts hF (h.delivers (.inl ho))
  case links =>
    intro p q hpq
    rw [hl.names]
    rcases hl.links.1 hpq with hpq | hpq
    · exact h.links hpq
    · exact hflows _ hpq
  case reaches =>
    intro m hm
    rw [State.Reaches, hl.calls] at hm
    rw [hl.names]
    exact h.reaches hm
  case calls =>
    intro edge he
    rw [State.Calls, hl.calls] at he
    rw [hl.names]
    exact h.calls he
  case watches =>
    intro c v t ht
    rw [State.Watches, hl.watchers] at ht
    rw [hl.names]
    exact h.watches ht

theorem Sound.link (hF : (R.rules entry).Closed F) (h : R.Sound F s) {p q : Pointer C e}
    (hpq : R.meaning.feeds F s.names S.program p q) : R.Sound F (s.link p q) := by
  have hall : R.Sound F (s.linkAll [(p, q)]) := h.linkAll hF fun flow hflow ↦ by
    rw [List.mem_singleton.1 hflow]
    exact hpq
  exact hall

/-- Connecting a call that the facts allow makes links which they allow as well. -/
theorem Sound.connect (hF : (R.rules entry).Closed F) (h : R.Sound F s) {id : SiteIn C}
    {site : CallSite} {callee : MethodIn C} (hsite : S.program.callSite id.id = .ok site)
    (hedge : R.meaning.calls F s.names ⟨site.kind, id, callee⟩) :
    R.Sound F (S.connect id site callee s) := by
  by_cases hnew : s.Calls ⟨site.kind, id, callee⟩
  · rw [State.connect_of_calls hnew]
    exact h
  have hc := h.wellFormed.connect (S := S) hnew
  constructor
  case valid =>
    rw [hc.names]
    exact h.valid
  case wellFormed => exact hc.wellFormed
  case delivers =>
    intro p o hd
    rw [hc.names]
    rcases hc.origin hd with hd | ⟨q, hq, ho⟩
    · exact h.delivers hd
    · exact (feeds_of_callFlows hsite hedge hq).pts hF (h.delivers (.inl ho))
  case links =>
    intro p q hpq
    rw [hc.names]
    rcases hc.links.1 hpq with hpq | hpq
    · exact h.links hpq
    · exact feeds_of_callFlows hsite hedge hpq
  case reaches =>
    intro m hm
    rw [hc.names]
    rcases hc.reaches.1 hm with hm | rfl
    · exact h.reaches hm
    · exact reaches_of_calls hF hedge
  case calls =>
    intro edge he
    rw [hc.names]
    rcases hc.calls.1 he with he | rfl
    · exact h.calls he
    · exact hedge
  case watches =>
    intro c v t ht
    rw [State.Watches, hc.watchers] at ht
    rw [hc.names]
    exact h.watches ht

theorem Sound.watch (h : R.Sound F s) {t : TransferSite C} {operands : List VarId}
    (ht : R.meaning.makes F s.names S.program R.domain t) : R.Sound F (s.watch t operands) where
  valid := h.valid
  wellFormed := ⟨h.wellFormed.flow, h.wellFormed.pending⟩
  delivers hd := h.delivers hd
  links hl := h.links hl
  reaches hr := h.reaches hr
  calls he := h.calls he
  watches hw := by
    rcases State.watches_watch.1 hw with hw | ⟨rfl, -, -⟩
    · exact h.watches hw
    · exact ht

theorem Sound.move (hF : (R.rules entry).Closed F) (h : R.Sound F s) (hm : R.Move F s s') :
    R.Sound F s' := by
  cases hm with
  | name hn hgrows => exact h.name hn hgrows
  | seed hp => exact h.seed hp
  | link hpq => exact h.link hF hpq
  | connect hsite hedge => exact h.connect hF hsite hedge
  | watch ht => exact h.watch ht

theorem Sound.moves (hF : (R.rules entry).Closed F) (h : R.Sound F s) (hm : R.Moves F s s') :
    R.Sound F s' := by
  induction hm with
  | refl => exact h
  | tail _ hm ih => exact ih.move hF hm

end Interpretation

/-! ## Growth -/

/-- Whatever `s` knows or has sent, `s'` knows or has sent as well. -/
structure Meaning.Extends {C : Type} [Contextual C] {e : Entity} {σ K O : Type}
    (M : Meaning C e σ K O) (s s' : State C e σ) : Prop where
  names : M.Grows s.names s'.names
  points : ∀ {p o}, s.flow.Points p o → s'.flow.Points p o
  links : ∀ {p q}, s.flow.Links p q → s'.flow.Links p q
  delivers : ∀ {p o}, s.Delivers p o → s'.Delivers p o
  reaches : ∀ {m}, s.Reaches m → s'.Reaches m
  calls : ∀ {edge}, s.Calls edge → s'.Calls edge
  watches : ∀ {c v t}, s.Watches c v t → s'.Watches c v t

namespace Meaning.Extends

variable {C : Type} [Contextual C] {e : Entity} {σ K O : Type} {M : Meaning C e σ K O}
  {s s' s'' : State C e σ}

theorem refl (M : Meaning C e σ K O) (s : State C e σ) : M.Extends s s :=
  ⟨.refl M _, id, id, id, id, id, id⟩

theorem trans (h : M.Extends s s') (h' : M.Extends s' s'') : M.Extends s s'' where
  names := h.names.trans h'.names
  points hp := h'.points (h.points hp)
  links hl := h'.links (h.links hl)
  delivers hd := h'.delivers (h.delivers hd)
  reaches hm := h'.reaches (h.reaches hm)
  calls he := h'.calls (h.calls he)
  watches ht := h'.watches (h.watches ht)

theorem linkAll (hs : s.WellFormed) (flows : List (Pointer C e × Pointer C e)) :
    M.Extends s (s.linkAll flows) := by
  have hl := hs.linkAll flows
  exact
    { names := hl.names ▸ .refl M _
      points := hl.points.2
      links := fun h ↦ hl.links.2 (.inl h)
      delivers := hl.delivers
      reaches := fun h ↦ by rwa [State.Reaches, hl.calls]
      calls := fun h ↦ by rwa [State.Calls, hl.calls]
      watches := fun h ↦ by rwa [State.Watches, hl.watchers] }

theorem connect {S : Setup C e σ} (hs : s.WellFormed) (id : SiteIn C) (site : CallSite)
    (callee : MethodIn C) : M.Extends s (S.connect id site callee s) := by
  by_cases h : s.Calls ⟨site.kind, id, callee⟩
  · rw [State.connect_of_calls h]
    exact .refl M s
  · have hc := hs.connect (S := S) h
    exact
      { names := hc.names ▸ .refl M _
        points := hc.points.2
        links := fun hl ↦ hc.links.2 (.inl hl)
        delivers := hc.delivers
        reaches := fun hm ↦ hc.reaches.2 (.inl hm)
        calls := fun he ↦ hc.calls.2 (.inl he)
        watches := fun ht ↦ by rwa [State.Watches, hc.watchers] }

end Meaning.Extends

namespace Interpretation

variable {C : Type} [Contextual C] {e : Entity} {σ K O : Type} {S : Setup C e σ}
  {R : Interpretation S K O} {F : Facts K O} {entry : MethodId} {s s' : State C e σ}

theorem Move.extends (h : R.Sound F s) (hm : R.Move F s s') : R.meaning.Extends s s' := by
  cases hm with
  | name _ hgrows => exact ⟨hgrows, id, id, id, id, id, id⟩
  | seed _ =>
    exact ⟨.refl _ _, State.points_seed.2, h.wellFormed.links_seed.2,
      fun hd ↦ h.wellFormed.delivers_seed.2 (.inl hd), id, id, id⟩
  | link _ => exact .linkAll h.wellFormed [(_, _)]
  | connect _ _ => exact .connect h.wellFormed _ _ _
  | watch _ => exact ⟨.refl _ _, id, id, id, id, id, fun hw ↦ State.watches_watch.2 (.inl hw)⟩

theorem Moves.extends (hF : (R.rules entry).Closed F) (h : R.Sound F s) (hm : R.Moves F s s') :
    R.meaning.Extends s s' := by
  induction hm with
  | refl => exact .refl _ s
  | tail hm hstep ih => exact ih.trans (hstep.extends (h.moves hF hm))

theorem points_connect (hs : s.WellFormed) {id : SiteIn C} {site : CallSite} {callee : MethodIn C}
    {p : Pointer C e} {o : Id e} :
    (S.connect id site callee s).flow.Points p o ↔ s.flow.Points p o := by
  by_cases h : s.Calls ⟨site.kind, id, callee⟩
  · rw [State.connect_of_calls h]
  · exact (hs.connect h).points

/-- A move brings no object to a pointer, it only sends objects. -/
theorem Move.points (h : R.Sound F s) (hm : R.Move F s s') {p : Pointer C e} {o : Id e} :
    s'.flow.Points p o ↔ s.flow.Points p o := by
  cases hm with
  | name _ _ => exact Iff.rfl
  | seed _ => exact State.points_seed
  | link _ => exact h.wellFormed.points_link
  | connect _ _ => exact points_connect h.wellFormed
  | watch _ => exact Iff.rfl

theorem Moves.points (hF : (R.rules entry).Closed F) (h : R.Sound F s) (hm : R.Moves F s s')
    {p : Pointer C e} {o : Id e} : s'.flow.Points p o ↔ s.flow.Points p o := by
  induction hm with
  | refl => exact Iff.rfl
  | tail hm hstep ih => exact (hstep.points (h.moves hF hm)).trans ih

end Interpretation

/-! ## Nothing is forgotten -/

/-- Whatever a state entails has happened or is pending: objects are on their way along every link,
call edges have reached their callees and are bound, and every reachable method was looked at (`done`)
or waits for it, once and never both. -/
structure Setup.Settled {C : Type} [Contextual C] {e : Entity} {σ : Type} (S : Setup C e σ)
    (done : MethodIn C → Prop) (s : State C e σ) : Prop where
  flowing : s.Flowing
  reaches : ∀ {edge}, s.Calls edge → s.Reaches edge.callee
  bound : ∀ {edge site}, s.Calls edge → S.program.callSite edge.site.id = .ok site →
    ∀ flow ∈ S.callFlows site edge.site.ctx edge.callee, s.flow.Links flow.1 flow.2
  nodup : s.awaited.Nodup
  known : ∀ {m}, s.Reaches m ↔ m ∈ s.awaited ∨ done m
  apart : ∀ {m}, m ∈ s.awaited → ¬ done m

namespace Setup.Settled

variable {C : Type} [Contextual C] {e : Entity} {σ K O : Type} {S : Setup C e σ}
  {done : MethodIn C → Prop} {s s' : State C e σ}

theorem seed (hs : s.WellFormed) (h : S.Settled done s) (p : Pointer C e) (o : Id e) :
    S.Settled done (s.seed p o) where
  flowing := h.flowing.seed hs
  reaches := h.reaches
  bound he hsite flow hflow := hs.links_seed.2 (h.bound he hsite flow hflow)
  nodup := by
    rw [State.awaited_seed]
    exact h.nodup
  known := by
    rw [State.awaited_seed]
    exact h.known
  apart := by
    rw [State.awaited_seed]
    exact h.apart

/-- New links send on what is at their sources, so that a settled state stays settled. -/
theorem linkAll (hs : s.WellFormed) (h : S.Settled done s)
    (flows : List (Pointer C e × Pointer C e)) : S.Settled done (s.linkAll flows) := by
  have hl := hs.linkAll flows
  constructor
  case flowing => exact hl.flowing h.flowing
  case reaches =>
    simp only [State.Calls, State.Reaches, hl.calls]
    exact h.reaches
  case bound =>
    intro edge site he hsite flow hflow
    simp only [State.Calls, hl.calls] at he
    exact hl.links.2 (.inl (h.bound he hsite flow hflow))
  case nodup =>
    rw [hl.awaited]
    exact h.nodup
  case known =>
    simp only [hl.awaited, State.Reaches, hl.calls]
    exact h.known
  case apart =>
    rw [hl.awaited]
    exact h.apart

/-- A new edge is entered together with everything that it entails. -/
theorem connect (hs : s.WellFormed) (h : S.Settled done s) {id : SiteIn C} {site : CallSite}
    {callee : MethodIn C} (hsite : S.program.callSite id.id = .ok site) :
    S.Settled done (S.connect id site callee s) := by
  by_cases hnew : s.Calls ⟨site.kind, id, callee⟩
  · rw [State.connect_of_calls hnew]
    exact h
  have hc := hs.connect (S := S) hnew
  constructor
  case flowing => exact hc.flowing h.flowing
  case reaches =>
    intro edge he
    rw [hc.reaches]
    rcases hc.calls.1 he with he | rfl
    · exact .inl (h.reaches he)
    · exact .inr rfl
  case bound =>
    intro edge site' he hsite' flow hflow
    rcases hc.calls.1 he with he | rfl
    · exact hc.links.2 (.inl (h.bound he hsite' flow hflow))
    · obtain rfl := Except.ok.inj (hsite.symm.trans hsite')
      exact hc.links.2 (.inr hflow)
  case nodup =>
    by_cases hr : s.Reaches callee
    · rw [hc.awaited_of_reaches hr]
      exact h.nodup
    · rw [hc.awaited_of_not_reaches hr]
      refine List.nodup_append.2 ⟨h.nodup, List.pairwise_singleton _ _, fun m hm m' hm' heq ↦ ?_⟩
      rw [heq, List.mem_singleton.1 hm'] at hm
      exact hr (h.known.2 (.inl hm))
  case known =>
    intro m
    by_cases hr : s.Reaches callee
    · have hcallee : m = callee → s.Reaches m := fun heq ↦ heq ▸ hr
      rw [hc.reaches, hc.awaited_of_reaches hr, ← h.known]
      tauto
    · rw [hc.reaches, hc.awaited_of_not_reaches hr, h.known, List.mem_append, List.mem_singleton]
      tauto
  case apart =>
    intro m hm
    by_cases hr : s.Reaches callee
    · rw [hc.awaited_of_reaches hr] at hm
      exact h.apart hm
    · rw [hc.awaited_of_not_reaches hr] at hm
      rcases List.mem_append.1 hm with hm | hm
      · exact h.apart hm
      · rw [List.mem_singleton.1 hm]
        exact fun hdone ↦ hr (h.known.2 (.inr hdone))

theorem move {R : Interpretation S K O} {F : Facts K O} (hs : R.Sound F s) (h : S.Settled done s)
    (hm : R.Move F s s') : S.Settled done s' := by
  cases hm with
  | name _ _ => exact ⟨h.flowing, h.reaches, h.bound, h.nodup, h.known, h.apart⟩
  | seed _ => exact h.seed hs.wellFormed _ _
  | link _ => exact h.linkAll hs.wellFormed [(_, _)]
  | connect hsite _ => exact h.connect hs.wellFormed hsite
  | watch _ => exact ⟨h.flowing, h.reaches, h.bound, h.nodup, h.known, h.apart⟩

theorem moves {R : Interpretation S K O} {F : Facts K O} {entry : MethodId}
    (hF : (R.rules entry).Closed F) (hs : R.Sound F s) (h : S.Settled done s)
    (hm : R.Moves F s s') : S.Settled done s' := by
  induction hm with
  | refl => exact h
  | tail hm hstep ih => exact ih.move (hs.moves hF hm) hstep

end Setup.Settled

end PointsTo
