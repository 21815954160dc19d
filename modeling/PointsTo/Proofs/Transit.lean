import PointsTo.Proofs.Building
import PointsTo.Value.Basic
import Mathlib.Data.List.Forall2
import Mathlib.Data.List.Nodup

/-!
# Values that arrive

A value that was written as a text and read again need not be the same value: a list may come back as a
tuple, and a scalar as a plain one, whose type is told by its spelling. `Value.Arrives` says that this
is all that has happened. Whether a type survives transit is then a matter of its encoder and decoder
alone (`Value.Survives`): what was encoded is decoded, in whatever form it arrives.

Scalars, options, lists and the entries of records have one lemma each, from which the decoders of
records are put together entry by entry.
-/

namespace PointsTo

/-! ## Spellings -/

namespace Scalar

variable {s : String} {n : Nat}

/-- A spelling that suggests a whole number is one. -/
theorem integer?_cases (s : String) :
    integer? s = none ∨ (∃ n, natural? s = some n ∧ integer? s = some (.natural n)) ∨
      ∃ n, integer? s = some (.negative n) := by
  unfold integer?
  cases hnatural : natural? s with
  | some n =>
    by_cases hn : n < Nat.pow 2 128
    · exact .inr (.inl ⟨n, rfl, if_pos hn⟩)
    · exact .inl (if_neg hn)
  | none =>
    cases negative? s with
    | none => exact .inl rfl
    | some n =>
      by_cases hn : n ≤ Nat.pow 2 127
      · exact .inr (.inr ⟨n, if_pos hn⟩)
      · exact .inl (if_neg hn)

theorem kind_of_not_isNull (h : ¬ isNull s = true) :
    kind s = .bool ∨ kind s = .decimal ∨ kind s = .word ∨
      (∃ n, natural? s = some n ∧ kind s = .natural n) ∨ ∃ n, kind s = .negative n := by
  rw [kind, if_neg h]
  by_cases hbool : isBool s = true
  · exact .inl (if_pos hbool)
  · rw [if_neg hbool]
    rcases integer?_cases s with hnone | ⟨n, hnatural, hsome⟩ | ⟨n, hsome⟩
    · rw [hnone, Option.getD_none]
      by_cases hdecimal : isDecimal s = true
      · exact .inr (.inl (if_pos hdecimal))
      · exact .inr (.inr (.inl (if_neg hdecimal)))
    · rw [hsome]
      exact .inr (.inr (.inr (.inl ⟨n, hnatural, rfl⟩)))
    · rw [hsome]
      exact .inr (.inr (.inr (.inr ⟨n, rfl⟩)))

theorem isNull_iff : isNull s = true ↔ kind s = .null := by
  constructor
  · intro h
    exact if_pos h
  · intro h
    by_contra hnull
    have hcases := kind_of_not_isNull hnull
    rw [h] at hcases
    simp at hcases

theorem natural?_of_kind (h : kind s = .natural n) : natural? s = some n := by
  have hnull : ¬ isNull s = true := by
    rw [isNull_iff, h]
    simp
  have hcases := kind_of_not_isNull hnull
  rw [h] at hcases
  simpa using hcases

end Scalar

namespace Value

variable {α : Type} {encode : α → Value} {decode : Value → Except DecodeError α}

/-- What was sent as the first value may arrive as the second. -/
inductive Arrives : Value → Value → Prop
  | refl (v : Value) : Arrives v v
  | plainNull {s : String} : Scalar.kind s = .null → Arrives .null (.plain s)
  | plainNatural {n : Nat} {s : String} : Scalar.kind s = .natural n → Arrives (.number n 0) (.plain s)
  | plainText {s : String} : Scalar.kind s = .word → Arrives (.text s) (.plain s)
  | list {vs ws : List Value} : List.Forall₂ Arrives vs ws → Arrives (.list vs) (.list ws)
  | tuple {vs ws : List Value} : List.Forall₂ Arrives vs ws → Arrives (.list vs) (.tuple ws)
  | record {es fs : List (String × Value)} : es.map Prod.fst = fs.map Prod.fst →
      List.Forall₂ Arrives (es.map Prod.snd) (fs.map Prod.snd) → Arrives (.record es) (.record fs)

/-- Whatever is encoded is decoded, in all forms in which it may arrive. -/
def Survives (encode : α → Value) (decode : Value → Except DecodeError α) : Prop :=
  ∀ a v, Arrives (encode a) v → decode v = .ok a

/-- Nothing is encoded by what may arrive as null. -/
def NeverNull (encode : α → Value) : Prop := ∀ a v, Arrives (encode a) v → v.isNull = .ok false

theorem Survives.decode_encode (h : Survives encode decode) (a : α) : decode (encode a) = .ok a :=
  h a (encode a) (.refl _)

/-! ## Scalars -/

theorem isNull_plain {s : String} (h : Scalar.kind s ≠ .null) : (plain s).isNull = .ok false := by
  have hnull : Scalar.isNull s = false := by
    rw [← Bool.not_eq_true, Scalar.isNull_iff]
    exact h
  rw [isNull, hnull]

theorem survives_text : Survives Value.text asText := by
  intro s v hv
  cases hv with
  | refl => rfl
  | plainText => rfl

theorem neverNull_text : NeverNull Value.text := by
  intro s v hv
  cases hv with
  | refl => rfl
  | plainText hs => exact isNull_plain (by simp [hs])

theorem survives_natural {bound : Nat} {n : Nat} (hn : n < bound) {v : Value}
    (hv : Arrives (natural n) v) : v.asNatural bound = .ok n := by
  cases hv with
  | refl => exact if_pos hn
  | plainNatural hs =>
    unfold asNatural
    simp only [untagged, Scalar.natural?_of_kind hs]
    exact if_pos hn

theorem neverNull_natural : NeverNull natural := by
  intro n v hv
  cases hv with
  | refl => rfl
  | plainNatural hs => exact isNull_plain (by simp [hs])

theorem survives_word64 : Survives (fun n : UInt64 ↦ natural n.toNat) asWord64 := by
  intro n v hv
  apply bind_eq_ok.2 ⟨n.toNat, survives_natural n.toNat_lt hv, ?_⟩
  exact congrArg Except.ok n.ofNat_toNat

/-- Members of an enumeration are sent as names, and each name means its member. -/
def Spells (names : List (String × α)) (encode : α → Value) : Prop :=
  ∀ a, ∃ s, encode a = .text s ∧ names.lookup s = some a

theorem Spells.survives {names : List (String × α)} (h : Spells names encode) :
    Survives encode (asName names) := by
  intro a v hv
  obtain ⟨s, hs, hlookup⟩ := h a
  rw [hs] at hv
  have hname : v.spelledName = .ok s := by
    cases hv with
    | refl => rfl
    | plainText => rfl
  apply bind_eq_ok.2 ⟨s, hname, ?_⟩
  rw [hlookup]
  rfl

theorem Spells.neverNull {names : List (String × α)} (h : Spells names encode) : NeverNull encode := by
  intro a
  obtain ⟨s, hs, -⟩ := h a
  rw [hs]
  exact neverNull_text s

/-! ## Options and lists -/

theorem survives_option (h : Survives encode decode) (hnull : NeverNull encode) :
    Survives (ofOption encode) (asOption decode) := by
  intro a? v hv
  unfold asOption
  cases a? with
  | none =>
    have htrue : v.isNull = .ok true := by
      cases hv with
      | refl => rfl
      | plainNull hs => exact congrArg Except.ok (Scalar.isNull_iff.2 hs)
    rw [htrue]
    rfl
  | some a =>
    rw [hnull a v hv, h a v hv]
    rfl

/-- Null says as much of an option of options as of an option. -/
theorem asOption_asOption (v : Value) :
    asOption (asOption decode) v = (Option.map some) <$> asOption decode v := by
  unfold asOption
  cases v.isNull with
  | error e => rfl
  | ok isNull =>
    cases isNull with
    | true => rfl
    | false =>
      change some <$> (some <$> decode v) = Option.map some <$> (some <$> decode v)
      rw [← comp_map, ← comp_map]
      rfl

theorem mapM_arrives (h : Survives encode decode) {as : List α} {ws : List Value}
    (hws : List.Forall₂ Arrives (as.map encode) ws) : ws.mapM decode = .ok as := by
  induction as generalizing ws with
  | nil =>
    cases hws
    rfl
  | cons a as ih =>
    cases hws with
    | cons hw hws =>
      rw [List.mapM_cons, h a _ hw, ih hws]
      rfl

theorem survives_list (h : Survives encode decode) :
    Survives (fun as ↦ .list (as.map encode)) (asList decode) := by
  intro as v hv
  cases hv with
  | refl => exact mapM_arrives h (List.forall₂_same.2 fun w _ ↦ .refl w)
  | list hws => exact mapM_arrives h hws
  | tuple hws => exact mapM_arrives h hws

/-! ## Records -/

/-- The entries of a record, as they were sent and as they arrive. -/
structure EntriesArrive (es fs : List (String × Value)) : Prop where
  keys : es.map Prod.fst = fs.map Prod.fst
  values : List.Forall₂ Arrives (es.map Prod.snd) (fs.map Prod.snd)

theorem neverNull_record {fields : α → List (String × Value)} :
    NeverNull fun a ↦ .record (fields a) := by
  intro a v hv
  cases hv with
  | refl => rfl
  | record => rfl

theorem record_of_arrives {es : List (String × Value)} {v : Value} (hv : Arrives (.record es) v) :
    ∃ fs, v = .record fs ∧ EntriesArrive es fs := by
  cases hv with
  | refl => exact ⟨es, rfl, rfl, List.forall₂_same.2 fun w _ ↦ .refl w⟩
  | record hkeys hvalues => exact ⟨_, rfl, hkeys, hvalues⟩

/-- Records are encoded with keys of their shape, in its order. -/
theorem entries_arrive {es : List (String × Value)} (shape : Shape) {v : Value}
    (hv : Arrives (.record es) v) (hkeys : (es.map Prod.fst).Sublist shape.keys)
    (hnodup : shape.keys.Nodup) : ∃ fs, v.entries shape = .ok fs ∧ EntriesArrive es fs := by
  obtain ⟨fs, rfl, harrive⟩ := record_of_arrives hv
  rw [harrive.keys] at hkeys
  have hall : fs.filter (·.1 ∈ shape.keys) = fs := by
    apply List.filter_eq_self.2
    intro e he
    exact decide_eq_true (hkeys.subset (List.mem_map_of_mem he))
  refine ⟨fs, ?_, harrive⟩
  unfold entries
  simp only [untagged, hall, Nat.lt_irrefl, decide_false, Bool.and_false, Bool.false_eq_true,
    if_false, if_pos (hkeys.nodup hnodup)]

namespace EntriesArrive

variable {es fs : List (String × Value)} {key : String} {a : α}

/-- What was sent under a key arrives under it. -/
theorem lookup (h : EntriesArrive es fs) {v : Value} (hv : es.lookup key = some v) :
    ∃ w, fs.lookup key = some w ∧ Arrives v w := by
  obtain ⟨hkeys, hvalues⟩ := h
  induction es generalizing fs with
  | nil => cases hv
  | cons e es ih =>
    cases fs with
    | nil => cases hkeys
    | cons f fs =>
      obtain ⟨hkey, hkeys⟩ := List.cons.inj hkeys
      cases hvalues with
      | cons hvalue hvalues =>
        rw [List.lookup_cons] at hv
        rw [List.lookup_cons, ← hkey]
        cases hfirst : key == e.1 with
        | true =>
          rw [hfirst] at hv
          obtain rfl := Option.some.inj hv
          exact ⟨f.2, rfl, hvalue⟩
        | false =>
          rw [hfirst] at hv
          exact ih hv hkeys hvalues

/-- Something arrives under just the keys under which something was sent. -/
theorem lookup_eq_none_iff (h : EntriesArrive es fs) : es.lookup key = none ↔ fs.lookup key = none := by
  have hkeys : ∀ l : List (String × Value), l.lookup key = none ↔ key ∉ l.map Prod.fst := by
    intro l
    simp only [List.lookup_eq_none_iff, bne_iff_ne, List.mem_map, not_exists, not_and, ne_eq,
      @eq_comm _ key]
  rw [hkeys, hkeys, h.keys]

variable (hs : Survives encode decode)

include hs

theorem required (h : EntriesArrive es fs) (hkey : es.lookup key = some (encode a)) :
    Value.required decode key fs = .ok a := by
  obtain ⟨w, hw, harrives⟩ := h.lookup hkey
  rw [Value.required, hw]
  exact hs a w harrives

theorem orElse (h : EntriesArrive es fs) {default : α} (hkey : es.lookup key = some (encode a)) :
    Value.orElse decode default key fs = .ok a := by
  obtain ⟨w, hw, harrives⟩ := h.lookup hkey
  rw [Value.orElse, hw]
  exact hs a w harrives

omit hs in
theorem orElse_default (h : EntriesArrive es fs) {default : α} (hkey : es.lookup key = none) :
    Value.orElse decode default key fs = .ok default := by
  rw [Value.orElse, h.lookup_eq_none_iff.1 hkey]

theorem optional (h : EntriesArrive es fs) (hnull : NeverNull encode) {a? : Option α}
    (hkey : es.lookup key = a?.map encode) : Value.optional decode key fs = .ok a? := by
  cases a? with
  | none => exact h.orElse_default hkey
  | some a => exact h.orElse (survives_option hs hnull) (a := some a) hkey

/-- Of an option of options it does not arrive that it was set to nothing. -/
theorem optional_join (h : EntriesArrive es fs) (hnull : NeverNull encode)
    {a?? : Option (Option α)} (hkey : es.lookup key = a??.map (ofOption encode)) :
    Value.optional (asOption decode) key fs = .ok (a??.join.map some) := by
  cases a?? with
  | none => exact h.orElse_default hkey
  | some a? =>
    obtain ⟨w, hw, harrives⟩ := h.lookup hkey
    calc
      Value.optional (asOption decode) key fs = asOption (asOption decode) w := by
        rw [Value.optional, Value.orElse, hw]
      _ = Option.map some <$> asOption decode w := asOption_asOption w
      _ = .ok (a?.map some) := by
        rw [survives_option hs hnull a? w harrives]
        rfl

end EntriesArrive

end Value

end PointsTo
