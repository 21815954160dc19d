import PointsTo.Config.Document
import PointsTo.Ordered
import PointsTo.Proofs.Transit

/-!
# Configurations in transit

Settings, taint rules and whole configurations survive transit: a configuration is decoded from its
encoding in whatever form that arrives, so reading what was written gives back a valid configuration
(`config_survives`). Patches do not survive. A patch that clears the heap context depth says so by a
null, and null is read as nothing being said (`Patch.readBack`). What is read back has the effect of the
patch if and only if there was no depth to clear (`patch_survives_iff`).
-/

namespace PointsTo

open Value

/-! ## Settings -/

theorem Mode.spells : Spells names encode := by
  intro m
  cases m <;> exact ⟨_, rfl, rfl⟩

theorem Strategy.spells : Spells names encode := by
  intro s
  cases s <;> exact ⟨_, rfl, rfl⟩

theorem HeapAbstraction.spells : Spells names encode := by
  intro a
  cases a <;> exact ⟨_, rfl, rfl⟩

theorem WorkOrder.spells : Spells names encode := by
  intro o
  cases o <;> exact ⟨_, rfl, rfl⟩

theorem survives_encodeWord : Survives encodeWord asWord64 := survives_word64

theorem neverNull_encodeWord : NeverNull encodeWord := fun n ↦ neverNull_natural n.toNat

/-! ## Taint rules -/

/-- A point is never taken for another: an index is a number, and no name is one. -/
theorem TransferPoint.survives : Survives encode decode := by
  intro point v hv
  cases point with
  | base =>
    cases hv with
    | refl => rfl
    | plainText hs =>
      change ofPlain "base" = .ok base
      rw [ofPlain, hs]
      rfl
  | result =>
    cases hv with
    | refl => rfl
    | plainText hs =>
      change ofPlain "result" = .ok result
      rw [ofPlain, hs]
      rfl
  | arg index =>
    have hindex : ofIndex index.toNat = .ok (arg index) := by
      rw [ofIndex, if_pos index.toNat_lt, UInt64.ofNat_toNat]
    cases hv with
    | refl => exact hindex
    | plainNatural hs =>
      change ofPlain _ = .ok (arg index)
      rw [ofPlain, hs]
      exact hindex

theorem SourceRule.survives : Survives encode decode := by
  intro r v hv
  obtain ⟨fs, hfs, harrive⟩ := entries_arrive { keys } hv (.refl keys) (by decide)
  refine bind_eq_ok.2 ⟨fs, hfs, bind_eq_ok.2 ⟨r.cls, harrive.required survives_text rfl, ?_⟩⟩
  refine bind_eq_ok.2 ⟨r.method, harrive.required survives_text rfl, ?_⟩
  exact bind_eq_ok.2 ⟨r.type, harrive.required survives_text rfl, rfl⟩

theorem SinkRule.survives : Survives encode decode := by
  intro r v hv
  obtain ⟨fs, hfs, harrive⟩ := entries_arrive { keys } hv (.refl keys) (by decide)
  refine bind_eq_ok.2 ⟨fs, hfs, bind_eq_ok.2 ⟨r.cls, harrive.required survives_text rfl, ?_⟩⟩
  refine bind_eq_ok.2 ⟨r.method, harrive.required survives_text rfl, ?_⟩
  exact bind_eq_ok.2 ⟨r.index, harrive.required survives_word64 rfl, rfl⟩

theorem TransferRule.survives : Survives encode decode := by
  intro r v hv
  obtain ⟨fs, hfs, harrive⟩ := entries_arrive { keys } hv (.refl keys) (by decide)
  refine bind_eq_ok.2 ⟨fs, hfs, bind_eq_ok.2 ⟨r.cls, harrive.required survives_text rfl, ?_⟩⟩
  refine bind_eq_ok.2 ⟨r.method, harrive.required survives_text rfl, ?_⟩
  refine bind_eq_ok.2 ⟨r.source, harrive.required TransferPoint.survives rfl, ?_⟩
  refine bind_eq_ok.2 ⟨r.target, harrive.required TransferPoint.survives rfl, ?_⟩
  exact bind_eq_ok.2 ⟨r.type, harrive.required survives_text rfl, rfl⟩

theorem TaintRules.survives : Survives encode decode := by
  intro r v hv
  obtain ⟨fs, hfs, harrive⟩ := entries_arrive
    { keys := ["sources", "sinks", "transfers"], openEnded := true } hv (.refl _) (by decide)
  refine bind_eq_ok.2 ⟨fs, hfs, ?_⟩
  refine bind_eq_ok.2 ⟨r.sources, harrive.orElse (survives_list SourceRule.survives) rfl, ?_⟩
  refine bind_eq_ok.2 ⟨r.sinks, harrive.orElse (survives_list SinkRule.survives) rfl, ?_⟩
  exact bind_eq_ok.2 ⟨r.transfers, harrive.orElse (survives_list TransferRule.survives) rfl, rfl⟩

theorem TaintRules.neverNull : NeverNull encode := neverNull_record

/-! ## Entries that may be left out -/

section

variable {α : Type} {encode : α → Value} {key : String} {a? : Option α}

theorem lookup_entry? (k : String) :
    (List.lookup k <| entry? key encode a?) = if k = key then a?.map encode else none := by
  cases a? with
  | none => exact (ite_self _).symm
  | some a => exact Ordered.lookup_cons

theorem keys_entry?_sublist : (List.map Prod.fst <| entry? key encode a?).Sublist [key] := by
  cases a? with
  | none => exact List.nil_sublist _
  | some a => exact List.Sublist.refl _

end

/-! ## Configurations -/

namespace Config

theorem nodup_keys : keys.Nodup := by decide

theorem survives : Survives encode decode := by
  intro c v hv
  obtain ⟨fs, hfs, harrive⟩ := entries_arrive { keys := keys, openEnded := true } hv
    (by rw [List.map_append]; exact (List.Sublist.refl _).append keys_entry?_sublist) nodup_keys
  refine bind_eq_ok.2 ⟨fs, hfs, ?_⟩
  refine bind_eq_ok.2 ⟨c.mode, harrive.orElse Mode.spells.survives rfl, ?_⟩
  refine bind_eq_ok.2 ⟨c.context, harrive.orElse Strategy.spells.survives rfl, ?_⟩
  refine bind_eq_ok.2 ⟨c.contextDepth, harrive.orElse survives_encodeWord rfl, ?_⟩
  refine bind_eq_ok.2 ⟨c.heapContextDepth,
    harrive.orElse (survives_option survives_encodeWord neverNull_encodeWord) rfl, ?_⟩
  refine bind_eq_ok.2 ⟨c.heapAbstraction, harrive.orElse HeapAbstraction.spells.survives rfl, ?_⟩
  refine bind_eq_ok.2 ⟨c.worklistOrder, harrive.orElse WorkOrder.spells.survives rfl, ?_⟩
  refine bind_eq_ok.2 ⟨c.taint, harrive.optional TaintRules.survives TaintRules.neverNull ?_, rfl⟩
  rw [List.lookup_append, lookup_entry?]
  rfl

/-- A taint section arrives if and only if there are taint rules. -/
theorem lookup_taint_of_arrives {c : Config} {v : Value} (hv : Arrives c.encode v) :
    ∃ es, v = .record es ∧ (es.lookup "taint" = none ↔ c.taint = none) := by
  obtain ⟨es, rfl, harrive⟩ := record_of_arrives hv
  refine ⟨es, rfl, ?_⟩
  rw [← harrive.lookup_eq_none_iff, List.lookup_append, lookup_entry?]
  exact Option.map_eq_none_iff

theorem ofYaml_of_arrives {c : Config} (hvalid : c.validate = .ok ()) {text : String} {v : Value}
    (hread : Yaml.readValue schema text = .ok v) (hv : Arrives c.encode v) :
    ofYaml text = .ok c := by
  have hdocument : decodeDocument schema decode text = .ok c := by
    rw [decodeDocument, hread]
    change (decode v).mapError _ = .ok c
    rw [survives c v hv]
    rfl
  rw [ofYaml, hdocument]
  change (c.validate >>= fun _ ↦ pure c) = .ok c
  rw [hvalid]
  rfl

end Config

/-- A valid configuration is read back as it was, in whatever form its encoding arrives, and a document
that holds it is accepted. There is a taint section if and only if there are taint rules, and no transfer
point is taken for another. -/
theorem config_survives {c : Config} (hvalid : c.validate = .ok ()) :
    Config.decode c.encode = .ok c ∧
      (∀ v, Arrives c.encode v → Config.decode v = .ok c ∧
        ∃ es, v = .record es ∧ (es.lookup "taint" = none ↔ c.taint = none)) ∧
      (∀ text v, Yaml.readValue Config.schema text = .ok v → Arrives c.encode v →
        Config.ofYaml text = .ok c) ∧
      ∀ (point : TransferPoint) (v : Value), Arrives point.encode v →
        TransferPoint.decode v = .ok point := by
  refine ⟨Config.survives.decode_encode c, ?_, ?_, TransferPoint.survives⟩
  · intro v hv
    exact ⟨Config.survives c v hv, Config.lookup_taint_of_arrives hv⟩
  · intro text v hread hv
    exact Config.ofYaml_of_arrives hvalid hread hv

/-- Rules of all kinds, with texts that look like other values and the largest index there is. -/
def Config.tracking : Config :=
  { Preset.thorough.config with
    taint := some {
      sources := [{ cls := "Inbox", method := "read()", type := "null" }]
      sinks := [{ cls := "Outbox", method := "send(Object)", index := 18446744073709551615 }]
      transfers :=
        [{ cls := "0", method := "add(Object)", source := .arg 0, target := .base, type := "base" },
          { cls := "0", method := "get()", source := .base, target := .result, type := "result" }] } }

theorem config_survives_tracking :
    Config.tracking.validate = .ok () ∧
      Config.decode Config.tracking.encode = .ok Config.tracking ∧
      TransferPoint.decode (.plain "18446744073709551615") = .ok (.arg 18446744073709551615) := by
  have hvalid : Config.tracking.validate = .ok () := by rfl
  have hsurvives := config_survives hvalid
  have hindex : Scalar.kind "18446744073709551615" = .natural 18446744073709551615 := by
    decide +kernel
  exact ⟨hvalid, hsurvives.1, hsurvives.2.2.2 _ _ (.plainNatural hindex)⟩

/-- The default configuration is read from the text that it is written as; all its scalars are plain. -/
example : (Config.ofYaml Config.default.toYaml).toOption = some Config.default := by decide +kernel

namespace Patch

/-- A patch as it is read back, where it cannot be seen that a depth was cleared. -/
def readBack (p : Patch) : Patch := { p with heapContextDepth := p.heapContextDepth.join.map some }

/-- In whatever order the entries of a patch arrive, each is found under its key, and there are no
others. -/
theorem decode_of_arrives {p : Patch} {v : Value} (hv : Arrives p.encode v) :
    decode v = .ok p.readBack := by
  obtain ⟨fs, hfs, harrive⟩ := entries_arrive { keys := Config.keys, closed := true } hv
    (by
      simp only [List.map_append]
      exact (((((keys_entry?_sublist.append keys_entry?_sublist).append keys_entry?_sublist).append
        keys_entry?_sublist).append keys_entry?_sublist).append keys_entry?_sublist).append
          keys_entry?_sublist)
    Config.nodup_keys
  refine bind_eq_ok.2 ⟨fs, hfs, ?_⟩
  refine bind_eq_ok.2 ⟨p.mode, harrive.optional Mode.spells.survives Mode.spells.neverNull ?_, ?_⟩
  · simp [List.lookup_append, lookup_entry?]
  refine bind_eq_ok.2 ⟨p.context,
    harrive.optional Strategy.spells.survives Strategy.spells.neverNull ?_, ?_⟩
  · simp [List.lookup_append, lookup_entry?]
  refine bind_eq_ok.2 ⟨p.contextDepth,
    harrive.optional survives_encodeWord neverNull_encodeWord ?_, ?_⟩
  · simp [List.lookup_append, lookup_entry?]
  refine bind_eq_ok.2 ⟨p.heapContextDepth.join.map some,
    harrive.optional_join survives_encodeWord neverNull_encodeWord ?_, ?_⟩
  · simp [List.lookup_append, lookup_entry?]
  refine bind_eq_ok.2 ⟨p.heapAbstraction,
    harrive.optional HeapAbstraction.spells.survives HeapAbstraction.spells.neverNull ?_, ?_⟩
  · simp [List.lookup_append, lookup_entry?]
  refine bind_eq_ok.2 ⟨p.worklistOrder,
    harrive.optional WorkOrder.spells.survives WorkOrder.spells.neverNull ?_, ?_⟩
  · simp [List.lookup_append, lookup_entry?]
  refine bind_eq_ok.2 ⟨p.taint, harrive.optional TaintRules.survives TaintRules.neverNull ?_, rfl⟩
  simp [List.lookup_append, lookup_entry?]

/-- Reading back what clears the depth leaves the depth alone. -/
theorem apply_readBack (p : Patch) (c : Config) :
    c.apply p.readBack =
      { c.apply p with heapContextDepth := p.heapContextDepth.join.or c.heapContextDepth } := by
  unfold readBack Config.apply
  cases p.heapContextDepth.join <;> rfl

end Patch

/-- A patch is read back, in whatever form its encoding arrives, and nothing but the heap context depth
can be another if what is read back is applied. It is if and only if the patch clears a depth that is
given. -/
theorem patch_survives_iff (p : Patch) (c : Config) :
    Patch.decode p.encode = .ok p.readBack ∧
      (∀ v, Arrives p.encode v → Patch.decode v = .ok p.readBack) ∧
      (∃ depth, c.apply p.readBack = { c.apply p with heapContextDepth := depth }) ∧
      (c.apply p.readBack = c.apply p ↔
        ¬ (p.heapContextDepth = some none ∧ c.heapContextDepth.isSome)) := by
  refine ⟨Patch.decode_of_arrives (.refl _), fun v hv ↦ Patch.decode_of_arrives hv,
    ⟨_, p.apply_readBack c⟩, ?_⟩
  rw [p.apply_readBack c]
  -- Cleared is the only one of the three that is taken for another.
  rcases hp : p.heapContextDepth with _ | _ | depth <;> simp [Config.apply, hp]

/-- A patch that clears the heap context depth takes the contexts of objects away in this configuration;
read back, it leaves them. -/
theorem cleared_depth_returns :
    ∃ p, Patch.decode (Patch.encode { heapContextDepth := some none }) = .ok p ∧
      ({ Config.default with heapContextDepth := some 1 }.apply p).heapDepth = 1 ∧
      ({ Config.default with heapContextDepth := some 1 }.apply
        { heapContextDepth := some none }).heapDepth = 0 :=
  ⟨_, rfl, rfl, rfl⟩

end PointsTo
