import GridcoreRunner.Engine.Prelude
import GridcoreRunner.Json.TailBound
import GridcoreRunner.Schema.ClosingSize

/-!
# The tail of a truncated generation

The schema validator as the machine of a constrained request, and whether the buffer
that `constraint_close` hands to a closer holds all that the closer has to write.
-/

namespace GridcoreRunner.Generation

set_option autoImplicit false

open GridcoreRunner.Schema

/-- A request with a schema. -/
def schemaMachine (root : Snode) : Machine Sval :=
  { init := svalInit root, round := svalRound Schema.feedByte, done := fun v => v.done,
    close := svalClose, wsIsContent := svalWsIsContent, atRawTail := svalAtRawTail }

variable {V σ κ Logits : Type*}

/-- A larger buffer than that of `constraint_close` would receive no more. -/
def TailWhole (c : Config V σ κ Logits) (v : V) : Prop :=
  ∀ more, closeCap c ≤ more → c.payload.close v more = c.payload.close v (closeCap c)

theorem schema_tail_whole_iff {c : Config Sval σ κ Logits} {root : Snode} (mode : c.mode = .schema)
    (reads : c.payload = (schemaMachine root).payload) (v : Sval) :
    TailWhole c v ↔ (unfinished v → owed v ≤ 4095) := by
  have cap : closeCap c = 4096 := by
    unfold closeCap Config.schema
    rw [mode]
    rfl
  unfold TailWhole
  rw [cap, reads]
  show (∀ more, 4096 ≤ more → svalClose v more = svalClose v 4096) ↔ _
  by_cases begun : unfinished v
  · rw [sval_close_fits_iff begun]
    simp [begun]
  · simp [begun, sval_close_shut begun]

theorem json_tail_whole {c : Config Json.Jsonv σ κ Logits} (mode : c.mode = .json)
    (reads : c.payload = jsonMachine.payload) {s : Bytes} {v : Json.Jsonv}
    (fed : jsonMachine.feed jsonMachine.init s = some v) : TailWhole c v := by
  have cap : closeCap c = 600 := by
    unfold closeCap Config.schema
    rw [mode]
    rfl
  unfold TailWhole
  rw [cap, reads]
  intro more larger
  have room : Json.stackSize + 26 < 600 := by decide
  show Json.jsonvClose v more = Json.jsonvClose v 600
  rw [Json.jsonv_close_whole fed room, Json.jsonv_close_whole fed (room.trans_le larger)]

/-- The tail of a schema document reaches the client whole exactly when the open frames
owe at most as much as the buffer holds, and that of `json_mode` always does. -/
theorem forced_tail_whole :
    (∀ (c : Config Sval σ κ Logits) (root : Snode) (v : Sval), c.mode = .schema →
        c.payload = (schemaMachine root).payload →
          (TailWhole c v ↔ (unfinished v → owed v ≤ 4095))) ∧
      ∀ (c : Config Json.Jsonv σ κ Logits) (s : Bytes) (v : Json.Jsonv), c.mode = .json →
        c.payload = jsonMachine.payload → jsonMachine.feed jsonMachine.init s = some v →
          TailWhole c v := by
  constructor
  · intro c root v mode reads
    exact schema_tail_whole_iff mode reads v
  · intro c s v mode reads fed
    exact json_tail_whole mode reads fed

/-- `{"type":"string","minLength":n}`. -/
def stringOf (minLength : Nat) : Snode := .str minLength none []

/-- A string of which only the opening quote has been written. -/
def quoted (minLength : Nat) : Sval :=
  (svalInit (stringOf minLength)).setTop { Sframe.start (stringOf minLength) with phase := .str } []

theorem quoted_fed (minLength : Nat) :
    (schemaMachine (stringOf minLength)).feed (svalInit (stringOf minLength)) [Json.quote] =
      some (quoted minLength) := rfl

theorem quoted_unfinished (minLength : Nat) : unfinished (quoted minLength) := by
  refine ⟨rfl, ?_⟩
  intro f stack
  cases stack
  exact Schema.Phase.noConfusion

theorem quoted_owes (minLength : Nat) : owed (quoted minLength) = minLength + 1 := by
  show 0 + (minLength - 0) + 1 + 0 = minLength + 1
  omega

/-- `{"a":[t`. -/
def openDocument : Bytes :=
  [Json.lbrace, Json.quote, 0x61, Json.quote, Json.colon, Json.lbracket, 0x74]

/-- Short strings fit, and so does `rue]}` behind `{"a":[t`. -/
theorem short_tail_whole :
    TailWhole (bareRequest .schema (schemaMachine (stringOf 3)).payload none) (quoted 3) ∧
      ∃ v, jsonMachine.feed jsonMachine.init openDocument = some v ∧
        Json.jsonvClose v 600 = [0x72, 0x75, 0x65, Json.rbracket, Json.rbrace] ∧
          TailWhole (bareRequest .json jsonMachine.payload none) v := by
  have whole := @forced_tail_whole Unit Unit Unit
  constructor
  · rw [whole.1 _ (stringOf 3) (quoted 3) rfl rfl]
    intro _
    rw [quoted_owes]
    decide
  · obtain ⟨v, fed⟩ : ∃ v, jsonMachine.feed jsonMachine.init openDocument = some v := ⟨_, rfl⟩
    refine ⟨v, fed, ?_, whole.2 _ openDocument v rfl rfl fed⟩
    cases fed
    rfl

/-- Of a string of five thousand characters, 4095 arrive and no closing quote. -/
theorem long_tail_clipped :
    (schemaMachine (stringOf 5000)).feed (svalInit (stringOf 5000)) [Json.quote] =
        some (quoted 5000) ∧
      ¬TailWhole (bareRequest .schema (schemaMachine (stringOf 5000)).payload none)
        (quoted 5000) := by
  refine ⟨quoted_fed 5000, ?_⟩
  rw [schema_tail_whole_iff rfl rfl]
  intro fits
  have bound := fits (quoted_unfinished 5000)
  rw [quoted_owes] at bound
  omega

end GridcoreRunner.Generation
