import AgentUE.Data.Nesting
import AgentUE.Go.Json
import AgentUE.Go.Validation
import AgentUE.Protocol.Numeral

/-!
# Go SDK: the decoder of events

Reference: `Parse` of `sdks/go/ui/event.go`; how a numeral is read into a field is that of `encoding/json`. The numbers
of the payloads are kept as they are written, as `Validate` reads none of them.
-/

namespace AgentUE.Go

open Data

/-- `strconv.ParseUint` to base 10 and 64 bits -/
def parseUint (n : Numeral) : Option ℕ :=
  if n.isInteger && !n.negative && decide (n.integer < 2 ^ 64) then some n.integer else none

/-- `strconv.ParseInt` to base 10 and 64 bits -/
def parseInt (n : Numeral) : Option ℤ :=
  let i : ℤ := if n.negative then -n.integer else n.integer
  if n.isInteger && decide (-2 ^ 63 ≤ i) && decide (i < 2 ^ 63) then some i else none

/-- `strconv.ParseFloat` of a number in a `map[string]any` gives no range error. -/
def isFloat : Scalar Numeral → Bool
  | .num n => decide (|n.value| < infinityFrom)
  | _ => true

/-- A member `ts` that may be absent. -/
def parseTimestamp : Option Natural → Option (Option ℤ)
  | none => some none
  | some ts => (parseInt ts.numeral).map some

/-- The payloads nest no deeper than the decoder allows inside of the event, and their numbers are floats. -/
def payloadsFit (e : EventText) : Bool :=
  [e.model, e.meta_, e.block].all fun payload => payload.all fun document =>
    DocTree.fits isFloat (Json.maxNestingDepth - 1) (.obj document)

/-- `decoder.Decode(&event)` -/
def decodeText (e : EventText) : Except Failure (Event Numeral) :=
  match parseUint e.seq.numeral, parseTimestamp e.ts with
  | some seq, some timestamp =>
    if payloadsFit e then .ok { decoded e.envelope with seq := seq, timestamp := timestamp } else .error (.err .decode)
  | _, _ => .error (.err .decode)

/-- `Parse` -/
def parseText (e : EventText) : Except Failure (Event Numeral) := do
  let event ← decodeText e
  event.validate
  return event

/-! ## What the decoder takes -/

/-- `seq` is written without sign, fraction and exponent and fits `uint64`. -/
def seqReads (n : Natural) : Bool := n.numeral.isInteger && !n.numeral.negative && decide (n.value < 2 ^ 64)

/-- `ts` is written without fraction and exponent and fits `int64`. -/
def tsReads (n : Natural) : Bool := n.numeral.isInteger && decide (n.value < 2 ^ 63)

/-- The texts that the decoder reads into an `Event`. -/
def decodes (e : EventText) : Bool := seqReads e.seq && e.ts.all tsReads && payloadsFit e

theorem parseUint_eq (n : Natural) : parseUint n.numeral = if seqReads n then some n.value else none := by
  unfold parseUint seqReads
  by_cases h : n.numeral.isInteger = true
  · rw [Natural.value_of_isInteger h]
  · simp [h]

theorem parseInt_eq (n : Natural) : parseInt n.numeral = if tsReads n then some (n.value : ℤ) else none := by
  unfold parseInt tsReads
  by_cases h : n.numeral.isInteger = true
  · have hvalue : (if n.numeral.negative then -n.numeral.integer else n.numeral.integer : ℤ) = n.value := by
      have hcast := n.value_eq
      rw [Numeral.value_of_isInteger h] at hcast
      exact_mod_cast hcast
    have hlow : (-2 ^ 63 : ℤ) ≤ n.value := by omega
    have hhigh : (n.value : ℤ) < 2 ^ 63 ↔ n.value < 2 ^ 63 := by omega
    simp only [hvalue, h, hlow, hhigh, decide_true, Bool.true_and]
  · simp [h]

theorem parseTimestamp_eq (ts : Option Natural) :
    parseTimestamp ts = if ts.all tsReads then some ((ts.map Natural.value).map Int.ofNat) else none := by
  cases ts with
  | none => rfl
  | some ts =>
    rw [parseTimestamp, parseInt_eq, Option.all_some]
    split_ifs <;> rfl

/-- What is decoded are the members of the event that is written. -/
theorem decodeText_eq (e : EventText) :
    decodeText e = if decodes e then .ok (decoded e.envelope) else .error (.err .decode) := by
  rw [decodeText, parseUint_eq, parseTimestamp_eq, decodes]
  cases seqReads e.seq <;> cases e.ts.all tsReads <;> cases payloadsFit e <;> rfl

/-- `Parse` adds to `Validate` that the decoder reads the text. -/
theorem parseText_ok_iff (e : EventText) :
    (∃ event, parseText e = .ok event) ↔ decodes e = true ∧ (decoded e.envelope).validate = .ok () := by
  rw [parseText, decodeText_eq]
  cases hdecodes : decodes e with
  | false => simp [bind, Except.bind]
  | true =>
    cases hvalid : (decoded e.envelope).validate <;> simp [bind, Except.bind, hvalid, pure, Except.pure]

/-- The same number is read from the digits alone only. -/
example : parseUint ⟨false, 1, [], none⟩ = some 1 ∧ parseUint ⟨false, 1, [0], none⟩ = none ∧
    parseUint ⟨false, 1, [], some 0⟩ = none ∧ parseUint ⟨true, 0, [], none⟩ = none := by
  decide

end AgentUE.Go
