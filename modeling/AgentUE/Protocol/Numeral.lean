import AgentUE.Protocol.Envelope
import Mathlib.Algebra.Order.Ring.Rat

/-!
# Events with their numbers as written

`1`, `1.0` and `1e0` are one number and one JSON integer, but not every decoder reads each of them into an integer
field. `EventText` is an event whose numbers are the numerals of its JSON text, `EventText.envelope` the event that
they stand for.
-/

namespace AgentUE

open Data

/-- A number as JSON writes it: a sign, an integer part, the digits of a fraction and an exponent. -/
structure Numeral where
  negative : Bool
  integer : ℕ
  fraction : List (Fin 10)
  exponent : Option ℤ
deriving DecidableEq

namespace Numeral

/-- The digits behind the point. -/
def fractionValue : List (Fin 10) → ℚ
  | [] => 0
  | digit :: digits => (digit.val + fractionValue digits) / 10

/-- The number that is written. -/
def value (n : Numeral) : ℚ :=
  (if n.negative then -1 else 1) * (n.integer + fractionValue n.fraction) * 10 ^ n.exponent.getD 0

/-- There is neither a fraction nor an exponent. -/
def isInteger (n : Numeral) : Bool := n.fraction.isEmpty && n.exponent.isNone

/-- The digits of a natural number. -/
def ofNat (n : ℕ) : Numeral := ⟨false, n, [], none⟩

@[simp] theorem value_ofNat (n : ℕ) : (ofNat n).value = n := by
  simp [value, ofNat, fractionValue]

@[simp] theorem isInteger_ofNat (n : ℕ) : (ofNat n).isInteger = true := rfl

/-- What is written without fraction and exponent is the integer part with its sign. -/
theorem value_of_isInteger {n : Numeral} (h : n.isInteger = true) :
    n.value = (if n.negative then -n.integer else n.integer : ℤ) := by
  obtain ⟨negative, integer, fraction, exponent⟩ := n
  simp only [isInteger, Bool.and_eq_true, List.isEmpty_iff, Option.isNone_iff_eq_none] at h
  obtain ⟨rfl, rfl⟩ := h
  cases negative <;> simp [value, fractionValue]

end Numeral

/-- Magnitudes from here on round to an infinite binary64 number. -/
def infinityFrom : ℕ := 2 ^ 1024 - 2 ^ 970

/-- A numeral that stands for a natural number. -/
structure Natural where
  numeral : Numeral
  value : ℕ
  value_eq : numeral.value = value

namespace Natural

/-- The number written with its digits alone. -/
def ofNat (n : ℕ) : Natural := ⟨.ofNat n, n, Numeral.value_ofNat n⟩

/-- Without fraction and exponent a natural number is written with its digits, zero also with a sign. -/
theorem value_of_isInteger {n : Natural} (h : n.numeral.isInteger = true) : n.value = n.numeral.integer := by
  have hvalue := n.value_eq
  rw [Numeral.value_of_isInteger h] at hvalue
  split_ifs at hvalue
  · have hzero : -(n.numeral.integer : ℤ) = n.value := by exact_mod_cast hvalue
    omega
  · exact_mod_cast hvalue.symm

end Natural

/-- One event as its JSON text has it: an `Envelope` with the numerals of its integers and of its payloads. -/
structure EventText where
  op : PatchOp
  seq : Natural
  streamId : Option String
  ts : Option Natural
  mask : Option String
  eventType : Option String
  model : Option (JsonObject Numeral)
  meta_ : Option (JsonObject Numeral)
  block : Option (JsonObject Numeral)

/-- The event that is written. -/
def EventText.envelope (e : EventText) : Envelope Numeral where
  op := e.op
  seq := e.seq.value
  streamId := e.streamId
  ts := e.ts.map Natural.value
  mask := e.mask
  eventType := e.eventType
  model := e.model
  meta_ := e.meta_
  block := e.block

end AgentUE
