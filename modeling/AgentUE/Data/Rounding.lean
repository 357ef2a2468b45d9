import Mathlib.Algebra.Group.Nat.Even
import Mathlib.Algebra.Order.Ring.Nat
import Mathlib.Data.Int.Basic
import Mathlib.Data.Nat.Log

/-!
# Rounding integers to binary floating point numbers

`nearest k n` is the floating point number next to `n` that has `k` binary digits behind the leading one, to even in
the middle. The exponent is not bounded.
-/

namespace AgentUE.Data.Rounding

variable {k : ℕ}

/-- The nearest number with a leading digit and `k` more, to even in the middle. -/
def nearest (k n : ℕ) : ℕ :=
  let unit := 2 ^ (Nat.log 2 n - k)
  let (q, r) := (n / unit, n % unit)
  if 2 * r < unit ∨ (2 * r = unit ∧ q % 2 = 0) then q * unit else (q + 1) * unit

/-- A multiple of its unit is left alone. -/
theorem nearest_of_dvd {n : ℕ} (h : 2 ^ (Nat.log 2 n - k) ∣ n) : nearest k n = n := by
  have hpos : 0 < 2 ^ (Nat.log 2 n - k) := Nat.two_pow_pos _
  simp only [nearest, Nat.mod_eq_zero_of_dvd h]
  rw [if_pos (Or.inl (by omega)), Nat.div_mul_cancel h]

/-- A significand of `k + 1` digits, also the next power of two, with any exponent is a number of the format. -/
theorem nearest_mul_pow {a : ℕ} (ha : a ≤ 2 ^ (k + 1)) (j : ℕ) : nearest k (a * 2 ^ j) = a * 2 ^ j := by
  apply nearest_of_dvd
  by_cases hzero : a = 0
  · simp [hzero]
  have hlog : Nat.log 2 (a * 2 ^ j) = Nat.log 2 a + j := by
    induction j with
    | zero => simp
    | succ j ih =>
      have hne : a * 2 ^ j ≠ 0 := Nat.mul_ne_zero hzero (Nat.two_pow_pos j).ne'
      rw [pow_succ, ← Nat.mul_assoc, Nat.log_mul_base one_lt_two hne, ih, Nat.add_assoc]
  rw [hlog]
  rcases ha.lt_or_eq with hlt | rfl
  · -- the significand has at most `k + 1` digits, so the unit divides the power
    have ha' : Nat.log 2 a < k + 1 := Nat.log_lt_of_lt_pow hzero hlt
    exact Dvd.dvd.mul_left (pow_dvd_pow 2 (by omega)) a
  · rw [Nat.log_pow one_lt_two, ← pow_add]
    exact pow_dvd_pow 2 (by omega)

/-- What is rounded has such a significand. -/
theorem exists_nearest_eq (k n : ℕ) : ∃ a j, a ≤ 2 ^ (k + 1) ∧ nearest k n = a * 2 ^ j := by
  have hq : n / 2 ^ (Nat.log 2 n - k) < 2 ^ (k + 1) := by
    rw [Nat.div_lt_iff_lt_mul (Nat.two_pow_pos _), ← pow_add]
    have hn : n < 2 ^ (Nat.log 2 n + 1) := Nat.lt_pow_succ_log_self one_lt_two n
    exact hn.trans_le (Nat.pow_le_pow_right two_pos (by omega))
  unfold nearest
  dsimp only
  split_ifs
  · exact ⟨_, _, hq.le, rfl⟩
  · exact ⟨_, _, hq, rfl⟩

/-- Rounding twice is rounding once. -/
@[simp] theorem nearest_nearest (k n : ℕ) : nearest k (nearest k n) = nearest k n := by
  obtain ⟨a, j, ha, h⟩ := exists_nearest_eq k n
  rw [h, nearest_mul_pow ha]

/-- Integers of at most `k + 1` digits are numbers of the format. -/
theorem nearest_of_le {n : ℕ} (h : n ≤ 2 ^ (k + 1)) : nearest k n = n := by
  simpa using nearest_mul_pow h 0

/-! ## Order -/

/-- The nearest multiple of a unit, to the even one in the middle. -/
def nearestMultiple (unit n : ℕ) : ℕ :=
  if 2 * (n % unit) < unit ∨ (2 * (n % unit) = unit ∧ n / unit % 2 = 0) then n / unit * unit
  else (n / unit + 1) * unit

theorem nearest_eq_nearestMultiple (k n : ℕ) : nearest k n = nearestMultiple (2 ^ (Nat.log 2 n - k)) n := rfl

/-- It is one of the two multiples around the number. -/
theorem nearestMultiple_mem_Icc {unit : ℕ} (n : ℕ) :
    n / unit * unit ≤ nearestMultiple unit n ∧ nearestMultiple unit n ≤ (n / unit + 1) * unit := by
  have hle : n / unit * unit ≤ (n / unit + 1) * unit := Nat.mul_le_mul_right unit (Nat.le_succ _)
  unfold nearestMultiple
  split_ifs
  · exact ⟨le_rfl, hle⟩
  · exact ⟨hle, le_rfl⟩

theorem nearestMultiple_mono (unit : ℕ) : Monotone (nearestMultiple unit) := by
  intro m n h
  rcases (Nat.div_le_div_right (c := unit) h).lt_or_eq with hlt | heq
  · calc nearestMultiple unit m ≤ (m / unit + 1) * unit := (nearestMultiple_mem_Icc m).2
      _ ≤ n / unit * unit := Nat.mul_le_mul_right unit hlt
      _ ≤ nearestMultiple unit n := (nearestMultiple_mem_Icc n).1
  · -- between the same two multiples, and `n` is not nearer to the lower one
    have hmod : m % unit ≤ n % unit := by
      have hm := Nat.div_add_mod m unit
      have hn := Nat.div_add_mod n unit
      rw [heq] at hm
      omega
    unfold nearestMultiple
    rw [heq]
    split_ifs with hm hn
    · exact le_rfl
    · exact Nat.mul_le_mul_right unit (Nat.le_succ _)
    · omega
    · exact le_rfl

/-- A power of two up to a number is up to the rounded number. -/
theorem pow_log_le_nearest {n : ℕ} (hn : n ≠ 0) : 2 ^ Nat.log 2 n ≤ nearest k n := by
  rw [nearest_eq_nearestMultiple]
  refine le_trans ?_ (nearestMultiple_mem_Icc n).1
  rw [← Nat.div_mul_cancel (pow_dvd_pow 2 (Nat.sub_le (Nat.log 2 n) k))]
  exact Nat.mul_le_mul_right _ (Nat.div_le_div_right (Nat.pow_log_le_self 2 hn))

theorem nearest_le_pow_log (n : ℕ) : nearest k n ≤ 2 ^ (Nat.log 2 n + 1) := by
  rw [nearest_eq_nearestMultiple]
  refine (nearestMultiple_mem_Icc n).2.trans ?_
  have hdvd : 2 ^ (Nat.log 2 n - k) ∣ 2 ^ (Nat.log 2 n + 1) := pow_dvd_pow 2 (by omega)
  rw [← Nat.div_mul_cancel hdvd]
  refine Nat.mul_le_mul_right _ ?_
  have hn : n < 2 ^ (Nat.log 2 n + 1) := Nat.lt_pow_succ_log_self one_lt_two n
  rwa [Nat.succ_le_iff, Nat.div_lt_iff_lt_mul (Nat.two_pow_pos _), Nat.div_mul_cancel hdvd]

/-- Rounding never reverses an order. -/
theorem nearest_mono (k : ℕ) : Monotone (nearest k) := by
  intro m n h
  by_cases hm : m = 0
  · rw [hm, nearest_of_le (Nat.zero_le _)]
    exact Nat.zero_le _
  have hn : n ≠ 0 := by omega
  rcases (Nat.log_mono_right (b := 2) h).lt_or_eq with hlt | heq
  · calc nearest k m ≤ 2 ^ (Nat.log 2 m + 1) := nearest_le_pow_log m
      _ ≤ 2 ^ Nat.log 2 n := Nat.pow_le_pow_right two_pos hlt
      _ ≤ nearest k n := pow_log_le_nearest hn
  · rw [nearest_eq_nearestMultiple, nearest_eq_nearestMultiple, heq]
    exact nearestMultiple_mono _ h

/-- Up to an even multiple only what is nearer to it than half a unit is rounded to it. -/
theorem nearestMultiple_lt_iff {half m n : ℕ} (hhalf : 0 < half) (hm : m % 2 = 0) (hn : n < m * (2 * half)) :
    nearestMultiple (2 * half) n < m * (2 * half) ↔ n < m * (2 * half) - half := by
  have hdiv : n / (2 * half) * (2 * half) + n % (2 * half) = n := Nat.div_add_mod' n (2 * half)
  have hmod : n % (2 * half) < 2 * half := Nat.mod_lt n (by omega)
  have hq : n / (2 * half) < m := (Nat.div_lt_iff_lt_mul (by omega)).mpr hn
  unfold nearestMultiple
  generalize n / (2 * half) = q at hdiv hq ⊢
  generalize n % (2 * half) = r at hdiv hmod ⊢
  have hsucc : (q + 1) * (2 * half) = q * (2 * half) + 2 * half := Nat.succ_mul q _
  rcases (show q + 1 ≤ m from hq).lt_or_eq with hlt | heq
  · -- neither of the two multiples around `n` is the bound
    have hbelow : (q + 1 + 1) * (2 * half) ≤ m * (2 * half) := Nat.mul_le_mul_right _ hlt
    rw [Nat.succ_mul] at hbelow
    split_ifs <;> omega
  · -- the upper one is the bound, and the lower one is odd
    rw [← heq] at hm ⊢
    split_ifs <;> omega

/-- Below a power of two only what is nearer to it than half a unit is rounded up to it. -/
theorem nearest_lt_two_pow_iff (k j n : ℕ) : nearest k n < 2 ^ (j + k + 2) ↔ n < 2 ^ (j + k + 2) - 2 ^ j := by
  have hpow : ∀ i, nearest k (2 ^ i) = 2 ^ i := fun i => by
    simpa using nearest_mul_pow (k := k) (a := 1) Nat.one_le_two_pow i
  have hpos : 0 < 2 ^ j := Nat.two_pow_pos j
  rcases lt_or_ge n (2 ^ (j + k + 1)) with hlow | hlow
  · -- below the last binade
    have hnearest : nearest k n ≤ 2 ^ (j + k + 1) := (nearest_mono k hlow.le).trans_eq (hpow _)
    have hhalf : 2 ^ j ≤ 2 ^ (j + k) := Nat.pow_le_pow_right two_pos (by omega)
    have hdouble : 2 ^ (j + k + 2) = 2 * 2 ^ (j + k + 1) := by rw [pow_succ, Nat.mul_comm]
    have hdouble' : 2 ^ (j + k + 1) = 2 * 2 ^ (j + k) := by rw [pow_succ, Nat.mul_comm]
    omega
  rcases lt_or_ge n (2 ^ (j + k + 2)) with hhigh | hhigh
  · have hlog : Nat.log 2 n = j + k + 1 := (Nat.log_eq_iff (Or.inl (by omega))).mpr ⟨hlow, hhigh⟩
    have hsplit : 2 ^ (j + k + 2) = 2 ^ (k + 1) * (2 * 2 ^ j) := by rw [← pow_succ', ← pow_add]; congr 1; omega
    have hunit : 2 ^ (j + k + 1 - k) = 2 * 2 ^ j := by rw [← pow_succ']; congr 1; omega
    rw [nearest_eq_nearestMultiple, hlog, hunit, hsplit]
    exact nearestMultiple_lt_iff hpos (by rw [pow_succ]; exact Nat.mul_mod_left _ _) (hsplit ▸ hhigh)
  · have hnearest : 2 ^ (j + k + 2) ≤ nearest k n := (hpow _).ge.trans (nearest_mono k hhigh)
    omega
/-! ## Signed integers -/

/-- `nearest` of the magnitude, with the sign. -/
def nearestInt (k : ℕ) (n : ℤ) : ℤ := n.sign * nearest k n.natAbs

@[simp] theorem nearestInt_zero (k : ℕ) : nearestInt k 0 = 0 := by
  rw [nearestInt, Int.sign_zero, Int.zero_mul]

@[simp] theorem nearestInt_nearestInt (k : ℕ) (n : ℤ) : nearestInt k (nearestInt k n) = nearestInt k n := by
  by_cases hn : n = 0
  · rw [hn, nearestInt_zero, nearestInt_zero]
  by_cases hzero : nearest k n.natAbs = 0
  · rw [show nearestInt k n = 0 by rw [nearestInt, hzero]; simp, nearestInt_zero]
  have hsign : (nearestInt k n).sign = n.sign := by
    have hpos : (0 : ℤ) < nearest k n.natAbs := by omega
    rw [nearestInt, Int.sign_mul, Int.sign_sign, Int.sign_eq_one_of_pos hpos, Int.mul_one]
  have habs : (nearestInt k n).natAbs = nearest k n.natAbs := by
    rw [nearestInt, Int.natAbs_mul, Int.natAbs_sign_of_ne_zero hn, Nat.one_mul, Int.natAbs_natCast]
  rw [nearestInt, hsign, habs, nearest_nearest, ← nearestInt]

end AgentUE.Data.Rounding
