import Mathlib.Data.List.Basic

/-!
# UTF-8 byte strings

A byte string is read one rune at a time; a byte that begins no rune is an error of its own and takes one
byte. A valid string may be cut before any byte that is no continuation byte: both parts are valid.
-/

namespace AgentUE.Data.Utf8

/-- A continuation byte, `0b10xxxxxx`. -/
def isTail (b : UInt8) : Bool := 0x80 ≤ b && b ≤ 0xBF

/-- A byte that may begin a rune. -/
def runeStart (b : UInt8) : Bool := !isTail b

/-- The six bits of a continuation byte. -/
def tailBits (b : UInt8) : ℕ := b.toNat - 0x80

/-- The rune at the head of a byte string and what is behind it. -/
def decodeRune : List UInt8 → Option (Char × List UInt8)
  | [] => none
  | a :: rest =>
    if a < 0x80 then some (Char.ofNat a.toNat, rest)
    else if a < 0xC2 then none
    else if a < 0xE0 then
      match rest with
      | b :: rest =>
        if isTail b then some (Char.ofNat ((a.toNat - 0xC0) * 0x40 + tailBits b), rest) else none
      | _ => none
    else if a < 0xF0 then
      match rest with
      | b :: c :: rest =>
        let n := (a.toNat - 0xE0) * 0x1000 + tailBits b * 0x40 + tailBits c
        -- neither an overlong form nor a surrogate
        if isTail b && isTail c && decide (0x800 ≤ n) && !(decide (0xD800 ≤ n) && decide (n < 0xE000)) then
          some (Char.ofNat n, rest)
        else none
      | _ => none
    else if a < 0xF5 then
      match rest with
      | b :: c :: d :: rest =>
        let n := (a.toNat - 0xF0) * 0x40000 + tailBits b * 0x1000 + tailBits c * 0x40 + tailBits d
        if isTail b && isTail c && isTail d && decide (0x10000 ≤ n) && decide (n < 0x110000) then
          some (Char.ofNat n, rest)
        else none
      | _ => none
    else none

/-- The runes of at most `fuel` bytes, `none` for a byte that begins none. -/
def runesWithin : ℕ → List UInt8 → List (Option Char)
  | 0, _ => []
  | _, [] => []
  | fuel + 1, a :: bytes =>
    match decodeRune (a :: bytes) with
    | some (c, rest) => some c :: runesWithin fuel rest
    | none => none :: runesWithin fuel bytes

/-- The runes of a byte string. -/
def runes (bytes : List UInt8) : List (Option Char) := runesWithin bytes.length bytes

/-- The byte string is valid UTF-8. -/
def valid (bytes : List UInt8) : Bool := (runes bytes).all Option.isSome

/-- The characters of a valid byte string. -/
def chars (bytes : List UInt8) : List Char := (runes bytes).filterMap id

/-- A sequence of runes. -/
inductive Valid : List UInt8 → Prop
  | nil : Valid []
  | cons {bytes rest : List UInt8} {c : Char} : decodeRune bytes = some (c, rest) → Valid rest → Valid bytes

/-- A rune begins with a byte that is no continuation byte and goes on with continuation bytes; what is
behind it does not matter. -/
theorem decodeRune_eq_some {bytes rest : List UInt8} {c : Char} (h : decodeRune bytes = some (c, rest)) :
    ∃ a tail, bytes = a :: tail ++ rest ∧ (∀ b ∈ tail, isTail b = true) ∧
      ∀ more, decodeRune (a :: tail ++ more) = some (c, more) := by
  unfold decodeRune at h
  split at h
  · simp at h
  rename_i a bytes
  split_ifs at h with h₁ h₂ h₃ h₄ h₅
  · -- one byte
    obtain ⟨rfl, rfl⟩ : _ ∧ _ := by simpa using h
    exact ⟨a, [], rfl, by simp, fun more => by simp [decodeRune, h₁]⟩
  · -- two bytes
    split at h
    · split_ifs at h with hb
      obtain ⟨rfl, rfl⟩ : _ ∧ _ := by simpa using h
      exact ⟨a, [_], rfl, by simpa using hb, fun more => by simp [decodeRune, h₁, h₂, h₃, hb]⟩
    · simp at h
  · -- three bytes
    split at h
    · dsimp only at h
      split_ifs at h with hb
      obtain ⟨rfl, rfl⟩ : _ ∧ _ := by simpa using h
      refine ⟨a, [_, _], rfl, ?_, fun more => ?_⟩
      · simp only [Bool.and_eq_true] at hb
        simpa using hb.1.1
      · simp only [List.cons_append, List.nil_append, decodeRune, if_neg h₁, if_neg h₂, if_neg h₃, if_pos h₄,
          if_pos hb]
    · simp at h
  · -- four bytes
    split at h
    · dsimp only at h
      split_ifs at h with hb
      obtain ⟨rfl, rfl⟩ : _ ∧ _ := by simpa using h
      refine ⟨a, [_, _, _], rfl, ?_, fun more => ?_⟩
      · simp only [Bool.and_eq_true] at hb
        simpa [and_assoc] using hb.1.1
      · simp only [List.cons_append, List.nil_append, decodeRune, if_neg h₁, if_neg h₂, if_neg h₃, if_neg h₄,
          if_pos h₅, if_pos hb]
    · simp at h

/-- Every rune takes a byte at least. -/
theorem length_lt_of_decodeRune {bytes rest : List UInt8} {c : Char} (h : decodeRune bytes = some (c, rest)) :
    rest.length < bytes.length := by
  obtain ⟨a, tail, rfl, -, -⟩ := decodeRune_eq_some h
  simp only [List.cons_append, List.length_cons, List.length_append]
  omega

theorem valid_of_runesWithin {fuel : ℕ} {bytes : List UInt8} (hfuel : bytes.length ≤ fuel) :
    (runesWithin fuel bytes).all Option.isSome = true ↔ Valid bytes := by
  induction fuel generalizing bytes with
  | zero =>
    obtain rfl : bytes = [] := List.length_eq_zero_iff.mp (by omega)
    simp [runesWithin, Valid.nil]
  | succ fuel ih =>
    cases bytes with
    | nil => simp [runesWithin, Valid.nil]
    | cons a bytes =>
      rw [runesWithin]
      cases hrune : decodeRune (a :: bytes) with
      | none =>
        simp only [List.all_cons, Option.isSome_none, Bool.false_and, Bool.false_eq_true, false_iff]
        rintro (_ | ⟨h, -⟩)
        rw [hrune] at h
        cases h
      | some p =>
        obtain ⟨c, rest⟩ := p
        have hlt := length_lt_of_decodeRune hrune
        simp only [List.all_cons, Option.isSome_some, Bool.true_and]
        rw [ih (by simp only [List.length_cons] at hfuel hlt; omega)]
        constructor
        · exact fun h => .cons hrune h
        · rintro (_ | ⟨h, hrest⟩)
          rw [hrune] at h
          obtain ⟨rfl, rfl⟩ : _ ∧ _ := by simpa using h
          exact hrest

theorem valid_iff {bytes : List UInt8} : valid bytes = true ↔ Valid bytes := valid_of_runesWithin (Nat.le_refl _)

/-- A place where no rune goes on. -/
def Boundary (bytes : List UInt8) (n : ℕ) : Prop := ∀ b, bytes[n]? = some b → runeStart b = true

/-- Both parts of a valid string that is cut at a boundary are valid. -/
theorem Valid.cut {bytes : List UInt8} (h : Valid bytes) {n : ℕ} (hn : Boundary bytes n) :
    Valid (bytes.take n) ∧ Valid (bytes.drop n) := by
  induction h generalizing n with
  | nil => simp [Valid.nil]
  | @cons bytes rest c hrune hrest ih =>
    by_cases hzero : n = 0
    · subst hzero
      exact ⟨.nil, .cons hrune hrest⟩
    obtain ⟨a, tail, rfl, htail, hmore⟩ := decodeRune_eq_some hrune
    by_cases hlen : n < (a :: tail).length
    · -- inside the rune stand continuation bytes only
      obtain ⟨i, rfl⟩ := Nat.exists_eq_succ_of_ne_zero hzero
      have hi : i < tail.length := by simpa using hlen
      have hget : (a :: tail ++ rest)[i + 1]? = some tail[i] := by
        rw [List.cons_append, List.getElem?_cons_succ, List.getElem?_append_left hi, List.getElem?_eq_getElem hi]
      have hstart := hn _ hget
      rw [runeStart, htail _ (List.getElem_mem hi)] at hstart
      cases hstart
    · obtain ⟨m, rfl⟩ : ∃ m, n = (a :: tail).length + m := ⟨n - (a :: tail).length, by omega⟩
      have hrest' : Boundary rest m := fun b hb => hn b (by
        rw [List.getElem?_append_right (by omega), Nat.add_sub_cancel_left]
        exact hb)
      obtain ⟨hfirst, hlast⟩ := ih hrest'
      rw [List.take_length_add_append, List.drop_length_add_append]
      exact ⟨.cons (hmore _) hfirst, hlast⟩

/-! ## The runes of parts -/

/-- More fuel than bytes changes nothing. -/
theorem runesWithin_eq_runes {fuel : ℕ} {bytes : List UInt8} (hfuel : bytes.length ≤ fuel) :
    runesWithin fuel bytes = runes bytes := by
  suffices h : ∀ m n (bytes : List UInt8), bytes.length ≤ m → bytes.length ≤ n →
      runesWithin m bytes = runesWithin n bytes from h _ _ _ hfuel (Nat.le_refl _)
  intro m
  induction m with
  | zero =>
    intro n bytes hm _
    obtain rfl : bytes = [] := List.length_eq_zero_iff.mp (by omega)
    cases n <;> rfl
  | succ m ih =>
    intro n bytes hm hn
    cases bytes with
    | nil => cases n <;> rfl
    | cons a bytes =>
      obtain ⟨n, rfl⟩ : ∃ k, n = k + 1 := ⟨n - 1, by simp only [List.length_cons] at hn; omega⟩
      simp only [List.length_cons] at hm hn
      rw [runesWithin, runesWithin]
      cases hrune : decodeRune (a :: bytes) with
      | none =>
        dsimp only
        rw [ih n bytes (by omega) (by omega)]
      | some p =>
        have hlt := length_lt_of_decodeRune (show decodeRune (a :: bytes) = some (p.1, p.2) from hrune)
        simp only [List.length_cons] at hlt
        dsimp only
        rw [ih n p.2 (by omega) (by omega)]

theorem runes_of_decodeRune {bytes rest : List UInt8} {c : Char} (h : decodeRune bytes = some (c, rest)) :
    runes bytes = some c :: runes rest := by
  have hlt := length_lt_of_decodeRune h
  cases bytes with
  | nil => cases hlt
  | cons a bytes =>
    simp only [List.length_cons] at hlt
    rw [runes, List.length_cons, runesWithin, h]
    dsimp only
    rw [runesWithin_eq_runes (by omega)]

/-- What stands behind a valid string does not change its runes. -/
theorem Valid.runes_append {bytes : List UInt8} (h : Valid bytes) (more : List UInt8) :
    runes (bytes ++ more) = runes bytes ++ runes more := by
  induction h with
  | nil => rfl
  | @cons bytes rest c hrune _ ih =>
    obtain ⟨a, tail, rfl, -, hmore⟩ := decodeRune_eq_some hrune
    rw [List.append_assoc, runes_of_decodeRune (hmore _), runes_of_decodeRune (hmore _), ih]
    rfl

theorem Valid.append {bytes more : List UInt8} (h : Valid bytes) (hmore : Valid more) : Valid (bytes ++ more) := by
  rw [← valid_iff] at h hmore ⊢
  rw [valid, (valid_iff.mp h).runes_append, List.all_append, Bool.and_eq_true]
  exact ⟨h, hmore⟩

/-- What is left of a valid string behind a valid string is valid. -/
theorem Valid.of_append {bytes more : List UInt8} (h : Valid (bytes ++ more)) (hbytes : Valid bytes) :
    Valid more := by
  rw [← valid_iff, valid, hbytes.runes_append, List.all_append, Bool.and_eq_true] at h
  exact valid_iff.mp h.2

theorem Valid.chars_append {bytes : List UInt8} (h : Valid bytes) (more : List UInt8) :
    chars (bytes ++ more) = chars bytes ++ chars more := by
  rw [chars, h.runes_append, List.filterMap_append, ← chars, ← chars]

/-- The characters of valid pieces are those of the whole. -/
theorem mem_chars_flatten {pieces : List (List UInt8)} (h : ∀ p ∈ pieces, Valid p) {c : Char} :
    c ∈ chars pieces.flatten ↔ ∃ p ∈ pieces, c ∈ chars p := by
  induction pieces with
  | nil => simp [chars, runes, runesWithin]
  | cons p pieces ih =>
    obtain ⟨hp, hpieces⟩ := List.forall_mem_cons.mp h
    rw [List.flatten_cons, hp.chars_append, List.mem_append, ih hpieces]
    simp

/-- A rune does not begin with a continuation byte. -/
theorem runeStart_of_decodeRune {a : UInt8} {bytes rest : List UInt8} {c : Char}
    (h : decodeRune (a :: bytes) = some (c, rest)) : runeStart a = true := by
  rw [runeStart, Bool.not_eq_true']
  cases htail : isTail a with
  | false => rfl
  | true =>
    simp only [isTail, Bool.and_eq_true, decide_eq_true_eq, UInt8.le_iff_toNat_le] at htail
    obtain ⟨hlow, hhigh⟩ := htail
    have hascii : ¬ a < 0x80 := by
      rw [UInt8.lt_iff_toNat_lt]
      exact Nat.not_lt.mpr hlow
    have hcont : a < 0xC2 := by
      rw [UInt8.lt_iff_toNat_lt]
      exact Nat.lt_of_le_of_lt hhigh (by decide)
    simp [decodeRune, if_neg hascii, if_pos hcont] at h

theorem Valid.boundary_zero {bytes : List UInt8} (h : Valid bytes) : Boundary bytes 0 := by
  intro b hb
  cases h with
  | nil => cases hb
  | cons hrune hrest =>
    obtain ⟨a, tail, rfl, -, -⟩ := decodeRune_eq_some hrune
    obtain rfl : a = b := by simpa using hb
    exact runeStart_of_decodeRune hrune

/-! ## How many bytes a rune takes -/

theorem toNat_ofNat {n : ℕ} (h : n.isValidChar) : (Char.ofNat n).toNat = n := by
  rw [Char.ofNat, dif_pos h]
  rfl

theorem le_utf8Size (c : Char) : (0x80 ≤ c.toNat → 2 ≤ c.utf8Size) ∧ (0x800 ≤ c.toNat → 3 ≤ c.utf8Size) ∧
    (0x10000 ≤ c.toNat → 4 ≤ c.utf8Size) := by
  have hval : c.val.toNat = c.toNat := rfl
  simp only [Char.utf8Size, UInt32.le_iff_toNat_le, hval]
  have h₁ : (UInt32.ofNatLT 0x7F (of_decide_eq_true rfl)).toNat = 0x7F := rfl
  have h₂ : (UInt32.ofNatLT 0x7FF (of_decide_eq_true rfl)).toNat = 0x7FF := rfl
  have h₃ : (UInt32.ofNatLT 0xFFFF (of_decide_eq_true rfl)).toNat = 0xFFFF := rfl
  rw [h₁, h₂, h₃]
  split_ifs <;> omega

theorem le_utf8Size_ofNat {n : ℕ} (h : n.isValidChar) : (0x80 ≤ n → 2 ≤ (Char.ofNat n).utf8Size) ∧
    (0x800 ≤ n → 3 ≤ (Char.ofNat n).utf8Size) ∧ (0x10000 ≤ n → 4 ≤ (Char.ofNat n).utf8Size) := by
  have hsize := le_utf8Size (Char.ofNat n)
  rwa [toNat_ofNat h] at hsize

theorem tailBits_le (b : UInt8) : tailBits b ≤ 0x7F := by
  have hb := b.toNat_lt
  unfold tailBits
  omega

/-- A rune takes no more bytes than its character is encoded with. -/
theorem length_le_of_decodeRune {bytes rest : List UInt8} {c : Char} (h : decodeRune bytes = some (c, rest)) :
    bytes.length ≤ rest.length + c.utf8Size := by
  unfold decodeRune at h
  split at h
  · cases h
  rename_i a bytes
  have ha := a.toNat_lt
  split_ifs at h with h₁ h₂ h₃ h₄ h₅
  · -- one byte
    obtain ⟨rfl, rfl⟩ : _ ∧ _ := by simpa using h
    have hpos := Char.utf8Size_pos (Char.ofNat a.toNat)
    simp only [List.length_cons]
    omega
  · -- two bytes
    split at h
    · rename_i b rest'
      split_ifs at h with hb
      obtain ⟨rfl, rfl⟩ : _ ∧ _ := by simpa using h
      rw [UInt8.lt_iff_toNat_lt] at h₂ h₃
      have hbits := tailBits_le b
      have hc2 : (0xC2 : UInt8).toNat = 0xC2 := rfl
      have he0 : (0xE0 : UInt8).toNat = 0xE0 := rfl
      have hn : ((a.toNat - 0xC0) * 0x40 + tailBits b).isValidChar := .inl (by omega)
      have htwo := (le_utf8Size_ofNat hn).1 (by omega)
      simp only [List.length_cons]
      omega
    · cases h
  · -- three bytes
    split at h
    · rename_i b c' rest'
      dsimp only at h
      split_ifs at h with hb
      obtain ⟨rfl, rfl⟩ : _ ∧ _ := by simpa using h
      simp only [Bool.and_eq_true, decide_eq_true_eq, Bool.not_eq_true', Bool.and_eq_false_iff,
        decide_eq_false_iff_not] at hb
      obtain ⟨⟨-, hlow⟩, hsurrogate⟩ := hb
      rw [UInt8.lt_iff_toNat_lt] at h₄
      have hf0 : (0xF0 : UInt8).toNat = 0xF0 := rfl
      have hbits := tailBits_le b
      have hbits' := tailBits_le c'
      have hn : ((a.toNat - 0xE0) * 0x1000 + tailBits b * 0x40 + tailBits c').isValidChar := by
        unfold Nat.isValidChar
        omega
      have hthree := (le_utf8Size_ofNat hn).2.1 hlow
      simp only [List.length_cons]
      omega
    · cases h
  · -- four bytes
    split at h
    · dsimp only at h
      split_ifs at h with hb
      obtain ⟨rfl, rfl⟩ : _ ∧ _ := by simpa using h
      simp only [Bool.and_eq_true, decide_eq_true_eq] at hb
      obtain ⟨⟨-, hlow⟩, hhigh⟩ := hb
      rename_i b c' d rest'
      have hn : ((a.toNat - 0xF0) * 0x40000 + tailBits b * 0x1000 + tailBits c' * 0x40 + tailBits d).isValidChar :=
        .inr ⟨by omega, hhigh⟩
      have hfour := (le_utf8Size_ofNat hn).2.2 hlow
      simp only [List.length_cons]
      omega
    · cases h

/-! ## Encoding -/

theorem toNat_ofNat_of_lt {n : ℕ} (h : n < 256) : (UInt8.ofNat n).toNat = n := by
  rw [UInt8.toNat_ofNat', Nat.mod_eq_of_lt h]

theorem ofNat_lt_iff {n : ℕ} (h : n < 256) (b : UInt8) : UInt8.ofNat n < b ↔ n < b.toNat := by
  rw [UInt8.lt_iff_toNat_lt, toNat_ofNat_of_lt h]

theorem isTail_ofNat {n : ℕ} (h : n < 0x40) : isTail (UInt8.ofNat (n + 0x80)) = true := by
  have hlow : (0x80 : UInt8).toNat = 0x80 := rfl
  have hhigh : (0xBF : UInt8).toNat = 0xBF := rfl
  rw [isTail, Bool.and_eq_true, decide_eq_true_eq, decide_eq_true_eq, UInt8.le_iff_toNat_le, UInt8.le_iff_toNat_le,
    toNat_ofNat_of_lt (show n + 0x80 < 256 by omega), hlow, hhigh]
  omega

theorem tailBits_ofNat {n : ℕ} (h : n < 0x40) : tailBits (UInt8.ofNat (n + 0x80)) = n := by
  have hnat : (UInt8.ofNat (n + 0x80)).toNat = n + 0x80 := toNat_ofNat_of_lt (by omega)
  unfold tailBits
  omega

/-- The encoding of a character is read as the character. -/
theorem decodeRune_utf8EncodeChar (c : Char) (rest : List UInt8) :
    decodeRune (String.utf8EncodeChar c ++ rest) = some (c, rest) := by
  have hvalid : c.toNat < 0xD800 ∨ 0xDFFF < c.toNat ∧ c.toNat < 0x110000 := c.valid
  have hc : Char.ofNat c.toNat = c := Char.ofNat_toNat c
  have hval : c.val.toNat = c.toNat := rfl
  simp only [String.utf8EncodeChar, hval]
  generalize c.toNat = v at hvalid hc
  have h80 : (0x80 : UInt8).toNat = 0x80 := rfl
  have hC2 : (0xC2 : UInt8).toNat = 0xC2 := rfl
  have hE0 : (0xE0 : UInt8).toNat = 0xE0 := rfl
  have hF0 : (0xF0 : UInt8).toNat = 0xF0 := rfl
  have hF5 : (0xF5 : UInt8).toNat = 0xF5 := rfl
  split_ifs with h₁ h₂ h₃
  · have hv : v < 256 := by omega
    simp only [List.cons_append, List.nil_append, decodeRune, ofNat_lt_iff hv, toNat_ofNat_of_lt hv, h80]
    rw [if_pos (by omega), hc]
  · have hlead : v / 64 % 0x20 + 0xC0 < 256 := by omega
    have htail : v % 0x40 < 0x40 := by omega
    have hsum : (v / 64 % 0x20 + 0xC0 - 0xC0) * 0x40 + v % 0x40 = v := by omega
    simp only [List.cons_append, List.nil_append, decodeRune, ofNat_lt_iff hlead, toNat_ofNat_of_lt hlead,
      isTail_ofNat htail, tailBits_ofNat htail, h80, hC2, hE0, hsum, hc]
    rw [if_neg (by omega), if_neg (by omega), if_pos (by omega), if_true]
  · have hlead : v / 4096 % 0x10 + 0xE0 < 256 := by omega
    have htail : v / 64 % 0x40 < 0x40 := by omega
    have htail' : v % 0x40 < 0x40 := by omega
    have hsum : (v / 4096 % 0x10 + 0xE0 - 0xE0) * 0x1000 + v / 64 % 0x40 * 0x40 + v % 0x40 = v := by omega
    simp only [List.cons_append, List.nil_append, decodeRune, ofNat_lt_iff hlead, toNat_ofNat_of_lt hlead,
      isTail_ofNat htail, isTail_ofNat htail', tailBits_ofNat htail, tailBits_ofNat htail', h80, hC2, hE0, hF0, hsum, hc]
    rw [if_neg (by omega), if_neg (by omega), if_neg (by omega), if_pos (by omega), if_pos]
    simp only [Bool.true_and, Bool.and_eq_true, decide_eq_true_eq, Bool.not_eq_true', Bool.and_eq_false_iff,
      decide_eq_false_iff_not]
    omega
  · have hlead : v / 262144 % 0x08 + 0xF0 < 256 := by omega
    have htail : v / 4096 % 0x40 < 0x40 := by omega
    have htail' : v / 64 % 0x40 < 0x40 := by omega
    have htail'' : v % 0x40 < 0x40 := by omega
    have hsum : (v / 262144 % 0x08 + 0xF0 - 0xF0) * 0x40000 + v / 4096 % 0x40 * 0x1000 + v / 64 % 0x40 * 0x40 +
        v % 0x40 = v := by omega
    simp only [List.cons_append, List.nil_append, decodeRune, ofNat_lt_iff hlead, toNat_ofNat_of_lt hlead,
      isTail_ofNat htail, isTail_ofNat htail', isTail_ofNat htail'', tailBits_ofNat htail, tailBits_ofNat htail',
      tailBits_ofNat htail'', h80, hC2, hE0, hF0, hF5, hsum, hc]
    rw [if_neg (by omega), if_neg (by omega), if_neg (by omega), if_neg (by omega), if_pos (by omega), if_pos]
    simp only [Bool.true_and, Bool.and_eq_true, decide_eq_true_eq]
    omega

/-- The bytes of a text. -/
def encode (s : String) : List UInt8 := s.toList.flatMap String.utf8EncodeChar

/-- The runes of an encoded text are its characters. -/
theorem runes_encode (s : String) : runes (encode s) = s.toList.map some := by
  unfold encode
  induction s.toList with
  | nil => rfl
  | cons c cs ih => rw [List.flatMap_cons, runes_of_decodeRune (decodeRune_utf8EncodeChar c _), ih, List.map_cons]

/-- The text of a byte string, with U+FFFD for a byte that begins no rune. -/
def text (bytes : List UInt8) : String := String.ofList ((runes bytes).map (·.getD '\uFFFD'))

@[simp] theorem text_encode (s : String) : text (encode s) = s := by
  have hmap : ((·.getD '\uFFFD') : Option Char → Char) ∘ some = id := rfl
  rw [text, runes_encode, List.map_map, hmap, List.map_id, String.ofList_toList]

/-- Only encoded texts come back from their text. -/
theorem encode_text_iff {bytes : List UInt8} : encode (text bytes) = bytes ↔ ∃ s, bytes = encode s := by
  constructor
  · exact fun h => ⟨text bytes, h.symm⟩
  · rintro ⟨s, rfl⟩
    rw [text_encode]

end AgentUE.Data.Utf8
