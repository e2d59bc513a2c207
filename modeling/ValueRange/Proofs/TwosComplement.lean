import Mathlib.Data.Int.ModEq
import Mathlib.Data.Nat.Bitwise
import ValueRange.Program.Constant
import ValueRange.Proofs.Numerals
import ValueRange.Proofs.Outcome

/-!
# Two's complement

Integer constants are compared and brought to their width in words of 128 bits. For widths from 1 to
64 every step on the way is exact. So the result is the number within the signed range of the width
that differs from the literal by a multiple of `2 ^ bits`, and there is only one such number. Two
literals give the same constant exactly if they are congruent, and a constant that is written out
and read again is the same.
-/

namespace ValueRange.Constant

/-! ## Exact steps -/

section Words

variable {bits : Nat} {word : BitVec 128}

theorem toNat_bit {position : Nat} (hposition : position < 128) :
    (bit position).toNat = 2 ^ position := by
  have hlt : 2 ^ position < 2 ^ 128 := Nat.pow_lt_pow_right (by decide) hposition
  rw [bit, BitVec.toNat_shiftLeft, BitVec.toNat_ofNat, Nat.one_mod, Nat.one_shiftLeft,
    Nat.mod_eq_of_lt hlt]

theorem toInt_eq_toNat_of_le (hword : word.toNat ≤ 2 ^ 64) : word.toInt = word.toNat := by
  apply BitVec.toInt_eq_toNat_of_lt
  omega

theorem two_pow_le (hbits : bits ≤ 64) : 2 ^ bits ≤ 2 ^ 64 := Nat.pow_le_pow_right (by decide) hbits

theorem toInt_bit (hbits : bits ≤ 64) : (bit bits).toInt = 2 ^ bits := by
  have hbit := toNat_bit (show bits < 128 by omega)
  rw [toInt_eq_toNat_of_le (hbit.trans_le (two_pow_le hbits)), hbit, Nat.cast_pow, Nat.cast_ofNat]

/-- A difference of two numbers that lie far within 128 bits is exact. -/
theorem toInt_sub_of_bounds {left right : BitVec 128} (hlower : -2 ^ 64 ≤ left.toInt - right.toInt)
    (hupper : left.toInt - right.toInt ≤ 2 ^ 64) :
    (left - right).toInt = left.toInt - right.toInt := by
  rw [BitVec.toInt_sub]
  apply Int.bmod_eq_of_le
  · omega
  · omega

/-- The highest bit of a number that has so many bits. -/
theorem testBit_highest_iff {number : Nat} (hpos : 0 < bits) (hnumber : number < 2 ^ bits) :
    number.testBit (bits - 1) = true ↔ 2 ^ (bits - 1) ≤ number := by
  constructor
  · exact Nat.ge_two_pow_of_testBit
  · intro hle
    apply Nat.testBit_of_two_pow_le_and_two_pow_add_one_gt hle
    rwa [Nat.sub_add_cancel hpos]

theorem toInt_least (hbits : bits ≤ 64) : (least bits).toInt = -2 ^ (bits - 1) := by
  have hbit := toInt_bit (show bits - 1 ≤ 64 by omega)
  have hpow : (2 : Int) ^ (bits - 1) ≤ 2 ^ 64 := pow_le_pow_right₀ (by decide) (by omega)
  have hnonneg : (0 : Int) ≤ 2 ^ (bits - 1) := pow_nonneg (by decide) _
  rw [least, BitVec.toInt_neg, hbit]
  apply Int.bmod_eq_of_le
  · omega
  · omega

theorem toNat_greatest (hbits : bits ≤ 64) : (greatest bits).toNat = 2 ^ bits - 1 := by
  have hbit := toNat_bit (show bits < 128 by omega)
  have hone : 1#128 ≤ bit bits := by
    rw [BitVec.le_def, hbit]
    exact Nat.one_le_two_pow
  rw [greatest, BitVec.toNat_sub_of_le hone, hbit]
  rfl

theorem toInt_greatest (hbits : bits ≤ 64) : (greatest bits).toInt = 2 ^ bits - 1 := by
  have hnat := toNat_greatest hbits
  have hle := two_pow_le hbits
  rw [toInt_eq_toNat_of_le (by omega), hnat, Nat.cast_sub Nat.one_le_two_pow, Nat.cast_pow,
    Nat.cast_ofNat, Nat.cast_one]

theorem toNat_pattern (hbits : bits ≤ 64) (word : BitVec 128) :
    (pattern word bits).toNat = word.toNat % 2 ^ bits := by
  rw [pattern, BitVec.toNat_and, toNat_greatest hbits, Nat.and_two_pow_sub_one_eq_mod]

theorem toNat_pattern_lt (hbits : bits ≤ 64) (word : BitVec 128) :
    (pattern word bits).toNat < 2 ^ bits := by
  rw [toNat_pattern hbits]
  exact Nat.mod_lt _ (Nat.two_pow_pos bits)

theorem toInt_pattern (hbits : bits ≤ 64) (word : BitVec 128) :
    (pattern word bits).toInt = (pattern word bits).toNat :=
  toInt_eq_toNat_of_le ((toNat_pattern_lt hbits word).le.trans (two_pow_le hbits))

/-- The test on the highest bit asks whether a pattern is too great for a signed number. -/
theorem pattern_and_bit_ne_zero_iff (hpos : 0 < bits) (hbits : bits ≤ 64) (word : BitVec 128) :
    pattern word bits &&& bit (bits - 1) ≠ 0#128 ↔ 2 ^ (bits - 1) ≤ (pattern word bits).toNat := by
  rw [← testBit_highest_iff hpos (toNat_pattern_lt hbits word), Ne, ← BitVec.toNat_inj,
    BitVec.toNat_and, toNat_bit (by omega), Nat.and_two_pow]
  cases (pattern word bits).toNat.testBit (bits - 1) <;> simp

theorem toInt_pattern_sub_bit (hbits : bits ≤ 64) (word : BitVec 128) :
    (pattern word bits - bit bits).toInt = (pattern word bits).toInt - 2 ^ bits := by
  have hlt := toNat_pattern_lt hbits word
  have hle := two_pow_le hbits
  have hcast : ((2 ^ bits : Nat) : Int) = 2 ^ bits := Nat.cast_pow 2 bits
  have hbit := toInt_bit hbits
  have hpattern := toInt_pattern hbits word
  rw [toInt_sub_of_bounds (by omega) (by omega), hbit]

/-- Modulo a power of two, a word is the same number with and without a sign. -/
theorem toInt_bmod_two_pow (hbits : bits ≤ 128) (word : BitVec 128) :
    word.toInt.bmod (2 ^ bits) = (word.toNat : Int).bmod (2 ^ bits) := by
  rw [BitVec.toInt_eq_toNat_bmod]
  exact Int.bmod_bmod_of_dvd (Nat.pow_dvd_pow 2 hbits)

theorem toInt_signed (hpos : 0 < bits) (hbits : bits ≤ 64) (word : BitVec 128) :
    (signed (pattern word bits) bits).toInt = word.toInt.bmod (2 ^ bits) := by
  have hhalf := Nat.two_pow_pred_add_two_pow_pred hpos
  have hcast : ((2 ^ bits : Nat) : Int) = 2 ^ bits := Nat.cast_pow 2 bits
  rw [toInt_bmod_two_pow (by omega), Int.bmod_def, ← Int.natCast_emod, ← toNat_pattern hbits,
    signed]
  by_cases hsign : 2 ^ (bits - 1) ≤ (pattern word bits).toNat
  · rw [if_pos ((pattern_and_bit_ne_zero_iff hpos hbits word).mpr hsign),
      toInt_pattern_sub_bit hbits, toInt_pattern hbits, if_neg (by omega), hcast]
  · rw [if_neg (mt (pattern_and_bit_ne_zero_iff hpos hbits word).mp hsign), toInt_pattern hbits,
      if_pos (by omega)]

theorem toInt_narrowed (hlower : -2 ^ 63 ≤ word.toInt) (hupper : word.toInt < 2 ^ 63) :
    (Int64.ofBitVec (word.setWidth 64)).toInt = word.toInt := by
  rw [Int64.toInt_ofBitVec, BitVec.toInt_setWidth, ← toInt_bmod_two_pow (by decide)]
  apply Int.bmod_eq_of_le
  · omega
  · omega

end Words

/-! ## Signed readings -/

/-- The number within the signed range of a width that has the same lowest bits as another one. -/
def SignedReading (bits : Nat) (number value : Int) : Prop :=
  -2 ^ (bits - 1) ≤ value ∧ value < 2 ^ (bits - 1) ∧ value ≡ number [ZMOD 2 ^ bits]

theorem signedReading_iff {bits : Nat} (hpos : 0 < bits) {number value : Int} :
    SignedReading bits number value ↔ number.bmod (2 ^ bits) = value := by
  have hhalf := Nat.two_pow_pred_add_two_pow_pred hpos
  have hcast : ((2 ^ bits : Nat) : Int) = 2 ^ bits := Nat.cast_pow 2 bits
  have hcast' : ((2 ^ (bits - 1) : Nat) : Int) = 2 ^ (bits - 1) := Nat.cast_pow 2 (bits - 1)
  have hlower : (-(((2 ^ bits : Nat) : Int) / 2) ≤ value) ↔ -2 ^ (bits - 1) ≤ value := by omega
  have hupper : (value < (((2 ^ bits : Nat) : Int) + 1) / 2) ↔ value < 2 ^ (bits - 1) := by omega
  rw [Int.bmod_eq_iff (Nat.two_pow_pos bits), hlower, hupper, hcast, SignedReading,
    Int.modEq_comm, Int.modEq_iff_dvd]

/-! ## Reading a literal -/

/-- A width holds a number if it is the signed or the unsigned reading of its bits. -/
def Holds (bits : Nat) (value : Int) : Prop := -2 ^ (bits - 1) ≤ value ∧ value < 2 ^ bits

variable {literal : String} {bits : Nat} {number : Int}

/-- Words stand for the numbers within 128 bits. -/
theorem exists_word_of_holds (hbits : bits ≤ 64) (hholds : Holds bits number) :
    ∃ word : BitVec 128, word.toInt = number := by
  have hlower : (2 : Int) ^ (bits - 1) ≤ 2 ^ 127 := pow_le_pow_right₀ (by decide) (by omega)
  have hupper : (2 : Int) ^ bits ≤ 2 ^ 127 := pow_le_pow_right₀ (by decide) (by omega)
  obtain ⟨hleast, hgreatest⟩ := hholds
  exact ⟨BitVec.ofInt 128 number, BitVec.toInt_ofInt_eq_self (by decide) (by omega) (by omega)⟩

theorem literal?_eq_some_iff {word : BitVec 128} :
    literal? literal = some word ↔ Decimal.Numeral literal.toList word.toInt := by
  simp only [literal?, Option.map_eq_some_iff, Option.filter_eq_some_iff, decide_eq_true_eq,
    Decimal.integer?_eq_some_iff]
  constructor
  · rintro ⟨value, ⟨hnumeral, hrange⟩, rfl⟩
    rwa [BitVec.toInt_ofInt_eq_self (by decide) hrange.1 hrange.2]
  · intro hnumeral
    exact ⟨word.toInt, ⟨hnumeral, word.le_toInt, word.toInt_lt⟩, BitVec.ofInt_toInt⟩

/-- The comparisons of words refuse what the width does not hold. -/
theorem out_of_range_eq_false_iff (hbits : bits ≤ 64) (word : BitVec 128) :
    (word.slt (least bits) || (greatest bits).slt word) = false ↔ Holds bits word.toInt := by
  rw [Bool.or_eq_false_iff, ← Bool.not_eq_true, ← Bool.not_eq_true, BitVec.slt_iff_toInt_lt,
    BitVec.slt_iff_toInt_lt, toInt_least hbits, toInt_greatest hbits, Holds]
  omega

theorem readInt_eq_ok_iff {result : Int64} :
    readInt literal bits = .ok result ↔
      bits ≤ 64 ∧ ∃ word : BitVec 128, Decimal.Numeral literal.toList word.toInt ∧
        Holds bits word.toInt ∧
        Int64.ofBitVec ((signed (pattern word bits) bits).setWidth 64) = result := by
  unfold readInt
  by_cases hbits : 64 < bits
  · rw [if_pos hbits]
    simp [Nat.not_le.mpr hbits]
  rw [if_neg hbits, and_iff_right (Nat.not_lt.mp hbits)]
  constructor
  · intro hresult
    split at hresult
    · cases hresult
    · rename_i word hword
      split at hresult
      · cases hresult
      · rename_i hrange
        rw [Bool.not_eq_true, out_of_range_eq_false_iff (Nat.not_lt.mp hbits)] at hrange
        exact ⟨word, literal?_eq_some_iff.mp hword, hrange, Except.ok.inj hresult⟩
  · rintro ⟨word, hnumeral, hrange, rfl⟩
    rw [← out_of_range_eq_false_iff (Nat.not_lt.mp hbits)] at hrange
    rw [literal?_eq_some_iff.mpr hnumeral]
    simp only [hrange]
    rfl

/-- An integer constant is accepted if its numeral writes a number that its width holds. -/
theorem exists_readInt_iff :
    (∃ value, readInt literal bits = .ok value) ↔
      bits ≤ 64 ∧ ∃ value, Decimal.Numeral literal.toList value ∧ Holds bits value := by
  simp only [readInt_eq_ok_iff]
  constructor
  · rintro ⟨_, hbits, word, hnumeral, hholds, _⟩
    exact ⟨hbits, word.toInt, hnumeral, hholds⟩
  · rintro ⟨hbits, number, hnumeral, hholds⟩
    obtain ⟨word, rfl⟩ := exists_word_of_holds hbits hholds
    exact ⟨_, hbits, word, hnumeral, hholds, rfl⟩

/-! ## The value of a constant -/

theorem SignedReading.bounds {value : Int} (hvalue : SignedReading bits number value)
    (hbits : bits ≤ 64) : -2 ^ 63 ≤ value ∧ value < 2 ^ 63 := by
  have hpow : (2 : Int) ^ (bits - 1) ≤ 2 ^ 63 := pow_le_pow_right₀ (by decide) (by omega)
  obtain ⟨hlower, hupper, _⟩ := hvalue
  omega

/-- A number of the signed range is its own reading, and the width holds it. -/
theorem SignedReading.self {value : Int} (hvalue : SignedReading bits number value) :
    SignedReading bits value value ∧ Holds bits value := by
  have hpow : (2 : Int) ^ (bits - 1) ≤ 2 ^ bits := pow_le_pow_right₀ (by decide) (by omega)
  obtain ⟨hlower, hupper, _⟩ := hvalue
  exact ⟨⟨hlower, hupper, Int.ModEq.refl value⟩, hlower, hupper.trans_le hpow⟩

theorem toInt_narrowed_signed (hpos : 0 < bits) (hbits : bits ≤ 64) (word : BitVec 128) :
    (Int64.ofBitVec ((signed (pattern word bits) bits).setWidth 64)).toInt =
      (signed (pattern word bits) bits).toInt := by
  have hsigned := toInt_signed hpos hbits word
  have hbounds := ((signedReading_iff hpos).mpr hsigned.symm).bounds hbits
  exact toInt_narrowed hbounds.1 hbounds.2

/-- An accepted literal gives the signed reading of the number that it writes. -/
theorem readInt_eq_ok_iff_signedReading (hpos : 0 < bits) {result : Int64} :
    readInt literal bits = .ok result ↔
      bits ≤ 64 ∧ ∃ number, Decimal.Numeral literal.toList number ∧ Holds bits number ∧
        SignedReading bits number result.toInt := by
  rw [readInt_eq_ok_iff]
  refine and_congr_right fun hbits => ?_
  have hvalue (word : BitVec 128) :
      (Int64.ofBitVec ((signed (pattern word bits) bits).setWidth 64)).toInt =
        word.toInt.bmod (2 ^ bits) := by
    rw [toInt_narrowed_signed hpos hbits, toInt_signed hpos hbits]
  constructor
  · rintro ⟨word, hnumeral, hholds, rfl⟩
    exact ⟨word.toInt, hnumeral, hholds, (signedReading_iff hpos).mpr (hvalue word).symm⟩
  · rintro ⟨number, hnumeral, hholds, hresult⟩
    obtain ⟨word, rfl⟩ := exists_word_of_holds hbits hholds
    refine ⟨word, hnumeral, hholds, ?_⟩
    rw [← Int64.toInt_inj, hvalue word]
    exact (signedReading_iff hpos).mp hresult

theorem ofLiteral_int_eq_ok_iff {constant : Constant} :
    ofLiteral (.int literal) (.int bits) = .ok constant ↔
      ∃ value, readInt literal bits = .ok value ∧ .int bits value = constant := by
  simp only [ofLiteral, Outcome.bind_eq_ok_iff, Outcome.pure_eq_ok_iff]

/-- No step of reading a constant overflows or loses bits: each word, read with or without a sign as
the step does, is the exact result. -/
structure ExactSteps (bits : Nat) (word : BitVec 128) : Prop where
  /-- The width has a highest bit, and shifts go by less than the length of a word. -/
  amounts : bits - 1 + 1 = bits ∧ bits < 128
  /-- The shift to the highest bit of the width. -/
  highest : (bit (bits - 1)).toInt = 2 ^ (bits - 1) ∧ (bit (bits - 1)).toNat = 2 ^ (bits - 1)
  /-- The shift beyond the width. -/
  beyond : (bit bits).toInt = 2 ^ bits ∧ (bit bits).toNat = 2 ^ bits
  /-- The negation that gives the least number. -/
  negated : (least bits).toInt = -2 ^ (bits - 1)
  /-- The difference that gives the greatest number, which is also the mask. -/
  mask : (greatest bits).toInt = 2 ^ bits - 1 ∧ (greatest bits).toNat = 2 ^ bits - 1
  /-- The mask keeps the lowest bits, and reading them with a sign changes nothing. -/
  masked : (pattern word bits).toNat = word.toNat % 2 ^ bits ∧
    (pattern word bits).toInt = (pattern word bits).toNat
  /-- The difference that makes a number negative. -/
  difference : (pattern word bits - bit bits).toInt = (pattern word bits).toInt - (bit bits).toInt
  /-- The result is a 64-bit integer. -/
  narrowed : (Int64.ofBitVec ((signed (pattern word bits) bits).setWidth 64)).toInt =
    (signed (pattern word bits) bits).toInt

theorem exactSteps (hpos : 0 < bits) (hbits : bits ≤ 64) (word : BitVec 128) :
    ExactSteps bits word where
  amounts := by omega
  highest := ⟨toInt_bit (by omega), toNat_bit (by omega)⟩
  beyond := ⟨toInt_bit hbits, toNat_bit (by omega)⟩
  negated := toInt_least hbits
  mask := ⟨toInt_greatest hbits, toNat_greatest hbits⟩
  masked := ⟨toNat_pattern hbits word, toInt_pattern hbits word⟩
  difference := by rw [toInt_pattern_sub_bit hbits, toInt_bit hbits]
  narrowed := toInt_narrowed_signed hpos hbits word

/-! ## Congruent literals and written constants -/

theorem signedReading_congr (hpos : 0 < bits) {number' value value' : Int}
    (hvalue : SignedReading bits number value) (hvalue' : SignedReading bits number' value') :
    value = value' ↔ number ≡ number' [ZMOD 2 ^ bits] := by
  constructor
  · rintro rfl
    exact hvalue.2.2.symm.trans hvalue'.2.2
  · intro hcongruent
    have hsame : SignedReading bits number' value :=
      ⟨hvalue.1, hvalue.2.1, hvalue.2.2.trans hcongruent⟩
    rw [signedReading_iff hpos] at hsame hvalue'
    rw [← hsame, hvalue']

theorem text_int {value : Int64} (hbits : bits ≠ 1) :
    (Constant.int bits value).text = toString value.toInt := by
  unfold text
  split
  · rename_i hone
    cases hone
    exact absurd rfl hbits
  · rename_i hint
    cases hint
    rfl
  all_goals
    rename_i hother
    cases hother

/-- The written form of a constant, unless it is a truth value, is a literal for it. -/
theorem readInt_toString (hpos : 0 < bits) {value : Int64}
    (hvalue : readInt literal bits = .ok value) :
    readInt (toString value.toInt) bits = .ok value := by
  rw [readInt_eq_ok_iff_signedReading hpos] at hvalue ⊢
  obtain ⟨hbits, number, _, _, hreading⟩ := hvalue
  exact ⟨hbits, value.toInt, Decimal.numeral_toString _, hreading.self.2, hreading.self.1⟩

/-- The widths of integer types are the positive ones. -/
theorem pos_of_ofExpr {width : UInt64} (hwidth : Ty.ofExpr (.int width) = .ok (.int bits)) :
    0 < bits := by
  rw [Ty.ofExpr] at hwidth
  split at hwidth
  · cases hwidth
  · rename_i hzero
    cases hwidth
    exact Nat.pos_of_ne_zero hzero

theorem ofLiteral_int_of_wide (hbits : 64 < bits) (literal : String) :
    ofLiteral (.int literal) (.int bits) = .error .wideConstant := by
  rw [ofLiteral, readInt, if_pos hbits]
  rfl

/-- A literal is accepted as a constant of the given width, and writes the number. -/
structure Reads (bits : Nat) (literal : String) (number : Int) (constant : Constant) : Prop where
  accepted : ofLiteral (.int literal) (.int bits) = .ok constant
  numeral : Decimal.Numeral literal.toList number

theorem Reads.exists_signedReading (hpos : 0 < bits) {constant : Constant}
    (hreads : Reads bits literal number constant) :
    ∃ value : Int64, constant = .int bits value ∧ SignedReading bits number value.toInt := by
  obtain ⟨value, hvalue, rfl⟩ := ofLiteral_int_eq_ok_iff.mp hreads.accepted
  obtain ⟨_, other, hother, _, hreading⟩ := (readInt_eq_ok_iff_signedReading hpos).mp hvalue
  exact ⟨value, rfl, hreads.numeral.unique hother ▸ hreading⟩

theorem Reads.eq_iff (hpos : 0 < bits) {constant constant' : Constant} {literal' : String}
    {number' : Int} (hreads : Reads bits literal number constant)
    (hreads' : Reads bits literal' number' constant') :
    constant = constant' ↔ number ≡ number' [ZMOD 2 ^ bits] := by
  obtain ⟨value, rfl, hvalue⟩ := hreads.exists_signedReading hpos
  obtain ⟨value', rfl, hvalue'⟩ := hreads'.exists_signedReading hpos
  rw [← signedReading_congr hpos hvalue hvalue', Int64.toInt_inj, Constant.int.injEq,
    and_iff_right rfl]

/-- At every width that an integer type can have, an integer literal is refused as unsupported if the
width exceeds 64. Otherwise it is accepted exactly if it is an optional sign and digits that write a
number between the least signed and the greatest unsigned number of the width, and its value is the
only number in the signed range that is congruent to what it writes. No step on the way overflows. So
two literals give the same constant exactly if they are congruent, and the written form of a
constant, unless it is a truth value, is read as the same constant. -/
theorem literals_are_twos_complement {width : UInt64} {bits : Nat}
    (hwidth : Ty.ofExpr (.int width) = .ok (.int bits)) :
    (64 < bits → Fault.wideConstant.category = .unsupported ∧
      ∀ literal, ofLiteral (.int literal) (.int bits) = .error .wideConstant) ∧
    (bits ≤ 64 →
      (∀ literal, (∃ constant, ofLiteral (.int literal) (.int bits) = .ok constant) ↔
        ∃ number, Decimal.Numeral literal.toList number ∧
          -2 ^ (bits - 1) ≤ number ∧ number ≤ 2 ^ bits - 1) ∧
      (∀ literal number constant, Reads bits literal number constant →
        ∃ value : Int64, constant = .int bits value ∧
          ∀ other, SignedReading bits number other ↔ other = value.toInt) ∧
      (∀ word, ExactSteps bits word) ∧
      (∀ literal number constant literal' number' constant',
        Reads bits literal number constant → Reads bits literal' number' constant' →
          (constant = constant' ↔ number ≡ number' [ZMOD 2 ^ bits])) ∧
      (1 < bits → ∀ literal constant, ofLiteral (.int literal) (.int bits) = .ok constant →
        ofLiteral (.int constant.text) (.int bits) = .ok constant)) := by
  have hpos := pos_of_ofExpr hwidth
  refine ⟨fun hwide => ⟨rfl, ofLiteral_int_of_wide hwide⟩, fun hbits => ⟨?_, ?_, ?_, ?_, ?_⟩⟩
  · intro literal
    simp only [ofLiteral_int_eq_ok_iff]
    rw [exists_comm]
    simp only [exists_and_left, exists_eq', and_true, exists_readInt_iff, and_iff_right hbits,
      Holds, Int.le_sub_one_iff]
  · intro literal number constant hreads
    obtain ⟨value, hconstant, hreading⟩ := hreads.exists_signedReading hpos
    refine ⟨value, hconstant, fun other => ?_⟩
    rw [signedReading_iff hpos, (signedReading_iff hpos).mp hreading, eq_comm]
  · exact exactSteps hpos hbits
  · intro literal number constant literal' number' constant' hreads hreads'
    exact hreads.eq_iff hpos hreads'
  · intro hlong literal constant hconstant
    obtain ⟨value, hvalue, rfl⟩ := ofLiteral_int_eq_ok_iff.mp hconstant
    rw [text_int (by omega), ofLiteral_int_eq_ok_iff]
    exact ⟨value, readInt_toString hpos hvalue, rfl⟩

theorem reads_byte_255 : Reads 8 "255" 255 (.int 8 (-1)) :=
  ⟨by decide +kernel, Decimal.integer?_eq_some_iff.mp (by decide +kernel)⟩

theorem reads_byte_minus_one : Reads 8 "-1" (-1) (.int 8 (-1)) :=
  ⟨by decide +kernel, Decimal.integer?_eq_some_iff.mp (by decide +kernel)⟩

/-- In a byte, `255` and `-1` have the same bits. The greater number is not written again, and a
literal of 65 bits is refused. -/
theorem bytes_255_and_minus_one :
    Ty.ofExpr (.int 8) = .ok (.int 8) ∧ Ty.ofExpr (.int 65) = .ok (.int 65) ∧
      Reads 8 "255" 255 (.int 8 (-1)) ∧ Reads 8 "-1" (-1) (.int 8 (-1)) ∧
      (255 : Int) ≡ -1 [ZMOD 2 ^ 8] ∧ (Constant.int 8 (-1)).text = "-1" ∧
      ofLiteral (.int (Constant.int 8 (-1)).text) (.int 8) = .ok (.int 8 (-1)) ∧
      ofLiteral (.int "1") (.int 65) = .error .wideConstant := by
  have hbyte : Ty.ofExpr (.int 8) = .ok (.int 8) := rfl
  have hwide : Ty.ofExpr (.int 65) = .ok (.int 65) := rfl
  obtain ⟨_, _, _, hequal, hwritten⟩ :=
    (literals_are_twos_complement hbyte).2 (by decide)
  have hcongruent := (hequal _ _ _ _ _ _ reads_byte_255 reads_byte_minus_one).mp rfl
  exact ⟨hbyte, hwide, reads_byte_255, reads_byte_minus_one, hcongruent, by decide +kernel,
    hwritten (by decide) _ _ reads_byte_255.accepted,
    ((literals_are_twos_complement hwide).1 (by decide)).2 "1"⟩

end ValueRange.Constant
