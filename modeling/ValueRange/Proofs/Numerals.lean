import Mathlib.Algebra.Order.Ring.Int
import Mathlib.Data.List.Induction
import Mathlib.Tactic.IntervalCases
import ValueRange.Decimal

/-!
# Decimal numerals

The numerals of a document are given by a grammar: digits are written one after the other, each new
one last, and a numeral is an optional sign before digits. Reading a numeral accepts exactly the
words of the grammar and gives the number they write, and the written form of a number is such a
word.
-/

namespace ValueRange.Decimal

/-- Digits that write a number, the last one for the units. -/
inductive Digits : List Char → Nat → Prop
  | single {digit : Nat} (hdigit : digit < 10) : Digits [Nat.digitChar digit] digit
  | snoc {digits : List Char} {value digit : Nat} (hdigits : Digits digits value)
      (hdigit : digit < 10) : Digits (digits ++ [Nat.digitChar digit]) (10 * value + digit)

/-- An optional sign and digits. -/
inductive Numeral : List Char → Int → Prop
  | plain {digits : List Char} {value : Nat} (hdigits : Digits digits value) : Numeral digits value
  | plus {digits : List Char} {value : Nat} (hdigits : Digits digits value) :
      Numeral ('+' :: digits) value
  | minus {digits : List Char} {value : Nat} (hdigits : Digits digits value) :
      Numeral ('-' :: digits) (-value)

/-- The digit that a character shows. -/
theorem digitChar_of_isDigit {character : Char} (hdigit : character.isDigit = true) :
    character.toNat - '0'.toNat < 10 ∧
      character = Nat.digitChar (character.toNat - '0'.toNat) := by
  have hrange : 48 ≤ character.toNat ∧ character.toNat ≤ 57 := by
    simpa [Char.isDigit, UInt32.le_iff_toNat_le] using hdigit
  obtain ⟨hlower, hupper⟩ := hrange
  have hcode := Char.ofNat_toNat character
  refine ⟨by change character.toNat - 48 < 10; omega, ?_⟩
  generalize character.toNat = code at *
  subst hcode
  interval_cases code <;> rfl

theorem natural?_concat {digits : List Char} (hdigits : digits ≠ []) {digit : Nat}
    (hdigit : digit < 10) :
    natural? (digits ++ [Nat.digitChar digit]) =
      (natural? digits).map fun value => 10 * value + digit := by
  have hcode : (Nat.digitChar digit).toNat - '0'.toNat = digit := by
    rw [Nat.toNat_digitChar_of_lt_ten hdigit]
    change 48 + digit - 48 = digit
    omega
  have hlast : (Nat.digitChar digit).isDigit = true := by simp [Nat.isDigit_digitChar, hdigit]
  by_cases hall : digits.all Char.isDigit = true
  · have hboth : (digits ++ [Nat.digitChar digit]).all Char.isDigit = true := by
      rw [List.all_append, hall]
      simpa using hlast
    rw [natural?, natural?, if_pos ⟨by simp, hboth⟩, if_pos ⟨hdigits, hall⟩, List.foldl_append,
      List.foldl_cons, List.foldl_nil, hcode, Option.map_some, Nat.mul_comm]
  · have hboth : ¬ (digits ++ [Nat.digitChar digit]).all Char.isDigit = true := by
      rw [List.all_append, Bool.and_eq_true]
      exact fun h => hall h.1
    rw [natural?, natural?, if_neg (fun h => hboth h.2), if_neg (fun h => hall h.2),
      Option.map_none]

theorem natural?_singleton {digit : Nat} (hdigit : digit < 10) :
    natural? [Nat.digitChar digit] = some digit := by
  interval_cases digit <;> rfl

theorem isDigit_of_natural? {digits : List Char} {value : Nat}
    (hvalue : natural? digits = some value) : ∀ digit ∈ digits, digit.isDigit = true := by
  unfold natural? at hvalue
  split at hvalue
  · rename_i hdigits
    simpa using hdigits.2
  · cases hvalue

theorem ne_nil_of_natural? {digits : List Char} {value : Nat}
    (hvalue : natural? digits = some value) : digits ≠ [] := by
  rintro rfl
  cases hvalue

/-- Reading digits accepts exactly what the grammar writes. -/
theorem natural?_eq_some_iff {digits : List Char} {value : Nat} :
    natural? digits = some value ↔ Digits digits value := by
  constructor
  · intro hvalue
    induction digits using List.reverseRecOn generalizing value with
    | nil => cases hvalue
    | append_singleton digits last ih =>
        have hlast := isDigit_of_natural? hvalue last (by simp)
        obtain ⟨hdigit, hcharacter⟩ := digitChar_of_isDigit hlast
        rw [hcharacter] at hvalue ⊢
        by_cases hdigits : digits = []
        · subst hdigits
          rw [List.nil_append, natural?_singleton hdigit, Option.some.injEq] at hvalue
          rw [← hvalue]
          exact .single hdigit
        · rw [natural?_concat hdigits hdigit, Option.map_eq_some_iff] at hvalue
          obtain ⟨rest, hrest, rfl⟩ := hvalue
          exact .snoc (ih hrest) hdigit
  · intro hdigits
    induction hdigits with
    | single hdigit => exact natural?_singleton hdigit
    | snoc hdigits hdigit ih =>
        have hnonempty := ne_nil_of_natural? ih
        rw [natural?_concat hnonempty hdigit, ih, Option.map_some]

theorem Digits.ne_sign {character : Char} {digits : List Char} {value : Nat}
    (hdigits : Digits (character :: digits) value) : character ≠ '-' ∧ character ≠ '+' := by
  have hfirst := isDigit_of_natural? (natural?_eq_some_iff.mpr hdigits) character
    List.mem_cons_self
  constructor
  · rintro rfl
    cases hfirst
  · rintro rfl
    cases hfirst

/-- Reading a numeral accepts exactly what the grammar writes. -/
theorem integer?_eq_some_iff {characters : List Char} {value : Int} :
    integer? characters = some value ↔ Numeral characters value := by
  constructor
  · intro hvalue
    unfold integer? at hvalue
    split at hvalue
    all_goals
      obtain ⟨magnitude, hmagnitude, rfl⟩ := Option.map_eq_some_iff.mp hvalue
      have hdigits := natural?_eq_some_iff.mp hmagnitude
    · exact .minus hdigits
    · exact .plus hdigits
    · exact .plain hdigits
  · intro hnumeral
    cases hnumeral with
    | minus hdigits => simp [integer?, natural?_eq_some_iff.mpr hdigits]
    | plus hdigits => simp [integer?, natural?_eq_some_iff.mpr hdigits]
    | plain hdigits =>
        unfold integer?
        split
        · exact absurd rfl hdigits.ne_sign.1
        · exact absurd rfl hdigits.ne_sign.2
        · rw [natural?_eq_some_iff.mpr hdigits, Option.map_some]

theorem Numeral.unique {characters : List Char} {value other : Int}
    (hvalue : Numeral characters value) (hother : Numeral characters other) : value = other := by
  rw [← integer?_eq_some_iff] at hvalue hother
  exact Option.some.inj (hvalue.symm.trans hother)

/-! ## Written numbers -/

theorem digits_toDigits (value : Nat) : Digits (Nat.toDigits 10 value) value := by
  induction value using Nat.strongRecOn with
  | ind value ih =>
      by_cases hsmall : value < 10
      · rw [Nat.toDigits_of_lt_base hsmall]
        exact .single hsmall
      · have hdigits := (ih (value / 10) (by omega)).snoc (Nat.mod_lt value (by decide))
        rwa [Nat.div_add_mod, ← Nat.toDigits_of_base_le (by decide) (by omega)] at hdigits

/-- The written form of a number is a numeral for it. -/
theorem numeral_toString (value : Int) : Numeral (toString value).toList value := by
  cases value with
  | ofNat magnitude =>
      have hlist : (toString (Int.ofNat magnitude)).toList = Nat.toDigits 10 magnitude :=
        String.toList_ofList
      rw [hlist]
      exact .plain (digits_toDigits magnitude)
  | negSucc magnitude =>
      have hlist : (toString (Int.negSucc magnitude)).toList =
          '-' :: Nat.toDigits 10 (magnitude + 1) := by
        change ("-" ++ String.ofList (Nat.toDigits 10 (magnitude + 1))).toList = _
        rw [String.toList_append, String.toList_ofList, String.toList_ofList, List.singleton_append]
      rw [hlist]
      exact .minus (digits_toDigits (magnitude + 1))

end ValueRange.Decimal
