import Mathlib.Data.List.Chain
import Mathlib.Tactic.IntervalCases
import ValueRange.Json.Token

/-!
# Scanning what was written

Tokens are written without blanks between them. A string ends at its closing quote and a word with
its last letter, but a number ends only where the next character cannot continue it. So tokens are
legible if none is invalid and no number directly follows another one, and scanning the text of
legible tokens gives the tokens back: the escapes of a string are undone, whatever characters it
has, and the digits of a number add up to its value.
-/

namespace ValueRange.Json

/-- The tokens of a text whose scan continues in a mode. -/
def tokensFrom (mode : Mode) (text : List Char) : List Token :=
  (text.foldl Scanner.feed ⟨mode, []⟩).tokens

theorem tokens_foldl_feed (text : List Char) (mode : Mode) (reversed : List Token) :
    (text.foldl Scanner.feed ⟨mode, reversed⟩).tokens =
      reversed.reverse ++ tokensFrom mode text := by
  induction text generalizing mode reversed with
  | nil => simp [tokensFrom, Scanner.tokens]
  | cons c text ih =>
      have hfeed (reversed : List Token) : Scanner.feed ⟨mode, reversed⟩ c =
          ⟨(mode.step c).2, (mode.step c).1.reverse ++ reversed⟩ := rfl
      rw [tokensFrom, List.foldl_cons, List.foldl_cons, hfeed, hfeed, ih, ih]
      simp

theorem tokensFrom_cons (mode : Mode) (c : Char) (text : List Char) :
    tokensFrom mode (c :: text) = (mode.step c).1 ++ tokensFrom (mode.step c).2 text := by
  have hfeed : Scanner.feed ⟨mode, []⟩ c =
      ⟨(mode.step c).2, (mode.step c).1.reverse ++ []⟩ := rfl
  rw [tokensFrom, List.foldl_cons, hfeed, tokens_foldl_feed]
  simp

/-! ## Strings -/

/-- Scanning an escaped character adds the character. -/
theorem tokensFrom_escapeChar (reversed : List Char) (c : Char) (rest : List Char) :
    tokensFrom (.text ⟨reversed, none, true⟩) (escapeChar c ++ rest) =
      tokensFrom (.text ⟨c :: reversed, none, true⟩) rest := by
  unfold escapeChar
  split
  case h_8 hquote hbackslash _ _ _ _ _ =>
    split
    · -- A control character is written by its code, and there are 32 of them.
      rename_i hcontrol
      have hcode := Char.ofNat_toNat c
      generalize c.toNat = code at hcode hcontrol ⊢
      subst hcode
      simp only [List.cons_append, List.nil_append, tokensFrom_cons]
      interval_cases code <;> rfl
    · rename_i hcontrol
      have hstep : Mode.step (.text ⟨reversed, none, true⟩) c =
          ([], .text ⟨c :: reversed, none, true⟩) := by
        rw [Mode.step, if_neg hquote, if_neg hbackslash, if_neg hcontrol]
        rfl
      rw [List.cons_append, tokensFrom_cons, hstep]
      rfl
  all_goals
    simp only [List.cons_append, List.nil_append, tokensFrom_cons]
    rfl

/-- Scanning escaped characters up to a quote completes the string of the characters. -/
theorem tokensFrom_text (content reversed rest : List Char) :
    tokensFrom (.text ⟨reversed, none, true⟩) (content.flatMap escapeChar ++ '"' :: rest) =
      .string (some (String.ofList (reversed.reverse ++ content))) :: tokensFrom .gap rest := by
  induction content generalizing reversed with
  | nil =>
      rw [List.flatMap_nil, List.nil_append, tokensFrom_cons, List.append_nil]
      rfl
  | cons c content ih =>
      rw [List.flatMap_cons, List.append_assoc, tokensFrom_escapeChar, ih]
      simp

/-! ## Numbers -/

/-- A number may end before the text. -/
def EndsNumber (text : List Char) : Prop :=
  ∀ c ∈ text.head?, c ≠ '.' ∧ c ≠ 'e' ∧ c ≠ 'E' ∧ c.isDigit = false

/-- Within an integer, a text that does not continue it completes the number. -/
theorem tokensFrom_of_ends {rest : List Char} (hrest : EndsNumber rest) {mode : Mode}
    {value : Option Nat} (hmode : mode = .zero value ∨ mode = .whole value) :
    tokensFrom mode rest = numberToken value :: tokensFrom .gap rest := by
  cases rest with
  | nil => rcases hmode with rfl | rfl <;> rfl
  | cons c rest =>
      obtain ⟨hpoint, hlower, hupper, hdigit⟩ := hrest c rfl
      have hstep : mode.step c = Mode.endNumber value c := by
        rcases hmode with rfl | rfl <;> simp [Mode.step, hpoint, hlower, hupper, hdigit]
      rw [tokensFrom_cons, tokensFrom_cons, hstep]
      rfl

theorem step_whole_digitChar (value : Nat) {digit : Nat} (hdigit : digit < 10) :
    Mode.step (.whole (some value)) (Nat.digitChar digit) =
      ([], .whole (some (value * 10 + digit))) := by
  interval_cases digit <;> rfl

/-- The digits of a positive number lead to its value, without a leading zero. -/
theorem tokensFrom_toDigits {value : Nat} (hvalue : 0 < value) (rest : List Char) :
    tokensFrom .gap (Nat.toDigits 10 value ++ rest) = tokensFrom (.whole (some value)) rest := by
  induction value using Nat.strongRecOn generalizing rest with
  | ind value ih =>
      by_cases hsmall : value < 10
      · rw [Nat.toDigits_of_lt_base hsmall, List.cons_append, tokensFrom_cons]
        interval_cases value <;> rfl
      · have hquotient : 0 < value / 10 := by omega
        rw [Nat.toDigits_of_base_le (by decide) (by omega), List.append_assoc,
          ih (value / 10) (by omega) hquotient, List.cons_append, tokensFrom_cons,
          step_whole_digitChar _ (Nat.mod_lt value (by decide)), Nat.div_add_mod']
        rfl

/-! ## Tokens -/

namespace Token

/-- Whether a token is a number. -/
def isNumber : Token → Bool
  | number _ => true
  | _ => false

/-- Scanning a token in front of a text completes the token, provided that a number ends there. -/
theorem tokensFrom_chars {token : Token} (hvalid : token ≠ .invalid) {rest : List Char}
    (hrest : token.isNumber = true → EndsNumber rest) :
    tokensFrom .gap (token.chars ++ rest) = token :: tokensFrom .gap rest := by
  cases token with
  | number value =>
      have hends := hrest rfl
      cases value with
      | none =>
          simp only [chars, List.cons_append, List.nil_append, tokensFrom_cons]
          exact tokensFrom_of_ends hends (.inr rfl)
      | some value =>
          have htoken : numberToken (some value.toNat) = .number (some value) := by
            simp [numberToken, value.toNat_lt_size]
          rw [chars, ← htoken]
          rcases Nat.eq_zero_or_pos value.toNat with hzero | hpos
          · rw [hzero]
            exact (tokensFrom_cons _ _ _).trans (tokensFrom_of_ends hends (.inl rfl))
          · rw [tokensFrom_toDigits hpos]
            exact tokensFrom_of_ends hends (.inr rfl)
  | string content =>
      cases content with
      | none =>
          simp only [chars, List.cons_append, List.nil_append, tokensFrom_cons]
          rfl
      | some content =>
          simp only [chars, List.cons_append, List.nil_append, List.append_assoc]
          rw [tokensFrom_cons]
          have htext := tokensFrom_text content.toList [] rest
          rw [List.reverse_nil, List.nil_append, String.ofList_toList] at htext
          exact htext
  | bool value =>
      cases value <;>
        (simp only [chars, List.cons_append, List.nil_append, tokensFrom_cons]; rfl)
  | invalid => exact absurd rfl hvalid
  | _ =>
      simp only [chars, List.cons_append, List.nil_append, tokensFrom_cons]
      rfl

end Token

/-- Tokens that can be told apart in their text. -/
structure Legible (tokens : List Token) : Prop where
  /-- No token is invalid. -/
  valid : .invalid ∉ tokens
  /-- No number directly follows another one. -/
  apart : tokens.IsChain fun left right => left.isNumber = true → right.isNumber = false

theorem endsNumber_render {tokens : List Token}
    (htokens : ∀ token ∈ tokens.head?, token.isNumber = false) : EndsNumber (render tokens) := by
  intro c hc
  cases tokens with
  | nil => cases hc
  | cons token tokens =>
      have hnumber := htokens token rfl
      rw [render, List.flatMap_cons] at hc
      cases token with
      | number value => cases hnumber
      | string content =>
          cases content <;> cases hc <;> decide
      | bool value => cases value <;> cases hc <;> decide
      | _ => cases hc; decide

/-- Scanning the text of legible tokens gives the tokens back. -/
theorem scan_render {tokens : List Token} (htokens : Legible tokens) :
    scan (render tokens) = tokens := by
  change tokensFrom .gap (render tokens) = tokens
  induction tokens with
  | nil => rfl
  | cons token tokens ih =>
      obtain ⟨hvalid, hapart⟩ := htokens
      rw [List.mem_cons, not_or] at hvalid
      rw [List.isChain_cons] at hapart
      have hrest : token.isNumber = true → EndsNumber (render tokens) := fun hnumber =>
        endsNumber_render fun next hnext => hapart.1 next hnext hnumber
      calc tokensFrom .gap (render (token :: tokens))
          = tokensFrom .gap (token.chars ++ render tokens) := rfl
        _ = token :: tokensFrom .gap (render tokens) :=
          Token.tokensFrom_chars (Ne.symm hvalid.1) hrest
        _ = token :: tokens := by rw [ih ⟨hvalid.2, hapart.2⟩]

end ValueRange.Json
