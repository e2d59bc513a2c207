/-!
# JSON tokens

The lexical level of JSON: a text is scanned into tokens one character at a time, and tokens are
written back without blanks between them. A text that leaves the lexical grammar yields the token
`invalid` where it does so and nothing after it, so that a reader of the tokens meets the faults of a
text in the order of the text.
-/

namespace ValueRange.Json

/-- A lexical unit of JSON. -/
inductive Token where
  | openBrace
  | closeBrace
  | openBracket
  | closeBracket
  | comma
  | colon
  | null
  | bool (value : Bool)
  /-- A number, with its value if it is a natural number below `2 ^ 64` written without sign,
  fraction and exponent. -/
  | number (value : Option UInt64)
  /-- A string, with its content unless that has an unpaired surrogate. -/
  | string (content : Option String)
  /-- The place where the text leaves the lexical grammar. -/
  | invalid
deriving DecidableEq, Repr

/-- The part of a string that has been read. -/
structure Draft where
  /-- Characters read, the latest first. -/
  reversed : List Char
  /-- A high surrogate that waits for its partner. -/
  high : Option Nat
  /-- Whether every surrogate before `high` has its partner. -/
  paired : Bool
deriving DecidableEq, Repr

namespace Draft

/-- A string of which nothing has been read. -/
def empty : Draft := ⟨[], none, true⟩

/-- Add a character, which leaves a waiting surrogate alone. -/
def push (draft : Draft) (c : Char) : Draft :=
  ⟨c :: draft.reversed, none, draft.paired && draft.high.isNone⟩

/-- Add a UTF-16 code unit given by an escape. -/
def pushUnit (draft : Draft) (unit : Nat) : Draft :=
  if 0xDC00 ≤ unit ∧ unit ≤ 0xDFFF then
    match draft.high with
    | some high =>
      let point := 0x10000 + (high - 0xD800) * 0x400 + (unit - 0xDC00)
      ⟨Char.ofNat point :: draft.reversed, none, draft.paired⟩
    | none => { draft with paired := false }
  else if 0xD800 ≤ unit ∧ unit ≤ 0xDBFF then
    { draft with high := some unit, paired := draft.paired && draft.high.isNone }
  else
    draft.push (Char.ofNat unit)

/-- The content of the string that ends here, if it is text. -/
def content (draft : Draft) : Option String :=
  if draft.paired && draft.high.isNone then some (String.ofList draft.reversed.reverse) else none

end Draft

/-- What the next character continues. -/
inductive Mode where
  /-- Between tokens. -/
  | gap
  /-- Within a word of which `rest` is still to come. -/
  | word (rest : List Char) (token : Token)
  /-- Within a string. -/
  | text (draft : Draft)
  /-- After a backslash. -/
  | escape (draft : Draft)
  /-- Within the hexadecimal digits of an escape; `missing` more follow the next one. -/
  | hex (draft : Draft) (missing : Nat) (unit : Nat)
  /-- After a minus sign. -/
  | minus
  /-- After a leading zero; the value is kept unless the number is negative. -/
  | zero (value : Option Nat)
  /-- Within the digits of an integer; the value is kept unless the number is negative. -/
  | whole (value : Option Nat)
  /-- After a decimal point. -/
  | point
  /-- Within the digits of a fraction. -/
  | fraction
  /-- After the mark of an exponent. -/
  | exponentMark
  /-- After the sign of an exponent. -/
  | exponentSign
  /-- Within the digits of an exponent. -/
  | exponent
  /-- Beyond an invalid place. -/
  | failed
deriving DecidableEq, Repr

/-- Value of a decimal digit. -/
def digitValue (c : Char) : Nat := c.toNat - '0'.toNat

/-- Value of a hexadecimal digit. -/
def hexValue? (c : Char) : Option Nat :=
  if '0' ≤ c ∧ c ≤ '9' then some (c.toNat - '0'.toNat)
  else if 'a' ≤ c ∧ c ≤ 'f' then some (c.toNat - 'a'.toNat + 10)
  else if 'A' ≤ c ∧ c ≤ 'F' then some (c.toNat - 'A'.toNat + 10)
  else none

/-- The token of a number with the given value. -/
def numberToken (value : Option Nat) : Token :=
  match value with
  | some value => if value < UInt64.size then .number (some (UInt64.ofNat value)) else .number none
  | none => .number none

namespace Mode

/-- Leave the lexical grammar. -/
def fail : List Token × Mode := ([.invalid], failed)

/-- Read the first character of a token, or a blank. -/
def start (c : Char) : List Token × Mode :=
  match c with
  | ' ' => ([], gap)
  | '\t' => ([], gap)
  | '\n' => ([], gap)
  | '\r' => ([], gap)
  | '\x7b' => ([.openBrace], gap)
  | '\x7d' => ([.closeBrace], gap)
  | '[' => ([.openBracket], gap)
  | ']' => ([.closeBracket], gap)
  | ',' => ([.comma], gap)
  | ':' => ([.colon], gap)
  | '"' => ([], text .empty)
  | 'n' => ([], word ['u', 'l', 'l'] .null)
  | 't' => ([], word ['r', 'u', 'e'] (.bool true))
  | 'f' => ([], word ['a', 'l', 's', 'e'] (.bool false))
  | '-' => ([], minus)
  | '0' => ([], zero (some 0))
  | c => if c.isDigit then ([], whole (some (digitValue c))) else fail

/-- End a number before a character that cannot continue it. -/
def endNumber (value : Option Nat) (c : Char) : List Token × Mode :=
  let (tokens, mode) := start c
  (numberToken value :: tokens, mode)

/-- The character that an escape of one letter stands for. -/
def escaped? (c : Char) : Option Char :=
  match c with
  | '"' => some '"'
  | '\\' => some '\\'
  | '/' => some '/'
  | 'b' => some '\x08'
  | 'f' => some '\x0c'
  | 'n' => some '\n'
  | 'r' => some '\r'
  | 't' => some '\t'
  | _ => none

/-- Read one character: the tokens it completes, and how to go on. -/
def step (mode : Mode) (c : Char) : List Token × Mode :=
  match mode with
  | gap => start c
  | word [] _ => fail
  | word [last] token => if c = last then ([token], gap) else fail
  | word (expected :: rest) token => if c = expected then ([], word rest token) else fail
  | text draft =>
    if c = '"' then ([.string draft.content], gap)
    else if c = '\\' then ([], escape draft)
    else if c.toNat < 0x20 then fail
    else ([], text (draft.push c))
  | escape draft =>
    match escaped? c with
    | some plain => ([], text (draft.push plain))
    | none => if c = 'u' then ([], hex draft 3 0) else fail
  | hex draft missing unit =>
    match hexValue? c with
    | some digit =>
      match missing with
      | 0 => ([], text (draft.pushUnit (unit * 16 + digit)))
      | missing + 1 => ([], hex draft missing (unit * 16 + digit))
    | none => fail
  | minus =>
    if c = '0' then ([], zero none)
    else if c.isDigit then ([], whole none)
    else fail
  | zero value =>
    if c = '.' then ([], point)
    else if c = 'e' ∨ c = 'E' then ([], exponentMark)
    else if c.isDigit then fail
    else endNumber value c
  | whole value =>
    if c = '.' then ([], point)
    else if c = 'e' ∨ c = 'E' then ([], exponentMark)
    else if c.isDigit then ([], whole (value.map fun value => value * 10 + digitValue c))
    else endNumber value c
  | point => if c.isDigit then ([], fraction) else fail
  | fraction =>
    if c = 'e' ∨ c = 'E' then ([], exponentMark)
    else if c.isDigit then ([], fraction)
    else endNumber none c
  | exponentMark =>
    if c = '+' ∨ c = '-' then ([], exponentSign)
    else if c.isDigit then ([], exponent)
    else fail
  | exponentSign => if c.isDigit then ([], exponent) else fail
  | exponent => if c.isDigit then ([], exponent) else endNumber none c
  | failed => ([], failed)

/-- The tokens that the end of the text completes. -/
def finish : Mode → List Token
  | gap => []
  | zero value => [numberToken value]
  | whole value => [numberToken value]
  | fraction => [.number none]
  | exponent => [.number none]
  | failed => []
  | _ => [.invalid]

end Mode

/-- A text part way through its scan. -/
structure Scanner where
  /-- What the next character continues. -/
  mode : Mode
  /-- Tokens completed, the latest first. -/
  reversed : List Token

namespace Scanner

/-- The scan of an empty text. -/
def start : Scanner := ⟨.gap, []⟩

/-- Scan one more character. -/
def feed (scanner : Scanner) (c : Char) : Scanner :=
  let (tokens, mode) := scanner.mode.step c
  ⟨mode, tokens.reverse ++ scanner.reversed⟩

/-- The tokens of the text that ends here. -/
def tokens (scanner : Scanner) : List Token := scanner.reversed.reverse ++ scanner.mode.finish

end Scanner

/-- The tokens of a text. -/
def scan (text : List Char) : List Token := (text.foldl Scanner.feed Scanner.start).tokens

/-- Write a character of a string: quote, backslash and control characters are escaped, by a letter
where there is one. -/
def escapeChar (c : Char) : List Char :=
  match c with
  | '"' => ['\\', '"']
  | '\\' => ['\\', '\\']
  | '\x08' => ['\\', 'b']
  | '\x0c' => ['\\', 'f']
  | '\n' => ['\\', 'n']
  | '\r' => ['\\', 'r']
  | '\t' => ['\\', 't']
  | c =>
    if c.toNat < 0x20 then
      ['\\', 'u', '0', '0', Nat.digitChar (c.toNat / 16), Nat.digitChar (c.toNat % 16)]
    else
      [c]

/-- Written form of a token. -/
def Token.chars : Token → List Char
  | openBrace => ['\x7b']
  | closeBrace => ['\x7d']
  | openBracket => ['[']
  | closeBracket => [']']
  | comma => [',']
  | colon => [':']
  | null => ['n', 'u', 'l', 'l']
  | bool true => ['t', 'r', 'u', 'e']
  | bool false => ['f', 'a', 'l', 's', 'e']
  | number (some value) => Nat.toDigits 10 value.toNat
  | number none => ['-', '1']
  | string (some content) => '"' :: content.toList.flatMap escapeChar ++ ['"']
  | string none => ['"', '\\', 'u', 'd', '8', '0', '0', '"']
  | invalid => ['?']

/-- Write tokens without blanks. -/
def render (tokens : List Token) : List Char := tokens.flatMap Token.chars

end ValueRange.Json
