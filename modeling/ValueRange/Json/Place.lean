import ValueRange.Json.Token

/-!
# Places in a text

A place lies between two characters of a text and is given by its line and by the UTF-8 bytes of that
line before it. Tokens carry no places: where they are complete is found by a second scan, which only
a text with a fault in it needs.
-/

namespace ValueRange.Json

/-- A place between two characters of a text. -/
structure Place where
  /-- Number of the line, the first one being line 1. -/
  line : Nat
  /-- UTF-8 bytes of the line before the place. -/
  column : Nat
deriving DecidableEq, Repr

namespace Place

/-- The start of a text. -/
def start : Place := ⟨1, 0⟩

/-- The place after one more character. -/
def advance (place : Place) (c : Char) : Place :=
  if c = '\n' then ⟨place.line + 1, 0⟩ else ⟨place.line, place.column + c.utf8Size⟩

/-- Written form of a place. -/
def text (place : Place) : String :=
  "line " ++ toString place.line ++ " column " ++ toString place.column

end Place

/-- A text part way through the scan for the places of its tokens. -/
structure Tracker where
  /-- What the next character continues. -/
  mode : Mode
  /-- The place reached. -/
  place : Place
  /-- The places where tokens were complete, the latest first. -/
  completed : List Place

namespace Tracker

/-- The scan of an empty text. -/
def start : Tracker := ⟨.gap, .start, []⟩

/-- Scan one more character. -/
def feed (tracker : Tracker) (c : Char) : Tracker :=
  let (tokens, mode) := tracker.mode.step c
  let place := tracker.place.advance c
  ⟨mode, place, tokens.map (fun _ => place) ++ tracker.completed⟩

/-- The places of all tokens of the text that ends here, the last token's first. -/
def places (tracker : Tracker) : List Place :=
  tracker.mode.finish.map (fun _ => tracker.place) ++ tracker.completed

end Tracker

/-- The places where the tokens of a text are complete, the last token's first. -/
def completions (text : List Char) : List Place := (text.foldl Tracker.feed Tracker.start).places

end ValueRange.Json
