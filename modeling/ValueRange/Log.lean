/-!
# Log records

Records carry a level and a message. A scope brackets the records of one activity between an
entering and a leaving line and indents them by its nesting level; the current nesting level is the
only state, and the caller holds it.
-/

namespace ValueRange.Log

/-- Severity of a record, also used as the least severity shown. -/
inductive Level where
  | warn
  | info
  | debug
  | trace
deriving DecidableEq, Repr

namespace Level

/-- Written form of a level. -/
def text : Level → String
  | warn => "WARN"
  | info => "INFO"
  | debug => "DEBUG"
  | trace => "TRACE"

/-- The levels from the most to the least severe are numbered upward. -/
def rank : Level → Nat
  | warn => 0
  | info => 1
  | debug => 2
  | trace => 3

/-- The level selected by repeating the verbosity flag. -/
def ofVerbosity : Nat → Level
  | 0 => warn
  | 1 => info
  | 2 => debug
  | _ => trace

/-- Whether records of a level are shown where `least` is the least severity shown. -/
def shownAt (level least : Level) : Bool := level.rank ≤ least.rank

end Level

/-- One log record. -/
structure Record where
  /-- Severity. -/
  level : Level
  /-- What happened. -/
  message : String
deriving DecidableEq, Repr

/-- Written form of a record. -/
def Record.text (record : Record) : String :=
  "[" ++ record.level.text ++ "] " ++ record.message

/-- An activity whose records are bracketed and indented. -/
structure Scope where
  /-- Name of the activity. -/
  title : String
  /-- Nesting level at which it was entered. -/
  level : Nat
deriving DecidableEq, Repr

namespace Scope

/-- The margin of a nesting level. -/
def margin (level : Nat) : String := String.join (List.replicate level "  ")

/-- Enter a scope at the current depth; the scopes entered within it lie one level deeper. -/
def enter (title : String) (depth : Nat) : Scope × Nat := (⟨title, depth⟩, depth + 1)

/-- The record of entering a scope. -/
def opening (scope : Scope) : Record := ⟨.trace, margin scope.level ++ "-> " ++ scope.title⟩

/-- The record of an event within a scope. -/
def event (scope : Scope) (text : String) : Record := ⟨.trace, margin scope.level ++ "   " ++ text⟩

/-- The record of leaving a scope, after which the depth is the scope's own level. -/
def closing (scope : Scope) : Record := ⟨.trace, margin scope.level ++ "<- " ++ scope.title⟩

end Scope

end ValueRange.Log

namespace ValueRange

/-- A value with the log records of its computation, in order. -/
structure Logged (α : Type) where
  /-- The value. -/
  value : α
  /-- The records. -/
  log : List Log.Record

end ValueRange
