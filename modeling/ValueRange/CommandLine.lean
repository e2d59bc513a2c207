import ValueRange.Decimal
import ValueRange.Loading

/-!
# Command line

Arguments are gone through once, from left to right. An argument that names no option ends the walk
as a usage fault, and a request for help or for the version ends it too; that the options found fit
together is checked afterwards. A run itself is a function of the content of its input, and what it
prints and writes is a value, which can be carried out in a file tree.
-/

namespace ValueRange.CommandLine

/-- An option without a value. -/
inductive Flag where
  | verbose
  | debug
  | noWiden
  | help
  | version
deriving DecidableEq, Repr

namespace Flag

/-- The flag of a long name. -/
def ofLong? : String → Option Flag
  | "verbose" => some verbose
  | "debug" => some debug
  | "no-widen" => some noWiden
  | "help" => some help
  | "version" => some version
  | _ => none

/-- The flag of a letter. -/
def ofShort? : Char → Option Flag
  | 'v' => some verbose
  | 'd' => some debug
  | 'h' => some help
  | 'V' => some version
  | _ => none

end Flag

/-- An option with a value. -/
inductive Setting where
  | widen
  | actions
  | output
deriving DecidableEq, Repr

namespace Setting

/-- The setting of a long name. -/
def ofLong? : String → Option Setting
  | "widen" => some widen
  | "actions" => some actions
  | "output" => some output
  | _ => none

/-- The setting of a letter. -/
def ofShort? : Char → Option Setting
  | 'w' => some widen
  | 'a' => some actions
  | 'o' => some output
  | _ => none

/-- Whether a setting goes on taking values. -/
def takesMany : Setting → Bool
  | actions => true
  | _ => false

end Setting

/-- Why no run comes of the arguments. -/
inductive Halt where
  | usage
  | help
  | version
deriving DecidableEq, Repr

/-- The arguments met so far. -/
structure Parsed where
  /-- Flags, the latest first. -/
  flags : List Flag
  /-- Settings, the latest first. -/
  settings : List Setting
  /-- Values of settings, the latest first. -/
  values : List (Setting × String)
  /-- The argument that belongs to no option. -/
  input : Option String
  /-- The setting whose values may follow. -/
  awaiting : Option Setting
  /-- Whether the options have been ended. -/
  ended : Bool
deriving DecidableEq, Repr

namespace Parsed

/-- No argument has been met. -/
def empty : Parsed := ⟨[], [], [], none, none, false⟩

/-- Add a flag. -/
def addFlag (parsed : Parsed) (flag : Flag) : Except Halt Parsed :=
  match flag with
  | .help => .error .help
  | .version => .error .version
  | flag => .ok { parsed with flags := flag :: parsed.flags, awaiting := none }

/-- Add an argument that belongs to no option. -/
def addInput (parsed : Parsed) (argument : String) : Except Halt Parsed :=
  match parsed.input with
  | none => .ok { parsed with input := some argument }
  | some _ => .error .usage

/-- Add a value of a setting. -/
def addValue (parsed : Parsed) (setting : Setting) (value : String) : Parsed :=
  { parsed with
    values := (setting, value) :: parsed.values
    awaiting := if setting.takesMany then some setting else none }

/-- Add a setting whose values follow. -/
def addSetting (parsed : Parsed) (setting : Setting) : Parsed :=
  { parsed with settings := setting :: parsed.settings, awaiting := some setting }

/-- Add a setting whose value stands in the same argument. Equals signs before the value do not
belong to it, and a value after one is the only one. -/
def addAttached (parsed : Parsed) (setting : Setting) (equals : Bool) (value : List Char) :
    Parsed :=
  let added := (parsed.addSetting setting).addValue setting
    (String.ofList (value.dropWhile fun c => c = '='))
  if equals || value.head? = some '=' then { added with awaiting := none } else added

/-- Add a long option; any number of dashes may stand before its name. -/
def addLong (parsed : Parsed) (argument : List Char) : Except Halt Parsed :=
  let body := argument.dropWhile fun c => c = '-'
  let name := String.ofList (body.takeWhile fun c => c ≠ '=')
  let value := (body.dropWhile fun c => c ≠ '=').drop 1
  let equals := body.contains '='
  match Setting.ofLong? name with
  | some setting =>
    if equals then .ok (parsed.addAttached setting true value) else .ok (parsed.addSetting setting)
  | none =>
    match Flag.ofLong? name with
    | some flag => parsed.addFlag flag
    | none => .error .usage

/-- Add options given by letters; the first one with a value takes the remaining characters. -/
def addShort (parsed : Parsed) : List Char → Except Halt Parsed
  | [] => .ok parsed
  | letter :: rest =>
    match Setting.ofShort? letter with
    | some setting =>
      if rest.isEmpty then .ok (parsed.addSetting setting)
      else .ok (parsed.addAttached setting false rest)
    | none =>
      match Flag.ofShort? letter with
      | some flag =>
        match parsed.addFlag flag with
        | .ok parsed => parsed.addShort rest
        | .error halt => .error halt
      | none => .error .usage

/-- Add an argument. -/
def add (parsed : Parsed) (argument : String) : Except Halt Parsed :=
  if parsed.ended then
    parsed.addInput argument
  else
    match argument.toList with
    | ['-', '-'] => .ok { parsed with ended := true }
    | '-' :: '-' :: name => parsed.addLong name
    | '-' :: letter :: rest => parsed.addShort (letter :: rest)
    | _ =>
      match parsed.awaiting with
      | some setting => .ok (parsed.addValue setting argument)
      | none => parsed.addInput argument

/-- The values of a setting in order. -/
def valuesOf (parsed : Parsed) (setting : Setting) : List String :=
  (parsed.values.reverse.filter fun entry => entry.1 = setting).map Prod.snd

/-- Whether a setting is given at most once and not without a value. -/
def settingFits (parsed : Parsed) (setting : Setting) : Bool :=
  let occurrences := parsed.settings.count setting
  (setting.takesMany || occurrences ≤ 1) &&
    (occurrences = 0 || !(parsed.valuesOf setting).isEmpty)

/-- Whether the options found fit together. -/
def fits (parsed : Parsed) : Bool :=
  parsed.flags.count .debug ≤ 1 && parsed.flags.count .noWiden ≤ 1 &&
    parsed.settingFits .widen && parsed.settingFits .actions && parsed.settingFits .output &&
    !(parsed.flags.contains .noWiden && parsed.settings.contains .widen)

end Parsed

/-- A run asked for. -/
structure Invocation where
  /-- How often more log records were asked for. -/
  verbosity : Nat
  /-- Options of the analysis. -/
  options : Options
  /-- The actions, in order. -/
  actions : List Action
  /-- Path of the file to write to, or standard output. -/
  output : Option String
  /-- Path of the module. -/
  input : String
deriving DecidableEq, Repr

/-- The run that the arguments found ask for. -/
def Parsed.invocation? (parsed : Parsed) : Option Invocation := do
  guard parsed.fits
  let input ← parsed.input
  let thresholds ← (parsed.valuesOf .widen).mapM Decimal.count?
  let actions ← (parsed.valuesOf .actions).mapM Action.ofName?
  let threshold := thresholds.head?.getD Options.defaultWidening
  let widening := if parsed.flags.contains .noWiden then none else some threshold
  pure {
    verbosity := parsed.flags.count .verbose
    options := ⟨parsed.flags.contains .debug, widening⟩
    actions := if actions.isEmpty then [.range] else actions
    output := (parsed.valuesOf .output).head?
    input }

/-- The run that arguments ask for. -/
def parse (arguments : List String) : Except Halt Invocation := do
  let parsed ← arguments.foldlM Parsed.add Parsed.empty
  match parsed.invocation? with
  | some invocation => pure invocation
  | none => throw .usage

/-- The lines of a text, each of which is ended by a line feed or by a carriage return and a line
feed; what follows the last line feed is no line. -/
def lines (text : String) : List String :=
  (text.splitOn "\n").dropLast.map fun line =>
    match line.toList.reverse with
    | '\r' :: reversed => String.ofList reversed.reverse
    | _ => line

/-- Something to be said on standard error. -/
inductive Notice where
  /-- A log record. -/
  | logged (record : Log.Record)
  /-- A line of a trace. -/
  | trace (line : String)
  /-- The error that ends a run. -/
  | error (message : String)
deriving DecidableEq, Repr

namespace Notice

/-- Whether a notice is shown where `least` is the least severity of the log records shown. -/
def shownAt (least : Log.Level) : Notice → Bool
  | logged record => record.level.shownAt least
  | trace _ => true
  | error _ => true

/-- Written form of a notice, in which line breaks may stand. -/
def text : Notice → String
  | logged record => record.text
  | trace line => "DEBUG: " ++ line
  | error message => "Error: " ++ message

end Notice

/-- What a run does to its surroundings. -/
structure Effect where
  /-- Exit code. -/
  exitCode : Nat
  /-- Text for standard output. -/
  stdout : String
  /-- Notices for standard error, whether shown or not. -/
  notices : List Notice
  /-- A file to be written: its path and its content. -/
  file : Option (String × String)
deriving DecidableEq, Repr

namespace Effect

/-- The text on standard error: each notice shown is ended by a line feed. -/
def stderrText (least : Log.Level) (effect : Effect) : String :=
  String.join ((effect.notices.filter (Notice.shownAt least)).map fun notice => notice.text ++ "\n")

/-- What is left to do once the file has been written to a path. -/
def written (effect : Effect) (path : String) : Effect :=
  { effect with
    notices := effect.notices ++ [.logged ⟨.info, "reports written to " ++ path⟩]
    file := none }

/-- What is left to do if the file cannot be written. -/
def unwritten (effect : Effect) (fault : FileFault) : Effect :=
  { effect with
    exitCode := 1
    notices := effect.notices ++ [.error fault.reason]
    file := none }

/-- Write the file of an effect into a file tree: what is left to do, and the tree after it. -/
def writeIn (effect : Effect) (tree : FileTree) : Effect × FileTree :=
  match effect.file with
  | none => (effect, tree)
  | some (path, content) =>
    match tree.write path content.toUTF8 with
    | .ok tree => (effect.written path, tree)
    | .error fault => (effect.unwritten fault, tree)

end Effect

/-- What a sequence of actions has yielded. -/
structure Progress where
  /-- Reports of the actions. -/
  report : String
  /-- Notices of the actions. -/
  notices : List Notice
  /-- The fault that ended the sequence. -/
  fault : Option Fault

/-- Perform actions up to the first failure; `none` if an analysis takes more evaluations than there
is fuel. -/
def perform (fuel : Nat) (workflow : Workflow) : List Action → Option Progress
  | [] => some ⟨"", [], none⟩
  | action :: actions =>
    match workflow.execute fuel action with
    | none => none
    | some ⟨.error fault, log⟩ => some ⟨"", log.map .logged, some fault⟩
    | some ⟨.ok output, log⟩ =>
      match perform fuel workflow actions with
      | none => none
      | some rest =>
        some {
          report := output.report ++ rest.report
          notices := log.map .logged ++ output.trace.map .trace ++ rest.notices
          fault := rest.fault }

/-- Carry out a run on what its input path holds; `none` if an analysis takes more evaluations than
there is fuel. -/
def Invocation.run (fuel : Nat) (invocation : Invocation) (file : Except FileFault ByteArray) :
    Option Effect :=
  let loaded := Module.load file
  match loaded.value with
  | .error fault => some ⟨1, "", loaded.log.map .logged ++ [.error fault.message], none⟩
  | .ok module =>
    let workflow : Workflow := ⟨module, invocation.options⟩
    (perform fuel workflow invocation.actions).map fun progress =>
      let notices := loaded.log.map .logged ++
        .logged ⟨.info, "module " ++ module.name ++ " loaded"⟩ :: progress.notices
      match progress.fault, invocation.output with
      | some fault, _ => ⟨1, "", notices ++ [.error fault.message], none⟩
      | none, none => ⟨0, progress.report, notices, none⟩
      | none, some path => ⟨0, "", notices, some (path, progress.report)⟩

/-- Whether functions are analysed concurrently, by the value of the environment variable for it. -/
def concurrent (setting : Option String) : Bool := setting = some "1"

/-- The least severity of the log records that a run shows. Scopes do not nest where activities
interleave, and only they record at the lowest level, which a concurrent run leaves out. -/
def Invocation.logLevel (invocation : Invocation) (concurrent : Bool) : Log.Level :=
  match Log.Level.ofVerbosity invocation.verbosity, concurrent with
  | .trace, true => .debug
  | level, _ => level

/-- Carry out a run in a file tree: what is left to do, and the tree after it. -/
def Invocation.runIn (fuel : Nat) (invocation : Invocation) (tree : FileTree) :
    Option (Effect × FileTree) :=
  (invocation.run fuel (tree.read invocation.input)).map fun effect => effect.writeIn tree

/-- Name and version of the program. -/
def versionText : String := "irange 0.1.0\n"

/-- How the program is called. -/
def usageText : String := "USAGE:\n    irange [FLAGS] [OPTIONS] <input>\n"

/-- Description of the command line. -/
def helpText : String :=
  versionText ++
  "Interval range analysis on an LLVM-like instruction graph\n\n" ++ usageText ++ "
FLAGS:
    -d, --debug       Trace every evaluation step of the range analysis
    -h, --help        Prints help information
        --no-widen    Never widen, iterate until the intervals stop changing
    -V, --version     Prints version information
    -v, --verbose     Verbosity of logging (repeat for more)

OPTIONS:
    -a, --actions <actions>...    Actions to run, in order (default: range)
    -o, --output <output>         Write the reports to this file instead of stdout
    -w, --widen <widen>           Widen an instruction after it has been evaluated this many times (default: 3)

ARGS:
    <input>    The module serialized as JSON
"

end ValueRange.CommandLine
