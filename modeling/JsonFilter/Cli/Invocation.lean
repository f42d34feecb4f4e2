import JsonFilter.Cli.Help
import JsonFilter.Executor.Config

/-!
# Invocations

What the words of a command line ask for: one of three commands with its settings, a text about the
program, or nothing that makes sense.

Some options may stand before the command or behind it; where they stand in both places, the one
behind the command counts.
-/

namespace JsonFilter.Cli

/-- How evaluations are done. -/
structure EvalArgs where
  /-- The seconds that an evaluation may take. -/
  timeout : Option Binary64 := none
  enableEnv : Bool := false
deriving DecidableEq, Repr, Inhabited

/-- A command. -/
inductive Command where
  /-- Evaluates a filter on a file or the standard input and prints its first value. -/
  | eval (filter : String) (file : Option String) (onWorker raw : Bool) (args : EvalArgs)
  /-- Renders a template file on a file or the standard input. -/
  | render (template : String) (file : Option String) (args : EvalArgs)
  /-- Evaluates a filter on every line of a file. -/
  | batch (filter file : String) (args : EvalArgs)
deriving DecidableEq, Repr

/-- A command with the settings of the executor. -/
structure Invocation where
  workers : Option Nat := none
  cacheCapacity : Option Nat := none
  sweepPolicy : Option Cache.SweepPolicy := none
  /-- Whether statistics are printed in the end. -/
  stats : Bool := false
  command : Command
deriving DecidableEq, Repr

/-- What a command line asks for. -/
inductive Request where
  | run (invocation : Invocation)
  | print (text : String)
  /-- It cannot be understood; the text tells how the command is used. -/
  | misuse (usage : String)
deriving DecidableEq, Repr

/-! ### What may stand on the command line -/

/-- The name of the program. -/
def programName : String := "jqexec"

/-- The version of the program. -/
def versionText : String := programName ++ " 0.1.0\n"

/-- Whether a text is a count. -/
def isCount (text : String) : Bool := (readCount text.toList).toOption.isSome

/-- Whether a text is a number. -/
def isNumber (text : String) : Bool := (Binary64.ofText? text).isSome

/-- Whether a text can name a file. -/
def isFileName (text : String) : Bool := !text.isEmpty

/-- The options that may stand before the command or behind it. -/
def globalOptions : List OptionSpec := [
  { name := "workers", valueName := some "WORKERS", accepts := isCount
    help := "Number of worker threads for asynchronous evaluation" },
  { name := "cache-capacity", valueName := some "CACHE_CAPACITY", accepts := isCount
    help := "Maximum number of compiled filters kept in the cache" },
  { name := "sweep-policy", valueName := some "SWEEP_POLICY"
    accepts := fun s => (Cache.SweepPolicy.ofName? s).isSome
    help := "How eviction treats filters that are in use: stop-at-busy or skip-busy" },
  { name := "stats", help := "Print cache and worker statistics when done" }]

/-- The options of every evaluation. -/
def evalOptions : List OptionSpec := [
  { name := "timeout", valueName := some "TIMEOUT", accepts := isNumber
    help := "Abort an evaluation after this many seconds" },
  { name := "enable-env", help := "Expose the process environment as `$ENV` and `env`" }]

/-- A file that is read. -/
def filePositional (name : String) (required : Bool) : PositionalSpec :=
  { name, required, accepts := isFileName }

/-- The filter. -/
def filterPositional : PositionalSpec := { name := "FILTER", required := true }

/-- A command as the help shows it. -/
structure CommandSpec where
  name : String
  about : String
  positionals : List PositionalSpec
  options : List OptionSpec

/-- The commands. -/
def commandSpecs : List CommandSpec := [
  { name := "eval"
    about := "Evaluates a filter against JSON read from FILE (or stdin) and prints the first output"
    positionals := [filterPositional, filePositional "FILE" false]
    options := [
      { name := "async", help := "Run the evaluation on the worker pool" },
      { name := "raw", help := "Print string results without JSON quoting" }] ++ evalOptions },
  { name := "render"
    about :=
      "Renders a JSON template whose strings may contain `\x7b\x7b filter \x7d\x7d` expressions"
    positionals := [filePositional "TEMPLATE" true, filePositional "FILE" false]
    options := evalOptions },
  { name := "batch"
    about :=
      "Evaluates one filter against every line of a newline-delimited JSON file in parallel"
    positionals := [filterPositional, filePositional "FILE" true]
    options := evalOptions }]

/-- The command that prints helps. -/
def helpCommand : HelpEntry :=
  { name := "help", help := "Print this message or the help of the given subcommand(s)" }

/-- What may stand before the command. -/
def rootLevel : Level :=
  { options := globalOptions
    positionals := []
    commands := commandSpecs.map (·.name) ++ [helpCommand.name]
    hasVersion := true }

/-- What may stand behind the command. -/
def CommandSpec.level (c : CommandSpec) : Level :=
  { options := c.options ++ globalOptions
    positionals := c.positionals
    commands := []
    hasVersion := false }

/-! ### Helps -/

/-- How the program is used. -/
def rootUsage : String := programName ++ " [OPTIONS] <COMMAND>"

/-- How a command is used. -/
def CommandSpec.usage (c : CommandSpec) : String :=
  " ".intercalate ([programName, c.name, "[OPTIONS]"] ++ c.positionals.map fun p => p.entry.name)

/-- The help of the program. -/
def rootHelp : CommandHelp :=
  { about := "Evaluate jq-style filters over JSON"
    usage := rootUsage
    commands := commandSpecs.map (fun c => { name := c.name, help := c.about }) ++ [helpCommand]
    options := globalOptions.map (·.entry) ++ [helpEntry, versionEntry] }

/-- The help of a command. -/
def CommandSpec.helpPage (c : CommandSpec) : CommandHelp :=
  { about := c.about
    usage := c.usage
    positionals := c.positionals.map (·.entry)
    options := (interleave [c.options, globalOptions]).map (·.entry) ++ [helpEntry] }

/-- The help of the command that prints helps. -/
def helpHelp : CommandHelp :=
  { about := helpCommand.help
    usage := programName ++ " help [COMMAND]..."
    positionals := [{ name := "[COMMAND]...", help := "Print help for the subcommand(s)" }] }

/-- What the words behind the command that prints helps ask for. -/
def helpRequest : List String → Request
  | [] => .print rootHelp.text
  | [name] =>
    if name = helpCommand.name then .print helpHelp.text
    else
      match commandSpecs.find? (fun c => c.name = name) with
      | some c => .print c.helpPage.text
      | none => .misuse rootUsage
  | _ => .misuse rootUsage

/-! ### Reading -/

/-- The arguments of an evaluation. -/
def Given.evalArgs (g : Given) : EvalArgs :=
  { timeout := (g.value? "timeout").bind Binary64.ofText?
    enableEnv := g.has "enable-env" }

/-- The command of a name. -/
def Given.command? (g : Given) (name : String) : Option Command :=
  match name, g.positionals with
  | "eval", filter :: rest => some (.eval filter rest.head? (g.has "async") (g.has "raw") g.evalArgs)
  | "render", template :: rest => some (.render template rest.head? g.evalArgs)
  | "batch", [filter, file] => some (.batch filter file g.evalArgs)
  | _, _ => none

/-- The count that was given for an option. -/
def Given.count? (g : Given) (name : String) : Option Nat :=
  (g.value? name).bind fun text => (readCount text.toList).toOption

/-- The invocation with what was given for a command. -/
def Given.invocation? (g : Given) (name : String) : Option Invocation :=
  (g.command? name).map fun command =>
    { workers := g.count? "workers"
      cacheCapacity := g.count? "cache-capacity"
      sweepPolicy := (g.value? "sweep-policy").bind Cache.SweepPolicy.ofName?
      stats := g.has "stats"
      command }

/-- What stops a reading, as a request. -/
def Stop.request (help : CommandHelp) : Stop → Request
  | .help => .print help.text
  | .version => .print versionText
  | .misuse => .misuse help.usage

/-- Reads what stands behind the name of a command. -/
def readCommand (before : Progress) (c : CommandSpec) (words : List String) : Request :=
  let given : Except Stop Given := do
    let (p, _) ← readWords c.level words false {}
    p.finish c.level
  match given with
  | .error stop => stop.request c.helpPage
  | .ok inner =>
    match before.settle with
    | .error stop => stop.request rootHelp
    | .ok outer =>
      match (inner.orElse outer.given).invocation? c.name with
      | some invocation => .run invocation
      | none => .misuse c.usage

/-- Reads a command line. -/
def Request.ofWords (words : List String) : Request :=
  match readWords rootLevel words false {} with
  | .error stop => stop.request rootHelp
  | .ok (_, none) => .misuse rootUsage
  | .ok (before, some (name, rest)) =>
    if name = helpCommand.name then helpRequest rest
    else
      match commandSpecs.find? (fun c => c.name = name) with
      | some c => readCommand before c rest
      | none => .misuse rootUsage

end JsonFilter.Cli
