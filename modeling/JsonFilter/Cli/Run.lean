import JsonFilter.Cli.FileTree
import JsonFilter.Cli.Invocation
import JsonFilter.Executor.Evaluate

/-!
# Running commands

`execute` does what a command line asks for, in given surroundings: the files that can be read, the
standard input and the environment.  What it prints and the code that it ends with are its outcome.
-/

namespace JsonFilter.Cli

open Json (Value)

/-- What a command can see. -/
structure Surroundings where
  /-- The content of a file, or why it cannot be read. -/
  contentOf : String → Except FileFault String
  stdin : String
  environment : List (String × String)

/-- What a command leaves behind. -/
structure Outcome where
  code : Nat
  stdout : String
  stderr : String
deriving DecidableEq, Repr

/-- Why a command fails. -/
inductive Failure where
  /-- With an error, and with the error behind it, if there is one. -/
  | error (message : String) (cause : Option String)
  /-- With the report of a filter that does not compile. -/
  | diagnostic (text : String)
  /-- With a fault of the program itself. -/
  | crashed (message : String)
deriving DecidableEq, Repr

namespace Failure

/-- A text with all its lines indented. -/
def indented (text : String) : String :=
  .ofList ("    ".toList ++
    text.toList.flatMap fun c => if c = '\n' then "\n    ".toList else [c])

/-- The message that is not printed: it stands for a filter that does not compile, and the report of
that has been printed instead. -/
def silentMessage : String := "filter failed to compile"

/-- What is printed.  Whatever has the silent message is not announced, so that a filter which raises
just this message fails without a word. -/
def text : Failure → String
  | .error message cause =>
    if message = silentMessage then ""
    else
      match cause with
      | none => "Error: " ++ message ++ "\n"
      | some cause => "Error: " ++ message ++ "\n\nCaused by:\n" ++ indented cause ++ "\n"
  | .diagnostic text => text
  | .crashed message => message ++ "\n"

/-- The code that the program ends with. -/
def code : Failure → Nat
  | .crashed _ => 101
  | _ => 1

/-- The failure of an evaluation. -/
def ofExecError (e : ExecError) : Failure :=
  match e.diagnostic? with
  | some text => .diagnostic text
  | none => .error e.message e.cause?

end Failure

/-- A command under way. -/
structure Shell where
  executor : Executor CompiledFilter
  stdout : String := ""
  stderr : String := ""

/-- What a command does. -/
abbrev Work (α : Type) := ExceptT Failure (StateM Shell) α

namespace Work

/-- Prints to the standard output. -/
def print (text : String) : Work Unit := modify fun s => { s with stdout := s.stdout ++ text }

/-- Prints to the standard error output. -/
def printError (text : String) : Work Unit := modify fun s => { s with stderr := s.stderr ++ text }

/-- Fails with an error. -/
def fail {α : Type} (message : String) (cause : Option String := none) : Work α :=
  throw (.error message cause)

/-- Does something with the executor. -/
def session {α : Type} (action : Session CompiledFilter α) : Work α := do
  let s ← get
  let (result, executor) := action.run.run s.executor
  set { s with executor }
  match result with
  | .ok a => return a
  | .error (.crashed message) => throw (.crashed message)
  | .error .stuck => throw (.crashed "the filter is in use")

/-- Reads a file. -/
def readPath (w : Surroundings) (complaint path : String) : Work String :=
  match w.contentOf path with
  | .ok text => return text
  | .error why => fail (complaint ++ path) (some why.message)

/-- Reads a file or, without a name, the standard input. -/
def readInput (w : Surroundings) : Option String → Work String
  | some path => readPath w "failed to read " path
  | none => return w.stdin

/-- Reads a JSON text; the complaint about it names what it is. -/
def readJson (complaint text : String) : Work Value :=
  match Value.ofText text with
  | .ok v => return v
  | .error e => fail complaint (some e.message)

/-- What the evaluations of a command may do. -/
def terms (args : EvalArgs) : Work Terms := do
  match args.timeout with
  | none => return { enableEnv := args.enableEnv }
  | some seconds =>
    if !seconds.isFinite || seconds.le .zero then
      fail s!"--timeout must be a positive number of seconds, got {seconds.plainText}"
    else
      match Duration.ofSeconds seconds with
      | .ok d => return { timeout := some d, enableEnv := args.enableEnv }
      | .error fault => throw (.crashed fault.message)

/-- Prints a value with one part a line; a string may be printed as it is. -/
def printValue (raw : Bool) (v : Value) : Work Unit :=
  match v, raw with
  | .string text, true => print (text ++ "\n")
  | v, _ => print (v.pretty ++ "\n")

/-! ### Commands -/

/-- Prints the first value of a filter. -/
def eval (w : Surroundings) (filter : String) (file : Option String) (onWorker raw : Bool)
    (args : EvalArgs) : Work Unit := do
  let json ← readInput w file
  let terms ← terms args
  let way := if onWorker then Executor.evaluateOnWorker else Executor.evaluate
  match ← session (way json filter terms) with
  | .ok (some v) => printValue raw v
  | .ok none => return ()
  | .error e => throw (.ofExecError e)

/-- Prints a rendered template. -/
def render (w : Surroundings) (template : String) (file : Option String) (args : EvalArgs) :
    Work Unit := do
  let text ← readPath w "failed to read template " template
  let templateValue ← readJson s!"template {template} is not valid JSON" text
  let input ← readJson "input is not valid JSON" (← readInput w file)
  let terms ← terms args
  match ← session (Executor.renderWith Executor.evaluate input templateValue terms) with
  | .ok v => printValue false v
  | .error e => fail e.message

/-- The lines of a text; a carriage return before the end of a line does not belong to it. -/
def linesOf (text : List Char) : List (List Char) :=
  let pieces := Text.splitOn text ['\n']
  let ended := pieces.dropLast.map fun line => (Text.dropEnd? ['\r'] line).getD line
  match pieces.getLast? with
  | none => []
  | some [] => ended
  | some last => ended ++ [last]

/-- The lines that are not blank, with their numbers from one. -/
def numberedLines (text : String) : List (Nat × String) :=
  ((linesOf text.toList).zipIdx 1).filterMap fun (line, number) =>
    if (Text.trim line).isEmpty then none else some (number, .ofList line)

/-- Evaluates a filter on lines in order. -/
def evaluateLines (filter : String) (terms : Terms) :
    List (Nat × String) → Work (List (Nat × Evaluation))
  | [] => return []
  | (number, json) :: rest => do
    let result ← session (Executor.evaluate json filter terms)
    return (number, result) :: (← evaluateLines filter terms rest)

/-- Prints the results of lines; gives the number of those that failed. -/
def printResults : List (Nat × Evaluation) → Work Nat
  | [] => return 0
  | (_, .ok none) :: rest => printResults rest
  | (_, .ok (some v)) :: rest => do
    print (v.compact ++ "\n")
    printResults rest
  | (number, .error e) :: rest => do
    printError s!"error line {number}: {e.message}\n"
    return (← printResults rest) + 1

/-- Prints the results of some lines and fails if one of them has failed; a filter that does not compile
fails on every line, and is reported once. -/
def reportResults (results : List (Nat × Evaluation)) : Work Unit :=
  match results with
  | (_, .error (.compile e)) :: _ => throw (.ofExecError (.compile e))
  | _ => do
    let failures ← printResults results
    if 0 < failures then fail s!"{failures} of {results.length} inputs failed"

/-- Prints the first value of a filter for every line of a file. -/
def batch (w : Surroundings) (filter file : String) (args : EvalArgs) : Work Unit := do
  let terms ← terms args
  let text ← readPath w "failed to read " file
  reportResults (← evaluateLines filter terms (numberedLines text))

/-! ### Statistics -/

/-- A line of the statistics. -/
def statsLine (title text : String) : String :=
  .ofList (List.replicate (16 - title.length) ' ') ++ title ++ ": " ++ text ++ "\n"

/-- A duration in milliseconds with two places. -/
def milliseconds (d : Duration) : String :=
  let hundredths := roundQuotient d.nanoseconds 10000
  let fraction := decimalDigits (hundredths % 100)
  let shown := decimalDigits (hundredths / 100) ++
    '.' :: (List.replicate (2 - fraction.length) '0' ++ fraction)
  .ofList (List.replicate (6 - shown.length) ' ' ++ shown) ++ " ms"

/-- Prints what the executor has counted. -/
def printStats : Work Unit := do
  let x := (← get).executor
  let s := x.cache.stats
  print ("[Cache]\n" ++
    statsLine "Entries" s!"{s.entries}/{s.capacity}" ++
    statsLine "Hits" (toString s.counts.hits) ++
    statsLine "Misses" (toString s.counts.misses) ++
    statsLine "Evictions" (toString s.counts.evictions) ++
    statsLine "Compile time" (milliseconds s.counts.compileTime))
  print ("[Workers]\n" ++
    statsLine "Spawned" (toString x.tasks.spawned) ++
    statsLine "Completed" (toString x.tasks.completed) ++
    statsLine "Panicked" (toString x.tasks.failed) ++
    statsLine "Lock waits" (toString x.locks.contended))

/-- What is left behind when the work is done with an executor. -/
def outcome (work : Work Unit) (executor : Executor CompiledFilter) : Outcome :=
  let (result, shell) := work.run.run { executor }
  match result with
  | .ok () => ⟨0, shell.stdout, shell.stderr⟩
  | .error f => ⟨f.code, shell.stdout, shell.stderr ++ f.text⟩

end Work

/-! ### Whole command lines -/

/-- Runs a command, and prints the statistics if it succeeds and they are wanted. -/
def Invocation.work (i : Invocation) (w : Surroundings) : Work Unit := do
  match i.command with
  | .eval filter file onWorker raw args => Work.eval w filter file onWorker raw args
  | .render template file args => Work.render w template file args
  | .batch filter file args => Work.batch w filter file args
  if i.stats then Work.printStats

/-- The settings of the executor: those of the environment, changed by those of the command line. -/
def Invocation.config (i : Invocation) (w : Surroundings) : Except ConfigError Config := do
  let c ← Config.withEnvironment {} fun name => w.environment.lookup name
  let c := { c with
    workers := i.workers.getD c.workers
    cacheCapacity := i.cacheCapacity.getD c.cacheCapacity
    sweepPolicy := i.sweepPolicy.getD c.sweepPolicy }
  c.validate
  return c

/-- The executor of an invocation. -/
def Invocation.executor (i : Invocation) (w : Surroundings) :
    Except ConfigError (Executor CompiledFilter) := do
  Executor.create (.filters (environmentValue w.environment)) (← i.config w)

/-- Runs an invocation. -/
def Invocation.run (i : Invocation) (w : Surroundings) : Outcome :=
  match i.executor w with
  | .error e => ⟨1, "", (Failure.error e.message none).text⟩
  | .ok executor => (i.work w).outcome executor

/-- Does what a command line asks for. -/
def execute (words : List String) (w : Surroundings) : Outcome :=
  match Request.ofWords words with
  | .print text => ⟨0, text, ""⟩
  | .misuse usage => ⟨2, "", "error: the command line cannot be understood\n\nUsage: " ++ usage ++
      "\n\nFor more information, try '--help'.\n"⟩
  | .run invocation => invocation.run w

end JsonFilter.Cli
