import JsonFilter.Cli.Run

/-!
# The program

Collects what the command line needs from the world, lets `Cli.execute` do the work, and prints what
comes of it.
-/

namespace JsonFilter

/-- The files that a command line asks to be read. -/
def Cli.Request.files : Cli.Request → List String
  | .run i =>
    match i.command with
    | .eval _ file _ _ _ => file.toList
    | .render template file _ => template :: file.toList
    | .batch _ file _ => [file]
  | _ => []

/-- Whether a command line asks for the standard input. -/
def Cli.Request.wantsInput : Cli.Request → Bool
  | .run i =>
    match i.command with
    | .eval _ none _ _ _ => true
    | .render _ none _ => true
    | _ => false
  | _ => false

/-- Why a file cannot be read.  Opening names the file, reading does not. -/
def Cli.FileFault.ofError : IO.Error → Cli.FileFault
  | .noFileOrDirectory _ _ _ => .missing
  | .permissionDenied _ _ _ => .denied
  | .inappropriateType (some _) _ _ => .notDirectory
  | .inappropriateType none _ _ => .isDirectory
  | e => .other (toString e)

/-- Reads a file; a failure is part of the result. -/
def readNamed (path : String) : IO (String × Except Cli.FileFault String) := do
  match ← (IO.FS.readBinFile path).toBaseIO with
  | .ok bytes =>
    match String.fromUTF8? bytes with
    | some text => return (path, .ok text)
    | none => return (path, .error .notText)
  | .error e => return (path, .error (.ofError e))

/-- The variables of the environment in their order. -/
def readEnvironment : IO (List (String × String)) := do
  match ← (IO.FS.readFile "/proc/self/environ").toBaseIO with
  | .error _ => return []
  | .ok text =>
    let bindings := Text.splitOn text.toList ['\x00']
    return bindings.filterMap fun v =>
      match v.dropWhile (· ≠ '=') with
      | _ :: value => some (.ofList (v.takeWhile (· ≠ '=')), .ofList value)
      | [] => none

end JsonFilter

open JsonFilter in
/-- Runs a command line. -/
def main (words : List String) : IO UInt32 := do
  let request := Cli.Request.ofWords words
  let files ← request.files.mapM readNamed
  let stdin ← if request.wantsInput then (← IO.getStdin).readToEnd else pure ""
  let outcome := Cli.execute words
    { contentOf := fun path =>
        (files.lookup path).getD (.error .missing)
      stdin
      environment := ← readEnvironment }
  IO.print outcome.stdout
  IO.eprint outcome.stderr
  return .ofNat outcome.code
