/-!
# Reading command lines

A command line is a list of words.  Words that start with two hyphens are options; an option that
takes a value has it behind an equals sign or in the next word.  The other words are positional, and
behind a lone `--` all words are.

A reading goes from left to right and stops at the first misuse, or where help or the version is
asked for.
-/

namespace JsonFilter.Cli

/-- An option: a switch, or an option with a value. -/
structure OptionSpec where
  name : String
  /-- How the help calls the value; a switch has none. -/
  valueName : Option String := none
  /-- Whether a text can be the value. -/
  accepts : String → Bool := fun _ => true
  help : String

/-- A positional word. -/
structure PositionalSpec where
  name : String
  required : Bool
  accepts : String → Bool := fun _ => true

/-- What may stand on a command line, up to the name of a further command. -/
structure Level where
  options : List OptionSpec
  positionals : List PositionalSpec
  /-- The names of the further commands. -/
  commands : List String
  hasVersion : Bool

/-- Why a reading stops. -/
inductive Stop where
  | help
  | version
  | misuse
deriving DecidableEq, Repr

/-- What was given on a command line. -/
structure Given where
  /-- The options with their values; switches have none. -/
  options : List (String × Option String) := []
  positionals : List String := []
deriving DecidableEq, Repr

namespace Given

/-- Whether an option was given. -/
def has (g : Given) (name : String) : Bool := (g.options.lookup name).isSome

/-- The value of an option that was given. -/
def value? (g : Given) (name : String) : Option String := (g.options.lookup name).join

/-- What was given here or, where that is missing, there. -/
def orElse (g other : Given) : Given := { g with options := g.options ++ other.options }

end Given

/-- A reading under way: what was given, and the last option that takes a value in the next word,
with that word if it has come. -/
structure Progress where
  given : Given := {}
  pending : Option (OptionSpec × Option String) := none

/-- Where a reading ends: the command that comes next, if any, with the words behind it. -/
abbrev Rest := Option (String × List String)

namespace Progress

/-- Adds an option, which may be given only once. -/
def addOption (p : Progress) (o : OptionSpec) (value : Option String) : Except Stop Progress :=
  if p.given.has o.name || !(value.all o.accepts) then .error .misuse
  else
    .ok { given := { p.given with options := p.given.options ++ [(o.name, value)] }
          pending := none }

/-- Adds the pending option, whose value must have come. -/
def settle (p : Progress) : Except Stop Progress :=
  match p.pending with
  | none => .ok p
  | some (_, none) => .error .misuse
  | some (o, some value) => p.addOption o (some value)

/-- Whether the next word is the value of an option. -/
def isWaiting (p : Progress) : Bool :=
  match p.pending with
  | some (_, none) => true
  | _ => false

/-- Stops, once the pending option is settled. -/
def stop (p : Progress) (reason : Stop) : Except Stop Progress := do
  let _ ← p.settle
  throw reason

/-- Adds a positional word. -/
def addPositional (p : Progress) (level : Level) (word : String) : Except Stop Progress := do
  let p ← p.settle
  match level.positionals[p.given.positionals.length]? with
  | none => throw .misuse
  | some spec =>
    if spec.accepts word then
      return { p with given := { p.given with positionals := p.given.positionals ++ [word] } }
    else throw .misuse

/-- Reads an option by its name, with the text behind an equals sign. -/
def readLong (p : Progress) (level : Level) (name : String) (attached : Option String) :
    Except Stop Progress := do
  match level.options.find? (fun o => o.name = name) with
  | some o =>
    match o.valueName, attached with
    | some _, some value => (← p.settle).addOption o (some value)
    | some _, none => return { (← p.settle) with pending := some (o, none) }
    | none, none => (← p.settle).addOption o none
    | none, some _ => throw .misuse
  | none =>
    match name, attached with
    | "help", none => p.stop .help
    | "version", none => if level.hasVersion then p.stop .version else throw .misuse
    | _, _ => throw .misuse

/-- Reads a word of single-letter options, of which the first one decides. -/
def readShort (p : Progress) (level : Level) (letter : Char) : Except Stop Progress :=
  if letter = 'h' then p.stop .help
  else if letter = 'V' && level.hasVersion then p.stop .version
  else .error .misuse

/-- Reads a word that is no command and not the lone `--`. -/
def readWord (p : Progress) (level : Level) (word : String) : Except Stop Progress :=
  match word.toList with
  | '-' :: '-' :: rest =>
    let name := rest.takeWhile (· ≠ '=')
    let attached := match rest.dropWhile (· ≠ '=') with
      | [] => none
      | _ :: value => some (String.ofList value)
    p.readLong level (.ofList name) attached
  | '-' :: letter :: _ => p.readShort level letter
  | _ =>
    match p.pending with
    | some (o, none) => .ok { p with pending := some (o, some word) }
    | _ => p.addPositional level word

end Progress

/-- Reads words up to the next command; `plain` tells that all words are positional. -/
def readWords (level : Level) : List String → Bool → Progress → Except Stop (Progress × Rest)
  | [], _, p => .ok (p, none)
  | word :: rest, true, p => do readWords level rest true (← p.addPositional level word)
  | word :: rest, false, p =>
    if !p.isWaiting && level.commands.contains word then .ok (p, some (word, rest))
    else if word = "--" then readWords level rest true p
    else do readWords level rest false (← p.readWord level word)

/-- What was given, once everything that must be there is there. -/
def Progress.finish (p : Progress) (level : Level) : Except Stop Given := do
  let p ← p.settle
  if (level.positionals.drop p.given.positionals.length).any (·.required) then throw .misuse
  return p.given

end JsonFilter.Cli
