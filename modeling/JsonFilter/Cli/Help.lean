import JsonFilter.Cli.Arguments

/-!
# Help texts

The help of a command lists what may stand on its command line.  The explanation of an entry stands
beside it; if one of them is too long for that, the explanations of the whole list stand below their
entries.
-/

namespace JsonFilter.Cli

/-- An entry of a list in a help text. -/
structure HelpEntry where
  /-- What stands before the name. -/
  lead : String := ""
  name : String
  help : String

namespace HelpEntry

/-- The width of a help text. -/
def lineWidth : Nat := 100

/-- Whether an explanation is too long to stand beside names of the given width. -/
def isTooLong (e : HelpEntry) (width : Nat) : Bool :=
  let taken := width + 12
  40 < taken && lineWidth < taken + e.help.length

/-- The line of an entry beside others whose names have at most the given width. -/
def besideText (width : Nat) (e : HelpEntry) : String :=
  "  " ++ e.lead ++ e.name ++ .ofList (List.replicate (width + 2 - e.name.length) ' ') ++ e.help

/-- The lines of an entry with the explanation below. -/
def belowText (e : HelpEntry) : String := "  " ++ e.lead ++ e.name ++ "\n          " ++ e.help

/-- The lines of a list. -/
def listText (entries : List HelpEntry) : String :=
  let width := (entries.map fun e => e.name.length).foldl max 2
  let line := if entries.any (·.isTooLong width) then belowText else besideText width
  "\n".intercalate (entries.map line)

end HelpEntry

/-- A command with its help. -/
structure CommandHelp where
  about : String
  usage : String
  commands : List HelpEntry := []
  positionals : List HelpEntry := []
  options : List HelpEntry := []

/-- A list under its title, unless it is empty. -/
def titledList? (title : String) (entries : List HelpEntry) : Option String :=
  if entries.isEmpty then none else some (title ++ ":\n" ++ HelpEntry.listText entries)

/-- The whole help text. -/
def CommandHelp.text (h : CommandHelp) : String :=
  let lists := [titledList? "Commands" h.commands, titledList? "Arguments" h.positionals,
    titledList? "Options" h.options].filterMap id
  "\n\n".intercalate ([h.about, "Usage: " ++ h.usage] ++ lists) ++ "\n"

/-- The entry of an option, for a list in which some options have a letter too. -/
def OptionSpec.entry (o : OptionSpec) : HelpEntry :=
  { lead := "    "
    name := "--" ++ o.name ++ (o.valueName.elim "" fun v => " <" ++ v ++ ">")
    help := o.help }

/-- The entry of a positional word. -/
def PositionalSpec.entry (p : PositionalSpec) : HelpEntry :=
  { name := if p.required then "<" ++ p.name ++ ">" else "[" ++ p.name ++ "]", help := "" }

/-- Options of several lists: first those that are first in their lists, in the order of their names,
then those that are second, and so on. -/
def interleave (lists : List (List OptionSpec)) : List OptionSpec :=
  let numbered := (lists.map fun os => os.zipIdx).flatten
  let sorted := numbered.mergeSort fun a b =>
    a.2 < b.2 || (a.2 == b.2 && decide (a.1.name ≤ b.1.name))
  sorted.map Prod.fst

/-- The entry of the option that asks for help. -/
def helpEntry : HelpEntry := ⟨"-h, ", "--help", "Print help"⟩

/-- The entry of the option that asks for the version. -/
def versionEntry : HelpEntry := ⟨"-V, ", "--version", "Print version"⟩

end JsonFilter.Cli
