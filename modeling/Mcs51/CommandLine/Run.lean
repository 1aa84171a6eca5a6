import Mcs51.Assembly
import Mcs51.CommandLine.Request

/-! # Runs

A run of the program on a disk: settings, assembly, then the files asked for. `run` gives a `Report`
of the exit code, the text for the standard output, the notes for the log and the disk afterwards;
notes that nobody asked to hear are left out. -/

namespace Mcs51.CommandLine

/-- What a run leaves behind. -/
structure Report where
  code : Nat
  output : Text
  notes : List Note
  disk : Disk
  /-- Paths looked for. -/
  asked : List Text

/-- A run that has an assembly: what it has said and written, and why it ends early, if it does. -/
structure Writing where
  output : Text
  notes : List Note
  disk : Disk
  failure : Option Text

namespace Writing

/-- Adds notes to a run that goes on. -/
def say (w : Writing) (notes : List Note) : Writing :=
  if w.failure.isSome then w else { w with notes := w.notes ++ notes }

/-- Writes a file, unless the run has ended. -/
def file (w : Writing) (path text : Text) : Writing :=
  if w.failure.isSome then w
  else
    match w.disk.write path text.encode with
    | .ok d => { w with disk := d }
    | .error why =>
      let words := "cant open file ".toList ++ Problem.quoted path ++ ": ".toList ++ why.message
      { w with failure := some words }

/-- Prints a text, unless the run has ended. -/
def print (w : Writing) (text : Text) : Writing :=
  if w.failure.isSome then w else { w with output := w.output ++ text }

end Writing

/-! ### What is written -/

/-- A note of the program at the finest level. -/
def trace (words : Text) : Note := programNote .trace words

/-- The path of the hex file. -/
def Request.hexPath (r : Request) : Text := r.output.getD (Path.withExtension r.source "hex".toList)

/-- One line for each file that the source includes. -/
def dependencyText (hexPath : Text) (a : Assembly) : Text :=
  a.included.flatMap fun path => hexPath ++ ": ".toList ++ path ++ ['\n']

/-- One line for each symbol. -/
def symbolText (a : Assembly) : Text :=
  a.symbols.flatMap fun p => Text.hexWord p.2 ++ ' ' :: p.1 ++ ['\n']

/-- Writes the hex file, or the dependencies in its place. -/
def writeMain (r : Request) (a : Assembly) (w : Writing) : Writing :=
  if r.dependencies then
    let w := w.say [trace "writing dependencies".toList]
    match r.output with
    | some path => w.file path (dependencyText r.hexPath a)
    | none => w.print (dependencyText r.hexPath a)
  else
    (w.say (a.warnings ++ [trace ("writing ".toList ++ r.hexPath)])).file r.hexPath
      (Object.hexText a.image)

/-- Writes the symbols, if they are asked for. -/
def writeSymbols (r : Request) (a : Assembly) (w : Writing) : Writing :=
  match r.symbols with
  | none => w
  | some path => (w.say [trace "writing symbols".toList]).file path (symbolText a)

/-- Sums the run up. The records are made once more for it, if anyone hears. -/
def sumUp (r : Request) (a : Assembly) (w : Writing) : Writing :=
  let summary := programNote .debug (Text.decimal a.records.length ++ " records, ".toList
    ++ Text.decimal a.symbols.length ++ " symbols, ".toList ++ Text.decimal a.included.length
    ++ " includes".toList)
  if summary.heard r.level then w.say (a.warnings ++ [summary]) else w

/-! ### Runs -/

/-- The settings of a run: those of the file, if there is one, and then those of the arguments. -/
def Request.allSettings (r : Request) (d : Disk) : Except Settings.LoadError Settings :=
  let base := match r.settings with
    | some path => Settings.load d path
    | none => .ok {}
  base.map fun s =>
    { s with
      directories := s.directories ++ r.directories
      defines := s.defines.setAll r.defines
      maxRounds := r.maxRounds.getD s.maxRounds }

/-- A report with the notes that are heard, and with a last one if the run failed. -/
def report (r : Request) (w : Writing) (asked : List Text) : Report :=
  let last := w.failure.toList.map (programNote .error)
  { code := if w.failure.isSome then 1 else 0
    output := w.output
    notes := (w.notes ++ last).filter fun n => n.heard r.level
    disk := w.disk
    asked := r.settings.toList ++ asked }

/-- Does what a request asks for. -/
def Request.perform (r : Request) (d : Disk) : Except Fault Report :=
  match r.allSettings d with
  | .error e => .ok (report r ⟨[], [], d, some e.message⟩ [])
  | .ok settings =>
    let outcome := assembleFile d settings r.source
    let notes := outcome.notes.toList
    match outcome.result with
    | .error (.fault f) => .error f
    | .error (.error e) => .ok (report r ⟨[], notes, d, some e.text⟩ outcome.asked.toList)
    | .ok a =>
      let w := sumUp r a (writeSymbols r a (writeMain r a ⟨[], notes, d, none⟩))
      .ok (report r w (outcome.asked.toList ++ r.hexPath :: r.symbols.toList))

/-- The manual. -/
def manual : Text :=
  ("Usage: asm51 [OPTIONS] SOURCE\n\n" ++
    "  -o, --output FILE       output hex file (default: SOURCE with a .hex extension)\n" ++
    "  -c, --config FILE       settings file\n" ++
    "  -D, --define NAME=TEXT  a name that stands for a text (repeatable)\n" ++
    "  -I, --include DIR       a directory to search for included files (repeatable)\n" ++
    "      --max-passes N      preprocessor passes allowed before giving up\n" ++
    "  -M                      write the files that the source includes, not the hex file\n" ++
    "  -g, --symbols FILE      output file for the symbol table\n" ++
    "  -l, --log-level LEVEL   one of TRACE, DEBUG, INFO, WARN or ERROR\n").toList

/-- The name and the version of the program. -/
def versionText : Text := "asm51 0.1.0\n".toList

/-- Runs the program on its arguments. -/
def run (args : List Text) (d : Disk) : Except Fault Report :=
  match Request.ofArgs args with
  | .ok r => r.perform d
  | .error .invalid => .ok ⟨2, [], [], d, []⟩
  | .error .help => .ok ⟨0, manual, [], d, []⟩
  | .error .version => .ok ⟨0, versionText, [], d, []⟩

end Mcs51.CommandLine
