import Mcs51.Object.HexRecord
import Mcs51.Object.Link
import Mcs51.Object.Session
import Mcs51.Source.Preprocessor

/-! # Assembly

The whole way from a source to its bytes: the preprocessor, a session over its lines, and linking.
Each function gives the notes it made together with its result. -/

namespace Mcs51

open Object Source

/-- A program that is assembled. -/
structure Assembly where
  image : Image
  symbols : Table Text UInt16
  /-- Paths of the files included. -/
  included : List Text
deriving Repr

namespace Assembly

/-- The records of the hex file. -/
def records (a : Assembly) : List HexRecord := hexRecords a.image

/-- The warnings that come with the records. -/
def warnings (a : Assembly) : List Note :=
  (overlaps a.image).map fun p =>
    ⟨.warn, .hexOutput, Text.hexWord p.1 ++ " overlaps or precedes ".toList ++ Text.hexWord p.2⟩

end Assembly

/-- What a run of the assembler gives: its notes, the paths it looked for, and its result. -/
structure Outcome where
  notes : Array Note
  asked : Array Text
  result : Except Stop Assembly

/-- A note of the program itself. -/
def programNote (level : Level) (words : Text) : Note := ⟨level, .program, words⟩

/-- The note that linking makes of an entry it looks at. -/
def linkNote (e : Entry) : Note := ⟨.trace, .secondPass, e.text⟩

/-- Assembles lines without directives, after the preprocessor that made them. -/
def assembleLines (settings : Settings) (p : Preprocessor) (name : Text) (lines : List Text) :
    Outcome :=
  let notes := p.journal.push (programNote .trace "starting pass 1".toList)
  match (Session.start name settings.origin).feed lines with
  | (s, some e) => ⟨notes ++ s.journal, p.asked, .error e⟩
  | (s, none) =>
    let entries := s.entries.toList
    let notes := (notes ++ s.journal).push (programNote .trace "starting pass 2".toList)
      ++ (visited s.symbols entries).map linkNote
    match link s.symbols entries with
    | .error e => ⟨notes, p.asked, .error (.error e)⟩
    | .ok image =>
      ⟨notes.push (programNote .debug (Text.decimal image.length ++ " bytes, ".toList
          ++ Text.decimal s.symbols.length ++ " symbols".toList)),
        p.asked, .ok ⟨image, s.symbols, p.included⟩⟩

/-- Assembles what the preprocessor makes of a source. -/
def assembleWith (settings : Settings) (name : Text)
    (process : Preprocessor → Preprocessor × Except Stop (List Text)) : Outcome :=
  let p := Preprocessor.start settings
  let p := { p with
    journal := p.journal.push (programNote .trace ("preprocessing ".toList ++ name)) }
  match process p with
  | (p, .error e) => ⟨p.journal, p.asked, .error e⟩
  | (p, .ok lines) => assembleLines settings p name lines

/-- Assembles a source text. The name serves for messages only. -/
def assembleSource (d : Disk) (settings : Settings) (name source : Text) : Outcome :=
  assembleWith settings name fun p => p.processText d name source

/-- Assembles a source file. -/
def assembleFile (d : Disk) (settings : Settings) (path : Text) : Outcome :=
  assembleWith settings path fun p => p.processFile d path

end Mcs51
