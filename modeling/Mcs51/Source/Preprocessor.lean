import Mcs51.Disk.Basic
import Mcs51.Journal
import Mcs51.Settings.Basic
import Mcs51.Source.FileStack
import Mcs51.Source.Region
import Mcs51.Source.Replacement
import Mcs51.Source.Splice
import Mcs51.Walk

/-! # The preprocessor

Directives are taken out of a source in rounds. A round first looks for lines that include a file
(`includeLines`) and puts the text of the file between markers. If there was one, the round is over:
every included file is in place before anything is replaced. Otherwise the round joins lines, then
reads definitions and applies them to the lines after them (`expandLines`). The rounds end when no
directive is left.

Each line that is taken out leaves a filler, so a line keeps its number. Both kinds of step read
lines through a `Reader`, which tells markers and inactive lines from active ones. -/

namespace Mcs51.Source

/-! ### Directives -/

/-- The word that includes a file. -/
def includeWord : Text := "#include".toList

/-- The word that defines a replacement. -/
def defineWord : Text := "#define".toList

/-- The words that mark a line as one for the preprocessor. -/
def directiveWords : List Text :=
  [includeWord, defineWord, "#ifdef".toList, "#ifndef".toList, "#else".toList, "#endif".toList]

/-- The line that takes the place of one that included a file. -/
def includeFiller : Text := "; #include".toList

/-- The line that takes the place of a definition. -/
def defineFiller : Text := "; #define".toList

/-- The line that takes the place of a conditional directive or of an inactive line. -/
def regionFiller : Text := "; #if".toList

/-- Some line still carries a directive. -/
def needsPreprocessing (lines : List Text) : Bool :=
  lines.any fun line =>
    (Marker.ofLine? line).isNone && directiveWords.any fun w => line.code.mentions w

/-- The definition on a line: an identifier, then the text up to the end of the code. -/
def definition (code : Text) : Except Problem Replacement :=
  let rest := Text.trim ((code.after? defineWord).getD [])
  let name := Text.firstField rest
  if name.isIdent then .ok ⟨name, Text.trim (Text.afterField rest)⟩
  else .error (.invalidDefinition name)

/-- What stands between two signs at the ends of a text. -/
def between? (first last : Char) (text : Text) : Option Text :=
  match text with
  | [] => none
  | c :: rest => if c = first ∧ rest.getLast? = some last then some rest.dropLast else none

/-- The name of the file that a line includes, without blanks and without the signs around it. -/
def includedName? (code : Text) : Option Text :=
  match code.after? includeWord with
  | none => none
  | some arg =>
    let arg := Text.removeBlanks arg
    let name := ((between? '<' '>' arg).or (between? '"' '"' arg)).getD arg
    if name.isEmpty then none else some name

/-! ### Reading lines -/

/-- Where reading stands: the file stack, the open regions and the names defined, in upper case. -/
structure Reader where
  stack : FileStack
  regions : Regions
  defined : List Text
deriving DecidableEq, Repr

/-- What a line is to a round. -/
inductive Role where
  | marker
  /-- A conditional directive, or a line in a region that is not active. -/
  | inactive
  | active
deriving DecidableEq, Repr

namespace Reader

/-- Before the first line of a file. -/
def start (file : Text) (defined : List Text) : Reader := ⟨.start file, [], defined⟩

/-- Takes a line and tells what it is. -/
def step (r : Reader) (line : Text) : Reader × Except Stop Role :=
  match r.stack.step line with
  | (stack, .error e) => ({ r with stack := stack }, .error e)
  | (stack, .ok true) => ({ r with stack := stack }, .ok .marker)
  | (stack, .ok false) =>
    let r := { r with stack := stack }
    match r.regions.directive r.defined line.code with
    | .error p => (r, .error (.error ⟨p, some stack.pos⟩))
    | .ok (some regions) => ({ r with regions := regions }, .ok .inactive)
    | .ok none => (r, .ok (if r.regions.active then .active else .inactive))

/-- Adds a name to those defined. -/
def define (r : Reader) (name : Text) : Reader := { r with defined := name.upper :: r.defined }

end Reader

/-! ### State -/

/-- What the preprocessor knows from one source to the next. -/
structure Preprocessor where
  /-- Directories searched for included files, in order. -/
  roots : List Text
  maxRounds : Nat
  /-- Replacements in effect before the first line. -/
  predefined : List Replacement
  /-- Replacements defined so far, in order. -/
  stored : List Replacement
  /-- Paths of the files included, each once, in the order of the first inclusion. -/
  included : List Text
  /-- Paths looked for, whether found or not. -/
  asked : Array Text
  journal : Array Note
deriving Repr

namespace Preprocessor

/-- A preprocessor before its first source. -/
def start (settings : Settings) : Preprocessor where
  roots := settings.systemDirectory :: Path.here :: settings.directories
  maxRounds := max settings.maxRounds 1
  predefined := settings.defines.map fun p => ⟨p.1, p.2⟩
  stored := []
  included := []
  asked := #[]
  journal := #[]

/-- The names that are defined before the first line of a round, in upper case. -/
def defined (p : Preprocessor) : List Text :=
  (p.predefined ++ p.stored).map fun r => r.name.upper

/-- Adds a note. -/
def note (p : Preprocessor) (level : Level) (words : Text) : Preprocessor :=
  { p with journal := p.journal.push ⟨level, .preprocessing, words⟩ }

/-- Adds a replacement to those stored. -/
def store (p : Preprocessor) (r : Replacement) : Preprocessor :=
  { p with stored := p.stored ++ [r] }

/-- Adds a path to those included, unless it is there in some spelling. -/
def addIncluded (p : Preprocessor) (path : Text) : Preprocessor :=
  if p.included.any (Path.same path) then p else { p with included := p.included ++ [path] }

/-- Notes that the file at a path is put in. -/
def takeIn (p : Preprocessor) (path : Text) : Preprocessor :=
  (p.note .trace ("including ".toList ++ path)).addIncluded path

/-- The paths under which a name is looked for. -/
def candidates (p : Preprocessor) (name : Text) : List Text := p.roots.map fun r => Path.join r name

/-- Adds the paths for a name to those looked for. -/
def ask (p : Preprocessor) (name : Text) : Preprocessor :=
  { p with asked := p.asked ++ p.candidates name }

/-- The first file found for a name, with its path. -/
def find? (p : Preprocessor) (d : Disk) (name : Text) : Option (Text × Text) :=
  (p.candidates name).findSome? fun path => (d.readText path).toOption.map fun t => (path, t)

/-- A line of new source, with the predefined replacements applied to its code. A line whose code
starts with `#` is left alone, for the sake of the words and names in it. -/
def enterLine (p : Preprocessor) (line : Text) : Except Fault Text :=
  if line.code.trimStart.head? = some '#' then .ok line
  else (Replacement.expandAll p.predefined line.code).map (· ++ line.comment)

/-- The lines of new source, with the predefined replacements applied. -/
def enter (p : Preprocessor) (source : Text) : Except Fault (List Text) :=
  source.lines.mapM p.enterLine

end Preprocessor

/-! ### Inclusion -/

/-- The state of an inclusion: what it has read and written, and how many files it has put in. -/
structure Inclusion where
  pre : Preprocessor
  reader : Reader
  out : Array Text
  count : Nat

namespace Inclusion

/-- Keeps a line as it is. -/
def keep (s : Inclusion) (line : Text) : Inclusion := { s with out := s.out.push line }

/-- Puts the text of the file that a name leads to between markers. -/
def insert (d : Disk) (s : Inclusion) (name : Text) : Inclusion × Option Stop :=
  let pos := s.reader.stack.pos
  let s := { s with pre := s.pre.ask name }
  match s.pre.find? d name with
  | none => (s, some (.error ⟨.cannotFind name, some pos⟩))
  | some (path, text) =>
    let pre := s.pre.takeIn path
    match pre.enter text with
    | .error f => ({ s with pre := pre }, some (.fault f))
    | .ok lines =>
      ({ s with
          pre := pre
          out := (((s.out.push includeFiller).push (Marker.enter name).line) ++ lines).push
            (Marker.leave name).line
          count := s.count + 1 },
        none)

/-- Takes an active line. -/
def active (d : Disk) (s : Inclusion) (line : Text) : Inclusion × Option Stop :=
  if line.code.mentions defineWord then
    match definition line.code with
    | .ok r => ({ s with reader := s.reader.define r.name }.keep line, none)
    | .error _ => (s.keep line, none)
  else if line.code.mentions includeWord then
    match includedName? line.code with
    | none => (s, some (.error ⟨.includeWithoutName, some s.reader.stack.pos⟩))
    | some name => s.insert d name
  else (s.keep line, none)

/-- Takes a line: an active one that includes a file is replaced by the text of the file. -/
def step (d : Disk) (s : Inclusion) (line : Text) : Inclusion × Option Stop :=
  match s.reader.step line with
  | (reader, .error e) => ({ s with reader := reader }, some e)
  | (reader, .ok .active) => { s with reader := reader }.active d line
  | (reader, .ok _) => ({ s with reader := reader }.keep line, none)

end Inclusion

/-- An inclusion before its first line. -/
def Inclusion.start (p : Preprocessor) (file : Text) : Inclusion :=
  ⟨p, .start file p.defined, #[], 0⟩

/-- Puts in the files that the lines include, one level deep. -/
def includeLines (d : Disk) (p : Preprocessor) (file : Text) (lines : List Text) :
    Preprocessor × Except Stop (List Text × Nat) :=
  match walk (Inclusion.step d) (.start p file) lines with
  | (s, none) => (s.pre, .ok (s.out.toList, s.count))
  | (s, some e) => (s.pre, .error e)

/-! ### Expansion -/

/-- The state of an expansion. -/
structure Expansion where
  pre : Preprocessor
  reader : Reader
  out : Array Text

namespace Expansion

/-- Writes a line. -/
def keep (s : Expansion) (line : Text) : Expansion := { s with out := s.out.push line }

/-- Stores a definition. Its text is expanded first, by what is predefined and by what was stored
before it. -/
def define (s : Expansion) (code : Text) : Expansion × Option Stop :=
  let pos := s.reader.stack.pos
  match definition code with
  | .error p => (s, some (.error ⟨p, some pos⟩))
  | .ok r =>
    match Replacement.expandAll (s.pre.predefined ++ s.pre.stored) r.expansion with
    | .error f => (s, some (.fault f))
    | .ok expansion =>
      let pre := s.pre.note .trace
        (pos.text ++ ": define ".toList ++ r.name ++ " = ".toList ++ expansion)
      ({ s with pre := pre.store ⟨r.name, expansion⟩, reader := s.reader.define r.name }.keep
        defineFiller, none)

/-- Takes an active line. -/
def active (s : Expansion) (line : Text) : Expansion × Option Stop :=
  if line.code.mentions defineWord then s.define line.code
  else
    match Replacement.expandAll s.pre.stored line.code with
    | .error f => (s, some (.fault f))
    | .ok code => (s.keep (code ++ line.comment), none)

/-- Takes a line: definitions are stored, other active lines are expanded. -/
def step (s : Expansion) (line : Text) : Expansion × Option Stop :=
  match s.reader.step line with
  | (reader, .error e) => ({ s with reader := reader }, some e)
  | (reader, .ok .marker) => ({ s with reader := reader }.keep line, none)
  | (reader, .ok .inactive) => ({ s with reader := reader }.keep regionFiller, none)
  | (reader, .ok .active) => { s with reader := reader }.active line

end Expansion

/-- An expansion before its first line. -/
def Expansion.start (p : Preprocessor) (file : Text) : Expansion :=
  ⟨p, .start file p.defined, #[]⟩

/-- Reads the definitions in the lines and applies them. Every region has to be closed at last. -/
def expandLines (p : Preprocessor) (file : Text) (lines : List Text) :
    Preprocessor × Except Stop (List Text) :=
  match walk Expansion.step (.start p file) lines with
  | (s, none) =>
    if s.reader.regions.isEmpty then (s.pre, .ok s.out.toList)
    else (s.pre, .error (.error ⟨.unterminatedIf, some s.reader.stack.pos⟩))
  | (s, some e) => (s.pre, .error e)

/-! ### Rounds -/

namespace Preprocessor

/-- Notes that a round begins, after which so many are left. -/
def announce (p : Preprocessor) (left : Nat) : Preprocessor :=
  p.note .trace ("preprocessor pass ".toList ++ Text.decimal (p.maxRounds - left))

/-- Notes that no directive is left. -/
def settle (p : Preprocessor) (left : Nat) : Preprocessor :=
  p.note .debug
    ("preprocessing settled after ".toList ++ Text.decimal (p.maxRounds - left) ++ " passes".toList)

/-- Takes directives out of lines in rounds, of which so many are left. -/
def rounds (d : Disk) (file : Text) :
    Nat → Preprocessor → List Text → Preprocessor × Except Stop (List Text)
  | 0, p, _ => (p, .error (.ofProblem (.unsettled file p.maxRounds)))
  | left + 1, p, lines =>
    match includeLines d (p.announce left) file lines with
    | (p, .error e) => (p, .error e)
    | (p, .ok (lines, count)) =>
      if count ≠ 0 then rounds d file left p lines
      else
        match expandLines p file (splice lines) with
        | (p, .error e) => (p, .error e)
        | (p, .ok lines) =>
          if needsPreprocessing lines then rounds d file left p lines
          else (p.settle left, .ok lines)

/-- The lines of a source without directives. -/
def processText (d : Disk) (p : Preprocessor) (file source : Text) :
    Preprocessor × Except Stop (List Text) :=
  match p.enter source with
  | .error f => (p, .error (.fault f))
  | .ok lines => rounds d file p.maxRounds p lines

/-- The lines of a source file without directives. -/
def processFile (d : Disk) (p : Preprocessor) (path : Text) :
    Preprocessor × Except Stop (List Text) :=
  let p := { p with asked := p.asked.push path }
  match d.readText path with
  | .error r => (p, .error (.ofProblem (.cannotOpen path r)))
  | .ok source => p.processText d path source

end Preprocessor

end Mcs51.Source
