import Mcs51.Journal
import Mcs51.Settings.Read

/-! # Requests

What the arguments of the program ask for. Options may stand before or after the source,
single-letter options may share a dash, and a value may be attached to its option or follow it;
after `--` everything is a source. An argument that looks like an option is never taken as the value
of another. -/

namespace Mcs51.CommandLine

/-- An option of the program. -/
inductive Choice where
  | output
  | settings
  | define
  | directory
  | maxRounds
  | dependencies
  | symbols
  | level
  | help
  | version
deriving DecidableEq, Repr

namespace Choice

/-- The option behind a single letter. -/
def ofLetter? (c : Char) : Option Choice :=
  match c with
  | 'o' => some output
  | 'c' => some settings
  | 'D' => some define
  | 'I' => some directory
  | 'M' => some dependencies
  | 'g' => some symbols
  | 'l' => some level
  | 'h' => some help
  | 'V' => some version
  | _ => none

/-- The options by their long names. -/
def longNames : List (Text × Choice) :=
  [("output".toList, output), ("config".toList, settings), ("define".toList, define),
   ("include".toList, directory), ("max-passes".toList, maxRounds), ("symbols".toList, symbols),
   ("log-level".toList, level), ("help".toList, help), ("version".toList, version)]

/-- The option takes a value. -/
def takesValue : Choice → Bool
  | dependencies | help | version => false
  | _ => true

end Choice

/-- Why arguments make no request. -/
inductive Usage where
  /-- They ask for the manual. -/
  | help
  /-- They ask for the version. -/
  | version
  | invalid
deriving DecidableEq, Repr

/-- What has been asked for so far. -/
structure Draft where
  source : Option Text := none
  output : Option Text := none
  settings : Option Text := none
  defines : List (Text × Text) := []
  directories : List Text := []
  maxRounds : Option Nat := none
  dependencies : Bool := false
  symbols : Option Text := none
  level : Option Level := none
deriving DecidableEq, Repr

/-- What a run is to do. -/
structure Request where
  source : Text
  output : Option Text
  settings : Option Text
  defines : List (Text × Text)
  directories : List Text
  maxRounds : Option Nat
  /-- Write the files that the source includes, in place of the hex file. -/
  dependencies : Bool
  symbols : Option Text
  level : Level
deriving DecidableEq, Repr

/-! ### Values -/

/-- One past the largest number that an option takes. -/
def numberBound : Nat := 18446744073709551616

/-- The number that an option is given. -/
def readNumber? (t : Text) : Option Nat := (Text.read 10 numberBound t).toOption

/-- A level by its name, letter case aside, or by its number. -/
def readLevel? (t : Text) : Option Level :=
  match readNumber? t with
  | some n => Level.all.find? fun l => l.rank == n
  | none => Level.all.find? fun l => l.name.sameWord t

/-- Sets what may be set only once. -/
def once (old : Option α) (new : Option α) : Except Usage (Option α) :=
  match old, new with
  | none, some a => .ok (some a)
  | _, _ => .error .invalid

/-- A path, which is never empty. -/
def path? (t : Text) : Option Text := if t.isEmpty then none else some t

namespace Draft

/-- Gives an option its value. -/
def assign (d : Draft) (choice : Choice) (value : Text) : Except Usage Draft :=
  match choice with
  | .output => (once d.output (path? value)).map fun v => { d with output := v }
  | .settings => (once d.settings (path? value)).map fun v => { d with settings := v }
  | .symbols => (once d.symbols (path? value)).map fun v => { d with symbols := v }
  | .level => (once d.level (readLevel? value)).map fun v => { d with level := v }
  | .maxRounds =>
    (once d.maxRounds (readNumber? value)).map fun v => { d with maxRounds := v }
  | .define =>
    match Settings.readDefine value with
    | .ok p => .ok { d with defines := d.defines ++ [p] }
    | .error _ => .error .invalid
  | .directory =>
    match path? value with
    | some p => .ok { d with directories := d.directories ++ [p] }
    | none => .error .invalid
  | _ => .error .invalid

/-- Takes an option without a value. -/
def mark (d : Draft) (choice : Choice) : Except Usage Draft :=
  match choice with
  | .dependencies => if d.dependencies then .error .invalid else .ok { d with dependencies := true }
  | .help => .error .help
  | .version => .error .version
  | _ => .error .invalid

/-- Takes a source, of which there is one. -/
def addSource (d : Draft) (arg : Text) : Except Usage Draft :=
  (once d.source (path? arg)).map fun v => { d with source := v }

/-- The request, once every argument is taken. -/
def finish (d : Draft) : Except Usage Request :=
  match d.source with
  | none => .error .invalid
  | some source =>
    .ok ⟨source, d.output, d.settings, d.defines, d.directories, d.maxRounds, d.dependencies,
      d.symbols, d.level.getD .info⟩

end Draft

/-! ### Arguments -/

/-- Where the reading of arguments stands. -/
structure Reading where
  draft : Draft
  /-- An option that waits for its value. -/
  waiting : Option Choice
  /-- No more options follow. -/
  plain : Bool

namespace Reading

/-- Takes letters that share a dash. What follows an option with a value is the value. -/
def letters (d : Draft) : Text → Except Usage Reading
  | [] => .ok ⟨d, none, false⟩
  | c :: rest =>
    match Choice.ofLetter? c with
    | none => .error .invalid
    | some choice =>
      if choice.takesValue then
        match rest with
        | [] => .ok ⟨d, some choice, false⟩
        | '=' :: value => (d.assign choice value).map fun d => ⟨d, none, false⟩
        | value => (d.assign choice value).map fun d => ⟨d, none, false⟩
      else
        match d.mark choice with
        | .error e => .error e
        | .ok d => letters d rest

/-- Takes a long option, without its dashes. -/
def long (d : Draft) (arg : Text) : Except Usage Reading :=
  let name := arg.takeWhile (· != '=')
  match Choice.longNames.lookup name, arg.dropWhile (· != '=') with
  | none, _ => .error .invalid
  | some choice, [] =>
    if choice.takesValue then .ok ⟨d, some choice, false⟩
    else (d.mark choice).map fun d => ⟨d, none, false⟩
  | some choice, _ :: value =>
    if choice.takesValue then (d.assign choice value).map fun d => ⟨d, none, false⟩
    else .error .invalid

/-- Takes one argument. -/
def step (r : Reading) (arg : Text) : Except Usage Reading :=
  let plainly := fun () =>
    match r.waiting with
    | some choice => (r.draft.assign choice arg).map fun d => ⟨d, none, false⟩
    | none => (r.draft.addSource arg).map fun d => { r with draft := d }
  if r.plain then (r.draft.addSource arg).map fun d => { r with draft := d }
  else
    match arg with
    | ['-'] => plainly ()
    | '-' :: rest =>
      if r.waiting.isSome then .error .invalid
      else
        match rest with
        | ['-'] => .ok { r with plain := true }
        | '-' :: name => long r.draft name
        | _ => letters r.draft rest
    | _ => plainly ()

/-- Takes arguments up to the first that makes no sense. -/
def all (r : Reading) : List Text → Except Usage Reading
  | [] => .ok r
  | arg :: rest =>
    match r.step arg with
    | .error e => .error e
    | .ok r => r.all rest

end Reading

/-- The request that arguments make. -/
def Request.ofArgs (args : List Text) : Except Usage Request :=
  match Reading.all ⟨{}, none, false⟩ args with
  | .error e => .error e
  | .ok r => if r.waiting.isSome then .error .invalid else r.draft.finish

end Mcs51.CommandLine
