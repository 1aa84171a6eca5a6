import Mcs51.Instruction.Encoding
import Mcs51.Journal
import Mcs51.Object.Entry
import Mcs51.Source.FileStack
import Mcs51.Source.Statement
import Mcs51.Table
import Mcs51.Walk

/-! # Sessions

The first pass: lines become entries and symbols. A `Session` holds the location counter, which is
at most one past the last address, the file stack, the symbols and the entries. Every operation
gives the session after it and, if it could not finish, the reason: what was done before a failure
stays done, and the session can go on with further lines. -/

namespace Mcs51.Object

open Instruction Source

/-- The state of the first pass. -/
structure Session where
  counter : Nat
  stack : FileStack
  symbols : Table Text UInt16
  entries : Array Entry
  journal : Array Note
deriving Repr

namespace Session

/-- A session before its first line. -/
def start (file : Text) (origin : UInt16) : Session :=
  ⟨origin.toNat, .start file, [], #[], #[]⟩

/-- Adds a note that starts with the position of the line. -/
def note (s : Session) (words : Text) : Session :=
  { s with
    journal := s.journal.push ⟨.trace, .firstPass, s.stack.pos.text ++ ": ".toList ++ words⟩ }

/-- The address of the next byte, while there is one. -/
def addr? (s : Session) : Option UInt16 :=
  if s.counter < 65536 then some (UInt16.ofNat s.counter) else none

/-- Gives a name the address of the next byte. -/
def define (s : Session) (name : Text) : Session × Option Stop :=
  if !name.isIdent then (s, some (.ofProblem (.invalidLabel name)))
  else if (s.symbols.lookup name).isSome then (s, some (.ofProblem (.duplicateLabel name)))
  else
    match s.addr? with
    | none => (s, some (.ofProblem .addressSpaceFull))
    | some a =>
      let s := s.note (name ++ " = ".toList ++ Text.hexWord a)
      ({ s with symbols := s.symbols ++ [(name, a)] }, none)

/-- Adds a cell at the location counter. -/
def emit (s : Session) (c : Cell) : Session × Option Stop :=
  match s.addr? with
  | none => (s, some (.ofProblem .addressSpaceFull))
  | some a => ({ s with entries := s.entries.push ⟨a, c⟩, counter := s.counter + 1 }, none)

/-- Adds cells, as long as there are addresses for them. -/
def emitAll (s : Session) (cs : List Cell) : Session × Option Stop := walk emit s cs

/-- Moves the location counter. -/
def setOrigin (s : Session) (arg : Text) : Session × Option Stop :=
  match arg.readHex? with
  | none => (s, some (.ofProblem (.badOrigin arg)))
  | some a => ({ s.note ("origin ".toList ++ Text.hexWord a) with counter := a.toNat }, none)

/-- Adds the cells of an instruction. -/
def encode (s : Session) (code : Text) : Session × Option Stop :=
  match s.addr? with
  | none => (s, some (.ofProblem .addressSpaceFull))
  | some pc =>
    match assemble code pc with
    | .error e => (s, some e)
    | .ok encoding =>
      let s := s.note (Text.hexWord pc ++ ' ' :: code ++ " (".toList ++ Text.decimal encoding.length
        ++ " bytes)".toList)
      s.emitAll (cells encoding s.stack.pos)

/-- Does what a statement asks for after its label. -/
def act (s : Session) : Action → Session × Option Stop
  | .nothing => (s, none)
  | .origin arg => s.setOrigin arg
  | .instruction code => s.encode code

/-- Does what a statement asks for: its label first. -/
def perform (s : Session) (st : Statement) : Session × Option Stop :=
  match st.label with
  | none => s.act st.action
  | some name =>
    match s.define name with
    | (s, none) => s.act st.action
    | (s, some e) => (s, some e)

/-- Takes a line that is no marker. -/
def obey (s : Session) (line : Text) : Session × Option Stop :=
  match Statement.ofLine? line with
  | none => (s, some (.ofProblem .malformedMarker))
  | some st => s.perform st

/-- Takes a line. -/
def step (s : Session) (line : Text) : Session × Option Stop :=
  match s.stack.step line with
  | (stack, .error e) => ({ s with stack := stack }, some e)
  | (stack, .ok true) => ({ s with stack := stack }, none)
  | (stack, .ok false) =>
    match { s with stack := stack }.obey line with
    | (s, none) => (s, none)
    | (s, some e) => (s, some (e.locate s.stack.pos))

/-- Takes lines up to the first failure. At the end every file entered has to be left. -/
def feed (s : Session) (lines : List Text) : Session × Option Stop :=
  match walk step s lines with
  | (s, none) =>
    if s.stack.depth = 0 then (s, none)
    else (s, some (.error ⟨.missingEnd, some s.stack.pos⟩))
  | (s, some e) => (s, some e)

end Session

end Mcs51.Object
