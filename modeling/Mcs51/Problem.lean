import Mcs51.Disk.Refusal
import Mcs51.Text.Numeral

/-! # Problems

What can be wrong with a source. A `Problem` is a cause with the values it is about; its `kind` and
its `message` are functions of it. An `Error` is a problem with the position it was first noticed
at: `Error.locate` adds a position only where there is none, so the innermost one wins. A `Fault` is
no fault of the source: it marks a step that the assembler itself must never take. A `Stop` is
either of the two. -/

namespace Mcs51

/-! ### Positions -/

/-- A line of a file. Lines count from one; line zero is the place before the first. -/
structure Pos where
  file : Text
  line : Nat
deriving DecidableEq, Repr

/-- A position as `file:line`. -/
def Pos.text (p : Pos) : Text := p.file ++ ':' :: Text.decimal p.line

/-! ### Causes -/

/-- The family a problem belongs to. -/
inductive Kind where
  | fileNotFound
  | parse
  | illegalOperand
  | jumpOutOfRange
  | illegalInstruction
  | extraTokens
  | incompleteInstruction
  | resourceExhausted
  | system
deriving DecidableEq, Repr

/-- The words that name a family of problems. -/
def Kind.description : Kind → Text
  | .fileNotFound => "file not found".toList
  | .parse => "parse error".toList
  | .illegalOperand => "illegal operand".toList
  | .jumpOutOfRange => "jump out of range".toList
  | .illegalInstruction => "illegal instruction".toList
  | .extraTokens => "extra tokens in instruction".toList
  | .incompleteInstruction => "incompletely formed instruction".toList
  | .resourceExhausted => "resource exhausted".toList
  | .system => "i/o error".toList

/-- A cause of failure. -/
inductive Problem where
  /-- A source file cannot be opened. -/
  | cannotOpen (path : Text) (why : Refusal)
  /-- An included file is in none of the search directories. -/
  | cannotFind (name : Text)
  /-- The system reports a failure of its own. -/
  | system (missing : Bool) (report : Text)
  /-- An end marker closes nothing. -/
  | unmatchedEnd (name : Text)
  /-- The source ends inside an included file. -/
  | missingEnd
  /-- A line starts like a marker and is none. -/
  | malformedMarker
  /-- An opening conditional names nothing; its word is kept as spelled. -/
  | conditionWithoutName (word : Text)
  | elseWithoutIf
  | duplicateElse
  | endifWithoutIf
  | unterminatedIf
  /-- A definition has no identifier for its name. -/
  | invalidDefinition (name : Text)
  | includeWithoutName
  /-- The rounds allowed did not consume every directive. -/
  | unsettled (file : Text) (rounds : Nat)
  | invalidLabel (name : Text)
  | duplicateLabel (name : Text)
  | badOrigin (arg : Text)
  /-- There is no address left for another byte. -/
  | addressSpaceFull
  | emptyInstruction
  | unknownMnemonic (word : Text)
  | tooManyOperands (mnemonic : Text) (takes found : Nat)
  | tooFewOperands (mnemonic : Text) (takes found : Nat)
  /-- No form of the mnemonic takes operands of these shapes. -/
  | noEncoding (mnemonic shapes : Text)
  | missingOperand
  | notLabel (token : Text)
  | notNumber (token : Text)
  | notImmediate (token : Text)
  | tooWide (value : UInt16)
  | labelAsByte (name : Text)
  | undefinedLabel (name : Text)
  | outsidePage (target next : UInt16)
  | tooFar (target next : UInt16)
  | straySecond (addr : UInt16)
  | nothingToPatch (name : Text)
  | missingSecond (name : Text)
  /-- A problem described in words by whoever reports it. -/
  | remark (kind : Kind) (words : Text)
deriving DecidableEq, Repr

namespace Problem

/-- The family of a problem. -/
def kind : Problem → Kind
  | cannotOpen .. | cannotFind _ | system true _ => .fileNotFound
  | system false _ => .system
  | unmatchedEnd _ | missingEnd | malformedMarker | conditionWithoutName _ | elseWithoutIf
  | duplicateElse | endifWithoutIf | unterminatedIf | invalidDefinition _ | includeWithoutName
  | invalidLabel _ | duplicateLabel _ | badOrigin _ | emptyInstruction | straySecond _
  | nothingToPatch _ | missingSecond _ => .parse
  | unsettled .. | addressSpaceFull => .resourceExhausted
  | unknownMnemonic _ | noEncoding .. => .illegalInstruction
  | tooManyOperands .. => .extraTokens
  | tooFewOperands .. => .incompleteInstruction
  | missingOperand | notLabel _ | notNumber _ | notImmediate _ | tooWide _ | labelAsByte _
  | undefinedLabel _ => .illegalOperand
  | outsidePage .. | tooFar .. => .jumpOutOfRange
  | remark k _ => k

/-- A name between backquotes. -/
def quoted (name : Text) : Text := '`' :: name ++ ['`']

/-- A signed number in decimal. -/
def signed (i : Int) : Text :=
  if i < 0 then '-' :: Text.decimal i.natAbs else Text.decimal i.natAbs

/-- The count of operands that an instruction takes, beside the count found. -/
def operandCount (mnemonic : Text) (takes found : Nat) : Text :=
  mnemonic ++ " takes ".toList ++ Text.decimal takes ++ " operands, found ".toList
    ++ Text.decimal found

/-- The wording of a problem. -/
def message : Problem → Text
  | cannotOpen path why => "cant open ".toList ++ quoted path ++ ": ".toList ++ why.message
  | cannotFind name => "cant find ".toList ++ quoted name
  | system _ report => report
  | unmatchedEnd name => "end of ".toList ++ quoted name ++ " without a matching start".toList
  | missingEnd => "include without an end marker".toList
  | malformedMarker => "malformed include marker".toList
  | conditionWithoutName word => word ++ " missing name".toList
  | elseWithoutIf => "#else without #ifdef".toList
  | duplicateElse => "duplicate #else".toList
  | endifWithoutIf => "#endif without #ifdef".toList
  | unterminatedIf => "unterminated #ifdef".toList
  | invalidDefinition name => "invalid macro name ".toList ++ quoted name
  | includeWithoutName => "#include missing file name".toList
  | unsettled file rounds =>
    quoted file ++ " still has directives after ".toList ++ Text.decimal rounds
      ++ " preprocessor passes".toList
  | invalidLabel name => "invalid label ".toList ++ quoted name
  | duplicateLabel name => "symbol ".toList ++ quoted name ++ " already defined".toList
  | badOrigin arg => "bad .org address ".toList ++ quoted arg
  | addressSpaceFull => "location counter past FFFF".toList
  | emptyInstruction => "empty instruction".toList
  | unknownMnemonic word => "unknown mnemonic ".toList ++ quoted word
  | tooManyOperands mnemonic takes found => operandCount mnemonic takes found
  | tooFewOperands mnemonic takes found => operandCount mnemonic takes found
  | noEncoding mnemonic shapes => "no encoding for ".toList ++ quoted (mnemonic ++ ' ' :: shapes)
  | missingOperand => "missing operand".toList
  | notLabel token => quoted token ++ " is not a label".toList
  | notNumber token => quoted token ++ " is not a hex number".toList
  | notImmediate token => quoted ('#' :: token) ++ " is not a hex number".toList
  | tooWide value => Text.hexDigits value.toNat ++ " does not fit in 8 bits".toList
  | labelAsByte name => "label ".toList ++ quoted name ++ " cannot be used as an 8-bit value".toList
  | undefinedLabel name => "undefined label ".toList ++ quoted name
  | outsidePage target next =>
    Text.hexWord target ++ " is outside the 2KB page of ".toList ++ Text.hexWord next
  | tooFar target next =>
    Text.hexWord target ++ " is ".toList ++ signed ((target.toNat : Int) - next.toNat)
      ++ " bytes from ".toList ++ Text.hexWord next
  | straySecond addr => "stray second slot at ".toList ++ Text.hexWord addr
  | nothingToPatch name => quoted name ++ " has no opcode to patch".toList
  | missingSecond name => quoted name ++ " is missing its low byte slot".toList
  | remark _ words => words

/-- The report of the system behind a problem, where there is one. -/
def cause? : Problem → Option Text
  | system _ report => some report
  | _ => none

end Problem

/-! ### Errors -/

/-- A problem and where it was noticed. -/
structure Error where
  problem : Problem
  pos : Option Pos
deriving DecidableEq, Repr

namespace Error

/-- Adds a position to an error that has none. -/
def locate (e : Error) (p : Pos) : Error := { e with pos := e.pos.or (some p) }

/-- An error in full: its position if it has one, its family and its wording. -/
def text (e : Error) : Text :=
  let place := match e.pos with
    | some p => p.text ++ ": ".toList
    | none => []
  place ++ e.problem.kind.description ++ ": ".toList ++ e.problem.message

@[simp] theorem locate_locate (e : Error) (p q : Pos) : (e.locate p).locate q = e.locate p := by
  cases e with
  | mk problem pos => cases pos <;> rfl

end Error

/-- A step the assembler must never take. -/
inductive Fault where
  /-- A word search goes on from the middle of a character. -/
  | insideCharacter
  /-- An encoding has another length than its form. -/
  | encodingLength
  /-- A line is taken back where none was counted. -/
  | lineUnderflow
  /-- Every placeholder tried stands in the text. -/
  | noPlaceholder
deriving DecidableEq, Repr

/-- Why a run ends early. -/
inductive Stop where
  | error (e : Error)
  | fault (f : Fault)
deriving DecidableEq, Repr

namespace Stop

/-- Stops for a problem that has no position yet. -/
def ofProblem (p : Problem) : Stop := .error ⟨p, none⟩

/-- Adds a position to a stop that may have one. -/
def locate (s : Stop) (p : Pos) : Stop :=
  match s with
  | .error e => .error (e.locate p)
  | .fault f => .fault f

end Stop

end Mcs51
