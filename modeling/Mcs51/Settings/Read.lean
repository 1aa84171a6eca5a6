import Mcs51.Disk.Basic
import Mcs51.Problem
import Mcs51.Settings.Basic
import Mcs51.Toml.Document

/-! # Reading settings

Settings from a TOML document, from a file, and from a definition on the command line. The entries
of a document are taken in their order, and the first that is unknown or has a value of the wrong
type ends the reading. -/

namespace Mcs51

namespace Settings

/-- Why a document gives no settings. -/
inductive Defect where
  /-- The text is not a document. -/
  | malformed
  /-- An entry is unknown, or its value is not of the type it needs. -/
  | unfit (name : Text)
  /-- The origin is not an address. -/
  | badOrigin (value : Text) (base : Nat) (why : Text.NumeralError)
deriving DecidableEq, Repr

/-- The wording of a defect. -/
def Defect.message : Defect → Text
  | .malformed => "not a document".toList
  | .unfit name => "entry ".toList ++ Problem.quoted name ++ " does not fit".toList
  | .badOrigin value base why =>
    value ++ " is not a valid base ".toList ++ Text.decimal base ++ " address: ".toList
      ++ why.message

/-- Reads an address: in base 16 after `$`, in base 2 after `%`, in base 10 otherwise. -/
def readOrigin (t : Text) : Except Defect UInt16 :=
  let (base, digits) := match t with
    | '$' :: rest => (16, rest)
    | '%' :: rest => (2, rest)
    | _ => (10, t)
  match Text.read base 65536 digits with
  | .ok n => .ok (UInt16.ofNat n)
  | .error why => .error (.badOrigin t base why)

/-- The text of a string. -/
def stringOf? : Toml.Value → Option Text
  | .string t => some t
  | _ => none

/-- The texts of an array of strings. -/
def stringsOf? : Toml.Value → Option (List Text)
  | .array items => items.mapM stringOf?
  | _ => none

/-- The texts of a table of strings, by name. A date is a table of one string. -/
def pairsOf? : Toml.Value → Option (Table Text Text)
  | .date t => some [(Toml.dateName, t)]
  | .table _ entries => entries.mapM fun p => (stringOf? p.2).map fun t => (p.1, t)
  | _ => none

/-- Takes one entry of a document. -/
def take (s : Settings) (entry : Text × Toml.Value) : Except Defect Settings :=
  let (name, value) := entry
  let orUnfit := fun (r : Option Settings) => r.elim (.error (.unfit name)) Except.ok
  if name = "system_include".toList then
    orUnfit ((stringOf? value).map fun t => { s with systemDirectory := t })
  else if name = "include".toList then
    orUnfit ((stringsOf? value).map fun ts => { s with directories := ts })
  else if name = "max_passes".toList then
    match value with
    | .integer (.ofNat n) => .ok { s with maxRounds := n }
    | _ => .error (.unfit name)
  else if name = "origin".toList then
    match value with
    | .string t => (readOrigin t).map fun a => { s with origin := a }
    | _ => .error (.unfit name)
  else if name = "define".toList then
    orUnfit ((pairsOf? value).map fun ps => { s with defines := ps })
  else .error (.unfit name)

/-- Takes the entries of a document, up to the first that does not fit. -/
def takeAll (s : Settings) : List (Text × Toml.Value) → Except Defect Settings
  | [] => .ok s
  | e :: rest =>
    match s.take e with
    | .error d => .error d
    | .ok s => s.takeAll rest

/-- The settings that a document gives; what it does not name has its usual value. -/
def parse (t : Text) : Except Defect Settings :=
  match Toml.Document.parse? t with
  | none => .error .malformed
  | some entries => ({} : Settings).takeAll entries

/-! ### Files -/

/-- Why a file gives no settings. -/
inductive LoadError where
  | cannotOpen (path : Text) (why : Refusal)
  | notText (path : Text)
  | defective (path : Text) (defect : Defect)
deriving DecidableEq, Repr

/-- The wording of a failure to load settings. -/
def LoadError.message : LoadError → Text
  | .cannotOpen path why =>
    "cant open config ".toList ++ Problem.quoted path ++ ": ".toList ++ why.message
  | .notText path =>
    "cant open config ".toList ++ Problem.quoted path
      ++ ": stream did not contain valid UTF-8".toList
  | .defective path defect => path ++ ": TOML parse error: ".toList ++ defect.message

/-- The settings that a file gives. -/
def load (d : Disk) (path : Text) : Except LoadError Settings :=
  match d.read path with
  | .error why => .error (.cannotOpen path why)
  | .ok bytes =>
    match Text.decode? bytes with
    | none => .error (.notText path)
    | some t => (parse t).mapError (.defective path)

/-! ### Definitions -/

/-- Why a text is not a definition. -/
inductive DefineError where
  | notName (name : Text)
  | notNumber (why : Text.NumeralError)
deriving DecidableEq, Repr

/-- The wording of a refused definition. -/
def DefineError.message : DefineError → Text
  | .notName name =>
    "invalid NAME=expansion: ".toList ++ Problem.quoted name ++ " is not a name".toList
  | .notNumber why => why.message

/-- Reads a name and the text it stands for, which is `1` if none is given. -/
def readDefine (t : Text) : Except DefineError (Text × Text) :=
  let name := t.takeWhile (· != '=')
  let value := match t.dropWhile (· != '=') with
    | [] => "1".toList
    | _ :: rest => rest
  if Text.isIdent name then .ok (name, value) else .error (.notName name)

/-- Reads a name and the number it stands for. -/
def readNumericDefine (t : Text) : Except DefineError (Text × UInt16) :=
  match readDefine t with
  | .error e => .error e
  | .ok (name, value) =>
    match Text.read 10 65536 value with
    | .ok n => .ok (name, UInt16.ofNat n)
    | .error why => .error (.notNumber why)

end Settings

end Mcs51
