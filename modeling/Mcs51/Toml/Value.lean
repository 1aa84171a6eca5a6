import Mcs51.Table

/-! # TOML values

The values of a TOML document and the rules by which its parts build up tables. A table remembers
how it came about (`Making`), since that decides what may still be added to it: a table with a
header of its own, or one written in braces, is not extended by a dotted key, and no table gets two
headers. -/

namespace Mcs51.Toml

/-- How a table came about. -/
inductive Making where
  /-- By a header that names it. -/
  | header
  /-- By a header that names a table inside it. -/
  | implied
  /-- By a dotted key. -/
  | dotted
  /-- By braces. -/
  | braces
deriving DecidableEq, Repr

/-- A value of a document. Of a number with a fraction only the text is kept, of a date its plain
form. -/
inductive Value where
  | string (t : Text)
  | integer (i : Int)
  | flag (b : Bool)
  | float (t : Text)
  | date (t : Text)
  | array (items : List Value)
  | table (making : Making) (entries : List (Text × Value))
  /-- Tables of one name, each with a header of its own in double brackets. -/
  | tables (items : List (List (Text × Value)))
deriving Repr

/-- The keys of a table with their values, in order. -/
abbrev Entries := Table Text Value

/-- The name of the one entry that a date has where it stands for a table. -/
def dateName : Text := "$__toml_private_datetime".toList

/-- A key: the names before its last dot, and the last name. -/
structure Key where
  path : List Text
  name : Text
deriving DecidableEq, Repr

/-- Adds an entry for a name that has none. -/
def addNew (es : Entries) (name : Text) (v : Value) : Option Entries :=
  match es.lookup name with
  | some _ => none
  | none => some (es ++ [(name, v)])

/-- Adds a value under a dotted key. The tables on the way are made as needed, of several tables of
one name the last is meant, and the last table on the way has to come from a dotted key too. -/
def addDotted (es : Entries) (path : List Text) (name : Text) (v : Value) : Option Entries :=
  match path with
  | [] => addNew es name v
  | p :: rest =>
    match es.lookup p with
    | none => (addDotted [] rest name v).map fun sub => es ++ [(p, .table .dotted sub)]
    | some (.table .dotted sub) =>
      (addDotted sub rest name v).map fun sub => Table.set es p (.table .dotted sub)
    | some (.table .implied sub) =>
      if rest.isEmpty then none
      else (addDotted sub rest name v).map fun sub => Table.set es p (.table .implied sub)
    | some (.tables items) =>
      match items.getLast? with
      | none => none
      | some last =>
        if rest.isEmpty then none
        else
          (addDotted last rest name v).map fun sub =>
            Table.set es p (.tables (items.dropLast ++ [sub]))
    | some _ => none

/-- Changes the table at the end of a path of headers. Tables on the way that are missing are made;
of several tables of one name the last is meant. -/
def inTable (es : Entries) (path : List Text) (change : Entries → Option Entries) :
    Option Entries :=
  match path with
  | [] => change es
  | p :: rest =>
    match es.lookup p with
    | none => (inTable [] rest change).map fun sub => es ++ [(p, .table .implied sub)]
    | some (.table .braces _) => none
    | some (.table making sub) =>
      (inTable sub rest change).map fun sub => Table.set es p (.table making sub)
    | some (.tables items) =>
      match items.getLast? with
      | none => none
      | some last =>
        (inTable last rest change).map fun sub => Table.set es p (.tables (items.dropLast ++ [sub]))
    | some _ => none

/-- Gives a table its header. -/
def openTable (es : Entries) (key : Key) : Option Entries :=
  inTable es key.path fun sub =>
    match sub.lookup key.name with
    | none => some (sub ++ [(key.name, .table .header [])])
    | some (.table .implied inner) => some (Table.set sub key.name (.table .header inner))
    | some _ => none

/-- Adds a table to those of a name. -/
def openNext (es : Entries) (key : Key) : Option Entries :=
  inTable es key.path fun sub =>
    match sub.lookup key.name with
    | none => some (sub ++ [(key.name, .tables [[]])])
    | some (.tables items) => some (Table.set sub key.name (.tables (items ++ [[]])))
    | some _ => none

end Mcs51.Toml
