import Mcs51.Toml.Date
import Mcs51.Toml.Lexeme
import Mcs51.Toml.Number

/-! # TOML documents

Values, with values inside them, and the lines of a document. `Document.parse?` gives the entries of
the root table, or nothing if the text is not a document, gives a name twice or goes too deep. -/

namespace Mcs51.Toml

/-! ### Values -/

/-- A character of a token without quotes or brackets. -/
def isTokenChar (c : Char) : Bool := isBare c || c == '+' || c == '.' || c == ':'

/-- Takes a token off a text. A blank between a day and a time belongs to it. -/
def token (t : Text) : Text × Text :=
  let first := t.takeWhile isTokenChar
  let rest := t.dropWhile isTokenChar
  match rest with
  | ' ' :: d :: r =>
    if isDay first && d.isDigit then
      (first ++ ' ' :: (d :: r).takeWhile isTokenChar, (d :: r).dropWhile isTokenChar)
    else (first, rest)
  | _ => (first, rest)

/-- The value that a token spells. -/
def ofToken? (word : Text) : Option Value :=
  if word = "true".toList then some (.flag true)
  else if word = "false".toList then some (.flag false)
  else ((date? word).map Value.date).or ((float? word).or (integer? word))

/-- Reads a value with no values inside it. -/
def simple? (t : Text) : Option (Value × Text) :=
  match t with
  | '"' :: _ | '\x27' :: _ => (string? t).map fun p => (.string p.1, p.2)
  | _ => (ofToken? (token t).1).map fun v => (v, (token t).2)

/-- Reads the rest of an array, so many members at most. A comma may follow the last one. -/
def arrayItems? (value? : Text → Option (Value × Text)) : Nat → Text → Option (List Value × Text)
  | 0, _ => none
  | n + 1, t =>
    match skipLines t.length t with
    | ']' :: rest => some ([], rest)
    | t =>
      match value? t with
      | none => none
      | some (v, rest) =>
        match skipLines rest.length rest with
        | ',' :: rest => (arrayItems? value? n rest).map fun p => (v :: p.1, p.2)
        | ']' :: rest => some ([v], rest)
        | _ => none

/-- Reads the rest of a table in braces, so many entries at most, on top of those it has. -/
def inlineItems? (value? : Text → Option (Value × Text)) :
    Nat → Entries → Text → Option (Entries × Text)
  | 0, _, _ => none
  | n + 1, es, t =>
    match key? t with
    | some (key, '=' :: rest) =>
      match value? (skipSpace rest) with
      | none => none
      | some (v, rest) =>
        match addDotted es key.path key.name v with
        | none => none
        | some es =>
          match skipSpace rest with
          | ',' :: rest => inlineItems? value? n es rest
          | '\x7d' :: rest => some (es, rest)
          | _ => none
    | _ => none

/-- Reads a value with so many brackets and braces around its parts at most. -/
def value? : Nat → Text → Option (Value × Text)
  | 0, t => simple? t
  | n + 1, t =>
    match t with
    | '[' :: rest => (arrayItems? (value? n) t.length rest).map fun p => (.array p.1, p.2)
    | '\x7b' :: rest =>
      match skipSpace rest with
      | '\x7d' :: rest => some (.table .braces [], rest)
      | _ => (inlineItems? (value? n) t.length [] rest).map fun p => (.table .braces p.1, p.2)
    | _ => simple? t

/-! ### Lines -/

/-- What has been read of a document: the root table, and the path of the table to add to. -/
structure Document where
  root : Entries
  header : List Text

namespace Document

/-- Reads a line with a key and its value. -/
def keyLine? (d : Document) (t : Text) : Option (Document × Text) :=
  match key? t with
  | some (key, '=' :: rest) =>
    match value? maxDepth (skipSpace rest) with
    | none => none
    | some (v, rest) => do
      let root ← inTable d.root d.header fun es => addDotted es key.path key.name v
      let rest ← lineEnd? rest
      some ({ d with root := root }, rest)
  | _ => none

/-- Reads the rest of a line that opens a table. -/
def headerLine? (d : Document) (t : Text) : Option (Document × Text) :=
  match key? t with
  | some (key, ']' :: rest) => do
    let root ← openTable d.root key
    let rest ← lineEnd? rest
    some (⟨root, key.path ++ [key.name]⟩, rest)
  | _ => none

/-- Reads the rest of a line that opens one of several tables of a name. -/
def nextLine? (d : Document) (t : Text) : Option (Document × Text) :=
  match key? t with
  | some (key, ']' :: ']' :: rest) => do
    let root ← openNext d.root key
    let rest ← lineEnd? rest
    some (⟨root, key.path ++ [key.name]⟩, rest)
  | _ => none

/-- Reads a line that is not empty. -/
def line? (d : Document) (t : Text) : Option (Document × Text) :=
  match t with
  | '[' :: '[' :: rest => d.nextLine? rest
  | '[' :: rest => d.headerLine? rest
  | _ => d.keyLine? t

/-- Reads lines, so many at most. -/
def lines? : Nat → Document → Text → Option Document
  | 0, _, _ => none
  | n + 1, d, t =>
    match skipLines t.length t with
    | [] => some d
    | t =>
      match d.line? t with
      | none => none
      | some (d, rest) => lines? n d rest

/-- The text without a byte-order mark at its front. -/
def skipMark (t : Text) : Text :=
  match t with
  | [] => []
  | c :: rest => if c.toNat = 0xFEFF then rest else t

/-- The entries of the root table of a document. -/
def parse? (t : Text) : Option Entries :=
  (lines? (t.length + 1) ⟨[], []⟩ (skipMark t)).map Document.root

end Document

end Mcs51.Toml
