import Mcs51.Text.Numeral
import Mcs51.Toml.Value

/-! # The small parts of TOML

Blanks, comments, strings and keys. A reader takes a text and gives what it has read with the text
that is left, or nothing if the text does not start with what it reads. -/

namespace Mcs51.Toml

/-! ### Blanks and comments -/

/-- A blank within a line. -/
def isSpace (c : Char) : Bool := c == ' ' || c == '\t'

/-- The text after the blanks at its front. -/
def skipSpace (t : Text) : Text := t.dropWhile isSpace

/-- A character that may stand in a comment. -/
def isPlain (c : Char) : Bool := c == '\t' || (0x20 ≤ c.toNat && c.toNat != 0x7F)

/-- The text after a line break. -/
def newline? (t : Text) : Option Text :=
  match t with
  | '\n' :: rest => some rest
  | '\r' :: '\n' :: rest => some rest
  | _ => none

/-- The text after a comment, if there is one. -/
def skipComment (t : Text) : Text :=
  match t with
  | '#' :: rest => rest.dropWhile isPlain
  | _ => t

/-- The text after the end of a line, which may hold blanks and a comment. -/
def lineEnd? (t : Text) : Option Text :=
  match skipComment (skipSpace t) with
  | [] => some []
  | rest => newline? rest

/-- The text after any blanks, comments and line breaks, so many at most. -/
def skipLines : Nat → Text → Text
  | 0, t => t
  | n + 1, t =>
    let t := skipComment (skipSpace t)
    match newline? t with
    | some rest => skipLines n rest
    | none => t

/-! ### Strings -/

/-- A character that stands for itself in a string. -/
def isUnescaped (c : Char) : Bool := isPlain c && c != '"' && c != '\\'

/-- The character with the code point that hexadecimal digits spell. -/
def scalar? (digits : Text) : Option Char :=
  let n := Text.value 16 digits
  if digits.all (fun c => (Text.digitValue? c).isSome) && n.isValidChar then some (Char.ofNat n)
  else none

/-- The character that a letter after a backslash stands for. -/
def escape? (c : Char) : Option Char :=
  match c with
  | 'b' => some '\x08'
  | 't' => some '\t'
  | 'n' => some '\n'
  | 'f' => some '\x0c'
  | 'r' => some '\r'
  | '"' => some '"'
  | '\\' => some '\\'
  | _ => none

/-- A reader that puts a character before what is read next. -/
def andThen (c : Char) (r : Option (Text × Text)) : Option (Text × Text) :=
  r.map fun p => (c :: p.1, p.2)

/-- Reads the rest of a string in double quotes. -/
def basic? : Text → Option (Text × Text)
  | '"' :: rest => some ([], rest)
  | '\\' :: 'u' :: a :: b :: c :: d :: rest =>
    (scalar? [a, b, c, d]).bind fun x => andThen x (basic? rest)
  | '\\' :: 'U' :: a :: b :: c :: d :: e :: f :: g :: h :: rest =>
    (scalar? [a, b, c, d, e, f, g, h]).bind fun x => andThen x (basic? rest)
  | '\\' :: c :: rest => (escape? c).bind fun x => andThen x (basic? rest)
  | c :: rest => if isUnescaped c then andThen c (basic? rest) else none
  | [] => none

/-- The quote of a string without escapes. -/
def apostrophe : Char := '\x27'

/-- Reads the rest of a string in single quotes. -/
def literal? : Text → Option (Text × Text)
  | [] => none
  | c :: rest =>
    if c = apostrophe then some ([], rest)
    else if isPlain c then andThen c (literal? rest)
    else none

/-- What a reader of a string over several lines does with blanks. -/
inductive Fold where
  | keep
  /-- A backslash came before: a line break has to follow. -/
  | expect
  /-- A backslash and a line break came before: blanks and line breaks are dropped. -/
  | drop
deriving DecidableEq, Repr

/-- Reads the rest of a string in three double quotes. One or two quotes at its end belong to it. -/
def multiBasic? : Fold → Text → Option (Text × Text)
  | .expect, ' ' :: rest => multiBasic? .expect rest
  | .expect, '\t' :: rest => multiBasic? .expect rest
  | .expect, '\n' :: rest => multiBasic? .drop rest
  | .expect, '\r' :: '\n' :: rest => multiBasic? .drop rest
  | .expect, _ => none
  | .drop, ' ' :: rest => multiBasic? .drop rest
  | .drop, '\t' :: rest => multiBasic? .drop rest
  | .drop, '\n' :: rest => multiBasic? .drop rest
  | .drop, '\r' :: '\n' :: rest => multiBasic? .drop rest
  | _, '"' :: '"' :: '"' :: '"' :: '"' :: rest => some (['"', '"'], rest)
  | _, '"' :: '"' :: '"' :: '"' :: rest => some (['"'], rest)
  | _, '"' :: '"' :: '"' :: rest => some ([], rest)
  | _, '"' :: rest => andThen '"' (multiBasic? .keep rest)
  | _, '\\' :: ' ' :: rest => multiBasic? .expect rest
  | _, '\\' :: '\t' :: rest => multiBasic? .expect rest
  | _, '\\' :: '\n' :: rest => multiBasic? .drop rest
  | _, '\\' :: '\r' :: '\n' :: rest => multiBasic? .drop rest
  | _, '\\' :: 'u' :: a :: b :: c :: d :: rest =>
    (scalar? [a, b, c, d]).bind fun x => andThen x (multiBasic? .keep rest)
  | _, '\\' :: 'U' :: a :: b :: c :: d :: e :: f :: g :: h :: rest =>
    (scalar? [a, b, c, d, e, f, g, h]).bind fun x => andThen x (multiBasic? .keep rest)
  | _, '\\' :: c :: rest => (escape? c).bind fun x => andThen x (multiBasic? .keep rest)
  | _, '\n' :: rest => andThen '\n' (multiBasic? .keep rest)
  | _, '\r' :: '\n' :: rest => andThen '\n' (multiBasic? .keep rest)
  | _, c :: rest => if isUnescaped c then andThen c (multiBasic? .keep rest) else none
  | _, [] => none

/-- Reads the rest of a string in three single quotes. One or two quotes at its end belong to it. -/
def multiLiteral? : Text → Option (Text × Text)
  | '\x27' :: '\x27' :: '\x27' :: '\x27' :: '\x27' :: rest => some ([apostrophe, apostrophe], rest)
  | '\x27' :: '\x27' :: '\x27' :: '\x27' :: rest => some ([apostrophe], rest)
  | '\x27' :: '\x27' :: '\x27' :: rest => some ([], rest)
  | '\n' :: rest => andThen '\n' (multiLiteral? rest)
  | '\r' :: '\n' :: rest => andThen '\n' (multiLiteral? rest)
  | c :: rest => if isPlain c then andThen c (multiLiteral? rest) else none
  | [] => none

/-- The text after a line break at its front, if it has one. -/
def skipNewline (t : Text) : Text := (newline? t).getD t

/-- Reads a string of any kind. -/
def string? (t : Text) : Option (Text × Text) :=
  match t with
  | '"' :: '"' :: '"' :: rest => multiBasic? .keep (skipNewline rest)
  | '"' :: rest => basic? rest
  | '\x27' :: '\x27' :: '\x27' :: rest => multiLiteral? (skipNewline rest)
  | '\x27' :: rest => literal? rest
  | _ => none

/-! ### Keys -/

/-- A character of a name without quotes. -/
def isBare (c : Char) : Bool := c.isAlphanum || c == '-' || c == '_'

/-- Reads one name of a key. -/
def name? (t : Text) : Option (Text × Text) :=
  match t with
  | '"' :: rest => basic? rest
  | '\x27' :: rest => literal? rest
  | _ =>
    let name := t.takeWhile isBare
    if name.isEmpty then none else some (name, t.dropWhile isBare)

/-- Reads the names of a key, so many at most, with blanks around each. -/
def names? : Nat → Text → Option (List Text × Text)
  | 0, _ => none
  | n + 1, t =>
    match name? (skipSpace t) with
    | none => none
    | some (name, rest) =>
      match skipSpace rest with
      | '.' :: rest => (names? n rest).map fun p => (name :: p.1, p.2)
      | rest => some ([name], rest)

/-- The most names in a key, and the most brackets and braces around a value. -/
def maxDepth : Nat := 79

/-- Reads a key, with blanks around it. -/
def key? (t : Text) : Option (Key × Text) :=
  match names? maxDepth t with
  | none => none
  | some (names, rest) => names.getLast?.map fun last => (⟨names.dropLast, last⟩, rest)

end Mcs51.Toml
