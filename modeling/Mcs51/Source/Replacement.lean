import Mcs51.Problem

/-! # Replacements

A name that stands for a text. `Replacement.expand` puts the text in the place of every whole word
that is the name, letter case aside, and never looks at what it has put there: an expansion that
mentions its own name goes through a placeholder that occurs nowhere else.

A search that meets the name inside a longer word goes on from the next byte. After a first
character of several bytes there is no character at that byte, and the search ends in a fault. -/

namespace Mcs51.Source

/-- A name and the text it stands for. -/
structure Replacement where
  name : Text
  expansion : Text
deriving DecidableEq, Repr

/-! ### Whole words -/

/-- No word goes on into the text. -/
def endsWord (text : Text) : Bool :=
  match text with
  | [] => true
  | c :: _ => !Text.isIdentChar c

/-- What a search for a name finds at the front of a text. -/
inductive Sight where
  /-- The name, as a whole word. -/
  | word
  /-- Nothing that keeps the search from going on. -/
  | other
  /-- The name within a longer word, where the next byte is inside a character. -/
  | blocked
deriving DecidableEq, Repr

/-- Looks for the name at the front of a text. The flag tells whether a word may start there. -/
def sight (name : Text) (edge : Bool) (text : Text) : Sight :=
  if name.leads text then
    if edge && endsWord (text.drop name.length) then .word
    else
      match text with
      | c :: _ => if c.utf8Size = 1 then .other else .blocked
      | [] => .other
  else .other

/-- The name occurs as a whole word. -/
def hasWordFrom (name : Text) : Bool → Text → Except Fault Bool
  | _, [] => .ok false
  | edge, c :: rest =>
    match sight name edge (c :: rest) with
    | .word => .ok true
    | .blocked => .error .insideCharacter
    | .other => hasWordFrom name (!Text.isIdentChar c) rest

/-- The name occurs in the text as a whole word. -/
def hasWord (name text : Text) : Except Fault Bool := hasWordFrom name true text

/-- Puts a text in the place of each whole word. The flag tells whether a word may start here, which
is so after a word that was replaced, and the count how many characters of that word are left. -/
def replaceFrom (name new : Text) : Bool → Nat → Text → Except Fault Text
  | _, _, [] => .ok []
  | edge, skip + 1, _ :: rest => replaceFrom name new edge skip rest
  | edge, 0, c :: rest =>
    match sight name edge (c :: rest) with
    | .word => (replaceFrom name new true (name.length - 1) rest).map (new ++ ·)
    | .blocked => .error .insideCharacter
    | .other => (replaceFrom name new (!Text.isIdentChar c) 0 rest).map (c :: ·)

/-- Puts a text in the place of every whole word that is the name. -/
def replaceWord (name new text : Text) : Except Fault Text := replaceFrom name new true 0 text

/-! ### Placeholders -/

/-- The word that holds a place, by number. -/
def candidate (n : Nat) : Text := "__macro".toList ++ Text.decimal n ++ "__".toList

/-- The candidate with this number stands in neither text. -/
def isFree (a b : Text) (n : Nat) : Bool := !a.mentions (candidate n) && !b.mentions (candidate n)

/-- The first candidate that stands in neither text. No more need be tried than the texts have
bytes, and one. -/
def placeholder? (a b : Text) : Option Text :=
  ((List.range (a.size + b.size + 1)).find? (isFree a b)).map candidate

/-! ### Expansion -/

namespace Replacement

/-- Puts the expansion in the place of every whole word that is the name. -/
def expand (r : Replacement) (text : Text) : Except Fault Text :=
  if r.name.isEmpty then .ok text
  else
    match hasWord r.name text, hasWord r.name r.expansion with
    | .error f, _ => .error f
    | .ok false, _ => .ok text
    | .ok true, .error f => .error f
    | .ok true, .ok false => replaceWord r.name r.expansion text
    | .ok true, .ok true =>
      match placeholder? text r.expansion with
      | none => .error .noPlaceholder
      | some p =>
        match replaceWord r.name p text with
        | .error f => .error f
        | .ok held => replaceWord p r.expansion held

/-- Applies replacements one after the other. -/
def expandAll (rs : List Replacement) (text : Text) : Except Fault Text :=
  match rs with
  | [] => .ok text
  | r :: rest =>
    match r.expand text with
    | .error f => .error f
    | .ok t => expandAll rest t

end Replacement

end Mcs51.Source
