import Mcs51.Text.Blank

/-! # Text

A `Text` is a list of characters. Positions and lengths that a user sees count the bytes of its
UTF-8 form (`size`), and letter case is a matter of ASCII letters only (`upper`, `sameWord`).

* `find?` is the one search: how many characters stand before the first occurrence of a needle,
  letter case aside. `patternIndex` says the same as a byte position.
* `substring` takes a range of bytes and refuses one that leaves the text or splits a character.
* `trim`, `fields`, `collapse` and `removeBlanks` treat blanks, `splitComment` and `lines` cut a
  source text into the parts the assembler looks at. -/

namespace Mcs51

/-- A text, as its characters. -/
abbrev Text := List Char

namespace Text

/-! ### Size and letter case -/

/-- Length in bytes of the UTF-8 form. -/
def size : Text → Nat
  | [] => 0
  | c :: t => c.utf8Size + size t

/-- ASCII letters in upper case, all else unchanged. -/
def upper (t : Text) : Text := t.map Char.toUpper

/-- The same text, letter case aside. -/
def sameWord (a b : Text) : Bool := a.upper == b.upper

@[simp] theorem size_nil : size [] = 0 := rfl

@[simp] theorem size_cons (c : Char) (t : Text) : size (c :: t) = c.utf8Size + size t := rfl

@[simp] theorem size_append (a b : Text) : size (a ++ b) = size a + size b := by
  induction a with
  | nil => simp
  | cons c a ih => simp [ih, Nat.add_assoc]

@[simp] theorem length_upper (t : Text) : (upper t).length = t.length := by simp [upper]

@[simp] theorem upper_append (a b : Text) : upper (a ++ b) = upper a ++ upper b := by
  simp [upper]

theorem sameWord_iff {a b : Text} : sameWord a b = true ↔ a.upper = b.upper := by
  simp [sameWord]

/-! ### Identifiers -/

/-- A character that may open an identifier. -/
def isIdentStart (c : Char) : Bool := c.isAlpha || c == '_'

/-- A character that an identifier may hold. -/
def isIdentChar (c : Char) : Bool := c.isAlphanum || c == '_'

/-- A text that may name a label or a replacement. -/
def isIdent (t : Text) : Bool :=
  match t with
  | [] => false
  | c :: _ => isIdentStart c && t.all isIdentChar

/-! ### Search -/

/-- The needle stands at the front of the text, letter case aside. -/
def leads (needle text : Text) : Bool := sameWord (text.take needle.length) needle

/-- Number of characters before the first place where the needle stands, letter case aside. -/
def find? (needle : Text) : Text → Option Nat
  | [] => if needle.isEmpty then some 0 else none
  | c :: rest => if leads needle (c :: rest) then some 0 else (find? needle rest).map (· + 1)

theorem leads_iff {needle text : Text} :
    leads needle text = true ↔ upper (text.take needle.length) = upper needle := sameWord_iff

theorem find?_nil (needle : Text) :
    find? needle [] = if leads needle [] then some 0 else none := by
  cases needle <;> rfl

theorem find?_cons (needle : Text) (c : Char) (rest : Text) :
    find? needle (c :: rest) =
      if leads needle (c :: rest) then some 0 else (find? needle rest).map (· + 1) := rfl

/-- What a search finds is a place where the needle stands and before which it stands nowhere. -/
theorem find?_eq_some_iff {needle text : Text} {n : Nat} :
    find? needle text = some n ↔
      n ≤ text.length ∧ leads needle (text.drop n) = true ∧
        ∀ k < n, leads needle (text.drop k) = false := by
  induction text generalizing n with
  | nil =>
    rw [find?_nil]
    cases n <;> split <;> simp_all
  | cons c rest ih =>
    rw [find?_cons]
    split
    next h =>
      refine ⟨fun e => ?_, fun ⟨_, _, h0⟩ => ?_⟩
      · cases e
        simpa using h
      · cases n with
        | zero => rfl
        | succ n => exact absurd (h0 0 (by omega)) (by simp [h])
    next h =>
      rw [Option.map_eq_some_iff]
      constructor
      · rintro ⟨m, hm, rfl⟩
        obtain ⟨hle, hl, hb⟩ := ih.1 hm
        refine ⟨by simpa using hle, by simpa using hl, fun k hk => ?_⟩
        cases k with
        | zero => simpa using h
        | succ k => simpa using hb k (by omega)
      · rintro ⟨hle, hl, hb⟩
        cases n with
        | zero => exact absurd hl (by simpa using h)
        | succ m =>
          refine ⟨m, ih.2 ⟨by simpa using hle, by simpa using hl, fun k hk => ?_⟩, rfl⟩
          simpa using hb (k + 1) (by omega)

/-- A search finds nothing where the needle stands nowhere. -/
theorem find?_eq_none_iff {needle text : Text} :
    find? needle text = none ↔ ∀ k ≤ text.length, leads needle (text.drop k) = false := by
  induction text with
  | nil =>
    rw [find?_nil]
    split <;> simp_all
  | cons c rest ih =>
    rw [find?_cons]
    split
    next h => exact ⟨nofun, fun hb => by simpa [h] using hb 0⟩
    next h =>
      rw [Option.map_eq_none_iff, ih]
      refine ⟨fun hb k hk => ?_, fun hb k hk => by simpa using hb (k + 1) (by simpa using hk)⟩
      cases k with
      | zero => simpa using h
      | succ k => simpa using hb k (by simpa using hk)

/-- The needle stands somewhere in the text, letter case aside. -/
def mentions (text needle : Text) : Bool := (find? needle text).isSome

theorem mentions_iff {text needle : Text} :
    mentions text needle = true ↔ ∃ k ≤ text.length, leads needle (text.drop k) = true := by
  rw [mentions, ← Option.ne_none_iff_isSome, ne_eq, find?_eq_none_iff]
  simp

/-- Position in bytes, counted from one, of the first place where the needle stands. -/
def patternIndex (text needle : Text) : Option Nat :=
  (find? needle text).map fun n => size (text.take n) + 1

/-- The text after the first place where the needle stands. -/
def after? (text needle : Text) : Option Text :=
  (find? needle text).map fun n => text.drop (n + needle.length)

/-! ### Ranges of bytes -/

/-- Cuts the text after its first `n` bytes. There is no cut inside a character or past the end. -/
def cutAt? : Nat → Text → Option (Text × Text)
  | 0, t => some ([], t)
  | _ + 1, [] => none
  | n + 1, c :: t =>
    if c.utf8Size ≤ n + 1 then (cutAt? (n + 1 - c.utf8Size) t).map fun p => (c :: p.1, p.2)
    else none

/-- A range of bytes that a text does not have. -/
structure OutOfRange where
  start : Nat
  len : Nat
  available : Nat
deriving DecidableEq, Repr

/-- The `len` bytes from position `start`, counted from one, and never fewer. -/
def substring (text : Text) (start len : Nat) : Except OutOfRange Text :=
  let found := do
    let tail ← if start = 0 then none else cutAt? (start - 1) text
    cutAt? len tail.2
  match found with
  | some p => .ok p.1
  | none => .error ⟨start, len, size text⟩

/-! ### Blanks -/

/-- The text without the blanks at its front. -/
def trimStart (t : Text) : Text := t.dropWhile isBlank

/-- The text without the blanks at its end. -/
def trimEnd (t : Text) : Text := (t.reverse.dropWhile isBlank).reverse

/-- The text without the blanks at either end. -/
def trim (t : Text) : Text := trimEnd (trimStart t)

/-- The text without any blank. -/
def removeBlanks (t : Text) : Text := t.filter fun c => !isBlank c

/-- The pieces between separators, without the empty ones. -/
def splitWords (separates : Char → Bool) (t : Text) : List Text :=
  (t.splitOnP separates).filter fun w => !w.isEmpty

theorem splitWords_append {separates : Char → Bool} {c : Char} (h : separates c = true)
    (a b : Text) :
    splitWords separates (a ++ c :: b) = splitWords separates a ++ splitWords separates b := by
  simp [splitWords, List.splitOnP_append_cons _ _ h]

theorem splitWords_of_forall {separates : Char → Bool} {w : Text}
    (h : ∀ c ∈ w, separates c = false) (hw : w ≠ []) : splitWords separates w = [w] := by
  simp [splitWords, List.splitOnP_eq_singleton h, hw]

/-- The maximal runs of characters that are not blank. -/
def fields (t : Text) : List Text := splitWords isBlank t

/-- The text up to its first blank. -/
def firstField (t : Text) : Text := t.takeWhile fun c => !isBlank c

/-- The text from its first blank on. -/
def afterField (t : Text) : Text := t.dropWhile fun c => !isBlank c

/-- The first field, one space, and the rest without blanks. -/
def collapse (t : Text) : Text :=
  firstField (trim t) ++ ' ' :: removeBlanks (afterField (trim t))

/-! ### Lines and comments -/

/-- The line before its first semicolon. -/
def code (line : Text) : Text := line.takeWhile (· != ';')

/-- The line from its first semicolon on. -/
def comment (line : Text) : Text := line.dropWhile (· != ';')

@[simp] theorem code_append_comment (line : Text) : code line ++ comment line = line :=
  List.takeWhile_append_dropWhile

/-- A line without the carriage return at its end. -/
def dropReturn (line : Text) : Text :=
  if line.getLast? = some '\r' then line.dropLast else line

/-- The lines of a text. A line feed ends a line, and a carriage return before it belongs to it;
what follows the last line feed is a line only if it is not empty. -/
def lines (t : Text) : List Text :=
  let pieces := t.splitOn '\n'
  pieces.dropLast.map dropReturn ++ pieces.getLast?.toList.filter fun line => !line.isEmpty

end Text

end Mcs51
