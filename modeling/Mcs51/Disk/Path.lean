import Mcs51.Text.Basic

/-! # Paths

Paths as they are written. `join` puts a name under a directory, `parts` is what two spellings of
one path share, and `withExtension` names a file beside another. -/

namespace Mcs51.Path

/-- The path starts at the root of the file system. -/
def isAbsolute (path : Text) : Bool := path.head? == some '/'

/-- The pieces between slashes, without the empty ones. -/
def pieces (path : Text) : List Text := path.splitWords (· == '/')

/-- A name under a directory. A name that starts at the root needs no directory, and no directory
adds nothing to a name. -/
def join (directory name : Text) : Text :=
  if isAbsolute name || directory.isEmpty then name
  else if directory.getLast? = some '/' then directory ++ name
  else directory ++ '/' :: name

/-- The piece that stands for the directory it is in. -/
def here : Text := ".".toList

/-- The piece that stands for the directory above. -/
def above : Text := "..".toList

/-- What counts in a path: repeated slashes, slashes at the end and pieces `.` after the first do
not. -/
def parts (path : Text) : Bool × List Text :=
  (isAbsolute path,
    match pieces path with
    | [] => []
    | p :: rest =>
      if p = here ∧ !isAbsolute path then p :: rest.filter (· ≠ here)
      else (p :: rest).filter (· ≠ here))

/-- Two spellings of one path. -/
def same (a b : Text) : Bool := parts a == parts b

/-- The directory part of a path: what stands before its last slash. -/
def directory (path : Text) : Text := (path.reverse.dropWhile (· != '/')).tail.reverse

/-- A file name up to its last dot. A dot that opens the name does not count. -/
def stem (name : Text) : Text :=
  match (name.reverse.dropWhile (· != '.')).tail.reverse with
  | [] => name
  | s => s

/-- The last piece of a path. -/
def fileName (path : Text) : Text := (path.reverse.takeWhile (· != '/')).reverse

/-- A file name without its extension, but with the dot before it. -/
def dropExtension (name : Text) : Text := if stem name = name then name else stem name ++ ['.']

/-- The path of a file with another extension. Where the path of the directory above is left once
the old extension is gone, it gets no new one. -/
def withExtension (path extension : Text) : Text :=
  let name := fileName path
  let place := path.take (path.length - name.length)
  if dropExtension name = above then place ++ above
  else place ++ stem name ++ '.' :: extension

end Mcs51.Path
