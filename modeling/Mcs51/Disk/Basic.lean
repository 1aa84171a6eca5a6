import Mcs51.Disk.Path
import Mcs51.Disk.Refusal
import Mcs51.Table
import Mcs51.Text.Utf8

/-! # Disks

A file system as a value. A `Location` names a place from the working directory, from a directory
above it, or from the root; a `Disk` says what stands at each. `resolve` follows a path piece by
piece, and `read` and `write` open what it leads to. -/

namespace Mcs51

/-! ### Locations -/

/-- Where a location starts. -/
inductive Base where
  /-- The directory so many levels above the working directory. -/
  | above (levels : Nat)
  | root
deriving DecidableEq, Repr

/-- A place in the file system: names from a base, innermost first. -/
structure Location where
  base : Base
  names : List Text
deriving DecidableEq, Repr

namespace Location

/-- The working directory. -/
def working : Location := ⟨.above 0, []⟩

/-- Where a path starts. -/
def start (path : Text) : Location := if Path.isAbsolute path then ⟨.root, []⟩ else working

/-- A place in a directory. -/
def child (l : Location) (name : Text) : Location := { l with names := name :: l.names }

/-- The directory that a place is in. The root is in itself. -/
def parent (l : Location) : Location :=
  match l with
  | ⟨base, _ :: names⟩ => ⟨base, names⟩
  | ⟨.above n, []⟩ => ⟨.above (n + 1), []⟩
  | ⟨.root, []⟩ => l

/-- The plainest path to a place. -/
def path (l : Location) : Text :=
  let steps := match l.base with
    | .above n => List.replicate n Path.above
    | .root => [[]]
  List.intercalate ['/'] (steps ++ l.names.reverse)

end Location

/-! ### Contents -/

/-- What stands at a place. -/
inductive Node where
  | file (bytes : List UInt8)
  | directory
deriving DecidableEq, Repr

/-- What stands where. The bases themselves are directories and need no entry. -/
structure Disk where
  nodes : Table Location Node
deriving Repr

namespace Disk

/-- A disk with nothing on it. -/
def empty : Disk := ⟨[]⟩

/-- What stands at a place. -/
def node? (d : Disk) (l : Location) : Option Node :=
  if l.names.isEmpty then some .directory else d.nodes.lookup l

/-- Puts a node at a place, whatever stood there. -/
def put (d : Disk) (l : Location) (n : Node) : Disk := ⟨d.nodes.set l n⟩

theorem node?_put (d : Disk) (l : Location) (n : Node) {k : Location} (h : k.names ≠ []) :
    (d.put l n).node? k = if k = l then some n else d.node? k := by
  simp [put, node?, h, Table.lookup_set]

/-- The place that a piece of a path names, seen from another. -/
def toward (l : Location) (piece : Text) : Location :=
  if piece = Path.here then l else if piece = Path.above then l.parent else l.child piece

/-- Takes over from another file system that a path leads to a node there. Every piece before its
last is then a directory. -/
def learn (d : Disk) (path : Text) (n : Node) : Disk :=
  go d (Location.start path) (Path.pieces path)
where
  /-- Goes along the pieces of the path and makes what is missing. -/
  go (d : Disk) (l : Location) : List Text → Disk
    | [] => d
    | [piece] => d.put (toward l piece) n
    | piece :: rest =>
      let l := toward l piece
      match d.node? l with
      | some _ => go d l rest
      | none => go (d.put l .directory) l rest

/-! ### Following a path -/

/-- The most bytes that a name may have. -/
def maxName : Nat := 255

/-- The most bytes that a path may have. -/
def maxPath : Nat := 4095

/-- Why a place cannot be searched for a name, if it cannot: only a directory can. -/
def unsearchable? (d : Disk) (l : Location) : Option Refusal :=
  match d.node? l with
  | none => some .missing
  | some (.file _) => some .notDirectory
  | some .directory => none

/-- Goes from a directory to the place that one piece of a path names. -/
def follow (d : Disk) (l : Location) (piece : Text) : Except Refusal Location :=
  match d.unsearchable? l with
  | some r => .error r
  | none => if maxName < piece.size then .error .nameTooLong else .ok (toward l piece)

/-- Goes along the pieces of a path. The place that the last of them names need not exist. -/
def followAll (d : Disk) (l : Location) : List Text → Except Refusal Location
  | [] => .ok l
  | piece :: rest =>
    match d.follow l piece with
    | .error r => .error r
    | .ok l => d.followAll l rest

/-- A path that no system call accepts. -/
def refused? (path : Text) : Option Refusal :=
  if path.contains (Char.ofNat 0) then some .nulInPath
  else if path.isEmpty then some .missing
  else if maxPath < path.size then some .nameTooLong
  else none

/-- A slash ends the path, which makes it the path of a directory. -/
def wantsDirectory (path : Text) : Bool := path.getLast? == some '/'

/-- The place that a path leads to, and what stands there. -/
def resolve (d : Disk) (path : Text) : Except Refusal (Location × Node) :=
  match refused? path with
  | some r => .error r
  | none =>
    match d.followAll (Location.start path) (Path.pieces path) with
    | .error r => .error r
    | .ok l =>
      match d.node? l with
      | none => .error .missing
      | some (.file bytes) =>
        if wantsDirectory path then .error .notDirectory else .ok (l, .file bytes)
      | some .directory => .ok (l, .directory)

/-! ### Files -/

/-- The bytes of the file that a path leads to. -/
def read (d : Disk) (path : Text) : Except Refusal (List UInt8) :=
  match d.resolve path with
  | .error r => .error r
  | .ok (_, .file bytes) => .ok bytes
  | .ok (_, .directory) => .error .isDirectory

/-- The text of the file that a path leads to, each malformed part as a replacement character. -/
def readText (d : Disk) (path : Text) : Except Refusal Text :=
  (d.read path).map Text.decodeLossy

/-- The place of the file that writing under a name in a directory makes or replaces. -/
def writableIn (d : Disk) (l : Location) (name : Text) : Except Refusal Location :=
  match d.follow l name with
  | .error r => .error r
  | .ok l =>
    match d.node? l with
    | some .directory => .error .isDirectory
    | _ => .ok l

/-- The place of the file that writing to a path makes or replaces. A path of a directory is turned
down once the directory around it is reached, before its own name is looked at. -/
def writable (d : Disk) (path : Text) : Except Refusal Location :=
  match refused? path with
  | some r => .error r
  | none =>
    match d.followAll (Location.start path) (Path.pieces path).dropLast with
    | .error r => .error r
    | .ok l =>
      match d.unsearchable? l, (Path.pieces path).getLast? with
      | some r, _ => .error r
      | none, none => .error .isDirectory
      | none, some name =>
        if wantsDirectory path then .error .isDirectory else d.writableIn l name

/-- Makes the file that a path leads to, or replaces its content. -/
def write (d : Disk) (path : Text) (bytes : List UInt8) : Except Refusal Disk :=
  (d.writable path).map fun l => d.put l (.file bytes)

/-- The files that stand on a disk and not, or not with the same content, on an earlier one. -/
def changes (before after : Disk) : List (Location × List UInt8) :=
  after.nodes.filterMap fun p =>
    match p.2 with
    | .directory => none
    | .file bytes => if before.node? p.1 = some (.file bytes) then none else some (p.1, bytes)

end Disk

end Mcs51
