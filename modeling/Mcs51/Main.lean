import Mcs51.CommandLine.Run

/-! # The program

The outer layer: it shows the file system to `CommandLine.run` as a disk, path by path as the run
asks for them, and then writes, prints and logs what the report says. -/

namespace Mcs51.CommandLine

/-- What stands at a path of the file system. -/
def probe (path : Text) : IO (Option Node) := do
  try
    let bytes ← IO.FS.readBinFile (String.ofList path)
    return some (.file bytes.toList)
  catch _ =>
    try
      let place ← IO.FS.realPath (String.ofList path)
      return if ← place.isDir then some .directory else none
    catch _ => return none

/-- The disk with what the file system holds at the paths. -/
def look (d : Disk) (paths : List Text) : IO Disk :=
  paths.foldlM
    (fun d path => do
      match ← probe path with
      | some n => return d.learn path n
      | none => return d)
    d

/-- Runs the program again and again, until it asks for no path that was not looked at. -/
partial def settle (args : List Text) (d : Disk) (known : List Text) :
    IO (Disk × Except Fault Report) := do
  let result := run args d
  let asked := match result with
    | .ok r => r.asked.flatMap fun p => [Path.directory p, p]
    | .error _ => []
  let fresh := (asked.filter fun p => !p.isEmpty && !known.contains p).eraseDups
  if fresh.isEmpty then return (d, result)
  settle args (← look d fresh) (known ++ fresh)

/-- A note as a line of the log. -/
def logLine (n : Note) : String :=
  String.ofList (n.level.name ++ ' ' :: n.stage.target ++ ": ".toList ++ n.shown)

end Mcs51.CommandLine

open Mcs51 CommandLine

/-- Runs the program on the file system. -/
def main (args : List String) : IO UInt32 := do
  match ← settle (args.map String.toList) Disk.empty [] with
  | (_, .error _) =>
    IO.eprintln "internal fault"
    return 101
  | (d, .ok r) =>
    for n in r.notes do
      IO.eprintln (logLine n)
    IO.print (String.ofList r.output)
    if r.code = 2 then
      IO.eprintln (String.ofList manual)
    let mut code := r.code
    for (l, bytes) in d.changes r.disk do
      try
        IO.FS.writeBinFile (String.ofList l.path) ⟨bytes.toArray⟩
      catch e =>
        IO.eprintln (logLine (programNote .error (toString e).toList))
        code := 1
    return UInt32.ofNat code
