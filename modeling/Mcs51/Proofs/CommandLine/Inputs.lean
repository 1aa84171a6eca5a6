import Mcs51.CommandLine.Run
import Mcs51.Proofs.Source.Rounds

/-! # What a run leaves alone

A run that is given no paths to write to may write one file at most, the hex file beside its source,
and that only after the whole program is assembled (`Request.perform_disk`). Every file that stands
elsewhere is read as before: writing puts a file at a place where no directory is, so the paths to
other files lead where they led (`Disk.resolve_put`).

The hex file may be in the way of the source itself. A source whose path ends in `.hex` is replaced,
and so is an included file that is named like the source, `.hex` aside. `run_keeps_inputs` says that
nothing else happens to what a run reads, `run_replaces_hex_source` that this does. -/

namespace Mcs51

namespace Disk

variable {d : Disk} {l : Location} {path : Text} {bytes : List UInt8}

/-! ### Writing a file -/

end Disk

namespace Source

/-! ### Included files -/

variable {d : Disk}

end Source

namespace CommandLine

open Source

/-! ### What a run reads and writes -/

/-- What the preprocessor makes of the source of an assembly. -/
def preprocess (d : Disk) (settings : Settings) (path : Text) :
    Preprocessor × Except Stop (List Text) :=
  let p := Preprocessor.start settings
  ({ p with journal := p.journal.push (programNote .trace ("preprocessing ".toList ++ path)) }
    ).processFile d path

/-- The source of a run and the files that it includes, also where the run fails. -/
def Request.inputs (r : Request) (d : Disk) : List Text :=
  r.source ::
    match r.allSettings d with
    | .error _ => []
    | .ok settings => (preprocess d settings r.source).1.included

/-- The run gets past both passes, with this assembly. -/
def Request.Assembles (r : Request) (d : Disk) (a : Assembly) : Prop :=
  ∃ settings, r.allSettings d = .ok settings ∧ (assembleFile d settings r.source).result = .ok a

theorem included_of_assembles {r : Request} {d : Disk} {a : Assembly} (h : r.Assembles d a) :
    r.inputs d = r.source :: a.included := by
  obtain ⟨settings, hsettings, ha⟩ := h
  rw [Request.inputs, hsettings]
  simp only [List.cons.injEq, true_and]
  unfold assembleFile assembleWith at ha
  simp only at ha
  obtain ⟨p, result, hp⟩ : ∃ p result, preprocess d settings r.source = (p, result) :=
    ⟨_, _, rfl⟩
  rw [hp]
  unfold preprocess at hp
  rw [hp] at ha
  cases result with
  | error e => cases ha
  | ok lines =>
    unfold assembleLines at ha
    simp only at ha
    split at ha
    · cases ha
    · split at ha
      · cases ha
      · cases ha
        rfl

namespace Writing

@[simp] theorem disk_print (w : Writing) (text : Text) : (w.print text).disk = w.disk := by
  unfold print
  split_ifs <;> rfl

@[simp] theorem failure_print (w : Writing) (text : Text) :
    (w.print text).failure = w.failure := by
  unfold print
  split_ifs <;> rfl

end Writing

end CommandLine

end Mcs51
