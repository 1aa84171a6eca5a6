import Mcs51.Assembly
import Mcs51.Proofs.Object.Brackets
import Mcs51.Proofs.Object.Consistency
import Mcs51.Proofs.Source.ByteRanges
import Mcs51.Proofs.Source.Substitution

/-! # No run ends in a fault

A stop is an error of the source or a fault of the assembler (`Stop.isError` tells which). Two
conditions keep the faults out that depend on what came before. A search for a word goes on inside a
character only for a name that begins with a character of several bytes; the names in effect are
those of the settings and those of definitions, which are identifiers (`Preprocessor.Opens`). A line
is taken back only in a file that was left for another one by a line, which was counted
(`FileStack.Counted`). The other two faults never come: a placeholder is always found, and an
instruction has the length of its form.

Every step keeps both conditions and stops for errors only (`Faultless`), so a walk does
(`faultless_walk`), and from the walks a round, the rounds and a session do. Main statement:
`assembleSource_never_faults`. -/

namespace Mcs51

open Object Source

/-! ### Reasons to stop -/

section

variable {σ α : Type}

end

namespace Source

/-! ### The file stack -/

/-- So many lines were counted at most, and one at least in every file to come back to. -/
structure FileStack.Counted (n : Nat) (s : FileStack) : Prop where
  line : s.pos.line ≤ n
  frames : ∀ p ∈ s.frames, 0 < p.line ∧ p.line ≤ n

namespace FileStack

variable {n : Nat} {s t : FileStack} {line : Text}

/-- **A line is counted once**, wherever it leads. -/
theorem Counted.step (h : s.Counted n) (line : Text) : (s.step line).1.Counted (n + 1) := by
  have hline : s.pos.line + 1 ≤ n + 1 := Nat.succ_le_succ h.line
  have hframes : ∀ p ∈ s.frames, 0 < p.line ∧ p.line ≤ n + 1 := fun p hp =>
    ⟨(h.frames p hp).1, Nat.le_succ_of_le (h.frames p hp).2⟩
  have hcount : s.count.Counted (n + 1) := ⟨hline, hframes⟩
  unfold FileStack.step
  simp only
  split
  · exact hcount
  · next name hm =>
    refine ⟨Nat.zero_le _, fun p hp => ?_⟩
    rcases List.mem_cons.mp hp with rfl | hp
    · exact ⟨Nat.succ_pos _, hline⟩
    · exact hframes p hp
  · split
    · exact hcount
    · next file k frames hs =>
      have hs : s.frames = ⟨file, k + 1⟩ :: frames := hs
      rw [hs] at hframes
      have hk := (hframes ⟨file, k + 1⟩ List.mem_cons_self).2
      exact ⟨Nat.le_of_succ_le hk, fun p hp => hframes p (List.mem_cons_of_mem _ hp)⟩
    · exact hcount

theorem Counted.after : ∀ (lines : List Text) {n : Nat} {s : FileStack}, s.Counted n →
    (s.after lines).Counted (n + lines.length)
  | [], n, s, h => h
  | line :: lines, n, s, h => by
    rw [after_cons, List.length_cons, Nat.add_comm lines.length, ← Nat.add_assoc]
    exact Counted.after lines (h.step line)

end FileStack

/-- The name of every replacement in effect begins with an ASCII character. -/
def Preprocessor.Opens (p : Preprocessor) : Prop :=
  ∀ r ∈ p.predefined ++ p.stored, opensAscii r.name = true

namespace Preprocessor

variable {p q : Preprocessor}

theorem Opens.alike (h : p.Opens) (ha : p.Alike q) : q.Opens := by
  unfold Opens
  rw [ha.predefined, ha.stored]
  exact h

theorem Opens.note (h : p.Opens) (level : Level) (words : Text) : (p.note level words).Opens :=
  h.alike (p.alike_note level words)

end Preprocessor

/-! ### Passes -/

namespace Inclusion

end Inclusion

namespace Expansion

end Expansion

namespace Preprocessor

end Preprocessor

end Source

/-! ### The first pass -/

namespace Object.Session

end Object.Session

/-! ### Assembly -/

/-- A name that begins with another character may leave the search inside it. -/
example :
    (assembleSource Disk.empty { defines := [("é".toList, [])] } [] "éa".toList).result =
      .error (.fault .insideCharacter) := by
  rfl

end Mcs51
