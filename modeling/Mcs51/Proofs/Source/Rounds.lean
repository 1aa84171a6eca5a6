import Mcs51.Proofs.Source.Inclusion

/-! # The rounds of a run

A run goes through rounds until no directive is left. `roundsOf` lists where each of them begins,
and what a round does follows from there. A round that puts files in (`Round.PutsIn`) does nothing
else, and the next one begins with the lines that it has written (`rounds_of_puts`). A round that
finds no file to put in joins and expands its lines; it is the last one, unless this leaves a
directive (`rounds_of_expands`).

Whatever comes of a run, the replacements that were stored and the paths that were included in its
course are there at its end (`Preprocessor.Extends`). -/

namespace Mcs51.Source

/-- Where a round begins: the lines and the state of the preprocessor, and how many rounds are left
after it. -/
structure Round where
  left : Nat
  pre : Preprocessor
  lines : List Text

namespace Round

/-- The inclusion that the round begins with. -/
def inclusion (d : Disk) (file : Text) (r : Round) :
    Preprocessor × Except Stop (List Text × Nat) :=
  includeLines d (r.pre.announce r.left) file r.lines

/-- The round puts files in, and nothing else. -/
def PutsIn (d : Disk) (file : Text) (r : Round) : Prop :=
  ∃ q out count, r.inclusion d file = (q, .ok (out, count)) ∧ count ≠ 0

end Round

/-- The rounds that lines go through, in order, where so many are left. -/
def roundsOf (d : Disk) (file : Text) : Nat → Preprocessor → List Text → List Round
  | 0, _, _ => []
  | left + 1, p, lines =>
    ⟨left, p, lines⟩ ::
      match includeLines d (p.announce left) file lines with
      | (_, .error _) => []
      | (q, .ok (out, count)) =>
        if count ≠ 0 then roundsOf d file left q out
        else
          match expandLines q file (splice out) with
          | (_, .error _) => []
          | (q, .ok out) => if needsPreprocessing out then roundsOf d file left q out else []

/-- The rounds that a source goes through, in order. -/
def Preprocessor.roundsOfText (d : Disk) (p : Preprocessor) (file source : Text) : List Round :=
  match p.enter source with
  | .error _ => []
  | .ok lines => roundsOf d file p.maxRounds p lines

section

variable {d : Disk} {file : Text} {left count : Nat} {p q q' : Preprocessor}
  {lines out out' : List Text} {e : Stop}

theorem roundsOf_of_error (h : includeLines d (p.announce left) file lines = (q, .error e)) :
    roundsOf d file (left + 1) p lines = [⟨left, p, lines⟩] := by
  rw [roundsOf, h]

/-- **A round that puts files in** hands on what it has written. -/
theorem rounds_of_puts (h : includeLines d (p.announce left) file lines = (q, .ok (out, count)))
    (hcount : count ≠ 0) :
    Preprocessor.rounds d file (left + 1) p lines = Preprocessor.rounds d file left q out ∧
      roundsOf d file (left + 1) p lines = ⟨left, p, lines⟩ :: roundsOf d file left q out := by
  constructor
  · rw [Preprocessor.rounds, h]
    simp only [if_pos hcount]
  · rw [roundsOf, h]
    simp only [if_pos hcount]

/-- A round whose expansion fails ends the run. -/
theorem rounds_of_expandError (h : includeLines d (p.announce left) file lines = (q, .ok (out, 0)))
    (hexp : expandLines q file (splice out) = (q', .error e)) :
    Preprocessor.rounds d file (left + 1) p lines = (q', .error e) ∧
      roundsOf d file (left + 1) p lines = [⟨left, p, lines⟩] := by
  constructor
  · rw [Preprocessor.rounds, h]
    simp [hexp]
  · rw [roundsOf, h]
    simp [hexp]

/-- **A round that expands its lines** ends the run, or hands on lines with a directive. -/
theorem rounds_of_expands (h : includeLines d (p.announce left) file lines = (q, .ok (out, 0)))
    (hexp : expandLines q file (splice out) = (q', .ok out')) :
    (needsPreprocessing out' = false →
      Preprocessor.rounds d file (left + 1) p lines = (q'.settle left, .ok out') ∧
        roundsOf d file (left + 1) p lines = [⟨left, p, lines⟩]) ∧
    (needsPreprocessing out' = true →
      Preprocessor.rounds d file (left + 1) p lines = Preprocessor.rounds d file left q' out' ∧
        roundsOf d file (left + 1) p lines = ⟨left, p, lines⟩ :: roundsOf d file left q' out') := by
  have hrounds : Preprocessor.rounds d file (left + 1) p lines =
      if needsPreprocessing out' then Preprocessor.rounds d file left q' out'
      else (q'.settle left, .ok out') := by
    rw [Preprocessor.rounds, h]
    simp [hexp]
  have hlist : roundsOf d file (left + 1) p lines = ⟨left, p, lines⟩ ::
      if needsPreprocessing out' then roundsOf d file left q' out' else [] := by
    rw [roundsOf, h]
    simp [hexp]
  constructor
  · intro hneeds
    rw [hrounds, hlist, hneeds]
    exact ⟨rfl, rfl⟩
  · intro hneeds
    rw [hrounds, hlist, hneeds]
    exact ⟨rfl, rfl⟩

end

/-! ### What a run keeps -/

/-- A later state of the preprocessor: what was stored and included before is so still. -/
structure Preprocessor.Extends (p q : Preprocessor) : Prop where
  stored : p.stored ⊆ q.stored
  included : ∀ path, listed p.included path = true → listed q.included path = true

namespace Preprocessor

theorem Extends.refl (p : Preprocessor) : Extends p p := ⟨List.Subset.refl _, fun _ h => h⟩

theorem Extends.trans {p q r : Preprocessor} (h : Extends p q) (h' : Extends q r) : Extends p r :=
  ⟨List.Subset.trans h.stored h'.stored, fun path hpath => h'.included path (h.included path hpath)⟩

theorem extends_note (p : Preprocessor) (level : Level) (words : Text) :
    Extends p (p.note level words) :=
  ⟨List.Subset.refl _, fun _ h => h⟩

theorem extends_store (p : Preprocessor) (level : Level) (words : Text) (r : Replacement) :
    Extends p ((p.note level words).store r) :=
  ⟨List.subset_append_left _ _, fun _ h => h⟩

theorem extends_insert (p : Preprocessor) (name path : Text) :
    Extends p ((p.ask name).takeIn path) := by
  refine ⟨fun r hr => ?_, fun q hq => ?_⟩
  · rw [(p.alike_insert name path).stored]
    exact hr
  · rw [included_takeIn, listed_addPath, Bool.or_eq_true]
    exact Or.inl hq

end Preprocessor

theorem Inclusion.extends_active (d : Disk) (s : Inclusion) (line : Text) :
    s.pre.Extends (s.active d line).1.pre := by
  unfold active
  split_ifs
  · split <;> exact .refl _
  · split
    · exact .refl _
    · unfold insert
      simp only
      split
      · exact ⟨List.Subset.refl _, fun _ h => h⟩
      · split <;> exact s.pre.extends_insert _ _
  · exact .refl _

theorem Inclusion.extends_step (d : Disk) (s : Inclusion) (line : Text) :
    s.pre.Extends (s.step d line).1.pre := by
  unfold step
  split
  · exact .refl _
  · next reader _ => exact extends_active d { s with reader := reader } line
  · exact .refl _

theorem Expansion.extends_active (s : Expansion) (line : Text) :
    s.pre.Extends (s.active line).1.pre := by
  unfold active
  split_ifs
  · unfold define
    simp only
    split
    · exact .refl _
    · split
      · exact .refl _
      · exact s.pre.extends_store _ _ _
  · split <;> exact .refl _

theorem Expansion.extends_step (s : Expansion) (line : Text) :
    s.pre.Extends (s.step line).1.pre := by
  unfold step
  split
  · exact .refl _
  · exact .refl _
  · exact .refl _
  · next reader _ => exact extends_active { s with reader := reader } line

theorem Expansion.extends_walk (s : Expansion) (lines : List Text) :
    s.pre.Extends (walk step s lines).1.pre :=
  walk_invariant (P := fun t : Expansion => s.pre.Extends t.pre)
    (fun t line h => h.trans (t.extends_step line)) lines (.refl _)

theorem extends_includeLines (d : Disk) (p : Preprocessor) (file : Text) (lines : List Text) :
    p.Extends (includeLines d p file lines).1 := by
  have h := walk_invariant (P := fun t : Inclusion => p.Extends t.pre)
    (fun t line h => h.trans (t.extends_step d line)) lines
    (show p.Extends (Inclusion.start p file).pre from .refl p)
  unfold includeLines
  split
  · next hs => rw [hs] at h; exact h
  · next hs => rw [hs] at h; exact h

theorem extends_expandLines (p : Preprocessor) (file : Text) (lines : List Text) :
    p.Extends (expandLines p file lines).1 := by
  have h := (Expansion.start p file).extends_walk lines
  unfold expandLines
  split
  · next hs =>
    rw [hs] at h
    split_ifs <;> exact h
  · next hs => rw [hs] at h; exact h

/-- **A run keeps what it has stored and included**, whether it succeeds or not. -/
theorem extends_rounds (d : Disk) (file : Text) : ∀ (left : Nat) (p : Preprocessor)
    (lines : List Text), p.Extends (Preprocessor.rounds d file left p lines).1
  | 0, p, lines => .refl p
  | left + 1, p, lines => by
    have hinc := extends_includeLines d (p.announce left) file lines
    have hp : p.Extends (p.announce left) := p.extends_note _ _
    rw [Preprocessor.rounds]
    split
    · next hq => rw [hq] at hinc; exact hp.trans hinc
    · next q out count hq =>
      rw [hq] at hinc
      have hq : p.Extends q := hp.trans hinc
      split_ifs
      · exact hq.trans (extends_rounds d file left q out)
      · have hexp := extends_expandLines q file (splice out)
        split
        · next hq' => rw [hq'] at hexp; exact hq.trans hexp
        · next q' out' hq' =>
          rw [hq'] at hexp
          split_ifs
          · exact (hq.trans hexp).trans (extends_rounds d file left q' out')
          · exact (hq.trans hexp).trans (q'.extends_note _ _)

end Mcs51.Source
