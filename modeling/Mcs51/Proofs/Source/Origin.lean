import Mcs51.Proofs.Source.Passes

/-! # Where the lines of a stream stem from

A `Sourced` line carries the line of a file that it stems from. Origins are handed out when a text
is cut into lines, and from then on they move with the lines through the rounds: a filler has the
origin of the line whose place it takes, a joined line that of its first part, and a marker has
none.

Each step on lines gets a companion that moves origins along (`traceInclude`, `spliceSourced`,
`retext`), and `trace` follows a whole run. It also notes the lines that were joined to a line
before them. Forgetting the origins gives the run back (`trace_of_processText`). -/

namespace Mcs51.Source

/-- A line with the line of a file that it stems from. -/
structure Sourced where
  text : Text
  origin : Option Pos
deriving DecidableEq, Repr

namespace Sourced

/-- The lines of a file. -/
def ofFile (file : Text) (lines : List Text) : List Sourced :=
  lines.zipIdx.map fun p => ⟨p.1, some ⟨file, p.2 + 1⟩⟩

/-- What an inclusion has written for a line: the line itself, or a filler and the lines of a file
between markers. -/
def spread (l : Sourced) (written : List Text) : List Sourced :=
  match written with
  | filler :: enter :: rest =>
    let name := (includedName? l.text.code).getD []
    ⟨filler, l.origin⟩ :: ⟨enter, none⟩ ::
      (ofFile name rest.dropLast ++ rest.getLast?.toList.map (⟨·, none⟩))
  | _ => written.map (⟨·, l.origin⟩)

theorem text_ofFile (file : Text) (lines : List Text) : (ofFile file lines).map text = lines := by
  unfold ofFile
  rw [List.map_map]
  exact List.zipIdx_map_fst 0 lines

theorem text_spread (l : Sourced) (written : List Text) : (l.spread written).map text = written := by
  unfold spread
  split
  · next filler enter rest =>
    simp only [List.map_cons, List.map_append, text_ofFile, List.map_map]
    have : (text ∘ fun t => (⟨t, none⟩ : Sourced)) = id := rfl
    rw [this, List.map_id]
    rcases List.eq_nil_or_concat rest with rfl | ⟨init, last, rfl⟩ <;> simp
  · rw [List.map_map]
    exact List.map_id _

end Sourced

open Sourced

/-! ### The steps of a round -/

/-- The lines that an inclusion writes for some lines, from a state on. -/
def traceInclude (d : Disk) : Inclusion → List Sourced → List Sourced
  | _, [] => []
  | s, l :: rest =>
    let t := (s.step d l.text).1
    l.spread (t.out.toList.drop s.out.size) ++ traceInclude d t rest

/-- Joins lines, given the line that is open and the origins of those that it has taken up. -/
def spliceSourcedFrom (line : Sourced) (taken : List (Option Pos)) : List Sourced → List Sourced
  | [] =>
    ⟨if continues line.text then line.text.dropLast else line.text, line.origin⟩ ::
      taken.map fun o => ⟨spliceFiller, o⟩
  | next :: rest =>
    if continues line.text then
      spliceSourcedFrom ⟨line.text.dropLast ++ next.text, line.origin⟩ (taken ++ [next.origin]) rest
    else line :: taken.map (fun o => ⟨spliceFiller, o⟩) ++ spliceSourcedFrom next [] rest

/-- Joins every line that ends in a backslash to the next one. -/
def spliceSourced : List Sourced → List Sourced
  | [] => []
  | line :: rest => spliceSourcedFrom line [] rest

/-- The lines that are joined to the line before them, given the line that is open. -/
def joinedFrom (line : Text) : List Text → List Text
  | [] => []
  | next :: rest =>
    if continues line then next :: joinedFrom (line.dropLast ++ next) rest else joinedFrom next rest

/-- The lines that are joined to the line before them. -/
def joined : List Text → List Text
  | [] => []
  | line :: rest => joinedFrom line rest

/-- Lines with new texts, each in its place. -/
def retext (ls : List Sourced) (texts : List Text) : List Sourced :=
  List.zipWith (fun t l => ⟨t, l.origin⟩) texts ls

/-! ### Runs -/

/-- What is known of a run: the lines it ends with, and those joined to another on the way. -/
structure Trace where
  lines : List Sourced
  joined : List Text
deriving DecidableEq, Repr

/-- Follows rounds that succeed, of which so many are left. -/
def traceRounds (d : Disk) (file : Text) : Nat → Preprocessor → List Sourced → Option Trace
  | 0, _, _ => none
  | left + 1, p, ls =>
    let inserted := traceInclude d (.start (p.announce left) file) ls
    match includeLines d (p.announce left) file (ls.map text) with
    | (_, .error _) => none
    | (p, .ok (_, count)) =>
      if count ≠ 0 then traceRounds d file left p inserted
      else
        let spliced := spliceSourced inserted
        match expandLines p file (spliced.map text) with
        | (_, .error _) => none
        | (p, .ok texts) =>
          if needsPreprocessing texts then
            (traceRounds d file left p (retext spliced texts)).map fun t =>
              { t with joined := joined (inserted.map text) ++ t.joined }
          else some ⟨retext spliced texts, joined (inserted.map text)⟩

/-- Follows a run that succeeds. -/
def trace (d : Disk) (p : Preprocessor) (file source : Text) : Option Trace :=
  match p.enter source with
  | .error _ => none
  | .ok lines => traceRounds d file p.maxRounds p (ofFile file lines)

/-! ### Forgetting the origins -/

theorem traceInclude_cons {d : Disk} {l : Sourced} {s t : Inclusion} {written : List Text}
    (h : s.step d l.text = (t, none)) (hout : t.out.toList = s.out.toList ++ written)
    (ls : List Sourced) :
    traceInclude d s (l :: ls) = l.spread written ++ traceInclude d t ls := by
  have hdrop : t.out.toList.drop s.out.size = written := by
    rw [hout, ← Array.length_toList, List.drop_left]
  simp only [traceInclude, h, hdrop]

theorem text_traceInclude {d : Disk} : ∀ {ls : List Sourced} {s t : Inclusion},
    walk (Inclusion.step d) s (ls.map text) = (t, none) →
      t.out.toList = s.out.toList ++ (traceInclude d s ls).map text
  | [], s, t, h => by
    cases h
    simp [traceInclude]
  | l :: ls, s, t, h => by
    obtain ⟨u, hu, hw⟩ := walk_cons_eq_none.mp h
    obtain ⟨use, written, -, hout, -⟩ := Inclusion.takes_of_step hu
    rw [text_traceInclude hw, traceInclude_cons hu hout, List.map_append, text_spread, hout,
      List.append_assoc]

theorem text_spliceSourcedFrom : ∀ (ls : List Sourced) (line : Sourced) (taken : List (Option Pos)),
    (spliceSourcedFrom line taken ls).map text =
      spliceFrom line.text taken.length (ls.map text)
  | [], line, taken => by
    simp only [spliceSourcedFrom, spliceFrom, List.map_cons, List.map_nil, List.map_map]
    congr 1
    exact List.map_const'
  | next :: ls, line, taken => by
    simp only [spliceSourcedFrom, spliceFrom, List.map_cons]
    split_ifs
    · rw [text_spliceSourcedFrom]
      simp
    · rw [List.map_append, List.map_cons, List.map_map, text_spliceSourcedFrom]
      congr 2
      exact List.map_const'

theorem text_spliceSourced (ls : List Sourced) :
    (spliceSourced ls).map text = splice (ls.map text) := by
  cases ls with
  | nil => rfl
  | cons line ls => exact text_spliceSourcedFrom ls line []

theorem text_retext : ∀ {ls : List Sourced} {texts : List Text}, texts.length = ls.length →
    (retext ls texts).map text = texts
  | [], texts, h => by
    obtain rfl := List.length_eq_zero_iff.mp h
    rfl
  | l :: ls, [], h => by simp at h
  | l :: ls, t :: texts, h => by
    have ih := text_retext (Nat.succ.inj h)
    unfold retext at ih ⊢
    rw [List.zipWith_cons_cons, List.map_cons, ih]

theorem length_of_walk_expansion : ∀ {lines : List Text} {s t : Expansion},
    walk Expansion.step s lines = (t, none) →
      t.out.toList.length = s.out.toList.length + lines.length
  | [], s, t, h => by
    cases h
    rfl
  | line :: lines, s, t, h => by
    obtain ⟨u, hu, hw⟩ := walk_cons_eq_none.mp h
    obtain ⟨use, written, -, hout, -⟩ := Expansion.takes_of_step hu
    rw [length_of_walk_expansion hw, hout, List.length_append, List.length_singleton,
      List.length_cons]
    omega

theorem length_expandLines {p q : Preprocessor} {file : Text} {lines out : List Text}
    (h : expandLines p file lines = (q, .ok out)) : out.length = lines.length := by
  obtain ⟨s, hs, -, rfl⟩ := expandLines_ok h
  rw [length_of_walk_expansion hs]
  exact Nat.zero_add _

/-- Forgetting the origins gives the rounds back. -/
theorem traceRounds_of_rounds {d : Disk} {file : Text} : ∀ {left : Nat} {p q : Preprocessor}
    {ls : List Sourced} {out : List Text},
    Preprocessor.rounds d file left p (ls.map text) = (q, .ok out) →
      ∃ t, traceRounds d file left p ls = some t ∧ t.lines.map text = out
  | 0, p, q, ls, out, h => by simp [Preprocessor.rounds] at h
  | left + 1, p, q, ls, out, h => by
    simp only [Preprocessor.rounds] at h
    simp only [traceRounds]
    rcases hinc : includeLines d (p.announce left) file (ls.map text) with
      ⟨p₁, e | ⟨lines, count⟩⟩
    · rw [hinc] at h
      simp at h
    · rw [hinc] at h
      simp only at h
      have hlines : lines = (traceInclude d (.start (p.announce left) file) ls).map text := by
        obtain ⟨s, hs, -, rfl, -⟩ := includeLines_ok hinc
        exact text_traceInclude hs
      generalize traceInclude d (.start (p.announce left) file) ls = inserted at hlines ⊢
      simp only
      split_ifs at h ⊢ with hcount
      · rw [hlines] at h
        exact traceRounds_of_rounds h
      · rw [text_spliceSourced, ← hlines]
        rcases hexp : expandLines p₁ file (splice lines) with ⟨p₂, e | texts⟩
        · rw [hexp] at h
          simp at h
        · rw [hexp] at h
          have hretext : (retext (spliceSourced inserted) texts).map text = texts := by
            apply text_retext
            rw [length_expandLines hexp, hlines, ← text_spliceSourced, List.length_map]
          simp only at h ⊢
          split_ifs at h ⊢
          · rw [← hretext] at h
            obtain ⟨t, ht, hout⟩ := traceRounds_of_rounds h
            exact ⟨{ t with joined := joined lines ++ t.joined }, by rw [ht]; rfl, hout⟩
          · cases h
            exact ⟨_, rfl, hretext⟩

/-- **Forgetting the origins gives the run back.** -/
theorem trace_of_processText {d : Disk} {p q : Preprocessor} {file source : Text}
    {out : List Text} (h : p.processText d file source = (q, .ok out)) :
    ∃ t, trace d p file source = some t ∧ t.lines.map text = out := by
  unfold Preprocessor.processText at h
  unfold trace
  cases henter : p.enter source with
  | error f =>
    rw [henter] at h
    simp at h
  | ok lines =>
    rw [henter] at h
    simp only at h
    rw [← text_ofFile file lines] at h
    exact traceRounds_of_rounds h

/-! ### What rounds keep -/

/-- **What each step of a round keeps, rounds keep.** Expansion may rely on what is known of the
lines that were joined. -/
theorem traceRounds_invariant {d : Disk} {file : Text} {J : Text → Prop}
    {P : Preprocessor → List Sourced → Prop}
    (announces : ∀ {p ls} left, P p ls → P (p.announce left) ls)
    (includes : ∀ {p q ls out count}, P p ls →
      includeLines d p file (ls.map text) = (q, .ok (out, count)) →
      P q (traceInclude d (.start p file) ls))
    (expands : ∀ {p q ls texts}, P p ls → (∀ line ∈ joined (ls.map text), J line) →
      expandLines p file ((spliceSourced ls).map text) = (q, .ok texts) →
      P q (retext (spliceSourced ls) texts)) :
    ∀ {left : Nat} {p : Preprocessor} {ls : List Sourced} {t : Trace},
      traceRounds d file left p ls = some t → P p ls → (∀ line ∈ t.joined, J line) →
      ∃ q, P q t.lines
  | 0, p, ls, t, h, _, _ => by simp [traceRounds] at h
  | left + 1, p, ls, t, h, hp, hjoin => by
    simp only [traceRounds] at h
    split at h
    · simp at h
    · next p₁ lines count hinc =>
      have hp₁ := includes (announces left hp) hinc
      split_ifs at h with hcount
      · exact traceRounds_invariant announces includes expands h hp₁ hjoin
      · split at h
        · simp at h
        · next p₂ texts hexp =>
          split_ifs at h with hneeds
          · obtain ⟨t', ht', rfl⟩ := Option.map_eq_some_iff.mp h
            have hp₂ := expands hp₁ (fun t ht => hjoin t (by simp [ht])) hexp
            show ∃ q, P q t'.lines
            exact traceRounds_invariant announces includes expands ht' hp₂
              fun t ht => hjoin t (by simp [ht])
          · cases h
            exact ⟨p₂, expands hp₁ hjoin hexp⟩

end Mcs51.Source
