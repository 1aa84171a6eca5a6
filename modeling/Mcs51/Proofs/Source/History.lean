import Mcs51.Proofs.Source.Passes

/-! # What is applied to a line on its way

A `Tracked` line carries its `Stem`: the line that stood in its place before the first expansion,
and the replacements that each expansion since then has applied to it. Every line of a text that is
read is its own stem. So is a line that inclusion or joining writes, as long as no expansion has
been at its parts. An expansion adds a batch to the stem of a line; a definition and a line that is
not active are used up and leave no stem.

Each step on lines gets a companion that moves stems along (`followInclude`, `followSplice`,
`followExpand`), and `history` follows a whole run, counting its expansions. Forgetting the stems
gives the steps back: the lemmas `text_followInclude`, `text_followSplice` and `text_followExpand`
say so for each of them. -/

namespace Mcs51.Source

/-- A line before its first expansion, and what each expansion since then has applied to it. -/
structure Stem where
  line : Text
  batches : List (List Replacement)
deriving DecidableEq, Repr

/-- The stem after another expansion. -/
def Stem.after (stem : Stem) (batch : List Replacement) : Stem :=
  { stem with batches := stem.batches ++ [batch] }

/-- A line on its way through the rounds, with what it has defined. -/
structure Tracked where
  text : Text
  stem : Option Stem
  defines : Option Replacement
deriving DecidableEq, Repr

namespace Tracked

/-- A line that no expansion has been at. -/
def fresh (text : Text) : Tracked := ⟨text, some ⟨text, []⟩, none⟩

/-- No expansion has been at the line. -/
def isFresh (l : Tracked) : Bool := l.stem.any fun stem => stem.batches.isEmpty

/-- A line that is made of others, all of them fresh or not. -/
def ofParts (allFresh : Bool) (text : Text) : Tracked :=
  if allFresh then fresh text else ⟨text, none, none⟩

/-- What an inclusion has written for a line: the line itself, or lines that are new. -/
def spread (l : Tracked) (written : List Text) : List Tracked :=
  if written = [l.text] then [l] else written.map fresh

/-- The line after an expansion that writes the given text for it, which leads from one state to
another. -/
def expand (s t : Expansion) (l : Tracked) (written : Text) : Tracked :=
  match s.reader.view.step l.text with
  | some (_, .idle) =>
    if (Marker.ofLine? l.text).isSome then { l with text := written }
    else ⟨written, none, l.defines⟩
  | some (_, .defines _) => ⟨written, none, t.pre.stored.getLast?⟩
  | _ => ⟨written, l.stem.map (·.after s.pre.stored), l.defines⟩

theorem text_spread (l : Tracked) (written : List Text) :
    (l.spread written).map text = written := by
  unfold spread
  split_ifs with h
  · rw [h, List.map_singleton]
  · rw [List.map_map]
    exact List.map_id _

theorem text_ofParts (allFresh : Bool) (t : Text) : (ofParts allFresh t).text = t := by
  cases allFresh <;> rfl

end Tracked

open Tracked

/-! ### The steps of a round -/

/-- The lines that an inclusion writes for some lines, from a state on. -/
def followInclude (d : Disk) : Inclusion → List Tracked → List Tracked
  | _, [] => []
  | s, l :: rest =>
    let t := (s.step d l.text).1
    l.spread (t.out.toList.drop s.out.size) ++ followInclude d t rest

/-- Joins lines, given the line that is open and how many lines it has taken up. -/
def followSpliceFrom (line : Tracked) (taken : Nat) : List Tracked → List Tracked
  | [] =>
    (if continues line.text then ofParts line.isFresh line.text.dropLast else line) ::
      List.replicate taken (fresh spliceFiller)
  | next :: rest =>
    if continues line.text then
      followSpliceFrom
        (ofParts (line.isFresh && next.isFresh) (line.text.dropLast ++ next.text)) (taken + 1) rest
    else line :: List.replicate taken (fresh spliceFiller) ++ followSpliceFrom next 0 rest

/-- Joins every line that ends in a backslash to the next one. -/
def followSplice : List Tracked → List Tracked
  | [] => []
  | line :: rest => followSpliceFrom line 0 rest

/-- The lines that an expansion writes for some lines, from a state on. -/
def followExpand : Expansion → List Tracked → List Tracked
  | _, [] => []
  | s, l :: rest =>
    let t := (s.step l.text).1
    l.expand s t ((t.out.toList.drop s.out.size).headD []) :: followExpand t rest

/-! ### Runs -/

/-- What is known of a run: the lines it ends with, and how often it has expanded lines. -/
structure History where
  lines : List Tracked
  expansions : Nat
deriving DecidableEq, Repr

/-- Follows rounds that succeed, of which so many are left. -/
def followRounds (d : Disk) (file : Text) : Nat → Preprocessor → List Tracked → Option History
  | 0, _, _ => none
  | left + 1, p, ls =>
    let inserted := followInclude d (.start (p.announce left) file) ls
    match includeLines d (p.announce left) file (ls.map text) with
    | (_, .error _) => none
    | (p, .ok (_, count)) =>
      if count ≠ 0 then followRounds d file left p inserted
      else
        let expanded := followExpand (.start p file) (followSplice inserted)
        match expandLines p file ((followSplice inserted).map text) with
        | (_, .error _) => none
        | (p, .ok texts) =>
          if needsPreprocessing texts then
            (followRounds d file left p expanded).map fun h =>
              { h with expansions := h.expansions + 1 }
          else some ⟨expanded, 1⟩

/-- Follows a run that succeeds. -/
def history (d : Disk) (p : Preprocessor) (file source : Text) : Option History :=
  match p.enter source with
  | .error _ => none
  | .ok lines => followRounds d file p.maxRounds p (lines.map fresh)

/-! ### Inclusion -/

theorem followInclude_cons {d : Disk} {l : Tracked} {s t : Inclusion} {written : List Text}
    (h : s.step d l.text = (t, none)) (hout : t.out.toList = s.out.toList ++ written)
    (ls : List Tracked) :
    followInclude d s (l :: ls) = l.spread written ++ followInclude d t ls := by
  have hdrop : t.out.toList.drop s.out.size = written := by
    rw [hout, ← Array.length_toList, List.drop_left]
  simp only [followInclude, h, hdrop]

theorem text_followInclude {d : Disk} : ∀ {ls : List Tracked} {s t : Inclusion},
    walk (Inclusion.step d) s (ls.map text) = (t, none) →
      t.out.toList = s.out.toList ++ (followInclude d s ls).map text
  | [], s, t, h => by
    cases h
    simp [followInclude]
  | l :: ls, s, t, h => by
    obtain ⟨u, hu, hw⟩ := walk_cons_eq_none.mp h
    obtain ⟨use, written, -, hout, -⟩ := Inclusion.takes_of_step hu
    rw [text_followInclude hw, followInclude_cons hu hout, List.map_append, text_spread, hout,
      List.append_assoc]

/-- A line after an inclusion is one that was there before, or a new one. -/
theorem mem_followInclude {d : Disk} : ∀ {ls : List Tracked} {s : Inclusion} {l : Tracked},
    l ∈ followInclude d s ls → l ∈ ls ∨ l = fresh l.text
  | [], _, _, h => by simp [followInclude] at h
  | l' :: ls, s, l, h => by
    simp only [followInclude] at h
    rcases List.mem_append.mp h with h | h
    · unfold spread at h
      split_ifs at h
      · exact Or.inl (by simpa using Or.inl (List.mem_singleton.mp h))
      · obtain ⟨t, -, rfl⟩ := List.mem_map.mp h
        exact Or.inr rfl
    · rcases mem_followInclude h with h | h
      · exact Or.inl (List.mem_cons_of_mem _ h)
      · exact Or.inr h

/-! ### Joining -/

theorem text_followSpliceFrom : ∀ (ls : List Tracked) (line : Tracked) (taken : Nat),
    (followSpliceFrom line taken ls).map text = spliceFrom line.text taken (ls.map text)
  | [], line, taken => by
    have hfirst : (if continues line.text then ofParts line.isFresh line.text.dropLast
        else line).text = if continues line.text then line.text.dropLast else line.text := by
      split_ifs
      · exact text_ofParts _ _
      · rfl
    rw [followSpliceFrom, List.map_cons, List.map_replicate, List.map_nil, spliceFrom, hfirst]
    rfl
  | next :: ls, line, taken => by
    simp only [followSpliceFrom, spliceFrom, List.map_cons]
    split_ifs
    · rw [text_followSpliceFrom, text_ofParts]
    · rw [List.map_append, List.map_cons, List.map_replicate, text_followSpliceFrom]
      rfl

theorem text_followSplice (ls : List Tracked) :
    (followSplice ls).map text = splice (ls.map text) := by
  cases ls with
  | nil => rfl
  | cons line ls => exact text_followSpliceFrom ls line 0

/-- A line after joining is one that was there before, or fresh, or has no stem. -/
theorem mem_followSpliceFrom {P : Tracked → Prop} (hparts : ∀ b t, P (ofParts b t)) :
    ∀ {ls : List Tracked} {line : Tracked} {taken : Nat}, P line → (∀ l ∈ ls, P l) →
      ∀ l ∈ followSpliceFrom line taken ls, P l
  | [], line, taken, hline, _, l, hl => by
    rw [followSpliceFrom] at hl
    rcases List.mem_cons.mp hl with rfl | hl
    · split_ifs
      · exact hparts _ _
      · exact hline
    · rw [List.eq_of_mem_replicate hl]
      exact hparts true _
  | next :: ls, line, taken, hline, hls, l, hl => by
    have hnext : P next := hls next List.mem_cons_self
    have hrest : ∀ l ∈ ls, P l := fun l hl => hls l (List.mem_cons_of_mem _ hl)
    rw [followSpliceFrom] at hl
    split_ifs at hl
    · exact mem_followSpliceFrom hparts (hparts _ _) hrest l hl
    · rcases List.mem_append.mp hl with hl | hl
      · rcases List.mem_cons.mp hl with rfl | hl
        · exact hline
        · rw [List.eq_of_mem_replicate hl]
          exact hparts true _
      · exact mem_followSpliceFrom hparts hnext hrest l hl

theorem followSpliceFrom_fresh : ∀ (ts : List Text) (t : Text) (taken : Nat),
    followSpliceFrom (fresh t) taken (ts.map fresh) = (spliceFrom t taken ts).map fresh
  | [], t, taken => by
    rw [List.map_nil, followSpliceFrom, spliceFrom, List.map_cons, List.map_replicate]
    congr 1
    show (if continues t then fresh t.dropLast else fresh t) = _
    split_ifs <;> rfl
  | next :: ts, t, taken => by
    rw [List.map_cons, followSpliceFrom, spliceFrom]
    show (if continues t then followSpliceFrom (fresh (t.dropLast ++ next)) (taken + 1) (ts.map fresh)
      else fresh t :: List.replicate taken (fresh spliceFiller) ++
        followSpliceFrom (fresh next) 0 (ts.map fresh)) = _
    split_ifs
    · exact followSpliceFrom_fresh ts _ _
    · rw [followSpliceFrom_fresh ts next 0, List.map_append, List.map_cons, List.map_replicate]

/-- Fresh lines are joined to fresh lines. -/
theorem followSplice_fresh (ts : List Text) :
    followSplice (ts.map fresh) = (splice ts).map fresh := by
  cases ts with
  | nil => rfl
  | cons t ts => exact followSpliceFrom_fresh ts t 0

/-! ### Expansion -/

/-- What an expansion that takes a line makes of it. -/
inductive Tracked.Expands (s t : Expansion) (l : Tracked) : Tracked → Prop
  | marker {m : Marker} (marks : Marker.ofLine? l.text = some m) (pre : t.pre = s.pre) :
      Expands s t l l
  | skip (pre : t.pre = s.pre) : Expands s t l ⟨regionFiller, none, l.defines⟩
  | define {r : Replacement} {expansion words : Text} (defines : definition l.text.code = .ok r)
      (expands : Replacement.expandAll (s.pre.predefined ++ s.pre.stored) r.expansion =
        .ok expansion)
      (pre : t.pre = (s.pre.note .trace words).store ⟨r.name, expansion⟩) :
      Expands s t l ⟨defineFiller, none, some ⟨r.name, expansion⟩⟩
  | expand {code : Text} (unmarked : Marker.ofLine? l.text = none)
      (expands : Replacement.expandAll s.pre.stored l.text.code = .ok code) (pre : t.pre = s.pre) :
      Expands s t l ⟨code ++ l.text.comment, l.stem.map (·.after s.pre.stored), l.defines⟩

theorem expands_of_takes {s t : Expansion} {l : Tracked} {use : Use} {written : Text}
    (hsees : s.reader.Sees l.text use t.reader) (htakes : Expansion.Takes s l.text t use written) :
    (l.expand s t written).text = written ∧ Tracked.Expands s t l (l.expand s t written) := by
  have hview := hsees.view
  cases htakes with
  | marker marks pre =>
    have hexpand : l.expand s t l.text = l := by simp [Tracked.expand, hview, marks]
    rw [hexpand]
    exact ⟨rfl, .marker marks pre⟩
  | skip unmarked pre =>
    have hexpand : l.expand s t regionFiller = ⟨regionFiller, none, l.defines⟩ := by
      simp [Tracked.expand, hview, unmarked]
    rw [hexpand]
    exact ⟨rfl, .skip pre⟩
  | @define r expansion words unmarked defines expands pre =>
    have hlast : t.pre.stored.getLast? = some ⟨r.name, expansion⟩ := by
      simp [pre, Preprocessor.store]
    have hexpand : l.expand s t defineFiller = ⟨defineFiller, none, some ⟨r.name, expansion⟩⟩ := by
      simp [Tracked.expand, hview, hlast]
    rw [hexpand]
    exact ⟨rfl, .define defines expands pre⟩
  | @expand _ code unmarked active other expands pre =>
    have hexpand : l.expand s t (code ++ l.text.comment) =
        ⟨code ++ l.text.comment, l.stem.map (·.after s.pre.stored), l.defines⟩ := by
      have huse : use = .plain ∨ ∃ name?, use = .includes name? := by
        rw [active, Use.ofCode, other]
        by_cases hinc : l.text.code.mentions includeWord = true
        · exact Or.inr ⟨_, if_pos hinc⟩
        · exact Or.inl (if_neg hinc)
      rcases huse with rfl | ⟨name?, rfl⟩ <;> simp [Tracked.expand, hview]
    rw [hexpand]
    exact ⟨rfl, .expand unmarked expands pre⟩

/-- **What an expansion makes of a line that it takes.** -/
theorem followExpand_cons {l : Tracked} {s t : Expansion} (h : s.step l.text = (t, none)) :
    ∃ l', l.Expands s t l' ∧ t.out.toList = s.out.toList ++ [l'.text] ∧
      ∀ ls, followExpand s (l :: ls) = l' :: followExpand t ls := by
  obtain ⟨use, written, hsees, hout, htakes⟩ := Expansion.takes_of_step h
  obtain ⟨htext, hexpands⟩ := expands_of_takes hsees htakes
  have hdrop : t.out.toList.drop s.out.size = [written] := by
    rw [hout, ← Array.length_toList, List.drop_left]
  refine ⟨l.expand s t written, hexpands, by rw [hout, htext], fun ls => ?_⟩
  simp only [followExpand, h, hdrop, List.headD_cons]

theorem text_followExpand : ∀ {ls : List Tracked} {s t : Expansion},
    walk Expansion.step s (ls.map text) = (t, none) →
      t.out.toList = s.out.toList ++ (followExpand s ls).map text
  | [], s, t, h => by
    cases h
    simp [followExpand]
  | l :: ls, s, t, h => by
    obtain ⟨u, hu, hw⟩ := walk_cons_eq_none.mp h
    obtain ⟨l', -, hout, hcons⟩ := followExpand_cons hu
    rw [text_followExpand hw, hout, hcons, List.map_cons, List.append_assoc, List.singleton_append]

end Mcs51.Source
