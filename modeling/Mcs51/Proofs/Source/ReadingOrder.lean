import Mcs51.Proofs.Source.Inclusion
import Mcs51.Proofs.Source.Region
import Mcs51.Proofs.Source.Sign

/-! # Reading files in order

`readSource` is the usual way to read a source: line by line, with the names defined so far at hand,
and with each file read where an active line includes it, before the next line. What it finds is a
`Record`: the names defined and the paths opened.

The stream of a round is the source `Grown` by some of the files that its lines include. A file in
a stream leaves the regions as they were, whether or not the line that includes it is active
(`Grown.inOrder_file`). Once no file is pending in such a stream, seeing its lines therefore comes
to the same as reading in order (`Grown.read_of_settled`): the same names are defined at last, and
every path opened by reading is that of a file in the stream. -/

namespace Mcs51.Source

/-! ### The reading -/

/-- What reading has found: the names defined, in upper case, and the paths opened, in order. -/
structure Record where
  defined : List Text
  opened : List Text
deriving DecidableEq, Repr

/-- Reads lines in order. A file that a line includes is read by `readFile`, before the next line.
Every region has to be closed at last. -/
def readLines (readFile : Text → Record → Option Record) :
    Regions → Record → List Text → Option Record
  | regions, found, [] => if regions.isEmpty then some found else none
  | regions, found, line :: lines =>
    match View.step ⟨regions, found.defined⟩ line with
    | none => none
    | some (_, .misdefines) => none
    | some (v, .includes name?) =>
      match name?.bind fun name => readFile name found with
      | none => none
      | some found => readLines readFile v.regions found lines
    | some (v, _) => readLines readFile v.regions { found with defined := v.defined } lines

/-- Reads the file that a name leads to, and the files that it includes, so many levels deep. -/
def readFile (d : Disk) (p : Preprocessor) : Nat → Text → Record → Option Record
  | 0, _, _ => none
  | depth + 1, name, found =>
    match p.open? d name with
    | none => none
    | some (path, lines) =>
      readLines (readFile d p depth) [] { found with opened := found.opened ++ [path] } lines

/-- Reads a source. Files nest less deep than there are rounds. -/
def readSource (d : Disk) (p : Preprocessor) (source : Text) : Option Record :=
  match p.enter source with
  | .error _ => none
  | .ok lines => readLines (readFile d p (p.maxRounds - 1)) [] ⟨p.defined, []⟩ lines

theorem readLines_nil {read : Text → Record → Option Record} {regions : Regions}
    {found out : Record} (h : readLines read regions found [] = some out) :
    regions = [] ∧ out = found := by
  simp only [readLines] at h
  split_ifs at h with hempty
  exact ⟨by simpa using hempty, (Option.some.inj h).symm⟩

/-- The cases of a line that is read: one that includes a file, or another. -/
theorem readLines_cons {read : Text → Record → Option Record} {regions : Regions}
    {found out : Record} {line : Text} {lines : List Text}
    (h : readLines read regions found (line :: lines) = some out) :
    ∃ v use, View.step ⟨regions, found.defined⟩ line = some (v, use) ∧
      ((∃ name more, use = .includes (some name) ∧ read name found = some more ∧
          readLines read v.regions more lines = some out) ∨
        (use.included? = none ∧ use ≠ .misdefines ∧
          readLines read v.regions { found with defined := v.defined } lines = some out)) := by
  rw [readLines] at h
  split at h
  · simp at h
  · simp at h
  · next v name? hstep =>
    split at h
    · simp at h
    · next more hmore =>
      obtain ⟨name, rfl, hread⟩ := Option.bind_eq_some_iff.mp hmore
      exact ⟨v, _, hstep, Or.inl ⟨name, more, rfl, hread, h⟩⟩
  · next v use hmis hinc hstep =>
    refine ⟨v, use, hstep, Or.inr ⟨?_, hmis, h⟩⟩
    cases use with
    | includes name? => exact absurd rfl (hinc name?)
    | _ => rfl

/-- What a line that includes a file says: the file's name if the line is active, or nothing. -/
theorem View.step_of_names {v : View} {line name : Text} (unmarked : Marker.ofLine? line = none)
    (other : Regions.isCondition line.code = false)
    (names : Use.ofCode line.code = .includes (some name)) :
    v.step line = some (v, if v.regions.active then .includes (some name) else .idle) := by
  have hdir : v.regions.directive v.defined line.code = .ok none :=
    Regions.directive_eq_none.mpr other
  cases ha : v.regions.active <;> simp [step, role, unmarked, hdir, ha, names, after]

/-- Reading goes on from a line that includes a file as it stands after the file, if the line is
active, and as it stood before the line, if it is not. -/
theorem readLines_includes {read : Text → Record → Option Record} {regions : Regions}
    {found out : Record} {line name : Text} {lines : List Text}
    (unmarked : Marker.ofLine? line = none) (other : Regions.isCondition line.code = false)
    (names : Use.ofCode line.code = .includes (some name))
    (h : readLines read regions found (line :: lines) = some out) :
    ∃ more, (regions.active = true ∧ read name found = some more ∨
        regions.active = false ∧ more = found) ∧
      readLines read regions more lines = some out := by
  obtain ⟨v, use, hstep, hcase⟩ := readLines_cons h
  rw [View.step_of_names unmarked other names] at hstep
  cases ha : regions.active with
  | true =>
    simp only [ha, if_true] at hstep
    cases hstep
    rcases hcase with ⟨name', more, hname, hfile, hrest⟩ | ⟨hnone, -⟩
    · obtain rfl : name = name' := by simpa using hname
      exact ⟨more, Or.inl ⟨rfl, hfile⟩, hrest⟩
    · simp [Use.included?] at hnone
  | false =>
    simp only [ha, Bool.false_eq_true, if_false] at hstep
    cases hstep
    rcases hcase with ⟨name', more, hname, -⟩ | ⟨-, -, hrest⟩
    · simp at hname
    · exact ⟨found, Or.inr ⟨rfl, rfl⟩, hrest⟩

theorem readFile_ok {d : Disk} {p : Preprocessor} {depth : Nat} {name : Text} {found out : Record}
    (h : readFile d p depth name found = some out) :
    ∃ n path lines, p.open? d name = some (path, lines) ∧
      readLines (readFile d p n) [] { found with opened := found.opened ++ [path] } lines =
        some out := by
  cases depth with
  | zero => simp [readFile] at h
  | succ n =>
    simp only [readFile] at h
    split at h
    · simp at h
    · next path lines hopen => exact ⟨n, path, lines, hopen, h⟩

/-! ### Files in a stream -/

/-- In an active place a line says what it says on its own. -/
theorem View.step_append {rs base : Regions} {defined : List Text} {line : Text} {w : View}
    {use : Use} (hbase : base.active = true) (h : View.step ⟨rs, defined⟩ line = some (w, use)) :
    View.step ⟨rs ++ base, defined⟩ line = some (⟨w.regions ++ base, w.defined⟩, use) := by
  rcases step_cases h with ⟨⟨m, hm⟩, rfl, rfl⟩ | ⟨hm, rfl, hdef, hdir⟩ | ⟨hm, hdir, hcase⟩
  · exact step_of_marker hm
  · have hdir' := Regions.directive_append hbase hdir
    simp only at hdir' hdef
    simp [step, role, hm, hdir', hdef]
  · have hdir' : Regions.directive (rs ++ base) defined line.code = .ok none :=
      Regions.directive_eq_none.mpr (Regions.directive_eq_none.mp hdir)
    have hactive := Regions.active_append rs hbase
    rcases hcase with ⟨ha, rfl, rfl⟩ | ⟨ha, rfl, rfl⟩
    · simp only at ha
      simp only [step, role, hm, hdir', hactive, ha]
      cases Use.ofCode line.code <;> rfl
    · simp only at ha
      simp [step, role, hm, hdir', hactive, ha]

/-- In a place that is not active a line says nothing, and a directive on it does to the regions of
its file what it does on its own. -/
theorem View.step_dormant {rs own own' base : Regions} {defined : List Text} {line : Text}
    {lines : List Text} {w : View} {use : Use} (hd : Regions.Dormant rs own)
    (hbase : base.active = false) (unmarked : Marker.ofLine? line = none)
    (hown : own.through (line :: lines) = some own')
    (h : View.step ⟨rs ++ base, defined⟩ line = some (w, use)) :
    use = .idle ∧ ∃ rs₁ own₁, Regions.Dormant rs₁ own₁ ∧ w = ⟨rs₁ ++ base, defined⟩ ∧
      own₁.through lines = some own' := by
  rw [Regions.through] at hown
  rcases step_cases h with ⟨⟨m, hm⟩, -⟩ | ⟨-, huse, hdef, hdir⟩ | ⟨-, hdir, hcase⟩
  · rw [unmarked] at hm
    simp at hm
  · split at hown
    · simp at hown
    · next hnone =>
      rw [Regions.directive_eq_none.mpr (Regions.directive_eq_none.mp hnone)] at hdir
      simp at hdir
    · next own₁ hown₁ =>
      obtain ⟨rs₁, hd₁, hdir'⟩ := Regions.directive_dormant hd hbase hown₁ defined
      rw [hdir] at hdir'
      simp only [Except.ok.injEq, Option.some.injEq] at hdir'
      obtain ⟨regions, names⟩ := w
      exact ⟨huse, rs₁, own₁, hd₁, congrArg₂ View.mk hdir' hdef, hown⟩
  · rw [Regions.directive_eq_none.mpr (Regions.directive_eq_none.mp hdir)] at hown
    rcases hcase with ⟨hactive, -⟩ | ⟨-, huse, rfl⟩
    · rw [hd.active hbase] at hactive
      simp at hactive
    · exact ⟨huse, rs, own, hd, rfl, hown⟩

/-- What a filler says: nothing, be it active or not. -/
def View.filler (v : View) : Use := if v.regions.active then .plain else .idle

theorem View.included?_filler (v : View) : v.filler.included? = none := by
  unfold filler
  split_ifs <;> rfl

theorem View.step_includeFiller (v : View) : v.step includeFiller = some (v, v.filler) := by
  have hmarker : Marker.ofLine? includeFiller = none := signFree_includeFiller.unmarked
  have hcode : includeFiller.code = [] := by decide
  have hdirective : v.regions.directive v.defined [] = .ok none := rfl
  have huse : Use.ofCode [] = .plain := by decide
  unfold step role filler
  rw [hmarker, hcode, hdirective, huse]
  cases v.regions.active <;> rfl

/-- What is seen of a file put in, from the filler to the end marker, and after it. -/
def seenBlock (v : View) (name : Text) (front back : List (Text × Use)) : List (Text × Use) :=
  (includeFiller, v.filler) :: ((Marker.enter name).line, .idle) ::
    (front ++ ((Marker.leave name).line, .idle) :: back)

/-- A file in a stream is seen as its lines are. -/
theorem survey_block {v w : View} {name : Text} {inner stream : List Text}
    {seen : List (Text × Use)} (hname : name ≠ [] ∧ ∀ c ∈ name, Text.isBlank c = false)
    (h : survey v (Inclusion.block name inner ++ stream) = some (seen, w)) :
    ∃ u front back, survey v inner = some (front, u) ∧ survey u stream = some (back, w) ∧
      seen = seenBlock v name front back := by
  have hmarker (m : Marker) (hm : m.name = name) (v : View) : v.step m.line = some (v, .idle) :=
    View.step_of_marker (Marker.ofLine?_line (hm ▸ hname.1) (hm ▸ hname.2))
  simp only [Inclusion.block, List.cons_append, List.append_assoc, List.nil_append] at h
  obtain ⟨v₁, use₁, seen₁, hfiller, h₁, rfl⟩ := survey_cons.mp h
  rw [View.step_includeFiller] at hfiller
  cases hfiller
  obtain ⟨v₂, use₂, seen₂, henter, h₂, rfl⟩ := survey_cons.mp h₁
  rw [hmarker _ rfl] at henter
  cases henter
  obtain ⟨u, front, seen₃, hfront, h₃, rfl⟩ := survey_append.mp h₂
  obtain ⟨v₄, use₄, back, hleave, hback, rfl⟩ := survey_cons.mp h₃
  rw [hmarker _ rfl] at hleave
  cases hleave
  exact ⟨u, front, back, hfront, hback, rfl⟩

section

variable (v : View) (name : Text) (front back : List (Text × Use))

theorem pending_seenBlock :
    pending (seenBlock v name front back) = pending front ++ pending back := by
  rw [seenBlock, pending_cons, View.included?_filler, pending_cons, pending_append, pending_cons]
  rfl

theorem takenIn_seenBlock (d : Disk) (p : Preprocessor) :
    takenIn d p (seenBlock v name front back) = takenIn d p front ++ takenIn d p back := by
  rw [takenIn, pending_seenBlock, List.filterMap_append]
  rfl

theorem widen_seenBlock (d : Disk) (p : Preprocessor) :
    widen d p (seenBlock v name front back) =
      Inclusion.block name (widen d p front) ++ widen d p back := by
  rw [seenBlock, widen_cons, widen_cons, widen_append, widen_cons,
    written_of_other d p _ v.included?_filler]
  simp [written, Inclusion.block]

variable {v name front back}

/-- What holds of a filler and of markers holds of all that is seen, if it holds of the file and of
what comes after it. -/
theorem forall_seenBlock {P : Use → Prop} (hfiller : P v.filler) (hidle : P .idle)
    (hfront : ∀ l ∈ front, P l.2) (hback : ∀ l ∈ back, P l.2) :
    ∀ l ∈ seenBlock v name front back, P l.2 := by
  intro l hl
  simp only [seenBlock, List.mem_cons, List.mem_append] at hl
  rcases hl with rfl | rfl | hl | rfl | hl
  · exact hfiller
  · exact hidle
  · exact hfront l hl
  · exact hidle
  · exact hback l hl

end

/-! ### Streams with files put in -/

/-- A stream that lines have grown into: some lines that include a file have been replaced by the
file, which has grown in turn. The paths of these files are all listed. -/
inductive Grown (d : Disk) (p : Preprocessor) (paths : List Text) : List Text → List Text → Prop
  | nil : Grown d p paths [] []
  | keep {line : Text} {lines stream : List Text} (unmarked : Marker.ofLine? line = none)
      (rest : Grown d p paths lines stream) : Grown d p paths (line :: lines) (line :: stream)
  | file {line name path : Text} {lines stream file inner : List Text}
      (unmarked : Marker.ofLine? line = none) (other : Regions.isCondition line.code = false)
      (names : Use.ofCode line.code = .includes (some name))
      (opens : p.open? d name = some (path, file)) (put : listed paths path = true)
      (grown : Grown d p paths file inner) (rest : Grown d p paths lines stream) :
      Grown d p paths (line :: lines) (Inclusion.block name inner ++ stream)

namespace Grown

variable {d : Disk} {p : Preprocessor} {paths more lines stream : List Text}

theorem refl : ∀ {lines : List Text}, (∀ line ∈ lines, Marker.ofLine? line = none) →
    Grown d p paths lines lines
  | [], _ => .nil
  | line :: _, h => .keep (h line (by simp)) (refl fun l hl => h l (by simp [hl]))

/-- The name on a line that includes a file is one field. -/
theorem name_ok {code name : Text} (h : Use.ofCode code = .includes (some name)) :
    name ≠ [] ∧ ∀ c ∈ name, Text.isBlank c = false :=
  includedName?_ok (Use.includes_of_ofCode h)

/-- What holds of the lines of all files, of fillers and of markers holds of a stream. -/
theorem forall_mem {P : Text → Prop} (hfiller : P includeFiller)
    (hmarker : ∀ m : Marker, Marker.ofLine? m.line = some m → P m.line)
    (hfiles : ∀ name path file, p.open? d name = some (path, file) → ∀ line ∈ file, P line)
    (h : Grown d p paths lines stream) (hlines : ∀ line ∈ lines, P line) :
    ∀ line ∈ stream, P line := by
  induction h with
  | nil => exact hlines
  | keep unmarked _ ih =>
    intro line hline
    rcases List.mem_cons.mp hline with rfl | hline
    · exact hlines line (by simp)
    · exact ih (fun l hl => hlines l (by simp [hl])) line hline
  | file unmarked other names opens put _ _ ihFile ih =>
    intro line hline
    obtain ⟨hne, hblank⟩ := name_ok names
    rcases List.mem_append.mp hline with hline | hline
    · rw [Inclusion.block, List.mem_cons, List.mem_cons, List.mem_append,
        List.mem_singleton] at hline
      rcases hline with rfl | rfl | hline | rfl
      · exact hfiller
      · exact hmarker _ (Marker.ofLine?_line hne hblank)
      · exact ihFile (hfiles _ _ _ opens) line hline
      · exact hmarker _ (Marker.ofLine?_line hne hblank)
    · exact ih (fun l hl => hlines l (by simp [hl])) line hline

/-- The file stack gets past a stream and comes back to where the lines leave it. -/
theorem counts (h : Grown d p paths lines stream) : FileStack.Counts lines.length stream := by
  induction h with
  | nil => exact FileStack.counts_nil
  | keep unmarked _ ih =>
    rw [List.length_cons, Nat.add_comm]
    exact (FileStack.counts_line unmarked).append ih
  | file unmarked other names opens put _ _ ihFile ih =>
    rw [List.length_cons, Nat.add_comm]
    exact (Inclusion.counts_block (name_ok names) ihFile).append ih

/-- **A stream grows** when the files that are pending in it are put in. -/
theorem widen (h : Grown d p paths lines stream)
    (hfiles : ∀ name path file, p.open? d name = some (path, file) →
      ∀ line ∈ file, Marker.ofLine? line = none)
    (hsub : ∀ path, listed paths path = true → listed more path = true) :
    ∀ {v w : View} {seen : List (Text × Use)}, survey v stream = some (seen, w) →
      (∀ path, listed (takenIn d p seen) path = true → listed more path = true) →
      Grown d p more lines (Source.widen d p seen) := by
  induction h with
  | nil =>
    intro v w seen hseen _
    cases hseen
    exact .nil
  | @keep line lines stream unmarked _ ih =>
    intro v w seen hseen hput
    obtain ⟨u, use, rest, hstep, hrest, rfl⟩ := survey_cons.mp hseen
    rw [widen_cons]
    rcases written_cases d p line use with ⟨hline, htaken⟩ | ⟨name, path, file, rfl, hopen⟩
    · rw [hline]
      rw [htaken] at hput
      exact .keep unmarked (ih hrest hput)
    · obtain ⟨-, hdir, -, huse, -⟩ := View.includes_of_step hstep rfl
      rw [written_of_open line hopen]
      rw [takenIn_cons_of_open line hopen] at hput
      refine .file unmarked (Regions.directive_eq_none.mp hdir) huse hopen (hput path ?_)
        (.refl (hfiles name path file hopen)) (ih hrest fun q hq => hput q ?_)
      · exact listed_of_mem (by simp)
      · rw [listed_cons, hq, Bool.or_true]
  | @file line name path lines stream file inner unmarked other names opens put _ _ ihFile ih =>
    intro v w seen hseen hput
    obtain ⟨u, front, back, hfront, hback, rfl⟩ := survey_block (name_ok names) hseen
    rw [takenIn_seenBlock] at hput
    rw [widen_seenBlock]
    refine .file unmarked other names opens (hsub path put) (ihFile hfront fun q hq => ?_)
      (ih hback fun q hq => ?_)
    · exact hput q (by rw [listed_append, hq, Bool.true_or])
    · exact hput q (by rw [listed_append, hq, Bool.or_true])

/-- **A file in a place that is not active** says nothing and leaves the view as it was. -/
theorem survey_dormant (h : Grown d p paths lines stream)
    (hfiles : ∀ name path file, p.open? d name = some (path, file) → Regions.Balanced file) :
    ∀ {rs own own' base : Regions} {defined : List Text} {seen : List (Text × Use)} {w : View},
      Regions.Dormant rs own → base.active = false → own.through lines = some own' →
      survey ⟨rs ++ base, defined⟩ stream = some (seen, w) →
      (∃ rs', Regions.Dormant rs' own' ∧ w = ⟨rs' ++ base, defined⟩) ∧ ∀ l ∈ seen, l.2 = .idle := by
  induction h with
  | nil =>
    intro rs own own' base defined seen w hd _ hown hseen
    cases hown
    cases hseen
    exact ⟨⟨rs, hd, rfl⟩, by simp⟩
  | @keep line lines stream unmarked _ ih =>
    intro rs own own' base defined seen w hd hbase hown hseen
    obtain ⟨u, use, rest, hstep, hrest, rfl⟩ := survey_cons.mp hseen
    obtain ⟨rfl, rs₁, own₁, hd₁, rfl, hown₁⟩ := View.step_dormant hd hbase unmarked hown hstep
    obtain ⟨hview, hidle⟩ := ih hd₁ hbase hown₁ hrest
    exact ⟨hview, List.forall_mem_cons.mpr ⟨rfl, hidle⟩⟩
  | @file line name path lines stream file inner unmarked other names opens put _ _ ihFile ih =>
    intro rs own own' base defined seen w hd hbase hown hseen
    rw [Regions.through, Regions.directive_eq_none.mpr other] at hown
    obtain ⟨u, front, back, hfront, hback, rfl⟩ := survey_block (name_ok names) hseen
    have hplace := hd.active hbase
    have hfiller : View.filler ⟨rs ++ base, defined⟩ = .idle := by simp [View.filler, hplace]
    have hfront : survey ⟨[] ++ (rs ++ base), defined⟩ inner = some (front, u) := hfront
    obtain ⟨⟨rs', hd', rfl⟩, hidle⟩ := ihFile .nil hplace (hfiles _ _ _ opens) hfront
    obtain rfl : rs' = [] := by simpa using hd'.shape
    obtain ⟨hview, hidle'⟩ := ih hd hbase hown hback
    exact ⟨hview, forall_seenBlock (P := (· = .idle)) hfiller rfl hidle hidle'⟩

end Grown

/-! ### Streams in which no file is pending -/

/-- What is seen of lines that are read in order, where `opened` lists the paths opened before them.
The lines close the regions that they open, the names defined at last are those that reading finds,
no line fails to define a name, and each path that reading opens is listed. -/
structure InOrder (paths : List Text) (base : Regions) (opened : List Text) (out : Record)
    (seen : List (Text × Use)) (w : View) : Prop where
  view : w = ⟨base, out.defined⟩
  defines : ∀ l ∈ seen, l.2 ≠ .misdefines
  opened : ∀ path, listed out.opened path = true →
    listed opened path = true ∨ listed paths path = true

namespace InOrder

variable {paths opened : List Text} {base : Regions} {more out : Record} {line name path : Text}
  {use : Use} {seen front back : List (Text × Use)} {u w : View}

theorem cons (h : InOrder paths base opened out seen w) (huse : use ≠ .misdefines) :
    InOrder paths base opened out ((line, use) :: seen) w :=
  ⟨h.view, List.forall_mem_cons.mpr ⟨huse, h.defines⟩, h.opened⟩

/-- A file that is listed need not be told apart from those opened before. -/
theorem of_listed (h : InOrder paths base (opened ++ [path]) out seen w)
    (hput : listed paths path = true) : InOrder paths base opened out seen w := by
  refine ⟨h.view, h.defines, fun q hq => ?_⟩
  rcases h.opened q hq with hq | hq
  · rw [listed_append, Bool.or_eq_true] at hq
    rcases hq with hq | hq
    · exact Or.inl hq
    · rw [listed_cons, listed_nil, Bool.or_false] at hq
      exact Or.inr ((listed_congr hq).trans hput)
  · exact Or.inr hq

/-- A file in order, and what comes after it in order. -/
theorem block (v : View) (hfront : InOrder paths v.regions opened more front u)
    (hback : InOrder paths base more.opened out back w) :
    InOrder paths base opened out (seenBlock v name front back) w := by
  have hfiller : v.filler ≠ .misdefines := by
    unfold View.filler
    split_ifs <;> simp
  refine ⟨hback.view, forall_seenBlock (P := (· ≠ .misdefines)) hfiller nofun hfront.defines
    hback.defines, fun q hq => ?_⟩
  rcases hback.opened q hq with hq | hq
  · exact hfront.opened q hq
  · exact Or.inr hq

end InOrder

/-- Wherever the lines can be read and no file is pending in the stream, seeing the stream comes to
the same as reading the lines. Here `rs` are the regions of the file that is read and `base` those
around it in the stream. -/
def ReadsInOrder (d : Disk) (p : Preprocessor) (paths lines stream : List Text) : Prop :=
  ∀ {depth : Nat} {rs base : Regions} {found out : Record} {seen : List (Text × Use)} {w : View},
    base.active = true → readLines (readFile d p depth) rs found lines = some out →
    survey ⟨rs ++ base, found.defined⟩ stream = some (seen, w) → pending seen = [] →
    InOrder paths base found.opened out seen w

section

variable {d : Disk} {p : Preprocessor} {paths lines stream file inner : List Text}
  {name path : Text} {place : Regions} {depth : Nat} {found more : Record}
  {front : List (Text × Use)} {u : View}

theorem ReadsInOrder.keep (h : ReadsInOrder d p paths lines stream) (line : Text) :
    ReadsInOrder d p paths (line :: lines) (line :: stream) := by
  intro depth rs base found out seen w hbase hread hseen hpending
  obtain ⟨v, use, hstep, hcase⟩ := readLines_cons hread
  obtain ⟨u, use', rest, hstep', hrest, rfl⟩ := survey_cons.mp hseen
  rw [View.step_append hbase hstep] at hstep'
  cases hstep'
  rw [pending_cons, List.append_eq_nil_iff] at hpending
  rcases hcase with ⟨name, more, rfl, -, -⟩ | ⟨-, hmis, hread⟩
  · simp [Use.included?] at hpending
  · exact (h hbase hread hrest hpending.2).cons hmis

/-- A file in an active place is seen in order, if it is read. -/
theorem ReadsInOrder.of_readFile (h : ReadsInOrder d p paths file inner)
    (opens : p.open? d name = some (path, file)) (put : listed paths path = true)
    (hplace : place.active = true) (hread : readFile d p depth name found = some more)
    (hseen : survey ⟨place, found.defined⟩ inner = some (front, u))
    (hpending : pending front = []) :
    InOrder paths place found.opened more front u := by
  obtain ⟨n, path', file', hopen, hfile⟩ := readFile_ok hread
  rw [opens] at hopen
  cases hopen
  have hseen : survey ⟨[] ++ place, found.defined⟩ inner = some (front, u) := hseen
  exact (h hplace hfile hseen hpending).of_listed put

/-- A file in a place that is not active is seen in order, as if no line of it were there. -/
theorem Grown.inOrder_of_dormant (h : Grown d p paths file inner)
    (hfiles : ∀ name path file, p.open? d name = some (path, file) → Regions.Balanced file)
    (hbalanced : Regions.Balanced file) (hplace : place.active = false)
    (hseen : survey ⟨place, found.defined⟩ inner = some (front, u)) :
    InOrder paths place found.opened found front u := by
  have hseen : survey ⟨[] ++ place, found.defined⟩ inner = some (front, u) := hseen
  obtain ⟨⟨rs, hd, rfl⟩, hidle⟩ := h.survey_dormant hfiles .nil hplace hbalanced hseen
  obtain rfl : rs = [] := by simpa using hd.shape
  exact ⟨rfl, fun l hl => by simp [hidle l hl], fun _ => Or.inl⟩

/-- **A file in a stream leaves the regions as they were**, whether or not its place is active. -/
theorem Grown.inOrder_file (h : Grown d p paths file inner)
    (hfiles : ∀ name path file, p.open? d name = some (path, file) → Regions.Balanced file)
    (hreads : ReadsInOrder d p paths file inner)
    (opens : p.open? d name = some (path, file)) (put : listed paths path = true)
    (hmore : place.active = true ∧ readFile d p depth name found = some more ∨
      place.active = false ∧ more = found)
    (hseen : survey ⟨place, found.defined⟩ inner = some (front, u))
    (hpending : pending front = []) :
    InOrder paths place found.opened more front u := by
  rcases hmore with ⟨hactive, hread⟩ | ⟨hactive, rfl⟩
  · exact hreads.of_readFile opens put hactive hread hseen hpending
  · exact h.inOrder_of_dormant hfiles (hfiles _ _ _ opens) hactive hseen

/-- **A stream in which no file is pending is read in order.** It is seen with the same names
defined, and each path opened by reading is that of a file in the stream. -/
theorem Grown.read_of_settled (h : Grown d p paths lines stream)
    (hfiles : ∀ name path file, p.open? d name = some (path, file) → Regions.Balanced file) :
    ReadsInOrder d p paths lines stream := by
  induction h with
  | nil =>
    intro depth rs base found out seen w _ hread hseen _
    obtain ⟨rfl, rfl⟩ := readLines_nil hread
    cases hseen
    exact ⟨rfl, by simp, fun _ => Or.inl⟩
  | @keep line lines stream unmarked _ ih => exact ih.keep line
  | @file line name path lines stream file inner unmarked other names opens put hgrown _ ihFile
      ih =>
    intro depth rs base found out seen w hbase hread hseen hpending
    obtain ⟨u, front, back, hfront, hback, rfl⟩ := survey_block (name_ok names) hseen
    rw [pending_seenBlock, List.append_eq_nil_iff] at hpending
    obtain ⟨more, hmore, hread⟩ := readLines_includes unmarked other names hread
    rw [← Regions.active_append rs hbase] at hmore
    have hfile := hgrown.inOrder_file hfiles ihFile opens put hmore hfront hpending.1
    obtain rfl := hfile.view
    exact hfile.block ⟨rs ++ base, found.defined⟩ (ih hbase hread hback hpending.2)

end

end Mcs51.Source
