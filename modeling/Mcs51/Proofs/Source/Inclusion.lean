import Mcs51.Proofs.Source.Passes

/-! # What an inclusion puts in

An inclusion is determined by what its lines say. Given a survey of them, `widen` tells the lines
that it writes and `takenIn` the files that it puts in; it succeeds just if every file that is
pending can be put in (`Inclusion.puts_of_walk`, `Inclusion.exists_walk`). -/

namespace Mcs51.Source

/-! ### Paths -/

/-- A path is in a list, in some spelling. -/
def listed (paths : List Text) (path : Text) : Bool := paths.any (Path.same path)

theorem listed_nil (path : Text) : listed [] path = false := rfl

theorem listed_cons (path q : Text) (paths : List Text) :
    listed (q :: paths) path = (Path.same path q || listed paths path) := rfl

theorem listed_append (a b : List Text) (path : Text) :
    listed (a ++ b) path = (listed a path || listed b path) :=
  List.any_append

theorem listed_of_mem {paths : List Text} {path : Text} (h : path ∈ paths) :
    listed paths path = true :=
  List.any_eq_true.mpr ⟨path, h, by simp [Path.same]⟩

theorem listed_congr {paths : List Text} {path q : Text} (h : Path.same path q = true) :
    listed paths path = listed paths q := by
  have hparts : Path.parts path = Path.parts q := by simpa [Path.same] using h
  have hsame : Path.same path = Path.same q := by
    funext x
    simp [Path.same, hparts]
  rw [listed, hsame, listed]

/-- Adds a path to a list, unless it is there in some spelling. -/
def addPath (paths : List Text) (path : Text) : List Text :=
  if listed paths path then paths else paths ++ [path]

theorem listed_addPath (paths : List Text) (path q : Text) :
    listed (addPath paths q) path = (listed paths path || Path.same path q) := by
  unfold addPath
  split_ifs with h
  · -- the path was there before, and so was every other spelling of it
    cases hsame : Path.same path q with
    | false => rw [Bool.or_false]
    | true => rw [Bool.or_true, listed_congr hsame]; exact h
  · rw [listed_append, listed_cons, listed_nil, Bool.or_false]

theorem listed_addPaths (paths more : List Text) (path : Text) :
    listed (more.foldl addPath paths) path = (listed paths path || listed more path) := by
  induction more generalizing paths with
  | nil => rw [List.foldl_nil, listed_nil, Bool.or_false]
  | cons q more ih => rw [List.foldl_cons, ih, listed_addPath, listed_cons, Bool.or_assoc]

theorem addPaths_reverse (paths : List Text) : ∀ more : List Text,
    more.foldl addPath paths.reverse = List.eraseDupsBy.loop Path.same more paths
  | [] => rfl
  | q :: more => by
    have hlisted : listed paths.reverse q = paths.any (Path.same q) := by
      rw [listed, List.any_reverse]
    rw [List.foldl_cons, addPath, hlisted, List.eraseDupsBy.loop]
    cases paths.any (Path.same q) with
    | true => exact addPaths_reverse paths more
    | false =>
      have ih := addPaths_reverse (q :: paths) more
      rw [List.reverse_cons] at ih
      exact ih

/-- Paths added one by one are there once each, in the order of the first. -/
theorem addPaths_nil (paths : List Text) :
    paths.foldl addPath [] = paths.eraseDupsBy Path.same :=
  addPaths_reverse [] paths

/-- The paths included after one more file. -/
theorem included_takeIn (p : Preprocessor) (path : Text) :
    (p.takeIn path).included = addPath p.included path := by
  unfold Preprocessor.takeIn Preprocessor.addIncluded addPath listed
  show (if p.included.any (Path.same path) = true then _ else _ : Preprocessor).included = _
  split_ifs <;> rfl

/-! ### Files -/

namespace Preprocessor

/-- The file that a name leads to: its path, and its lines as they enter a stream. -/
def open? (p : Preprocessor) (d : Disk) (name : Text) : Option (Text × List Text) :=
  match p.find? d name with
  | none => none
  | some (path, text) => (p.enter text).toOption.map fun lines => (path, lines)

theorem open?_eq_some {p : Preprocessor} {d : Disk} {name path : Text} {lines : List Text} :
    p.open? d name = some (path, lines) ↔
      ∃ text, p.find? d name = some (path, text) ∧ p.enter text = .ok lines := by
  unfold open?
  split
  · next h => simp [h]
  · next path' text h =>
    simp only [h, Option.some.injEq, Prod.mk.injEq, Option.map_eq_some_iff]
    constructor
    · rintro ⟨lines', hlines, rfl, rfl⟩
      refine ⟨text, ⟨rfl, rfl⟩, ?_⟩
      cases he : p.enter text with
      | error f => simp [he, Except.toOption] at hlines
      | ok ls =>
        rw [he] at hlines
        cases hlines
        rfl
    · rintro ⟨text', ⟨rfl, rfl⟩, he⟩
      exact ⟨lines, by rw [he]; rfl, rfl, rfl⟩

theorem Alike.open? {p q : Preprocessor} (h : Alike p q) (d : Disk) (name : Text) :
    q.open? d name = p.open? d name := by
  unfold Preprocessor.open?
  rw [h.find?]
  split
  · rfl
  · rw [h.enter]

theorem Alike.defined {p q : Preprocessor} (h : Alike p q) : q.defined = p.defined := by
  unfold Preprocessor.defined
  rw [h.predefined, h.stored]

end Preprocessor

/-! ### Streams -/

/-- The lines that take the place of one, where the files pending are put in. -/
def written (d : Disk) (p : Preprocessor) (l : Text × Use) : List Text :=
  match l.2 with
  | .includes (some name) =>
    match p.open? d name with
    | none => [l.1]
    | some (_, lines) => Inclusion.block name lines
  | _ => [l.1]

/-- The stream with the files pending put in. -/
def widen (d : Disk) (p : Preprocessor) (seen : List (Text × Use)) : List Text :=
  seen.flatMap (written d p)

/-- The paths of the files that are put in. -/
def takenIn (d : Disk) (p : Preprocessor) (seen : List (Text × Use)) : List Text :=
  (pending seen).filterMap fun name? => (name?.bind (p.open? d)).map Prod.fst

theorem widen_cons (d : Disk) (p : Preprocessor) (l : Text × Use) (seen : List (Text × Use)) :
    widen d p (l :: seen) = written d p l ++ widen d p seen :=
  List.flatMap_cons

theorem widen_append (d : Disk) (p : Preprocessor) (a b : List (Text × Use)) :
    widen d p (a ++ b) = widen d p a ++ widen d p b :=
  List.flatMap_append

theorem written_of_other (d : Disk) (p : Preprocessor) (line : Text) {use : Use}
    (h : use.included? = none) : written d p (line, use) = [line] := by
  cases use with
  | includes name? => simp [Use.included?] at h
  | _ => rfl

theorem written_of_open {d : Disk} {p : Preprocessor} {name path : Text} {lines : List Text}
    (line : Text) (h : p.open? d name = some (path, lines)) :
    written d p (line, .includes (some name)) = Inclusion.block name lines := by
  simp [written, h]

theorem takenIn_cons_of_other (d : Disk) (p : Preprocessor) (line : Text) {use : Use}
    (h : use.included? = none) (seen : List (Text × Use)) :
    takenIn d p ((line, use) :: seen) = takenIn d p seen := by
  rw [takenIn, pending_cons, h]
  rfl

theorem takenIn_cons_of_open {d : Disk} {p : Preprocessor} {name path : Text} {lines : List Text}
    (line : Text) (h : p.open? d name = some (path, lines)) (seen : List (Text × Use)) :
    takenIn d p ((line, .includes (some name)) :: seen) = path :: takenIn d p seen := by
  rw [takenIn, pending_cons]
  simp [Use.included?, h, takenIn]

theorem takenIn_append (d : Disk) (p : Preprocessor) (a b : List (Text × Use)) :
    takenIn d p (a ++ b) = takenIn d p a ++ takenIn d p b := by
  rw [takenIn, pending_append, List.filterMap_append]
  rfl

/-- Every line stays as it is, but for one that includes a file that can be put in. -/
theorem written_cases (d : Disk) (p : Preprocessor) (line : Text) (use : Use) :
    (written d p (line, use) = [line] ∧
      ∀ seen, takenIn d p ((line, use) :: seen) = takenIn d p seen) ∨
    ∃ name path lines, use = .includes (some name) ∧ p.open? d name = some (path, lines) := by
  cases use with
  | includes name? =>
    cases name? with
    | none => exact Or.inl ⟨rfl, fun _ => rfl⟩
    | some name =>
      cases hopen : p.open? d name with
      | none =>
        refine Or.inl ⟨by simp [written, hopen], fun seen => ?_⟩
        rw [takenIn, pending_cons]
        simp [Use.included?, hopen, takenIn]
      | some f => exact Or.inr ⟨name, f.1, f.2, rfl, hopen⟩
  | _ => exact Or.inl ⟨rfl, fun _ => rfl⟩

/-- **Where the lines of the stream come from**: they were there before, or take the place of one
that includes a file. -/
theorem mem_widen {d : Disk} {p : Preprocessor} {new : Text} : ∀ {seen : List (Text × Use)},
    new ∈ widen d p seen → new ∈ seen.map Prod.fst ∨
      ∃ name path lines, some name ∈ pending seen ∧ p.open? d name = some (path, lines) ∧
        path ∈ takenIn d p seen ∧ new ∈ Inclusion.block name lines
  | [], h => by simp [widen] at h
  | (line, use) :: seen, h => by
    rw [widen_cons, List.mem_append] at h
    rcases h with h | h
    · rcases written_cases d p line use with ⟨hwritten, -⟩ | ⟨name, path, lines, rfl, hopen⟩
      · rw [hwritten, List.mem_singleton] at h
        exact Or.inl (by simp [h])
      · rw [written_of_open line hopen] at h
        refine Or.inr ⟨name, path, lines, ?_, hopen, ?_, h⟩
        · simp [pending_cons, Use.included?]
        · simp [takenIn_cons_of_open line hopen]
    · rcases mem_widen h with h | ⟨name, path, lines, hname, hopen, -, h⟩
      · exact Or.inl (List.mem_cons_of_mem _ h)
      · have hname' : some name ∈ pending ((line, use) :: seen) := by
          rw [pending_cons]
          exact List.mem_append_right _ hname
        refine Or.inr ⟨name, path, lines, hname', hopen, ?_, h⟩
        exact List.mem_filterMap.mpr ⟨some name, hname', by simp [hopen]⟩

/-- Where no file is pending the stream stays as it is. -/
theorem widen_of_settled (d : Disk) (p : Preprocessor) : ∀ {seen : List (Text × Use)},
    pending seen = [] → widen d p seen = seen.map Prod.fst
  | [], _ => rfl
  | (line, use) :: seen, h => by
    rw [pending_cons, List.append_eq_nil_iff] at h
    rw [widen_cons, written_of_other d p line (by simpa using h.1), widen_of_settled d p h.2]
    rfl

theorem Preprocessor.Alike.widen {p q : Preprocessor} (h : p.Alike q) (d : Disk)
    (seen : List (Text × Use)) : Source.widen d q seen = Source.widen d p seen := by
  unfold Source.widen
  congr 1
  funext l
  unfold written
  split
  · rw [h.open?]
  · rfl

theorem Preprocessor.Alike.takenIn {p q : Preprocessor} (h : p.Alike q) (d : Disk)
    (seen : List (Text × Use)) : Source.takenIn d q seen = Source.takenIn d p seen := by
  have hopen : q.open? d = p.open? d := funext (h.open? d)
  unfold Source.takenIn
  rw [hopen]

/-! ### Inclusion -/

/-- A file that is pending can be put in. -/
def Ready (d : Disk) (p : Preprocessor) (name? : Option Text) : Prop :=
  ∃ name path lines, name? = some name ∧ p.open? d name = some (path, lines)

theorem Preprocessor.Alike.ready {p q : Preprocessor} (h : p.Alike q) {d : Disk}
    {name? : Option Text} : Ready d q name? ↔ Ready d p name? := by
  unfold Ready
  simp only [h.open?]

/-- Where every file that is pending can be put in, so many are put in. -/
theorem length_takenIn {d : Disk} {p : Preprocessor} : ∀ {seen : List (Text × Use)},
    (∀ name? ∈ pending seen, Ready d p name?) → (takenIn d p seen).length = (pending seen).length
  | [], _ => rfl
  | (line, use) :: seen, h => by
    rw [pending_cons] at h
    have hrest : (takenIn d p seen).length = (pending seen).length :=
      length_takenIn fun n hn => h n (List.mem_append_right _ hn)
    cases hinc : use.included? with
    | none => rw [takenIn_cons_of_other d p line hinc, pending_cons, hinc, hrest]; rfl
    | some name? =>
      obtain ⟨name, path, lines, rfl, hopen⟩ := h name? (by simp [hinc])
      obtain rfl : use = .includes (some name) := by
        cases use with
        | includes name? => exact congrArg Use.includes (Option.some.inj hinc)
        | _ => simp [Use.included?] at hinc
      rw [takenIn_cons_of_open line hopen, pending_cons, hinc, List.length_cons, hrest]
      simp [Nat.add_comm]

namespace Inclusion

/-- What an inclusion has done after lines that say so. -/
structure Puts (d : Disk) (s : Inclusion) (seen : List (Text × Use)) (t : Inclusion) : Prop where
  alike : s.pre.Alike t.pre
  out : t.out.toList = s.out.toList ++ widen d s.pre seen
  count : t.count = s.count + (pending seen).length
  included : t.pre.included = (takenIn d s.pre seen).foldl addPath s.pre.included

theorem Puts.nil (d : Disk) (s : Inclusion) : Puts d s [] s where
  alike := .refl s.pre
  out := by simp [widen]
  count := rfl
  included := by simp [takenIn, pending]

theorem Puts.keep {d : Disk} {s t u : Inclusion} {line : Text} {use : Use}
    {seen : List (Text × Use)} (other : use.included? = none) (pre : t.pre = s.pre)
    (out : t.out.toList = s.out.toList ++ [line]) (count : t.count = s.count)
    (h : Puts d t seen u) : Puts d s ((line, use) :: seen) u where
  alike := pre ▸ h.alike
  out := by
    rw [h.out, out, pre, widen_cons, written_of_other d s.pre line other, List.append_assoc]
  count := by
    rw [h.count, count, pending_cons, other]
    rfl
  included := by rw [h.included, pre, takenIn_cons_of_other d s.pre line other]

theorem Puts.insert {d : Disk} {s t u : Inclusion} {line name path : Text} {lines : List Text}
    {seen : List (Text × Use)} (opens : s.pre.open? d name = some (path, lines))
    (pre : t.pre = (s.pre.ask name).takeIn path)
    (out : t.out.toList = s.out.toList ++ block name lines) (count : t.count = s.count + 1)
    (h : Puts d t seen u) : Puts d s ((line, .includes (some name)) :: seen) u := by
  have halike : s.pre.Alike t.pre := pre ▸ s.pre.alike_insert name path
  refine ⟨halike.trans h.alike, ?_, ?_, ?_⟩
  · rw [h.out, out, widen_cons, written_of_open line opens, halike.widen, List.append_assoc]
  · rw [h.count, count, pending_cons, Use.included?, Option.toList_some, List.length_append,
      List.length_singleton]
    omega
  · have hput : t.pre.included = addPath s.pre.included path := by
      rw [pre]
      exact included_takeIn (s.pre.ask name) path
    rw [h.included, hput, halike.takenIn, takenIn_cons_of_open line opens, List.foldl_cons]

/-- **An inclusion puts in what is pending.** -/
theorem puts_of_walk {d : Disk} : ∀ {lines : List Text} {s t : Inclusion},
    walk (step d) s lines = (t, none) →
      ∃ seen, survey s.reader.view lines = some (seen, t.reader.view) ∧
        (∀ name? ∈ pending seen, Ready d s.pre name?) ∧ Puts d s seen t
  | [], s, t, h => by
    cases h
    exact ⟨[], rfl, by simp [pending], .nil d s⟩
  | line :: lines, s, t, h => by
    obtain ⟨u, hu, hw⟩ := walk_cons_eq_none.mp h
    obtain ⟨use, new, hsees, hout, htakes⟩ := takes_of_step hu
    obtain ⟨seen, hseen, hready, hputs⟩ := puts_of_walk hw
    refine ⟨(line, use) :: seen, survey_cons.mpr ⟨_, use, seen, hsees.view, hseen, rfl⟩, ?_, ?_⟩
    · intro name? hname
      rw [pending_cons] at hname
      cases htakes with
      | keep other pre count =>
        rw [other] at hname
        exact pre ▸ hready name? hname
      | insert unmarked names found enters pre count =>
        rename_i name path text lines
        rcases List.mem_cons.mp hname with rfl | hname
        · exact ⟨name, path, lines, rfl, Preprocessor.open?_eq_some.mpr ⟨text, found, enters⟩⟩
        · have halike : s.pre.Alike u.pre := pre ▸ s.pre.alike_insert name path
          exact halike.ready.mp (hready name? hname)
    · cases htakes with
      | keep other pre count => exact hputs.keep other pre hout count
      | insert unmarked names found enters pre count =>
        exact hputs.insert (Preprocessor.open?_eq_some.mpr ⟨_, found, enters⟩) pre hout count

/-- The file stack gets past the lines of an inclusion that succeeds. -/
theorem passes_of_walk {d : Disk} : ∀ {lines : List Text} {s t : Inclusion},
    walk (step d) s lines = (t, none) → s.reader.stack.Passes lines
  | [], s, t, _ => trivial
  | line :: lines, s, t, h => by
    obtain ⟨u, hu, hw⟩ := walk_cons_eq_none.mp h
    obtain ⟨use, new, hsees, -, -⟩ := takes_of_step hu
    obtain ⟨b, hb⟩ := hsees.stack
    have hrest := passes_of_walk hw
    rw [FileStack.Passes, hb]
    exact ⟨⟨b, rfl⟩, hrest⟩

/-- **An inclusion succeeds** if the file stack gets past all lines and every file that is pending
can be put in. -/
theorem exists_walk {d : Disk} : ∀ {lines : List Text} {s : Inclusion} {seen : List (Text × Use)}
    {v : View}, s.reader.stack.Passes lines → survey s.reader.view lines = some (seen, v) →
      (∀ name? ∈ pending seen, Ready d s.pre name?) → ∃ t, walk (step d) s lines = (t, none)
  | [], s, seen, v, _, _, _ => ⟨s, rfl⟩
  | line :: lines, s, seen, v, hpasses, hseen, hready => by
    obtain ⟨w, use, rest, hw, hrest, rfl⟩ := survey_cons.mp hseen
    rw [pending_cons] at hready
    have hfirst : ∃ t, s.step d line = (t, none) := by
      refine exists_step hpasses.1 hw fun name? hname => ?_
      obtain ⟨name, path, lines, rfl, hopen⟩ := hready name? (by simp [hname])
      obtain ⟨text, hfind, henter⟩ := Preprocessor.open?_eq_some.mp hopen
      exact ⟨name, path, text, lines, rfl, hfind, henter⟩
    obtain ⟨t, ht⟩ := hfirst
    obtain ⟨use', new, hsees, hout, htakes⟩ := takes_of_step ht
    have hview : (t.reader.view, use') = (w, use) := Option.some.inj (hsees.view.symm.trans hw)
    obtain ⟨rfl, rfl⟩ := Prod.mk.inj hview
    obtain ⟨b, hb⟩ := hsees.stack
    have hstack : (s.reader.stack.step line).1 = t.reader.stack := by rw [hb]
    have halike : s.pre.Alike t.pre := by
      cases htakes with
      | keep other pre count => exact pre ▸ .refl s.pre
      | insert unmarked names found enters pre count => exact pre ▸ s.pre.alike_insert _ _
    obtain ⟨u, hu⟩ := exists_walk (hstack ▸ hpasses.2) hrest
      fun name? hname => halike.ready.mpr (hready name? (by simp [hname]))
    exact ⟨u, walk_cons_eq_none.mpr ⟨t, ht, hu⟩⟩

end Inclusion

/-! ### Rounds -/

/-- What an inclusion at the start of a round has done, in terms of a preprocessor that reads and
replaces alike. -/
theorem includeLines_puts {d : Disk} {p₀ p q : Preprocessor} {file : Text} {left count : Nat}
    {stream out : List Text} (halike : p₀.Alike p)
    (h : includeLines d (p.announce left) file stream = (q, .ok (out, count))) :
    ∃ seen w, survey ⟨[], p₀.defined⟩ stream = some (seen, w) ∧
      (∀ name? ∈ pending seen, Ready d p₀ name?) ∧ p₀.Alike q ∧ out = widen d p₀ seen ∧
      count = (pending seen).length ∧
      q.included = (takenIn d p₀ seen).foldl addPath p.included := by
  have halike : p₀.Alike (p.announce left) := halike.trans (p.alike_note _ _)
  obtain ⟨s, hs, rfl, rfl, rfl⟩ := includeLines_ok h
  obtain ⟨seen, hseen, hready, hputs⟩ := Inclusion.puts_of_walk hs
  have hview : (Inclusion.start (p.announce left) file).reader.view = ⟨[], p₀.defined⟩ :=
    congrArg (View.mk []) halike.defined
  refine ⟨seen, s.reader.view, hview ▸ hseen, fun n hn => halike.ready.mp (hready n hn),
    halike.trans hputs.alike, ?_, ?_, ?_⟩
  · rw [hputs.out, ← halike.widen]
    rfl
  · rw [hputs.count]
    exact Nat.zero_add _
  · rw [hputs.included, ← halike.takenIn]
    rfl

/-- **An inclusion that puts no file in** keeps its lines, in which no file is pending. -/
theorem includeLines_settled {d : Disk} {p₀ p q : Preprocessor} {file : Text} {left : Nat}
    {stream out : List Text} (halike : p₀.Alike p)
    (h : includeLines d (p.announce left) file stream = (q, .ok (out, 0))) :
    out = stream ∧ p₀.Alike q ∧
      ∃ seen w, survey ⟨[], p₀.defined⟩ stream = some (seen, w) ∧ pending seen = [] := by
  obtain ⟨seen, w, hseen, -, hq, rfl, hzero, -⟩ := includeLines_puts halike h
  have hpending : pending seen = [] := List.length_eq_zero_iff.mp hzero.symm
  refine ⟨?_, hq, seen, w, hseen, hpending⟩
  rw [widen_of_settled d p₀ hpending, fst_of_survey hseen]

/-- An inclusion puts no file in where none is pending. -/
theorem count_of_settled {d : Disk} {p₀ p q : Preprocessor} {file : Text} {left count : Nat}
    {stream out : List Text} {seen : List (Text × Use)} {w : View} (halike : p₀.Alike p)
    (h : includeLines d (p.announce left) file stream = (q, .ok (out, count)))
    (hseen : survey ⟨[], p₀.defined⟩ stream = some (seen, w)) (hpending : pending seen = []) :
    count = 0 := by
  obtain ⟨seen', w', hseen', -, -, -, rfl, -⟩ := includeLines_puts halike h
  obtain ⟨rfl, -⟩ := Prod.mk.inj (Option.some.inj (hseen'.symm.trans hseen))
  rw [hpending, List.length_nil]

/-- An inclusion at the start of a round succeeds if every file that is pending can be put in. -/
theorem exists_includeLines {d : Disk} {p₀ p : Preprocessor} {file : Text} {stream : List Text}
    {seen : List (Text × Use)} {w : View} (left : Nat) (halike : p₀.Alike p)
    (hpasses : (FileStack.start file).Passes stream)
    (hseen : survey ⟨[], p₀.defined⟩ stream = some (seen, w))
    (hready : ∀ name? ∈ pending seen, Ready d p₀ name?) :
    ∃ q, includeLines d (p.announce left) file stream =
        (q, .ok (widen d p₀ seen, (pending seen).length)) ∧ p₀.Alike q ∧
      q.included = (takenIn d p₀ seen).foldl addPath p.included := by
  have halike' : p₀.Alike (p.announce left) := halike.trans (p.alike_note _ _)
  have hview : (Inclusion.start (p.announce left) file).reader.view = ⟨[], p₀.defined⟩ :=
    congrArg (View.mk []) halike'.defined
  obtain ⟨t, ht⟩ := Inclusion.exists_walk (s := Inclusion.start (p.announce left) file) hpasses
    (hview ▸ hseen) fun n hn => halike'.ready.mpr (hready n hn)
  have hinc : includeLines d (p.announce left) file stream =
      (t.pre, .ok (t.out.toList, t.count)) := by
    rw [includeLines, ht]
  obtain ⟨seen', w', hseen', -, hq, hout, hcount, hincluded⟩ := includeLines_puts halike hinc
  obtain ⟨rfl, -⟩ := Prod.mk.inj (Option.some.inj (hseen'.symm.trans hseen))
  rw [hinc, hout, hcount]
  exact ⟨t.pre, rfl, hq, hincluded⟩

end Mcs51.Source
