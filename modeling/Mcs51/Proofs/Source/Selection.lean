import Mcs51.Proofs.Source.LastRound

/-! # Which lines conditions select

Conditional directives are a grammar of nested blocks. An `Outline` is a parse of a list of lines:
blocks with bodies, perhaps an `#else`, and lines between them. `Outline.reads` walks down such a
tree and says of each line whether it is read, which takes a branch that is taken all the way up;
`Makes` says what becomes of lines that are read or not.

`expandLines_selects` is that an expansion, which goes line by line with a stack of regions, does
the same: it succeeds on the lines that have an outline in which every definition that is read is
well formed, and makes what `Makes` says. One direction follows the tree (`survey_lines`). In the
other the tree is built back to front: lines that close the regions open before them (`Closing`)
are an outline up to the directive that closes each region (`shape_of_closing`). -/

namespace Mcs51.Source

/-! ### Outlines -/

/-- The conditional directive on a line that is no marker, and the fields after it. -/
def condition? (line : Text) : Option (Condition × List Text) :=
  if (Marker.ofLine? line).isSome then none
  else
    match line.code.fields with
    | [] => none
    | word :: args => (Condition.ofWord? word).map fun c => (c, args)

/-- A line that opens a block: `#ifdef` or `#ifndef` with a name. -/
structure Opener where
  line : Text
  ifDefined : Bool
  name : Text

namespace Opener

/-- The line says what the opener does. -/
def WellFormed (o : Opener) : Prop :=
  ∃ args, condition? o.line = some (.opens o.ifDefined, o.name :: args)

/-- The condition holds where these names are defined. -/
def holds (o : Opener) (names : List Text) : Bool := names.contains o.name.upper == o.ifDefined

end Opener

/-- The line turns to the other branch of a block. -/
def Turns (line : Text) : Prop := ∃ args, condition? line = some (.turns, args)

/-- The line closes a block. -/
def Closes (line : Text) : Prop := ∃ args, condition? line = some (.closes, args)

/-- Lines as nested blocks. -/
inductive Outline where
  | done
  /-- A line that is no conditional directive. -/
  | line (line : Text) (rest : Outline)
  | block (opener : Opener) (body : Outline) (closer : Text) (rest : Outline)
  /-- A block with an `#else`. -/
  | choice (opener : Opener) (body : Outline) (turn : Text) (other : Outline) (closer : Text)
    (rest : Outline)

/-- What a line says that is read or not. Nobody reads a marker. -/
def usedAs (l : Text × Bool) : Use :=
  if (Marker.ofLine? l.1).isNone && l.2 then .ofCode l.1.code else .idle

/-- The names that are defined after lines, given which of them are read. -/
def learn (names : List Text) (ls : List (Text × Bool)) : List Text :=
  ls.foldl
    (fun names l =>
      match usedAs l with
      | .defines r => r.name.upper :: names
      | _ => names)
    names

namespace Outline

/-- The lines of an outline. -/
def lines : Outline → List Text
  | done => []
  | line l rest => l :: rest.lines
  | block opener body closer rest => opener.line :: body.lines ++ closer :: rest.lines
  | choice opener body turn other closer rest =>
    opener.line :: body.lines ++ turn :: other.lines ++ closer :: rest.lines

/-- Every line plays its part: the directives are where the blocks are, and nowhere else. -/
def WellFormed : Outline → Prop
  | done => True
  | line l rest => condition? l = none ∧ rest.WellFormed
  | block opener body closer rest =>
    opener.WellFormed ∧ body.WellFormed ∧ Closes closer ∧ rest.WellFormed
  | choice opener body turn other closer rest =>
    opener.WellFormed ∧ body.WellFormed ∧ Turns turn ∧ other.WellFormed ∧ Closes closer ∧
      rest.WellFormed

/-- The lines, each with whether it is read: it is no directive, and no branch that it lies in is
left out. The flag tells whether the lines around are read, and the names are those defined. -/
def reads : Outline → Bool → List Text → List (Text × Bool)
  | done, _, _ => []
  | line l rest, active, names => (l, active) :: rest.reads active (learn names [(l, active)])
  | block opener body closer rest, active, names =>
    let inside := body.reads (active && opener.holds names) names
    (opener.line, false) :: inside ++ (closer, false) :: rest.reads active (learn names inside)
  | choice opener body turn other closer rest, active, names =>
    let first := body.reads (active && opener.holds names) names
    let second := other.reads (active && !opener.holds names) (learn names first)
    (opener.line, false) :: first ++ (turn, false) :: second ++
      (closer, false) :: rest.reads active (learn (learn names first) second)

end Outline

/-- The name that a line with `#define` has for its definition. -/
def definedName (code : Text) : Text :=
  Text.firstField (Text.trim ((code.after? defineWord).getD []))

/-- A line that is read and has a `#define` gives it an identifier. -/
def DefinesWell (l : Text × Bool) : Prop :=
  Marker.ofLine? l.1 = none → l.2 = true → l.1.code.mentions defineWord = true →
    (definedName l.1.code).isIdent = true

/-- What becomes of lines, given which of them are read and which replacements are stored, and what
is stored after them. A definition that is read is stored, its text expanded by all that is known
before it; any other line that is read is expanded by what is stored before it. -/
inductive Makes (predefined : List Replacement) :
    List Replacement → List (Text × Bool) → List Text → List Replacement → Prop
  | done {rs : List Replacement} : Makes predefined rs [] [] rs
  | marker {rs rs' : List Replacement} {line : Text} {read : Bool} {ls : List (Text × Bool)}
      {out : List Text} {m : Marker} (marks : Marker.ofLine? line = some m)
      (rest : Makes predefined rs ls out rs') :
      Makes predefined rs ((line, read) :: ls) (line :: out) rs'
  | skip {rs rs' : List Replacement} {line : Text} {ls : List (Text × Bool)} {out : List Text}
      (unmarked : Marker.ofLine? line = none) (rest : Makes predefined rs ls out rs') :
      Makes predefined rs ((line, false) :: ls) (regionFiller :: out) rs'
  | define {rs rs' : List Replacement} {line expansion : Text} {r : Replacement}
      {ls : List (Text × Bool)} {out : List Text} (unmarked : Marker.ofLine? line = none)
      (mentions : line.code.mentions defineWord = true) (defines : definition line.code = .ok r)
      (expands : Replacement.expandAll (predefined ++ rs) r.expansion = .ok expansion)
      (rest : Makes predefined (rs ++ [⟨r.name, expansion⟩]) ls out rs') :
      Makes predefined rs ((line, true) :: ls) (defineFiller :: out) rs'
  | expand {rs rs' : List Replacement} {line code : Text} {ls : List (Text × Bool)}
      {out : List Text} (unmarked : Marker.ofLine? line = none)
      (other : line.code.mentions defineWord = false)
      (expands : Replacement.expandAll rs line.code = .ok code)
      (rest : Makes predefined rs ls out rs') :
      Makes predefined rs ((line, true) :: ls) ((code ++ line.comment) :: out) rs'

/-! ### One line -/

theorem condition?_eq_some {line : Text} {c : Condition} {args : List Text}
    (h : condition? line = some (c, args)) :
    Marker.ofLine? line = none ∧
      ∃ word, line.code.fields = word :: args ∧ Condition.ofWord? word = some c := by
  unfold condition? at h
  split_ifs at h with hm
  refine ⟨by simpa using hm, ?_⟩
  split at h
  · cases h
  · next word rest hfields =>
    obtain ⟨c', hc, heq⟩ := Option.map_eq_some_iff.mp h
    cases heq
    exact ⟨word, hfields, hc⟩

theorem condition?_eq_none_iff {line : Text} (hm : Marker.ofLine? line = none) :
    condition? line = none ↔ Regions.isCondition line.code = false := by
  simp only [condition?, Regions.isCondition, hm]
  cases line.code.fields with
  | nil => simp
  | cons word args => cases Condition.ofWord? word <;> simp

namespace View

/-- A line that is no directive is read in an active place. -/
theorem step_of_plain {v : View} {line : Text} (h : condition? line = none) :
    v.step line = some (⟨v.regions, learn v.defined [(line, v.regions.active)]⟩,
      usedAs (line, v.regions.active)) := by
  cases hm : Marker.ofLine? line with
  | some m => simp [step_of_marker hm, learn, usedAs, hm]
  | none =>
    have hd : v.regions.directive v.defined line.code = .ok none :=
      Regions.directive_eq_none.mpr ((condition?_eq_none_iff hm).mp h)
    rw [step, role_of_unmarked hm, hd]
    cases hactive : v.regions.active with
    | true =>
      simp only [learn, usedAs, hm, Option.map_some, if_true, List.foldl_cons, List.foldl_nil,
        Option.isNone_none, Bool.and_self]
      cases Use.ofCode line.code <;> rfl
    | false => simp [learn, usedAs, hm]

/-- A directive is not read. -/
theorem step_of_directive {v : View} {line : Text} {rs : Regions}
    (hm : Marker.ofLine? line = none)
    (h : v.regions.directive v.defined line.code = .ok (some rs)) :
    v.step line = some (⟨rs, v.defined⟩, usedAs (line, false)) := by
  simp [step, role_of_unmarked hm, h, usedAs]

theorem step_of_opener {rs : Regions} {names : List Text} {o : Opener} (h : o.WellFormed) :
    step ⟨rs, names⟩ o.line =
      some (⟨⟨rs.active, o.holds names, false⟩ :: rs, names⟩, usedAs (o.line, false)) := by
  obtain ⟨args, h⟩ := h
  obtain ⟨hm, word, hfields, hword⟩ := condition?_eq_some h
  exact step_of_directive hm (by simp [Regions.directive, hfields, hword, Regions.enter,
    Opener.holds])

theorem step_of_turn {r : Region} {rs : Regions} {names : List Text} {line : Text}
    (h : Turns line) (hr : r.inElse = false) :
    step ⟨r :: rs, names⟩ line =
      some (⟨{ r with inElse := true } :: rs, names⟩, usedAs (line, false)) := by
  obtain ⟨args, h⟩ := h
  obtain ⟨hm, word, hfields, hword⟩ := condition?_eq_some h
  exact step_of_directive hm (by simp [Regions.directive, hfields, hword, hr])

theorem step_of_closer {r : Region} {rs : Regions} {names : List Text} {line : Text}
    (h : Closes line) :
    step ⟨r :: rs, names⟩ line = some (⟨rs, names⟩, usedAs (line, false)) := by
  obtain ⟨args, h⟩ := h
  obtain ⟨hm, word, hfields, hword⟩ := condition?_eq_some h
  exact step_of_directive hm (by simp [Regions.directive, hfields, hword])

end View

/-! ### From the tree to the lines -/

theorem learn_append (names : List Text) (a b : List (Text × Bool)) :
    learn names (a ++ b) = learn (learn names a) b :=
  List.foldl_append

/-- Nothing is learned from a line that is not read. -/
theorem learn_cons_false (names : List Text) (line : Text) (ls : List (Text × Bool)) :
    learn names ((line, false) :: ls) = learn names ls := by
  simp [learn, usedAs]

/-- What lines say, given which of them are read. -/
def uses (ls : List (Text × Bool)) : List (Text × Use) := ls.map fun l => (l.1, usedAs l)

theorem uses_append (a b : List (Text × Bool)) : uses (a ++ b) = uses a ++ uses b :=
  List.map_append

theorem survey_cons_of_step {v w u : View} {line : Text} {lines : List Text} {read : Bool}
    {ls : List (Text × Bool)} (h : v.step line = some (w, usedAs (line, read)))
    (hrest : survey w lines = some (uses ls, u)) :
    survey v (line :: lines) = some (uses ((line, read) :: ls), u) :=
  survey_cons.mpr ⟨w, _, _, h, hrest, rfl⟩

theorem survey_append_of {v w u : View} {lines more : List Text} {ls ms : List (Text × Bool)}
    (h : survey v lines = some (uses ls, w)) (hrest : survey w more = some (uses ms, u)) :
    survey v (lines ++ more) = some (uses (ls ++ ms), u) :=
  survey_append.mpr ⟨w, _, _, h, hrest, uses_append ls ms⟩

/-- **The lines of an outline are seen as it says**, in any regions, and leave the regions as they
were. -/
theorem survey_lines : ∀ {o : Outline} (rs : Regions) (names : List Text), o.WellFormed →
    survey ⟨rs, names⟩ o.lines =
      some (uses (o.reads rs.active names), ⟨rs, learn names (o.reads rs.active names)⟩)
  | .done, rs, names, _ => rfl
  | .line l rest, rs, names, ⟨hl, hrest⟩ => by
    rw [Outline.lines, Outline.reads, ← List.singleton_append (l := rest.reads _ _), learn_append]
    exact survey_cons_of_step (View.step_of_plain hl) (survey_lines rs _ hrest)
  | .block opener body closer rest, rs, names, ⟨hopener, hbody, hcloser, hrest⟩ => by
    have hinside := survey_lines (⟨rs.active, opener.holds names, false⟩ :: rs) names hbody
    have hactive : Regions.active (⟨rs.active, opener.holds names, false⟩ :: rs) =
        (rs.active && opener.holds names) := by simp [Regions.active, Region.active]
    rw [hactive] at hinside
    rw [Outline.lines, Outline.reads]
    simp only [List.cons_append, learn_cons_false, learn_append]
    exact survey_cons_of_step (View.step_of_opener hopener)
      (survey_append_of hinside
        (survey_cons_of_step (View.step_of_closer hcloser) (survey_lines rs _ hrest)))
  | .choice opener body turn other closer rest, rs, names,
      ⟨hopener, hbody, hturn, hother, hcloser, hrest⟩ => by
    have hfirst := survey_lines (⟨rs.active, opener.holds names, false⟩ :: rs) names hbody
    have hsecond := fun names' =>
      survey_lines (⟨rs.active, opener.holds names, true⟩ :: rs) names' hother
    have hactive : ∀ turned, Regions.active (⟨rs.active, opener.holds names, turned⟩ :: rs) =
        (rs.active && (opener.holds names != turned)) := fun _ => rfl
    simp only [hactive, Bool.bne_false, Bool.bne_true] at hfirst hsecond
    rw [Outline.lines, Outline.reads]
    simp only [List.cons_append, List.append_assoc, learn_cons_false, learn_append]
    exact survey_cons_of_step (View.step_of_opener hopener)
      (survey_append_of hfirst
        (survey_cons_of_step (View.step_of_turn hturn rfl)
          (survey_append_of (hsecond _)
            (survey_cons_of_step (View.step_of_closer hcloser) (survey_lines rs _ hrest)))))

/-! ### From the lines to the tree -/

/-- The lines close the regions that are open before them, of which is known whether they have had
their `#else`, and those that they open themselves. -/
inductive Closing : List Bool → List Text → Prop
  | done : Closing [] []
  | plain {turned : List Bool} {line : Text} {lines : List Text} (other : condition? line = none)
      (rest : Closing turned lines) : Closing turned (line :: lines)
  | opens {turned : List Bool} {opener : Opener} {lines : List Text} (reads : opener.WellFormed)
      (rest : Closing (false :: turned) lines) : Closing turned (opener.line :: lines)
  | turns {turned : List Bool} {line : Text} {lines : List Text} (reads : Turns line)
      (rest : Closing (true :: turned) lines) : Closing (false :: turned) (line :: lines)
  | closes {last : Bool} {turned : List Bool} {line : Text} {lines : List Text}
      (reads : Closes line) (rest : Closing turned lines) : Closing (last :: turned) (line :: lines)

/-- Lines over which the regions come to an end close those that were open. -/
theorem closing_of_survey : ∀ {lines : List Text} {v w : View} {seen : List (Text × Use)},
    survey v lines = some (seen, w) → w.regions = [] →
      Closing (v.regions.map Region.inElse) lines
  | [], v, w, seen, h, hw => by
    cases h
    rw [hw]
    exact .done
  | line :: lines, v, w, seen, h, hw => by
    obtain ⟨u, use, rest, hu, hrest, -⟩ := survey_cons.mp h
    have ih := closing_of_survey hrest hw
    rcases View.step_cases hu with ⟨⟨m, hm⟩, rfl, -⟩ | ⟨hm, -, -, hd⟩ | ⟨hm, hd, hread⟩
    · exact .plain (by simp [condition?, hm]) ih
    · obtain ⟨word, args, hfields, hcase⟩ := Regions.directive_cases hd
      have hcondition : ∀ c, Condition.ofWord? word = some c →
          condition? line = some (c, args) := by
        intro c hc
        simp [condition?, hm, hfields, hc]
      rcases hcase with ⟨ifDefined, name, more, hword, rfl, hregions⟩ |
        ⟨r, outer, hword, hregions, hr, hturned⟩ | ⟨r, hword, hregions⟩
      · rw [hregions] at ih
        have hopener : Opener.WellFormed ⟨line, ifDefined, name⟩ := ⟨more, hcondition _ hword⟩
        exact .opens hopener ih
      · rw [hturned] at ih
        rw [hregions, List.map_cons, hr]
        exact .turns ⟨args, hcondition _ hword⟩ ih
      · rw [hregions]
        exact .closes ⟨args, hcondition _ hword⟩ ih
    · have hsame : u.regions = v.regions := by
        rcases hread with ⟨-, rfl, rfl⟩ | ⟨-, -, rfl⟩
        · unfold View.after
          split <;> rfl
        · rfl
      rw [hsame] at ih
      exact .plain ((condition?_eq_none_iff hm).mpr (Regions.directive_eq_none.mp hd)) ih

/-- The lines are an outline, a line that ends it, and more lines. -/
def Ends (ends : Text → Prop) (rest : List Text → Prop) (lines : List Text) : Prop :=
  ∃ (o : Outline) (line : Text) (more : List Text), o.WellFormed ∧ ends line ∧ rest more ∧
    lines = o.lines ++ line :: more

/-- What lines look like that close open regions: an outline for each, up to the directive that
closes it, with another before it where an `#else` may come, and an outline after the last. -/
def Shape : List Bool → List Text → Prop
  | [], lines => ∃ o : Outline, o.WellFormed ∧ o.lines = lines
  | true :: turned, lines => Ends Closes (Shape turned) lines
  | false :: turned, lines =>
    Ends Closes (Shape turned) lines ∨ Ends Turns (Ends Closes (Shape turned)) lines

/-- A piece before an outline that makes an outline with it may come before any lines. -/
theorem Ends.extend {ends : Text → Prop} {rest : List Text → Prop} {lines front : List Text}
    (extend : Outline → Outline) (hlines : ∀ o, (extend o).lines = front ++ o.lines)
    (hformed : ∀ o : Outline, o.WellFormed → (extend o).WellFormed) (h : Ends ends rest lines) :
    Ends ends rest (front ++ lines) := by
  obtain ⟨o, line, more, ho, hline, hmore, rfl⟩ := h
  exact ⟨extend o, line, more, hformed o ho, hline, hmore, by rw [hlines, List.append_assoc]⟩

theorem Shape.extend {turned : List Bool} {lines : List Text} (front : List Text)
    (extend : Outline → Outline) (hlines : ∀ o, (extend o).lines = front ++ o.lines)
    (hformed : ∀ o : Outline, o.WellFormed → (extend o).WellFormed) (h : Shape turned lines) :
    Shape turned (front ++ lines) := by
  cases turned with
  | nil =>
    obtain ⟨o, ho, rfl⟩ := h
    exact ⟨extend o, hformed o ho, hlines o⟩
  | cons last turned =>
    cases last with
    | true => exact Ends.extend extend hlines hformed h
    | false => exact h.imp (Ends.extend extend hlines hformed) (Ends.extend extend hlines hformed)

/-- **Lines that close the open regions have their shape**, by going back from the last line. -/
theorem shape_of_closing {turned : List Bool} {lines : List Text} (h : Closing turned lines) :
    Shape turned lines := by
  induction h with
  | done => exact ⟨.done, trivial, rfl⟩
  | @plain turned line lines other rest ih =>
    exact Shape.extend [line] (.line line) (fun o => rfl) (fun o ho => ⟨other, ho⟩) ih
  | @opens turned opener lines reads rest ih =>
    rcases ih with ⟨body, closer, more, hbody, hcloser, hmore, rfl⟩ |
      ⟨body, turn, more, hbody, hturn, ⟨other, closer, last, hother, hcloser, hlast, rfl⟩, rfl⟩
    · have hfront : opener.line :: (body.lines ++ closer :: more) =
          (opener.line :: body.lines ++ [closer]) ++ more := by simp
      rw [hfront]
      exact Shape.extend _ (fun o => .block opener body closer o)
        (fun o => by simp [Outline.lines]) (fun o ho => ⟨reads, hbody, hcloser, ho⟩) hmore
    · have hfront :
          opener.line :: (body.lines ++ turn :: (other.lines ++ closer :: last)) =
            (opener.line :: body.lines ++ turn :: other.lines ++ [closer]) ++ last := by simp
      rw [hfront]
      exact Shape.extend _ (fun o => .choice opener body turn other closer o)
        (fun o => by simp [Outline.lines])
        (fun o ho => ⟨reads, hbody, hturn, hother, hcloser, ho⟩) hlast
  | @turns turned line lines reads rest ih =>
    exact .inr ⟨.done, line, lines, trivial, reads, ih, rfl⟩
  | @closes last turned line lines reads rest ih =>
    have hends : Ends Closes (Shape turned) (line :: lines) :=
      ⟨.done, line, lines, trivial, reads, ih, rfl⟩
    cases last with
    | true => exact hends
    | false => exact .inl hends

/-! ### Expansion of the lines -/

theorem ofCode_eq_misdefines_iff {code : Text} :
    Use.ofCode code = .misdefines ↔
      code.mentions defineWord = true ∧ (definedName code).isIdent = false := by
  unfold Use.ofCode
  split_ifs with hdefine
  · have hdefinition : definition code = if (definedName code).isIdent then
        .ok ⟨definedName code, Text.trim (Text.afterField
          (Text.trim ((code.after? defineWord).getD [])))⟩
        else .error (.invalidDefinition (definedName code)) := rfl
    rw [hdefinition]
    cases (definedName code).isIdent <;> simp [hdefine]
  all_goals simp [hdefine]

theorem ofCode_ne_idle (code : Text) : Use.ofCode code ≠ .idle := by
  unfold Use.ofCode
  split_ifs
  · split <;> nofun
  · nofun
  · nofun

/-- Either a line is read, and says what its code says, or it says nothing. -/
theorem usedAs_cases (line : Text) (read : Bool) :
    (Marker.ofLine? line = none ∧ read = true ∧ usedAs (line, read) = .ofCode line.code) ∨
      ((Marker.ofLine? line = none → read = false) ∧ usedAs (line, read) = .idle) := by
  unfold usedAs
  cases hm : Marker.ofLine? line <;> cases read <;> simp

theorem definesWell_iff {l : Text × Bool} : DefinesWell l ↔ usedAs l ≠ .misdefines := by
  obtain ⟨line, read⟩ := l
  unfold DefinesWell
  rcases usedAs_cases line read with ⟨hm, rfl, huse⟩ | ⟨hread, huse⟩
  · rw [huse, ne_eq, ofCode_eq_misdefines_iff]
    simp [hm]
  · rw [huse]
    refine ⟨fun _ => nofun, fun _ hm htrue => ?_⟩
    rw [hread hm] at htrue
    cases htrue

namespace Expansion

/-- A line that is taken becomes what it should. -/
theorem makes_of_takes {s t : Expansion} {line written : Text} {read : Bool}
    {ls : List (Text × Bool)} {out : List Text} {rs : List Replacement}
    (h : Takes s line t (usedAs (line, read)) written)
    (hrest : Makes t.pre.predefined t.pre.stored ls out rs) :
    Makes s.pre.predefined s.pre.stored ((line, read) :: ls) (written :: out) rs := by
  have hcases := usedAs_cases line read
  generalize usedAs (line, read) = use at h hcases
  cases h with
  | marker marks pre =>
    rw [pre] at hrest
    exact .marker marks hrest
  | skip unmarked pre =>
    rw [pre] at hrest
    rcases hcases with ⟨-, -, hidle⟩ | ⟨hread, -⟩
    · exact absurd hidle.symm (ofCode_ne_idle line.code)
    · rw [hread unmarked]
      exact .skip unmarked hrest
  | define unmarked defines expands pre =>
    rw [pre] at hrest
    rcases hcases with ⟨-, rfl, hcode⟩ | ⟨-, hidle⟩
    · have hmentions : line.code.mentions defineWord = true := by
        rw [Use.ofCode] at hcode
        split_ifs at hcode with hmentions
        exact hmentions
      exact .define unmarked hmentions defines expands hrest
    · cases hidle
  | expand unmarked active other expands pre =>
    rw [pre] at hrest
    rcases hcases with ⟨-, rfl, -⟩ | ⟨-, hidle⟩
    · exact .expand unmarked other expands hrest
    · exact absurd (active.symm.trans hidle) (ofCode_ne_idle line.code)

/-- Lines that are taken become what they should. -/
theorem makes_of_walk : ∀ {ls : List (Text × Bool)} {lines : List Text} {s t : Expansion}
    {v : View}, walk step s lines = (t, none) → survey s.reader.view lines = some (uses ls, v) →
      ∃ out, t.out.toList = s.out.toList ++ out ∧
        Makes s.pre.predefined s.pre.stored ls out t.pre.stored
  | ls, [], s, t, v, h, hseen => by
    cases h
    obtain rfl : ls = [] := (by simpa [survey, uses] using hseen : ls = [] ∧ _).1
    exact ⟨[], by simp, .done⟩
  | ls, line :: lines, s, t, v, h, hseen => by
    obtain ⟨w, use, rest, hw, hrest, huses⟩ := survey_cons.mp hseen
    obtain ⟨u, hu, hwalk⟩ := walk_cons_eq_none.mp h
    obtain ⟨rfl, -, written, hout, htakes⟩ := takes_of_seen hu hw
    cases ls with
    | nil => cases huses
    | cons l ls =>
      obtain ⟨hl, hls⟩ := List.cons.inj huses
      obtain ⟨rfl, rfl⟩ := Prod.mk.inj hl
      obtain ⟨out, hout', hmakes⟩ := makes_of_walk hwalk (hls ▸ hrest)
      exact ⟨written :: out, by rw [hout', hout]; simp, makes_of_takes htakes hmakes⟩

/-- Lines that are taken have been seen, and none of them is a definition without a name. -/
theorem survey_of_walk : ∀ {lines : List Text} {s t : Expansion}, walk step s lines = (t, none) →
    ∃ seen, survey s.reader.view lines = some (seen, t.reader.view) ∧
      ∀ l ∈ seen, l.2 ≠ .misdefines
  | [], s, t, h => by
    cases h
    exact ⟨[], rfl, by simp⟩
  | line :: lines, s, t, h => by
    obtain ⟨u, hu, hwalk⟩ := walk_cons_eq_none.mp h
    obtain ⟨use, written, hsees, -, htakes⟩ := takes_of_step hu
    obtain ⟨seen, hseen, hmis⟩ := survey_of_walk hwalk
    have huse : use ≠ .misdefines := by
      cases htakes with
      | expand unmarked active other expands pre =>
        intro hmis
        have hmentions := (ofCode_eq_misdefines_iff.mp (active.symm.trans hmis)).1
        rw [other] at hmentions
        cases hmentions
      | _ => simp
    refine ⟨(line, use) :: seen, survey_cons.mpr ⟨_, _, seen, hsees.view, hseen, rfl⟩, ?_⟩
    exact List.forall_mem_cons.mpr ⟨huse, hmis⟩

/-- Lines that can be seen are taken, if none of them is a definition without a name. -/
theorem exists_walk_of_survey : ∀ {lines : List Text} {s : Expansion}
    {seen : List (Text × Use)} {v : View}, s.reader.stack.Passes lines →
      survey s.reader.view lines = some (seen, v) → (∀ l ∈ seen, l.2 ≠ .misdefines) →
      (∀ r ∈ s.pre.predefined ++ s.pre.stored, r.name.isIdent = true) →
      ∃ t, walk step s lines = (t, none) ∧ t.reader.view = v
  | [], s, seen, v, _, hseen, _, _ => by
    cases hseen
    exact ⟨s, rfl, rfl⟩
  | line :: lines, s, seen, v, hpasses, hseen, hmis, hnames => by
    obtain ⟨w, use, rest, hw, hrest, rfl⟩ := survey_cons.mp hseen
    obtain ⟨t, ht⟩ := exists_step hnames hpasses.1 hw (hmis (line, use) (by simp))
    obtain ⟨rfl, hstack, written, -, htakes⟩ := takes_of_seen ht hw
    obtain ⟨u, hu, hview⟩ := exists_walk_of_survey (hstack ▸ hpasses.2) hrest
      (fun l hl => hmis l (by simp [hl])) (names_of_takes htakes hnames)
    exact ⟨u, walk_cons_eq_none.mpr ⟨t, ht, hu⟩, hview⟩

end Expansion

/-- An expansion succeeds on lines that are all taken and close every region. -/
theorem expandLines_eq_ok_iff {p q : Preprocessor} {file : Text} {lines out : List Text} :
    expandLines p file lines = (q, .ok out) ↔
      ∃ s, walk Expansion.step (.start p file) lines = (s, none) ∧ s.reader.regions = [] ∧
        s.pre = q ∧ s.out.toList = out := by
  unfold expandLines
  split
  · next s hs => split_ifs with hclosed <;> simp_all
  · next s e hs => simp [hs]

theorem Makes.length_eq {predefined rs rs' : List Replacement} {ls : List (Text × Bool)}
    {out : List Text} (h : Makes predefined rs ls out rs') : out.length = ls.length := by
  induction h <;> simp_all

theorem fst_reads : ∀ (o : Outline) (active : Bool) (names : List Text),
    (o.reads active names).map Prod.fst = o.lines
  | .done, _, _ => rfl
  | .line l rest, active, names => by simp [Outline.reads, Outline.lines, fst_reads rest]
  | .block opener body closer rest, active, names => by
    simp [Outline.reads, Outline.lines, fst_reads body, fst_reads rest]
  | .choice opener body turn other closer rest, active, names => by
    simp [Outline.reads, Outline.lines, fst_reads body, fst_reads other, fst_reads rest]

section

variable {p q : Preprocessor} {file : Text} {lines out : List Text} {o : Outline}

/-- An expansion sees the lines of an outline as it says. -/
theorem survey_start (ho : o.WellFormed) :
    survey (Expansion.start p file).reader.view o.lines =
      some (uses (o.reads true p.defined), ⟨[], learn p.defined (o.reads true p.defined)⟩) :=
  survey_lines [] p.defined ho

/-- Lines that are expanded have an outline, and its definitions are well formed. -/
theorem exists_outline (h : expandLines p file lines = (q, .ok out)) :
    ∃ o : Outline, o.WellFormed ∧ o.lines = lines ∧
      ∀ l ∈ o.reads true p.defined, DefinesWell l := by
  obtain ⟨s, hs, hclosed, -, -⟩ := expandLines_eq_ok_iff.mp h
  obtain ⟨seen, hseen, hmis⟩ := Expansion.survey_of_walk hs
  have hshape : Shape [] lines := shape_of_closing (closing_of_survey hseen hclosed)
  obtain ⟨o, ho, rfl⟩ := hshape
  refine ⟨o, ho, rfl, fun l hl => definesWell_iff.mpr ?_⟩
  rw [survey_start ho] at hseen
  obtain ⟨rfl, -⟩ := Prod.mk.inj (Option.some.inj hseen)
  exact hmis (l.1, usedAs l) (List.mem_map_of_mem hl)

/-- The lines of an outline with well-formed definitions are expanded. -/
theorem exists_expandLines_of_outline
    (hnames : ∀ r ∈ p.predefined ++ p.stored, r.name.isIdent = true)
    (hpasses : (FileStack.start file).Passes o.lines) (ho : o.WellFormed)
    (hdefines : ∀ l ∈ o.reads true p.defined, DefinesWell l) :
    ∃ q out, expandLines p file o.lines = (q, .ok out) := by
  have hmis : ∀ l ∈ uses (o.reads true p.defined), l.2 ≠ .misdefines := by
    intro l hl
    obtain ⟨read, hread, rfl⟩ := List.mem_map.mp hl
    exact definesWell_iff.mp (hdefines read hread)
  obtain ⟨t, ht, hview⟩ := Expansion.exists_walk_of_survey hpasses (survey_start ho) hmis hnames
  exact ⟨t.pre, t.out.toList,
    expandLines_eq_ok_iff.mpr ⟨t, ht, congrArg View.regions hview, rfl, rfl⟩⟩

/-- The lines of an outline become what it says. -/
theorem makes_of_expandLines (h : expandLines p file o.lines = (q, .ok out)) (ho : o.WellFormed) :
    Makes p.predefined p.stored (o.reads true p.defined) out q.stored := by
  obtain ⟨s, hs, -, rfl, rfl⟩ := expandLines_eq_ok_iff.mp h
  obtain ⟨out, hout, hmakes⟩ := Expansion.makes_of_walk hs (survey_start ho)
  rw [hout]
  exact hmakes

/-- **Conditions select the right lines.** Take lines whose markers match, and replacements with
identifiers for names, as definitions leave them. An expansion of the lines succeeds exactly if they
are nested blocks, with a name for every opener, and every definition that is read has an
identifier. It then gives a line for each: a marker is kept, a directive and a line that is not read
give way to a filler, a definition gives way to another, and any other line is expanded by what was
stored at first and by the definitions read before it. -/
theorem expandLines_selects (hnames : ∀ r ∈ p.predefined ++ p.stored, r.name.isIdent = true)
    (hpasses : (FileStack.start file).Passes lines) :
    ((∃ q out, expandLines p file lines = (q, .ok out)) ↔
        ∃ o : Outline, o.WellFormed ∧ o.lines = lines ∧
          ∀ l ∈ o.reads true p.defined, DefinesWell l) ∧
      ∀ q out, expandLines p file lines = (q, .ok out) →
        out.length = lines.length ∧ ∀ o : Outline, o.WellFormed → o.lines = lines →
          Makes p.predefined p.stored (o.reads true p.defined) out q.stored := by
  have hmakes : ∀ q out, expandLines p file lines = (q, .ok out) → ∀ o : Outline, o.WellFormed →
      o.lines = lines → Makes p.predefined p.stored (o.reads true p.defined) out q.stored := by
    rintro q out h o ho rfl
    exact makes_of_expandLines h ho
  refine ⟨⟨?_, ?_⟩, fun q out h => ⟨?_, hmakes q out h⟩⟩
  · rintro ⟨q, out, h⟩
    exact exists_outline h
  · rintro ⟨o, ho, rfl, hdefines⟩
    exact exists_expandLines_of_outline hnames hpasses ho hdefines
  · obtain ⟨o, ho, hlines, -⟩ := exists_outline h
    rw [(hmakes q out h o ho hlines).length_eq, ← hlines, ← fst_reads o true p.defined,
      List.length_map]

end

set_option maxRecDepth 4000 in
/-- A choice in the text of a file, with a block in the branch that is left out: its own `#else`
does not bring that branch back, and the definition in it does not count. -/
theorem expandLines_selects_nested :
    let p := Preprocessor.start { defines := [("A".toList, "1".toList)] }
    let a : Opener := ⟨"#ifdef a".toList, true, "a".toList⟩
    let b : Opener := ⟨" #IFNDEF B ; none".toList, false, "B".toList⟩
    let o : Outline := .line "» x.inc :start".toList
      (.choice a (.line "#define B A+1".toList .done) "#else".toList
        (.choice b (.line "nop".toList .done) "#else".toList
          (.line "#define #".toList .done) "#endif".toList .done)
        "#endif".toList
        (.line "» x.inc :end".toList (.line "mov r0,#b ; B".toList .done)))
    let out := ["» x.inc :start", "; #if", "; #define", "; #if", "; #if", "; #if", "; #if", "; #if",
      "; #if", "; #if", "» x.inc :end", "mov r0,#1+1 ; B"].map String.toList
    o.WellFormed ∧ (∃ q out, expandLines p "m.asm".toList o.lines = (q, .ok out)) ∧
      ∃ q, expandLines p "m.asm".toList o.lines = (q, .ok out) ∧ out.length = o.lines.length ∧
        Makes p.predefined p.stored (o.reads true p.defined) out q.stored := by
  intro p a b o out
  have hformed : o.WellFormed :=
    ⟨rfl, ⟨⟨[], rfl⟩, ⟨rfl, trivial⟩, ⟨[], rfl⟩, ⟨⟨[], rfl⟩, ⟨rfl, trivial⟩, ⟨[], rfl⟩,
      ⟨rfl, trivial⟩, ⟨[], rfl⟩, trivial⟩, ⟨[], rfl⟩, rfl, rfl, trivial⟩⟩
  have hrun : expandLines p "m.asm".toList o.lines =
      ((expandLines p "m.asm".toList o.lines).1, .ok out) := Prod.ext rfl (by decide)
  obtain ⟨s, hs, -⟩ := expandLines_eq_ok_iff.mp hrun
  obtain ⟨haccepts, hselects⟩ :=
    expandLines_selects (p := p) (by decide) (Expansion.passes_of_walk hs)
  obtain ⟨hlength, hmakes⟩ := hselects _ out hrun
  refine ⟨hformed, haccepts.mpr ⟨o, hformed, rfl, fun l hl => ?_⟩, _, hrun, hlength,
    hmakes o hformed rfl⟩
  have hall : ∀ l ∈ o.reads true p.defined, usedAs l ≠ .misdefines := by decide
  exact definesWell_iff.mpr (hall l hl)

end Mcs51.Source
