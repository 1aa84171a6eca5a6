import Mcs51.Proofs.Instruction.Length
import Mcs51.Proofs.Object.Layout
import Mcs51.Proofs.Source.Nesting

/-! # The first pass over nested markers

A first pass can fail for many reasons. Some are about markers (`Stop.ofMarker`): one that closes
nothing, one that is missing at the end, a line that looks like one and is none. No instruction and
no label gives such a reason (`assemble_spares`, `perform_stops`), so it comes from the file stack
or from a line that starts with the sign of a marker.

Main statement: `markers_survive`, in a stream of the preprocessor neither is there, unless a marker
was joined to the last line of a file. A file that ends in a backslash loses its end in this way
(`marker_lost`). -/

namespace Mcs51

/-! ### Reasons to stop -/

/-- The problem is with a marker. -/
def Problem.ofMarker : Problem → Bool
  | unmatchedEnd _ | missingEnd | malformedMarker => true
  | _ => false

/-- The reason to stop is a marker. -/
def Stop.ofMarker : Stop → Bool
  | error e => e.problem.ofMarker
  | fault f => f == .lineUnderflow

theorem Stop.ofMarker_locate (e : Stop) (p : Pos) : (e.locate p).ofMarker = e.ofMarker := by
  cases e <;> rfl

/-- The result is no problem with a marker. -/
def Spares {α : Type} (r : Except Problem α) : Prop := ∀ p, r = .error p → p.ofMarker = false

theorem spares_ok {α : Type} (a : α) : Spares (.ok a : Except Problem α) := nofun

theorem spares_error {α : Type} {p : Problem} (h : p.ofMarker = false) :
    Spares (.error p : Except Problem α) := by
  rintro q hq
  cases hq
  exact h

theorem Spares.map {α β : Type} {r : Except Problem α} (h : Spares r) (f : α → β) :
    Spares (r.map f) := by
  cases r with
  | ok a => exact spares_ok _
  | error p => exact spares_error (h p rfl)

namespace Instruction

/-! ### Instructions -/

theorem spares_byteOf (v : Value) : Spares (byteOf v) := by
  cases v with
  | const n =>
    rw [byteOf]
    split_ifs
    · exact spares_ok _
    · exact spares_error rfl
  | label name => exact spares_error rfl

theorem spares_foldPage (op : UInt8) (next target : UInt16) : Spares (foldPage op next target) := by
  unfold foldPage
  split_ifs
  · exact spares_error rfl
  · exact spares_ok _

theorem spares_fillSlot (pc : UInt16) (op : UInt8) (slot : Slot) (operand : Operand) :
    Spares (fillSlot pc op slot operand) := by
  unfold fillSlot
  split <;>
    first
    | exact (spares_byteOf _).map _
    | exact (spares_foldPage _ _ _).map _
    | exact spares_ok _

theorem spares_fillSlots (pc : UInt16) : ∀ (slots : List (Slot × Operand)) (op : UInt8),
    Spares (fillSlots pc op slots)
  | [], op => spares_ok _
  | (slot, operand) :: rest, op => by
    unfold fillSlots
    split
    · next p hp => exact spares_error (spares_fillSlot pc op slot operand p hp)
    · exact (spares_fillSlots pc rest _).map _

theorem spares_readAddress (token : Text) : Spares (readAddress token) := by
  unfold readAddress
  split
  · exact spares_ok _
  · split
    · exact spares_error rfl
    · split_ifs
      · exact spares_ok _
      · exact spares_error rfl
      · split
        · exact spares_ok _
        · exact spares_error rfl

theorem spares_readImmediate (token : Text) : Spares (readImmediate token) := by
  unfold readImmediate
  split
  · exact spares_ok _
  · split_ifs
    · exact spares_ok _
    · exact spares_error rfl

theorem spares_classify (token : Text) : Spares (classify token) := by
  unfold classify
  split
  · exact spares_ok _
  · split
    · exact (spares_readImmediate _).map _
    · exact (spares_readAddress _).map _
    · exact (spares_readAddress _).map _

theorem spares_classifyAll : ∀ tokens : List Text, Spares (classifyAll tokens)
  | [] => spares_ok _
  | t :: tokens => by
    unfold classifyAll
    split
    · next p hp => exact spares_error (spares_classify t p hp)
    · exact (spares_classifyAll tokens).map _

theorem fill_spares {f : Form} {operands : List Operand} {pc : UInt16} {e : Stop}
    (h : fill f operands pc = .error e) : e.ofMarker = false := by
  unfold fill at h
  split at h
  · next p hp =>
    cases h
    exact spares_fillSlots pc _ _ p hp
  · simp only at h
    split_ifs at h
    all_goals
      cases h
      rfl

theorem assembleTokens_spares {tokens : List Text} {pc : UInt16} {e : Stop}
    (h : assembleTokens tokens pc = .error e) : e.ofMarker = false := by
  unfold assembleTokens at h
  split at h
  · cases h
    rfl
  · split at h
    · cases h
      rfl
    · split_ifs at h
      · cases h
        rfl
      · cases h
        rfl
      · split at h
        · next p hp =>
          cases h
          exact spares_classifyAll _ p hp
        · unfold fillFirst at h
          split at h
          · cases h
            rfl
          · exact fill_spares h

/-- No instruction is wrong for a marker. -/
theorem assemble_spares {line : Text} {pc : UInt16} {e : Stop} (h : assemble line pc = .error e) :
    e.ofMarker = false := by
  unfold assemble at h
  split at h
  · simp at h
  · exact assembleTokens_spares h

end Instruction

namespace Object

open Instruction Source

/-! ### Statements -/

namespace Session

theorem emitAll_stops : ∀ {cs : List Cell} {s t : Session} {e : Stop},
    s.emitAll cs = (t, some e) → e = .ofProblem .addressSpaceFull
  | [], s, t, e, h => by simp [emitAll] at h
  | c :: cs, s, t, e, h => by
    unfold emitAll walk at h
    split at h
    · exact emitAll_stops h
    · next u f hemit =>
      cases h
      unfold emit at hemit
      split at hemit
      · cases hemit
        rfl
      · simp at hemit

theorem act_stops {s t : Session} {action : Action} {e : Stop}
    (h : s.act action = (t, some e)) : ∃ p, e = .ofProblem p ∧ p.ofMarker = false := by
  cases action with
  | nothing => simp [act] at h
  | origin arg =>
    simp only [act, setOrigin] at h
    split at h
    · cases h
      exact ⟨_, rfl, rfl⟩
    · simp at h
  | instruction code =>
    simp only [act, encode] at h
    split at h
    · cases h
      exact ⟨_, rfl, rfl⟩
    · split at h
      · next f hf =>
        cases h
        obtain ⟨p, rfl⟩ := exists_problem_of_assemble hf
        exact ⟨p, rfl, assemble_spares hf⟩
      · exact ⟨_, emitAll_stops h, rfl⟩

theorem define_stops {s t : Session} {name : Text} {e : Stop}
    (h : s.define name = (t, some e)) : ∃ p, e = .ofProblem p ∧ p.ofMarker = false := by
  unfold define at h
  split_ifs at h
  · cases h
    exact ⟨_, rfl, rfl⟩
  · cases h
    exact ⟨_, rfl, rfl⟩
  · split at h
    · cases h
      exact ⟨_, rfl, rfl⟩
    · simp at h

/-- A statement that fails has a problem, and not with a marker. -/
theorem perform_stops {s t : Session} {st : Statement} {e : Stop}
    (h : s.perform st = (t, some e)) : ∃ p, e = .ofProblem p ∧ p.ofMarker = false := by
  unfold perform at h
  split at h
  · exact act_stops h
  · split at h
    · exact act_stops h
    · next u f hdefine =>
      cases h
      exact define_stops hdefine

/-! ### Lines -/

/-- A line without the sign of a marker is a statement. -/
theorem exists_statement {line : Text} (h : SignFree line) :
    ∃ st, Statement.ofLine? line = some st := by
  have hsign : line.code.trim.head? ≠ some markerSign := fun hhead =>
    h (Text.code_subset _ (Text.trim_subset _ (List.mem_of_head? hhead)))
  unfold Statement.ofLine?
  rw [if_neg hsign]
  exact ⟨_, rfl⟩

/-- What becomes of a session: it goes on with the given file stack, or stops, not for a marker. -/
def Follows (stack : FileStack) (r : Session × Option Stop) : Prop :=
  match r with
  | (t, none) => t.stack = stack
  | (_, some e) => e.ofMarker = false

/-- **A proper line** that the file stack passes fails for no marker. -/
theorem step_follows {s : Session} {line : Text} (hproper : Proper line)
    (hpasses : ∃ b, (s.stack.step line).2 = .ok b) :
    Follows (s.stack.step line).1 (s.step line) := by
  obtain ⟨b, hb⟩ := hpasses
  unfold step
  cases hs : s.stack.step line with
  | mk stack r =>
    rw [hs] at hb
    cases hb
    cases b with
    | true => rfl
    | false =>
      have hsign := hproper.signFree (FileStack.unmarked_of_step hs)
      obtain ⟨st, hst⟩ := exists_statement hsign
      simp only [obey, hst]
      cases hperform : Session.perform { s with stack := stack } st with
      | mk t stop =>
        cases stop with
        | none =>
          obtain ⟨new, -, -, -, hstack⟩ := perform_ok hperform
          exact hstack
        | some e =>
          obtain ⟨p, rfl, hp⟩ := perform_stops hperform
          show ((Stop.ofProblem p).locate t.stack.pos).ofMarker = false
          rw [Stop.ofMarker_locate]
          exact hp

theorem walk_follows : ∀ {lines : List Text} {s : Session}, (∀ line ∈ lines, Proper line) →
    s.stack.Passes lines → Follows (s.stack.after lines) (walk step s lines)
  | [], s, _, _ => rfl
  | line :: lines, s, hproper, ⟨hline, hpasses⟩ => by
    have hfirst := step_follows (hproper line (by simp)) hline
    rw [FileStack.after_cons, walk]
    cases hs : s.step line with
    | mk t stop =>
      rw [hs] at hfirst
      cases stop with
      | none =>
        have hstack : t.stack = (s.stack.step line).1 := hfirst
        rw [← hstack] at hpasses ⊢
        exact walk_follows (fun l hl => hproper l (by simp [hl])) hpasses
      | some e => exact hfirst

/-- A first pass over lines that end where they began fails for no marker. -/
theorem feed_spares {s t : Session} {lines : List Text} {e : Stop}
    (hproper : ∀ line ∈ lines, Proper line) (hpasses : s.stack.Passes lines)
    (hdepth : (s.stack.after lines).depth = 0) (h : s.feed lines = (t, some e)) :
    e.ofMarker = false := by
  have hfollows := walk_follows hproper hpasses
  unfold feed at h
  split at h
  · next u hu =>
    rw [hu] at hfollows
    have hstack : u.stack = s.stack.after lines := hfollows
    rw [hstack, if_pos hdepth] at h
    simp at h
  · next u f hu =>
    rw [hu] at hfollows
    cases h
    exact hfollows

end Session

/-! ### Streams of the preprocessor -/

/-- **Markers survive.** Take a run of the preprocessor that succeeds, where the sign of a marker
stands in no file and in no replacement, and where no marker was joined to the line before it. The
markers in the result are nested, a file stack passes it and ends where it began, and a first pass
over it fails for no marker. -/
theorem markers_survive {d : Disk} {p q : Preprocessor} {file source : Text} {out : List Text}
    (hsource : SignFree source)
    (hdisk : ∀ path text, d.readText path = .ok text → SignFree text) (hpre : p.SignFree)
    (hrun : p.processText d file source = (q, .ok out))
    (hjoin : ∀ t, trace d p file source = some t →
      ∀ line ∈ t.joined, Marker.ofLine? line = none) :
    Nested (markersOf out) ∧ (FileStack.start file).Passes out ∧
      ((FileStack.start file).after out).depth = 0 ∧
      ∀ origin s e, (Session.start file origin).feed out = (s, some e) → e.ofMarker = false := by
  obtain ⟨t, ht, rfl⟩ := trace_of_processText hrun
  obtain ⟨q', hbracketed⟩ := bracketed_trace hsource hdisk hpre ht (hjoin t ht)
  have hpasses := hbracketed.sound.located.passes
  have hdepth := FileStack.depth_after hpasses List.length_nil hbracketed.nested
  have hproper : ∀ line ∈ t.lines.map Sourced.text, Proper line := by
    intro line hline
    obtain ⟨l, hl, rfl⟩ := List.mem_map.mp hline
    exact hbracketed.sound.proper l hl
  exact ⟨hbracketed.nested, hpasses, hdepth,
    fun origin s e h => Session.feed_spares hproper hpasses hdepth h⟩

/-- A disk with a file that includes another one, which joins lines. -/
def innerDisk : Disk :=
  (Disk.empty.learn "a.inc".toList (.file (Text.encode "#include <b.inc>\nnop\n".toList))).learn
    "b.inc".toList (.file (Text.encode "mov a,\\\n#1\n".toList))

/-- A source that includes the outer file. -/
def outerSource : Text := "#include <a.inc>\nret\n".toList

/-- What becomes of the source. -/
def outerLines : List Text :=
  ["; #include".toList, "» a.inc :start".toList, "; #include".toList, "» b.inc :start".toList,
    "mov a,#1".toList, "; continued".toList, "» b.inc :end".toList, "nop".toList,
    "» a.inc :end".toList, "ret".toList]

set_option maxRecDepth 4000 in
theorem markers_survive_inner :
    ((Preprocessor.start {}).processText innerDisk "main.asm".toList outerSource).2 =
        .ok outerLines ∧
      Nested (markersOf outerLines) ∧ (FileStack.start "main.asm".toList).Passes outerLines ∧
      ((FileStack.start "main.asm".toList).after outerLines).depth = 0 ∧
      ∀ origin s e, (Session.start "main.asm".toList origin).feed outerLines = (s, some e) →
        e.ofMarker = false := by
  have hrun : ((Preprocessor.start {}).processText innerDisk "main.asm".toList outerSource).2 =
      .ok outerLines := by
    decide
  have hdisk : signFreeDisk innerDisk = true := by decide
  have hsource : SignFree outerSource := by
    unfold SignFree
    decide
  have hjoin : ((trace innerDisk (.start {}) "main.asm".toList outerSource).all fun t =>
      t.joined.all fun line => (Marker.ofLine? line).isNone) = true := by
    decide
  refine ⟨hrun, markers_survive hsource (signFree_of_signFreeDisk hdisk) signFree_start
    (Prod.ext rfl hrun) fun t ht line hline => ?_⟩
  rw [ht] at hjoin
  simpa using List.all_eq_true.mp hjoin line hline

/-- A disk with a file whose last line is a comment that ends in a backslash. -/
def backslashDisk : Disk :=
  Disk.empty.learn "a.inc".toList (.file (Text.encode "; done \\\n".toList))

/-- A source that includes the file. -/
def backslashSource : Text := "#include <a.inc>\nnop\n".toList

/-- What becomes of the source. -/
def backslashLines : List Text :=
  ["; #include".toList, "» a.inc :start".toList, "; done » a.inc :end".toList,
    "; continued".toList, "nop".toList]

set_option maxRecDepth 4000 in
/-- **The end of a file is lost** to a backslash at its end: the run succeeds, and the first pass
over its result reports that the end marker is missing. -/
theorem marker_lost :
    SignFree backslashSource ∧
      (∀ path text, backslashDisk.readText path = .ok text → SignFree text) ∧
      (Preprocessor.start {}).SignFree ∧
      ((Preprocessor.start {}).processText backslashDisk "main.asm".toList backslashSource).2 =
        .ok backslashLines ∧
      ¬ Nested (markersOf backslashLines) ∧
      ((FileStack.start "main.asm".toList).after backslashLines).depth = 1 ∧
      ((Session.start "main.asm".toList 0).feed backslashLines).2 =
        some (.error ⟨.missingEnd, some ⟨"a.inc".toList, 3⟩⟩) := by
  have hdisk : signFreeDisk backslashDisk = true := by decide
  have hsource : SignFree backslashSource := by
    unfold SignFree
    decide
  refine ⟨hsource, signFree_of_signFreeDisk hdisk, signFree_start, ?_, ?_, ?_, ?_⟩ <;>
    decide

end Object

end Mcs51
