import Mathlib.Data.List.Forall2
import Mcs51.Proofs.Source.Nesting
import Mcs51.Proofs.Source.PlainSource

/-! # Texts that preprocessing leaves alone

A text without directives, without joined lines and without an end marker too many is given back as
it is. `fixed_iff` says that there is no other such text, whatever directives its lines make when
they are joined, and whatever those then define.

The number of lines tells that no file was ever put in: files only add lines, and all else keeps
their number. So every line of the result stands for the line at its place. A line that ends in a
comment and does not go on in the next one (`Commented`) stays such a line, or gives way to a
filler, which is one too (`commented_rounds`). Take the first line that goes on in the next. The
next line is replaced by a filler, so to be back in the end it has to be commented; then so is the
joined line, and what comes of it in the end; but the line that goes on is not. -/

namespace Mcs51.Source

/-! ### Markers -/

/-- The marker comes before the lines of a file. -/
def Marker.isEnter : Marker → Bool
  | .enter _ => true
  | .leave _ => false

/-- How many start markers there are. -/
def startMarkers (lines : List Text) : Nat := (markersOf lines).countP Marker.isEnter

/-- How many end markers there are. -/
def endMarkers (lines : List Text) : Nat := (markersOf lines).countP fun m => !m.isEnter

theorem markers_cons_of_unmarked {line : Text} (h : Marker.ofLine? line = none)
    (lines : List Text) :
    startMarkers (line :: lines) = startMarkers lines ∧
      endMarkers (line :: lines) = endMarkers lines := by
  simp [startMarkers, endMarkers, markersOf_cons_of_unmarked h]

theorem markers_cons_of_enter {line name : Text} (h : Marker.ofLine? line = some (.enter name))
    (lines : List Text) :
    startMarkers (line :: lines) = startMarkers lines + 1 ∧
      endMarkers (line :: lines) = endMarkers lines := by
  simp [startMarkers, endMarkers, markersOf_cons_of_marked h, List.countP_cons, Marker.isEnter]

theorem markers_cons_of_leave {line name : Text} (h : Marker.ofLine? line = some (.leave name))
    (lines : List Text) :
    startMarkers (line :: lines) = startMarkers lines ∧
      endMarkers (line :: lines) = endMarkers lines + 1 := by
  simp [startMarkers, endMarkers, markersOf_cons_of_marked h, Marker.isEnter]

/-- What holds of the front of every length holds of none and of those with a first line. -/
theorem forall_prefix_cons {P : List Text → Prop} {line : Text} {lines : List Text} :
    (∀ front, front <+: line :: lines → P front) ↔
      P [] ∧ ∀ front, front <+: lines → P (line :: front) := by
  constructor
  · intro h
    exact ⟨h [] List.nil_prefix, fun front hfront => h _ (List.cons_prefix_cons.mpr ⟨rfl, hfront⟩)⟩
  · rintro ⟨hnil, hcons⟩ front hfront
    rcases List.prefix_cons_iff.mp hfront with rfl | ⟨rest, rfl, hrest⟩
    · exact hnil
    · exact hcons rest hrest

/-- **When a file stack gets past lines**: at no place has it left more files than it has entered
and stood in before. Positions that were set aside have counted a line. -/
theorem FileStack.passes_iff : ∀ (lines : List Text) {s : FileStack},
    (∀ pos ∈ s.frames, pos.line ≠ 0) →
      (s.Passes lines ↔ ∀ front, front <+: lines →
        endMarkers front ≤ s.depth + startMarkers front)
  | [], s, _ => by
    simp only [Passes, List.prefix_nil, forall_eq, true_iff]
    exact Nat.zero_le _
  | line :: lines, s, hframes => by
    have hnil : endMarkers [] ≤ s.depth + startMarkers [] := Nat.zero_le _
    rw [forall_prefix_cons, Passes, and_iff_right hnil]
    cases hm : Marker.ofLine? line with
    | none =>
      have hstep := s.step_of_unmarked hm
      have ih := passes_iff lines (s := s.count) hframes
      rw [hstep, and_iff_right ⟨false, rfl⟩, ih]
      refine forall₂_congr fun front _ => ?_
      rw [(markers_cons_of_unmarked hm front).1, (markers_cons_of_unmarked hm front).2]
      rfl
    | some m =>
      cases m with
      | enter name =>
        have hstep : s.step line = (s.count.enter name, .ok true) := by simp [step, hm]
        have ih := passes_iff lines (s := s.count.enter name) (by
          intro pos hpos
          rcases List.mem_cons.mp hpos with rfl | hpos
          · simp [count]
          · exact hframes pos hpos)
        rw [hstep, and_iff_right ⟨true, rfl⟩, ih]
        refine forall₂_congr fun front _ => ?_
        have hdepth : (s.count.enter name).depth = s.depth + 1 := rfl
        rw [(markers_cons_of_enter hm front).1, (markers_cons_of_enter hm front).2, hdepth]
        omega
      | leave name =>
        rcases s with ⟨frames, pos⟩
        rcases frames with _ | ⟨⟨file, n⟩, frames⟩
        · -- there is no file to leave
          constructor
          · rintro ⟨⟨b, hb⟩, -⟩
            simp [step, hm, count] at hb
          · intro h
            have hfirst := h [] List.nil_prefix
            rw [(markers_cons_of_leave hm []).1, (markers_cons_of_leave hm []).2] at hfirst
            simp [startMarkers, endMarkers, markersOf, depth] at hfirst
        · obtain ⟨k, rfl⟩ : ∃ k, n = k + 1 := Nat.exists_eq_succ_of_ne_zero
            (hframes ⟨file, n⟩ (by simp))
          have hstep : step ⟨⟨file, k + 1⟩ :: frames, pos⟩ line =
              (⟨frames, ⟨file, k⟩⟩, .ok true) := by
            simp [step, hm, count]
          have ih := passes_iff lines (s := ⟨frames, ⟨file, k⟩⟩)
            fun pos hpos => hframes pos (by simp [hpos])
          rw [hstep, and_iff_right ⟨true, rfl⟩, ih]
          refine forall₂_congr fun front _ => ?_
          rw [(markers_cons_of_leave hm front).1, (markers_cons_of_leave hm front).2]
          simp only [depth, List.length_cons]
          omega

/-- A marker is one without a backslash at its end, too. -/
theorem marked_of_concat {line : Text} {m : Marker}
    (h : Marker.ofLine? (line ++ ['\\']) = some m) : (Marker.ofLine? line).isSome := by
  cases line with
  | nil => simp [Marker.ofLine?, markerSign] at h
  | cons c rest =>
    obtain ⟨front, last, hfields, hfront⟩ :=
      Text.splitWords_concat (p := Text.isBlank) (c := '\\') (by decide) rest
    rw [← Text.fields] at hfields hfront
    unfold Marker.ofLine? at h ⊢
    simp only [List.cons_append, hfields] at h
    split_ifs at h ⊢ with hsign
    · rcases front with _ | ⟨name, _ | ⟨tag, more⟩⟩
      · simp at h
      · -- the tag would end in the backslash
        have hends : (last ++ ['\\']).getLast? = some '\\' := List.getLast?_concat
        have hne {tag : Text} (htag : tag.getLast? ≠ some '\\') : last ++ ['\\'] ≠ tag := by
          rintro rfl
          exact htag hends
        have henter : last ++ ['\\'] ≠ Marker.enterTag := hne (by decide)
        have hleave : last ++ ['\\'] ≠ Marker.leaveTag := hne (by decide)
        simp [henter, hleave] at h
      · obtain ⟨back, hback⟩ := hfront
        simp only [List.cons_append] at h hback
        simp only [← hback, hsign, if_true]
        split_ifs at h ⊢ <;> simp

/-! ### Commented lines -/

/-- A line that has a comment and does not go on in the next one. -/
def Commented (line : Text) : Prop := ';' ∈ line ∧ continues line = false

/-- The second line is commented if the first is. -/
def KeepsComment (a b : Text) : Prop := Commented a → Commented b

theorem keepsComment_trans : ∀ {a b c : List Text}, List.Forall₂ KeepsComment a b →
    List.Forall₂ KeepsComment b c → List.Forall₂ KeepsComment a c
  | _, _, _, .nil, .nil => .nil
  | _, _, _, .cons h hs, .cons h' hs' => .cons (fun ha => h' (h ha)) (keepsComment_trans hs hs')

theorem commented_spliceFiller : Commented spliceFiller := by unfold Commented; decide

theorem commented_regionFiller : Commented regionFiller := by unfold Commented; decide

theorem commented_defineFiller : Commented defineFiller := by unfold Commented; decide

/-- The end of a commented line makes any line commented. -/
theorem Commented.append {line : Text} (front : Text) (h : Commented line) :
    Commented (front ++ line) := by
  obtain ⟨hmem, hends⟩ := h
  have hne : line ≠ [] := List.ne_nil_of_mem hmem
  exact ⟨List.mem_append_right _ hmem, by rw [continues_append front hne]; exact hends⟩

theorem Commented.comment {line : Text} (h : Commented line) : Commented line.comment := by
  obtain ⟨hmem, hends⟩ := h
  rw [← Text.code_append_comment line] at hmem hends
  have hmem : ';' ∈ line.comment :=
    (List.mem_append.mp hmem).resolve_left (Text.notMem_code line)
  rw [continues_append _ (List.ne_nil_of_mem hmem)] at hends
  exact ⟨hmem, hends⟩

/-- **Joining keeps comments**: a commented line stays as it is, or a filler takes its place. -/
theorem commented_spliceFrom : ∀ (rest taken : List Text) (first line : Text),
    continues first = true ∨ taken = [] ∧ line = first →
      List.Forall₂ KeepsComment (first :: (taken ++ rest)) (spliceFrom line taken.length rest) := by
  have hfirst {first line : Text} {taken : List Text}
      (h : continues first = true ∨ taken = [] ∧ line = first) (hline : continues line = false) :
      KeepsComment first line := by
    rintro ⟨hmem, hends⟩
    rcases h with h | ⟨-, rfl⟩
    · rw [h] at hends
      simp at hends
    · exact ⟨hmem, hline⟩
  have htaken (taken : List Text) :
      List.Forall₂ KeepsComment taken (List.replicate taken.length spliceFiller) := by
    induction taken with
    | nil => exact .nil
    | cons t taken ih => exact .cons (fun _ => commented_spliceFiller) ih
  intro rest
  induction rest with
  | nil =>
    intro taken first line h
    rw [spliceFrom, List.append_nil]
    cases hc : continues line with
    | false => exact .cons (hfirst h hc) (htaken taken)
    | true =>
      refine .cons (fun hcommented => ?_) (htaken taken)
      -- the first line goes on, if it is the line that is open
      rcases h with h | ⟨-, rfl⟩
      · rw [hcommented.2] at h
        simp at h
      · rw [hcommented.2] at hc
        simp at hc
  | cons next rest ih =>
    intro taken first line h
    rw [spliceFrom]
    cases hc : continues line with
    | false =>
      have hrest := ih [] next next (Or.inr ⟨rfl, rfl⟩)
      exact .cons (hfirst h hc) (List.rel_append (htaken taken) hrest)
    | true =>
      have hopen : continues first = true := by
        rcases h with h | ⟨-, rfl⟩
        · exact h
        · exact hc
      have hrest := ih (taken ++ [next]) first (line.dropLast ++ next) (Or.inl hopen)
      rw [List.append_assoc, List.singleton_append, List.length_append, List.length_singleton]
        at hrest
      exact hrest

theorem commented_splice : ∀ lines : List Text, List.Forall₂ KeepsComment lines (splice lines)
  | [] => .nil
  | _ :: _ => commented_spliceFrom _ [] _ _ (Or.inr ⟨rfl, rfl⟩)

theorem commented_of_takes {s t : Expansion} {line written : Text} {use : Use}
    (h : Expansion.Takes s line t use written) : KeepsComment line written := by
  intro hline
  cases h with
  | marker marks pre => exact hline
  | skip unmarked pre => exact commented_regionFiller
  | define unmarked defines expands pre => exact commented_defineFiller
  | expand unmarked active other expands pre => exact hline.comment.append _

/-- **Expanding keeps comments.** -/
theorem commented_walk : ∀ {lines : List Text} {s t : Expansion},
    walk Expansion.step s lines = (t, none) →
      ∃ out, t.out.toList = s.out.toList ++ out ∧ List.Forall₂ KeepsComment lines out
  | [], s, t, h => by
    cases h
    exact ⟨[], by simp, .nil⟩
  | line :: lines, s, t, h => by
    obtain ⟨u, hu, hw⟩ := walk_cons_eq_none.mp h
    obtain ⟨use, written, -, hout, htakes⟩ := Expansion.takes_of_step hu
    obtain ⟨out, hout', hrest⟩ := commented_walk hw
    exact ⟨written :: out, by rw [hout', hout]; simp, .cons (commented_of_takes htakes) hrest⟩

theorem commented_expandLines {p q : Preprocessor} {file : Text} {lines out : List Text}
    (h : expandLines p file lines = (q, .ok out)) : List.Forall₂ KeepsComment lines out := by
  obtain ⟨s, hs, -, rfl⟩ := expandLines_ok h
  obtain ⟨out, hout, hkeeps⟩ := commented_walk hs
  have hout : s.out.toList = out := hout
  rw [hout]
  exact hkeeps

/-! ### Numbers of lines -/

theorem length_widen (d : Disk) (p : Preprocessor) : ∀ seen : List (Text × Use),
    seen.length + 2 * (takenIn d p seen).length ≤ (widen d p seen).length
  | [] => by simp [takenIn, pending, widen]
  | (line, use) :: seen => by
    have ih := length_widen d p seen
    rw [widen_cons, List.length_append, List.length_cons]
    rcases written_cases d p line use with ⟨hwritten, htaken⟩ | ⟨name, path, lines, rfl, hopen⟩
    · rw [hwritten, htaken, List.length_singleton]
      omega
    · rw [written_of_open line hopen, takenIn_cons_of_open line hopen, List.length_cons]
      simp only [Inclusion.block, List.length_cons, List.length_append, List.length_nil]
      omega

/-- Each file that an inclusion puts in adds two lines or more. -/
theorem length_includeLines {d : Disk} {p q : Preprocessor} {file : Text} {left count : Nat}
    {lines out : List Text}
    (h : includeLines d (p.announce left) file lines = (q, .ok (out, count))) :
    lines.length + 2 * count ≤ out.length := by
  obtain ⟨seen, w, hseen, hready, -, rfl, rfl, -⟩ := includeLines_puts (.refl p) h
  have hwiden := length_widen d p seen
  rw [← length_takenIn hready, ← fst_of_survey hseen, List.length_map]
  exact hwiden

/-- Rounds never lose a line. -/
theorem length_le_rounds {d : Disk} {file : Text} : ∀ {left : Nat} {p q : Preprocessor}
    {lines out : List Text}, Preprocessor.rounds d file left p lines = (q, .ok out) →
      lines.length ≤ out.length
  | 0, p, q, lines, out, h => by simp [Preprocessor.rounds] at h
  | left + 1, p, q, lines, out, h => by
    simp only [Preprocessor.rounds] at h
    split at h
    · simp at h
    · next p₁ lines₁ count hinc =>
      have hmore := length_includeLines hinc
      split_ifs at h
      · have hrest := length_le_rounds h
        omega
      · split at h
        · simp at h
        · next p₂ lines₂ hexp =>
          have hsame := length_expandLines hexp
          rw [length_splice] at hsame
          split_ifs at h
          · have hrest := length_le_rounds h
            omega
          · cases h
            omega

section

variable {d : Disk} {file : Text} {left : Nat} {p q : Preprocessor} {lines out : List Text}

/-- **A round that keeps the number of lines** puts no file in: it joins its lines and expands
them. -/
theorem round_of_length (h : Preprocessor.rounds d file (left + 1) p lines = (q, .ok out))
    (hlength : out.length = lines.length) :
    ∃ p₁ p₂ mid, includeLines d (p.announce left) file lines = (p₁, .ok (lines, 0)) ∧
      p.Alike p₁ ∧ expandLines p₁ file (splice lines) = (p₂, .ok mid) ∧
      (needsPreprocessing mid = false ∧ out = mid ∨
        needsPreprocessing mid = true ∧
          Preprocessor.rounds d file left p₂ mid = (q, .ok out)) := by
  simp only [Preprocessor.rounds] at h
  split at h
  · simp at h
  · next p₁ lines₁ count hinc =>
    have hmore := length_includeLines hinc
    split_ifs at h with hcount
    · have hrest := length_le_rounds h
      omega
    · obtain rfl : count = 0 := by simpa using hcount
      obtain ⟨rfl, halike, -⟩ := includeLines_settled (.refl p) hinc
      split at h
      · simp at h
      · next p₂ mid hexp =>
        refine ⟨p₁, p₂, mid, hinc, halike, hexp, ?_⟩
        split_ifs at h with hneeds
        · exact Or.inr ⟨hneeds, h⟩
        · cases h
          exact Or.inl ⟨by simpa using hneeds, rfl⟩

end

/-- **Rounds keep comments**, as long as no file is put in. -/
theorem commented_rounds {d : Disk} {file : Text} : ∀ {left : Nat} {p q : Preprocessor}
    {lines out : List Text}, Preprocessor.rounds d file left p lines = (q, .ok out) →
      out.length = lines.length → List.Forall₂ KeepsComment (splice lines) out
  | 0, p, q, lines, out, h, _ => by simp [Preprocessor.rounds] at h
  | left + 1, p, q, lines, out, h, hlength => by
    obtain ⟨p₁, p₂, mid, -, -, hexp, hend⟩ := round_of_length h hlength
    have hfirst := commented_expandLines hexp
    have hmid := length_expandLines hexp
    rw [length_splice] at hmid
    rcases hend with ⟨-, rfl⟩ | ⟨-, hrounds⟩
    · exact hfirst
    · have hrest := commented_rounds hrounds (by omega)
      exact keepsComment_trans hfirst (keepsComment_trans (commented_splice mid) hrest)

/-! ### The first line that goes on -/

theorem exists_first_continues {lines : List Text} (h : ∃ line ∈ lines, continues line = true) :
    ∃ front line back, lines = front ++ line :: back ∧ continues line = true ∧
      ∀ l ∈ front, continues l = false := by
  obtain ⟨line, hfind⟩ := Option.isSome_iff_exists.mp (List.find?_isSome.mpr h)
  obtain ⟨hline, front, back, hlines, hfront⟩ := List.find?_eq_some_iff_append.mp hfind
  exact ⟨front, line, back, hlines, hline, fun l hl => by simpa using hfront l hl⟩

/-- Lines before the first that goes on stay as they are. -/
theorem splice_append_unjoined : ∀ {front : List Text} (line : Text) (back : List Text),
    (∀ l ∈ front, continues l = false) →
      splice (front ++ line :: back) = front ++ spliceFrom line 0 back
  | [], line, back, _ => rfl
  | l :: front, line, back, h => by
    have hl : continues l = false := h l (by simp)
    have ih := splice_append_unjoined line back fun x hx => h x (List.mem_cons_of_mem _ hx)
    cases front with
    | nil => simp [splice, spliceFrom, hl]
    | cons x front =>
      rw [List.cons_append, splice] at ih
      rw [List.cons_append, List.cons_append, splice, spliceFrom, ih]
      simp [hl]

/-- A line that has taken up others is followed by a filler. -/
theorem spliceFrom_succ : ∀ (rest : List Text) (line : Text) (taken : Nat),
    ∃ head tail, spliceFrom line (taken + 1) rest = head :: spliceFiller :: tail ∧
      (continues line = false → head = line)
  | [], line, taken => by
    refine ⟨_, List.replicate taken spliceFiller, rfl, fun hline => ?_⟩
    simp [hline]
  | next :: rest, line, taken => by
    cases hline : continues line with
    | false =>
      refine ⟨line, List.replicate taken spliceFiller ++ spliceFrom next 0 rest, ?_, fun _ => rfl⟩
      simp [spliceFrom, hline, List.replicate_succ]
    | true =>
      obtain ⟨head, tail, hsplice, -⟩ := spliceFrom_succ rest (line.dropLast ++ next) (taken + 1)
      exact ⟨head, tail, by simp [spliceFrom, hline, hsplice], by simp⟩

/-- A line stays without directives when a backslash is taken from its end. -/
theorem clear_dropLast {line : Text} (h : Clear line) (hline : continues line = true) :
    Clear line.dropLast := by
  intro hunmarked w hw
  have hconcat := dropLast_of_continues hline
  have hold : Marker.ofLine? line = none := by
    cases hm : Marker.ofLine? line with
    | none => rfl
    | some m =>
      rw [← hconcat] at hm
      have := marked_of_concat hm
      rw [hunmarked] at this
      simp at this
  by_contra hmention
  have hcode : Text.code line.dropLast <+: line.code := by
    have hfront := Text.code_isPrefix line.dropLast ['\\']
    rw [hconcat] at hfront
    exact hfront
  have hmore := Text.mentions_of_isPrefix hcode (by simpa using hmention)
  rw [h hold w hw] at hmore
  simp at hmore

section

variable {d : Disk} {file : Text} {left : Nat} {p q : Preprocessor} {lines out : List Text}

/-- **Lines that rounds give back do not go on**, where nothing is stored before. -/
theorem unjoined_of_fixed (hstored : p.stored = [])
    (h : Preprocessor.rounds d file (left + 1) p lines = (q, .ok lines)) :
    ∀ line ∈ lines, continues line = false := by
  by_contra hnot
  push Not at hnot
  obtain ⟨front, line, back, rfl, hline, hfront⟩ :=
    exists_first_continues (by simpa using hnot)
  have hsplice := splice_append_unjoined line back hfront
  cases back with
  | nil =>
    -- the backslash at the end is dropped, and nothing brings it back
    have hclear := clear_of_rounds h
    obtain ⟨p₁, p₂, mid, -, halike, hexp, hend⟩ := round_of_length h rfl
    have hlast : splice (front ++ [line]) = front ++ [line.dropLast] := by
      rw [hsplice, spliceFrom, if_pos hline]
      rfl
    have hclear' : ∀ l ∈ front ++ [line.dropLast], Clear l := by
      intro l hl
      rcases List.mem_append.mp hl with hl | hl
      · exact hclear l (by simp [hl])
      · rw [List.mem_singleton.mp hl]
        exact clear_dropLast (hclear line (by simp)) hline
    rw [hlast] at hexp
    have hmid : mid = front ++ [line.dropLast] :=
      expandLines_of_clear (halike.stored.trans hstored) hclear' hexp
    rcases hend with ⟨-, hsame⟩ | ⟨hneeds, -⟩
    · rw [hmid, List.append_cancel_left_eq, List.singleton_inj] at hsame
      have hconcat := congrArg List.length (dropLast_of_continues hline)
      rw [← hsame] at hconcat
      simp at hconcat
    · rw [hmid, needsPreprocessing_eq_false hclear'] at hneeds
      simp at hneeds
  | cons next rest =>
    have hkeeps := commented_rounds h rfl
    obtain ⟨head, tail, hjoined, hhead⟩ := spliceFrom_succ rest (line.dropLast ++ next) 0
    rw [hsplice, spliceFrom, if_pos hline, hjoined] at hkeeps
    have hkeeps := List.forall₂_drop front.length hkeeps
    rw [List.drop_left, List.drop_left] at hkeeps
    obtain ⟨hfirst, hkeeps⟩ := List.forall₂_cons.mp hkeeps
    obtain ⟨hsecond, -⟩ := List.forall₂_cons.mp hkeeps
    -- a filler is where the next line was
    have hnext : Commented next := hsecond commented_spliceFiller
    have hline' : Commented (line.dropLast ++ next) := hnext.append _
    rw [hhead hline'.2] at hfirst
    have := (hfirst hline').2
    rw [hline] at this
    simp at this

end

/-- **Which texts preprocessing leaves alone.** Without predefined replacements, a preprocessor
gives back the lines of a text if and only if no directive is left in them, no line goes on in the
next one, and no front of the lines has more end markers than start markers. -/
theorem fixed_iff {d : Disk} {settings : Settings} {file : Text} {ls : List Text}
    (hdefines : settings.defines = []) (hls : ∀ l ∈ ls, '\n' ∉ l ∧ l.getLast? ≠ some '\r') :
    (∃ q, (Preprocessor.start settings).processText d file (Text.unlines ls) = (q, .ok ls)) ↔
      needsPreprocessing ls = false ∧ (∀ l ∈ ls, continues l = false) ∧
        ∀ front, front <+: ls → endMarkers front ≤ startMarkers front := by
  have hpredefined : (Preprocessor.start settings).predefined = [] := by
    simp [Preprocessor.start, hdefines]
  obtain ⟨left, hrounds⟩ := exists_maxRounds settings
  have hpasses : (FileStack.start file).Passes ls ↔
      ∀ front, front <+: ls → endMarkers front ≤ startMarkers front := by
    have h := FileStack.passes_iff ls (s := .start file) (by simp [FileStack.start])
    simpa [FileStack.start, FileStack.depth] using h
  unfold Preprocessor.processText
  rw [enter_of_no_defines hpredefined, Text.lines_unlines hls, ← hpasses, hrounds]
  constructor
  · rintro ⟨q, hrun⟩
    obtain ⟨p₁, p₂, mid, hinc, -, -, -⟩ := round_of_length hrun rfl
    obtain ⟨s, hs, -⟩ := includeLines_ok hinc
    exact ⟨needsPreprocessing_iff.mpr (clear_of_rounds hrun),
      unjoined_of_fixed rfl hrun, Inclusion.passes_of_walk hs⟩
  · rintro ⟨hneeds, hunjoined, hpasses⟩
    obtain ⟨q, hrun, -⟩ := rounds_of_clear (d := d) left hpredefined rfl hpasses
      (needsPreprocessing_iff.mp hneeds) hunjoined
    exact ⟨q, hrun⟩

/-- Lines with a file between markers, a file that is not left, and a directive in a comment. -/
def bracketLines : List Text :=
  ["» a.inc :start".toList, "mov a,#0F ; #define".toList, "» a.inc :end".toList,
    "» b.inc :start".toList]

set_option maxRecDepth 4000 in
/-- The lines are given back; with a line before them that goes on into a comment, they are not. -/
theorem fixed_iff_bracket :
    (∃ q, (Preprocessor.start {}).processText .empty "main.asm".toList (Text.unlines bracketLines) =
      (q, .ok bracketLines)) ∧
    ¬ ∃ q, (Preprocessor.start {}).processText .empty "main.asm".toList
        (Text.unlines ("nop \\".toList :: "; continued".toList :: bracketLines)) =
      (q, .ok ("nop \\".toList :: "; continued".toList :: bracketLines)) := by
  have hmarkers : ∀ front ∈ bracketLines.inits, endMarkers front ≤ startMarkers front := by decide
  constructor
  · refine (fixed_iff rfl (by decide)).mpr ⟨by decide, by decide, fun front hfront => ?_⟩
    exact hmarkers front ((List.mem_inits _ _).mpr hfront)
  · intro hfixed
    have hends := ((fixed_iff rfl (by decide)).mp hfixed).2.1 "nop \\".toList (by simp)
    revert hends
    decide

end Mcs51.Source
