import Mathlib.Data.List.Forall2
import Mcs51.Proofs.Source.Origin
import Mcs51.Proofs.Source.Sign

/-! # Lines keep their numbers

The file stack is all that tells an assembler where a line comes from, and it knows only the markers
in the stream. `Located` says that it is right: stepping over the lines never fails, and after each
line that is no marker the position is the origin of the line.

A round keeps this. Where a file is put in, the markers take the stack into the file and back
(`located_block`); every other change is one line for another with the same origin (`Keeps`,
`Located.keeps`). For this no line may look like a marker by accident, so the sign of a marker must
not come from a file or from a replacement, and no marker may be joined to a line before it.

Main statement: `positions_are_origins`. -/

namespace Mcs51.Source

open Sourced

/-! ### Positions -/

/-- Stepping over the lines never fails, and the position after each line that is no marker is its
origin. -/
def Located : FileStack → List Sourced → Prop
  | _, [] => True
  | s, l :: ls =>
    (∃ b, (s.step l.text).2 = .ok b) ∧
      (Marker.ofLine? l.text = none → l.origin = some (s.step l.text).1.pos) ∧
      Located (s.step l.text).1 ls

theorem located_append : ∀ {ls more : List Sourced} {s : FileStack},
    Located s (ls ++ more) ↔ Located s ls ∧ Located (s.after (ls.map text)) more
  | [], more, s => by simp [Located, FileStack.after]
  | l :: ls, more, s => by
    have ih : Located (s.step l.text).1 (ls ++ more) ↔ _ := located_append
    simp only [List.cons_append, Located, ih, and_assoc]
    rfl

theorem located_unmarked {s : FileStack} {l : Sourced} {ls : List Sourced}
    (hm : Marker.ofLine? l.text = none) :
    Located s (l :: ls) ↔ l.origin = some s.count.pos ∧ Located s.count ls := by
  simp [Located, FileStack.step_of_unmarked hm, hm]

/-- One line for another: the same, or one with the same origin where neither is a marker. -/
def Keeps (l l' : Sourced) : Prop :=
  l' = l ∨ (SignFree l.text ∧ SignFree l'.text ∧ l'.origin = l.origin)

theorem Keeps.signFree {l l' : Sourced} (h : Keeps l l') (hl : SignFree l'.text) :
    SignFree l.text ∧ l'.origin = l.origin := by
  rcases h with rfl | ⟨hl, -, horigin⟩
  · exact ⟨hl, rfl⟩
  · exact ⟨hl, horigin⟩

theorem Located.keeps : ∀ {ls ls' : List Sourced} {s : FileStack}, List.Forall₂ Keeps ls ls' →
    Located s ls → Located s ls'
  | [], _, s, .nil, h => h
  | l :: ls, l' :: ls', s, .cons hk hrest, h => by
    rcases hk with rfl | ⟨hl, hl', horigin⟩
    · exact ⟨h.1, h.2.1, Located.keeps hrest h.2.2⟩
    · rw [located_unmarked hl.unmarked] at h
      rw [located_unmarked hl'.unmarked, horigin]
      exact ⟨h.1, Located.keeps hrest h.2⟩

theorem proper_keeps {ls ls' : List Sourced} (h : List.Forall₂ Keeps ls ls')
    (hp : ∀ l ∈ ls, Proper l.text) : ∀ l ∈ ls', Proper l.text := by
  induction h with
  | nil => exact hp
  | cons hk _ ih =>
    intro l hl
    rcases List.mem_cons.mp hl with rfl | hl
    · rcases hk with rfl | ⟨-, h, -⟩
      · exact hp _ (by simp)
      · exact Or.inl h
    · exact ih (fun l hl => hp l (by simp [hl])) l hl

/-! ### Files -/

/-- The lines of a file stand where their numbers say. -/
theorem located_ofFile {frames : List Pos} {file : Text} : ∀ {lines : List Text} (n : Nat),
    (∀ line ∈ lines, SignFree line) →
      Located ⟨frames, ⟨file, n⟩⟩ ((lines.zipIdx n).map fun p => ⟨p.1, some ⟨file, p.2 + 1⟩⟩)
  | [], n, _ => trivial
  | line :: lines, n, h => by
    rw [List.zipIdx_cons, List.map_cons, located_unmarked (h line (by simp)).unmarked]
    exact ⟨rfl, located_ofFile (n + 1) fun l hl => h l (by simp [hl])⟩

/-- **Putting a file in.** In the place of a line, a filler and the lines of a file between markers
leave the stack where the line left it. -/
theorem located_block {s : FileStack} {l : Sourced} {name : Text} {lines : List Text}
    (hname : name ≠ [] ∧ ∀ c ∈ name, Text.isBlank c = false)
    (hlines : ∀ line ∈ lines, SignFree line) (horigin : l.origin = some s.count.pos) :
    Located s (⟨includeFiller, l.origin⟩ :: ⟨(Marker.enter name).line, none⟩ ::
      (ofFile name lines ++ [⟨(Marker.leave name).line, none⟩])) ∧
    s.after (Inclusion.block name lines) = s.count := by
  obtain ⟨frames, file, n⟩ := s
  have henter : Marker.ofLine? (Marker.enter name).line = some (.enter name) :=
    Marker.ofLine?_line hname.1 hname.2
  have hleave : Marker.ofLine? (Marker.leave name).line = some (.leave name) :=
    Marker.ofLine?_line hname.1 hname.2
  have hfiller : Marker.ofLine? includeFiller = none := by decide
  have hin := FileStack.step_enter hname.1 hname.2 frames file (n + 1)
  have hfile := FileStack.after_unmarked (⟨file, n + 1 + 1⟩ :: frames) name 0
    fun line hline => (hlines line hline).unmarked
  have hout := FileStack.step_leave hname.1 hname.2 frames file (n + 1) ⟨name, 0 + lines.length⟩
  constructor
  · rw [located_unmarked hfiller]
    refine ⟨horigin, ⟨true, ?_⟩, ?_, ?_⟩
    · exact congrArg Prod.snd hin
    · simp [henter]
    · show Located (FileStack.step ⟨frames, ⟨file, n + 1⟩⟩ (Marker.enter name).line).1 _
      rw [hin, located_append, text_ofFile, hfile]
      refine ⟨located_ofFile 0 hlines, ⟨true, congrArg Prod.snd hout⟩, ?_, trivial⟩
      simp [hleave]
  · rw [Inclusion.block, FileStack.after_cons, FileStack.step_of_unmarked hfiller,
      FileStack.after_cons]
    show FileStack.after (FileStack.step ⟨frames, ⟨file, n + 1⟩⟩ (Marker.enter name).line).1 _ = _
    rw [hin, FileStack.after_append, hfile]
    exact congrArg Prod.fst hout

/-! ### What a round keeps -/

theorem spread_keep (l : Sourced) : l.spread [l.text] = [l] := rfl

theorem spread_block (l : Sourced) {name : Text} (lines : List Text)
    (h : includedName? l.text.code = some name) :
    l.spread (Inclusion.block name lines) = ⟨includeFiller, l.origin⟩ ::
      ⟨(Marker.enter name).line, none⟩ ::
      (ofFile name lines ++ [⟨(Marker.leave name).line, none⟩]) := by
  simp [spread, Inclusion.block, h]

theorem proper_marker {m : Marker} (hn : m.name ≠ [])
    (hb : ∀ c ∈ m.name, Text.isBlank c = false) : Proper m.line :=
  Or.inr ⟨m, rfl, Marker.ofLine?_line hn hb⟩

theorem proper_block {name : Text} {lines : List Text}
    (hname : name ≠ [] ∧ ∀ c ∈ name, Text.isBlank c = false)
    (hlines : ∀ line ∈ lines, SignFree line) : ∀ t ∈ Inclusion.block name lines, Proper t := by
  intro t ht
  unfold Inclusion.block at ht
  rw [List.mem_cons, List.mem_cons, List.mem_append, List.mem_singleton] at ht
  rcases ht with rfl | rfl | ht | rfl
  · exact Or.inl signFree_includeFiller
  · exact proper_marker hname.1 hname.2
  · exact Or.inl (hlines t ht)
  · exact proper_marker hname.1 hname.2

/-- **Inclusion** keeps lines located and proper. -/
theorem located_traceInclude {d : Disk}
    (hdisk : ∀ path text, d.readText path = .ok text → SignFree text) :
    ∀ {ls : List Sourced} {i j : Inclusion} {s : FileStack},
      walk (Inclusion.step d) i (ls.map text) = (j, none) → i.pre.SignFree →
      (∀ l ∈ ls, Proper l.text) → Located s ls →
      i.pre.Alike j.pre ∧ Located s (traceInclude d i ls) ∧
        ∀ l ∈ traceInclude d i ls, Proper l.text
  | [], i, j, s, h, _, hproper, hloc => by
    cases h
    exact ⟨.refl _, hloc, hproper⟩
  | l :: ls, i, j, s, h, hpre, hproper, hloc => by
    obtain ⟨k, hk, hw⟩ := walk_cons_eq_none.mp h
    obtain ⟨use, written, -, hout, htakes⟩ := Inclusion.takes_of_step hk
    rw [traceInclude_cons hk hout]
    have hproper' : ∀ l ∈ ls, Proper l.text := fun l hl => hproper l (by simp [hl])
    cases htakes with
    | keep other pre count =>
      obtain ⟨halike, hloc', hp⟩ :=
        located_traceInclude hdisk hw (by rwa [pre]) hproper' hloc.2.2
      rw [spread_keep]
      refine ⟨pre ▸ halike, ⟨hloc.1, hloc.2.1, hloc'⟩, fun m hm => ?_⟩
      rcases List.mem_cons.mp hm with rfl | hm
      · exact hproper m (by simp)
      · exact hp m hm
    | insert unmarked names found enters pre count =>
      rename_i name path text lines
      have alike : i.pre.Alike k.pre := pre ▸ i.pre.alike_insert name path
      rw [located_unmarked unmarked] at hloc
      have hname := includedName?_ok names
      have hlines := signFree_enter hpre (hdisk _ _ (Preprocessor.find?_ok found)) enters
      obtain ⟨hblock, hafter⟩ := located_block hname hlines hloc.1
      obtain ⟨halike, hloc', hp⟩ :=
        located_traceInclude hdisk hw (hpre.alike alike) hproper' hloc.2
      rw [spread_block l lines names]
      refine ⟨alike.trans halike, ?_, fun m hm => ?_⟩
      · rw [located_append]
        refine ⟨hblock, ?_⟩
        rw [← spread_block l lines names, text_spread, hafter]
        exact hloc'
      · rcases List.mem_append.mp hm with hm | hm
        · rw [← spread_block l lines names] at hm
          have hmem : m.text ∈ (l.spread (Inclusion.block name lines)).map Sourced.text :=
            List.mem_map_of_mem hm
          rw [text_spread] at hmem
          exact proper_block hname hlines _ hmem
        · exact hp m hm

theorem keeps_fillers {ls : List Sourced} (h : ∀ l ∈ ls, SignFree l.text) :
    List.Forall₂ Keeps ls ((ls.map origin).map fun o => ⟨spliceFiller, o⟩) := by
  rw [List.map_map, List.forall₂_map_right_iff, List.forall₂_same]
  exact fun l hl => Or.inr ⟨h l hl, signFree_spliceFiller, rfl⟩

/-- **Joining** changes lines one by one: the first part becomes the joined line, and each part
taken up becomes a filler. Here `first` and `taken` are the parts so far and `line` is what they
have been joined to. -/
theorem keeps_spliceFrom : ∀ {rest taken : List Sourced} {first line : Sourced},
    Keeps first line → Proper line.text → (∀ l ∈ taken, SignFree l.text) →
    (∀ l ∈ rest, Proper l.text) →
    (∀ t ∈ joinedFrom line.text (rest.map text), Marker.ofLine? t = none) →
    List.Forall₂ Keeps (first :: (taken ++ rest))
      (spliceSourcedFrom line (taken.map origin) rest)
  | [], taken, first, line, hk, hline, htaken, _, _ => by
    rw [List.append_nil, spliceSourcedFrom]
    refine .cons ?_ (keeps_fillers htaken)
    split_ifs with hc
    · have hsign := hline.signFree_of_continues hc
      obtain ⟨hfirst, horigin⟩ := hk.signFree hsign
      exact Or.inr ⟨hfirst, signFree_of_subset (List.dropLast_subset _) hsign, horigin⟩
    · exact hk
  | next :: rest, taken, first, line, hk, hline, htaken, hrest, hjoin => by
    have hrest' : ∀ l ∈ rest, Proper l.text := fun l hl => hrest l (by simp [hl])
    rw [List.map_cons, joinedFrom] at hjoin
    rw [spliceSourcedFrom]
    split_ifs at hjoin ⊢ with hc
    · have hsign := hline.signFree_of_continues hc
      obtain ⟨hfirst, horigin⟩ := hk.signFree hsign
      have hnext : SignFree next.text := (hrest next (by simp)).signFree (hjoin _ (by simp))
      have hjoined : SignFree (line.text.dropLast ++ next.text) :=
        (signFree_of_subset (List.dropLast_subset _) hsign).append hnext
      have htaken' : ∀ l ∈ taken ++ [next], SignFree l.text := by
        intro l hl
        rcases List.mem_append.mp hl with hl | hl
        · exact htaken l hl
        · rwa [List.mem_singleton.mp hl]
      have hkeeps : Keeps first ⟨line.text.dropLast ++ next.text, line.origin⟩ :=
        Or.inr ⟨hfirst, hjoined, horigin⟩
      have ih := keeps_spliceFrom hkeeps (Or.inl hjoined) htaken' hrest'
        (fun t ht => hjoin t (by simp [ht]))
      rwa [List.map_append, List.append_assoc] at ih
    · refine .cons hk (List.rel_append (keeps_fillers htaken) ?_)
      exact keeps_spliceFrom (Or.inl rfl) (hrest next (by simp)) (List.forall_mem_nil _) hrest'
        hjoin

theorem keeps_splice {ls : List Sourced} (hproper : ∀ l ∈ ls, Proper l.text)
    (hjoin : ∀ t ∈ joined (ls.map text), Marker.ofLine? t = none) :
    List.Forall₂ Keeps ls (spliceSourced ls) := by
  cases ls with
  | nil => exact .nil
  | cons l ls =>
    exact keeps_spliceFrom (Or.inl rfl) (hproper l (by simp)) (List.forall_mem_nil _)
      (fun l hl => hproper l (by simp [hl])) hjoin

/-- What a definition stores has no sign, if no replacement and no line has it. -/
theorem signFree_store {p : Preprocessor} {line expansion : Text} {r : Replacement}
    (hpre : p.SignFree) (hline : SignFree line) (hdefines : definition line.code = .ok r)
    (hexpands : Replacement.expandAll (p.predefined ++ p.stored) r.expansion = .ok expansion)
    (words : Text) : ((p.note .trace words).store ⟨r.name, expansion⟩).SignFree := by
  have hcode := signFree_of_subset (Text.code_subset line) hline
  have hnew := signFree_expandAll hpre
    (signFree_of_subset (definition_subset hdefines) hcode) hexpands
  intro q hq
  rw [Preprocessor.mem_store] at hq
  rcases hq with hq | rfl
  · exact hpre q hq
  · exact hnew

/-- An expansion step changes its line alone, and stores only a replacement without the sign. -/
theorem keeps_takes {s t : Expansion} {l : Sourced} {use : Use} {written : Text}
    (htakes : Expansion.Takes s l.text t use written) (hpre : s.pre.SignFree)
    (hl : Proper l.text) : t.pre.SignFree ∧ Keeps l ⟨written, l.origin⟩ := by
  cases htakes with
  | marker marks pre => exact ⟨by rwa [pre], Or.inl rfl⟩
  | skip unmarked pre =>
    exact ⟨by rwa [pre], Or.inr ⟨hl.signFree unmarked, signFree_regionFiller, rfl⟩⟩
  | define unmarked defines expands pre =>
    have hsign := hl.signFree unmarked
    rw [pre]
    exact ⟨signFree_store hpre hsign defines expands _,
      Or.inr ⟨hsign, signFree_defineFiller, rfl⟩⟩
  | expand unmarked active other expands pre =>
    have hsign := hl.signFree unmarked
    have hcode := signFree_expandAll (fun r hr => hpre r (by simp [hr]))
      (signFree_of_subset (Text.code_subset _) hsign) expands
    have hcomment := signFree_of_subset (Text.comment_subset _) hsign
    exact ⟨by rwa [pre], Or.inr ⟨hsign, hcode.append hcomment, rfl⟩⟩

/-- **Expansion** changes lines one by one, and stores only replacements without the sign. -/
theorem keeps_expansion : ∀ {ls : List Sourced} {s t : Expansion},
    walk Expansion.step s (ls.map text) = (t, none) → s.pre.SignFree →
    (∀ l ∈ ls, Proper l.text) →
    t.pre.SignFree ∧ ∃ texts, t.out.toList = s.out.toList ++ texts ∧
      List.Forall₂ Keeps ls (retext ls texts)
  | [], s, t, h, hpre, _ => by
    cases h
    exact ⟨hpre, [], by simp, .nil⟩
  | l :: ls, s, t, h, hpre, hproper => by
    obtain ⟨u, hu, hw⟩ := walk_cons_eq_none.mp h
    obtain ⟨use, written, -, hout, htakes⟩ := Expansion.takes_of_step hu
    obtain ⟨hpre', hfirst⟩ := keeps_takes htakes hpre (hproper l (by simp))
    obtain ⟨hpre'', texts, hout', hkeeps⟩ :=
      keeps_expansion hw hpre' fun l hl => hproper l (by simp [hl])
    exact ⟨hpre'', written :: texts, by rw [hout', hout]; simp, .cons hfirst hkeeps⟩

/-! ### Runs -/

/-- What holds of the lines before each round. -/
structure Sound (p : Preprocessor) (file : Text) (ls : List Sourced) : Prop where
  signFree : p.SignFree
  proper : ∀ l ∈ ls, Proper l.text
  located : Located (.start file) ls

theorem Sound.include {d : Disk} (hdisk : ∀ path text, d.readText path = .ok text → SignFree text)
    {p q : Preprocessor} {file : Text} {ls : List Sourced} {out : List Text} {count : Nat}
    (h : Sound p file ls) (hinc : includeLines d p file (ls.map text) = (q, .ok (out, count))) :
    Sound q file (traceInclude d (.start p file) ls) := by
  obtain ⟨s, hs, rfl, -, -⟩ := includeLines_ok hinc
  obtain ⟨halike, hloc, hproper⟩ := located_traceInclude hdisk hs h.signFree h.proper h.located
  exact ⟨h.signFree.alike halike, hproper, hloc⟩

/-- Joining and expanding change lines one by one. -/
theorem Sound.keeps {p q : Preprocessor} {file : Text} {ls : List Sourced} {texts : List Text}
    (h : Sound p file ls) (hjoin : ∀ t ∈ joined (ls.map text), Marker.ofLine? t = none)
    (hexp : expandLines p file ((spliceSourced ls).map text) = (q, .ok texts)) :
    q.SignFree ∧ List.Forall₂ Keeps ls (spliceSourced ls) ∧
      List.Forall₂ Keeps (spliceSourced ls) (retext (spliceSourced ls) texts) := by
  have hsplice := keeps_splice h.proper hjoin
  obtain ⟨s, hs, rfl, rfl⟩ := expandLines_ok hexp
  obtain ⟨hsign, texts, hout, hkeeps⟩ :=
    keeps_expansion hs h.signFree (proper_keeps hsplice h.proper)
  have hout : s.out.toList = texts := hout
  rw [hout]
  exact ⟨hsign, hsplice, hkeeps⟩

theorem Sound.expand {p q : Preprocessor} {file : Text} {ls : List Sourced} {texts : List Text}
    (h : Sound p file ls) (hjoin : ∀ t ∈ joined (ls.map text), Marker.ofLine? t = none)
    (hexp : expandLines p file ((spliceSourced ls).map text) = (q, .ok texts)) :
    Sound q file (retext (spliceSourced ls) texts) := by
  obtain ⟨hsign, hsplice, hkeeps⟩ := h.keeps hjoin hexp
  exact ⟨hsign, proper_keeps hkeeps (proper_keeps hsplice h.proper),
    (h.located.keeps hsplice).keeps hkeeps⟩

theorem Sound.announce {p : Preprocessor} {file : Text} {ls : List Sourced} (left : Nat)
    (h : Sound p file ls) : Sound (p.announce left) file ls :=
  ⟨h.signFree.alike (p.alike_note _ _), h.proper, h.located⟩

end Mcs51.Source
