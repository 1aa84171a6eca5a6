import Mathlib.Data.List.Forall2
import Mcs51.Assembly
import Mcs51.Proofs.Source.Settling

/-! # Comments do not matter

Two lines are `Twins` if they agree up to their first semicolon. Two texts are twins if their lines
are, one by one, and two disks are if the same things stand at the same places, with twins for files
(`TwinDisks`). `assembleSource_of_twins` says that twins give the same outcome, down to the notes.

Lines carry their comments through every round, so the two runs have different lines all the way
to the end. They stay `Like` each other: the same marker, or twins. Whatever a step looks at is the
marker on a line or its code (`Like.marks`, `Like.code`), so both runs take the same step; and where
a step changes the code of a line, what it puts there is the same in both, with the old comment
behind it (`Twins.recode`). A backslash at the end of a comment would join lines, and a marker is
read from the whole of its line, so neither sign may stand in a line (`Quiet`). -/

namespace Mcs51

/-! ### Results and walks side by side -/

/-- The same error, or results that are related. -/
def Agree {ε α β : Type} (R : α → β → Prop) (x : Except ε α) (y : Except ε β) : Prop :=
  (∃ e, x = .error e ∧ y = .error e) ∨ ∃ a b, x = .ok a ∧ y = .ok b ∧ R a b

theorem Agree.error {ε α β : Type} {R : α → β → Prop} (e : ε) :
    Agree R (.error e : Except ε α) (.error e) :=
  Or.inl ⟨e, rfl, rfl⟩

theorem Agree.ok {ε α β : Type} {R : α → β → Prop} {a : α} {b : β} (h : R a b) :
    Agree R (.ok a : Except ε α) (.ok b) :=
  Or.inr ⟨a, b, rfl, rfl, h⟩

theorem Agree.mapM {ε α β γ δ : Type} {R : α → β → Prop} {S : γ → δ → Prop} {f : α → Except ε γ}
    {g : β → Except ε δ} (h : ∀ a b, R a b → Agree S (f a) (g b)) {as : List α} {bs : List β}
    (has : List.Forall₂ R as bs) : Agree (List.Forall₂ S) (as.mapM f) (bs.mapM g) := by
  induction has with
  | nil => exact .ok .nil
  | @cons a b as bs hab _ ih =>
    rw [List.mapM_cons, List.mapM_cons]
    rcases h a b hab with ⟨e, hf, hg⟩ | ⟨c, d, hf, hg, hcd⟩
    · rw [hf, hg]
      exact .error e
    · rcases ih with ⟨e, has, hbs⟩ | ⟨cs, ds, has, hbs, hrest⟩
      · rw [hf, hg, has, hbs]
        exact .error e
      · rw [hf, hg, has, hbs]
        exact .ok (.cons hcd hrest)

/-- Steps that keep two states related and stop for the same reasons make such walks. -/
theorem walk_related {σ τ α β : Type} {step : σ → α → σ × Option Stop}
    {step' : τ → β → τ × Option Stop} {R : σ → τ → Prop} {S : α → β → Prop}
    (keeps : ∀ s t a b, R s t → S a b →
      R (step s a).1 (step' t b).1 ∧ (step s a).2 = (step' t b).2)
    {as : List α} {bs : List β} (h : List.Forall₂ S as bs) {s : σ} {t : τ} (hst : R s t) :
    ∃ s' t' stop, walk step s as = (s', stop) ∧ walk step' t bs = (t', stop) ∧ R s' t' := by
  induction h generalizing s t with
  | nil => exact ⟨s, t, none, rfl, rfl, hst⟩
  | @cons a b as bs hab _ ih =>
    obtain ⟨hstates, hstops⟩ := keeps s t a b hst hab
    obtain ⟨s', stop, hs⟩ : ∃ s' stop, step s a = (s', stop) := ⟨_, _, rfl⟩
    obtain ⟨t', stop', ht⟩ : ∃ t' stop', step' t b = (t', stop') := ⟨_, _, rfl⟩
    rw [hs, ht] at hstates hstops
    obtain rfl : stop = stop' := hstops
    rw [walk, walk, hs, ht]
    cases stop with
    | none => exact ih hstates
    | some e => exact ⟨s', t', some e, rfl, rfl, hstates⟩

namespace Source

/-! ### Twins -/

/-- A text that neither joins a line to the next one nor makes a marker. -/
def Quiet (t : Text) : Prop := ∀ c ∈ t, c ≠ '\\' ∧ c ≠ markerSign

/-- Lines that differ in their comments at most. -/
structure Twins (a b : Text) : Prop where
  code : a.code = b.code
  left : Quiet a
  right : Quiet b

instance (t : Text) : Decidable (Quiet t) :=
  decidable_of_iff (t.all (fun c => c != '\\' && c != markerSign) = true) (by simp [Quiet])

instance : DecidableRel Twins := fun a b =>
  decidable_of_iff (a.code = b.code ∧ Quiet a ∧ Quiet b)
    ⟨fun h => ⟨h.1, h.2.1, h.2.2⟩, fun h => ⟨h.code, h.left, h.right⟩⟩

/-- Texts that differ in their comments at most. -/
def TwinTexts (a b : Text) : Prop := List.Forall₂ Twins a.lines b.lines

instance : DecidableRel TwinTexts := fun a b =>
  inferInstanceAs (Decidable (List.Forall₂ Twins a.lines b.lines))

/-- What stands at one place of two disks that differ in comments at most. -/
def TwinNodes : Option Node → Option Node → Prop
  | none, none => True
  | some .directory, some .directory => True
  | some (.file a), some (.file b) => TwinTexts (Text.decodeLossy a) (Text.decodeLossy b)
  | _, _ => False

/-- Disks that differ in the comments of their files at most. -/
def TwinDisks (d e : Disk) : Prop := ∀ l, TwinNodes (d.node? l) (e.node? l)

theorem quiet_isIdentChar (c : Char) (h : Text.isIdentChar c = true) :
    c ≠ '\\' ∧ c ≠ markerSign := by
  constructor <;> rintro rfl <;> exact absurd h (by decide)

theorem Quiet.subset {a b : Text} (h : a ⊆ b) (hb : Quiet b) : Quiet a := fun c hc => hb c (h hc)

theorem Quiet.unmarked {t : Text} (h : Quiet t) : Marker.ofLine? t = none :=
  SignFree.unmarked fun hmem => (h _ hmem).2 rfl

theorem Quiet.unjoined {t : Text} (h : Quiet t) : continues t = false := by
  by_contra hc
  have hlast : t.getLast? = some '\\' := by simpa [continues] using hc
  exact (h '\\' (List.mem_of_getLast? hlast)).1 rfl

/-- A new code before the old comments makes twins of twins, also if it holds a semicolon. -/
theorem Twins.recode {a b code : Text} (h : Twins a b) (hcode : Quiet code) :
    Twins (code ++ a.comment) (code ++ b.comment) := by
  refine ⟨?_, fun c hc => ?_, fun c hc => ?_⟩
  · by_cases hmem : ';' ∈ code
    · rw [(Text.parts_append_of_mem hmem _).1, (Text.parts_append_of_mem hmem _).1]
    · rw [(Text.code_of_notMem hmem a).1, (Text.code_of_notMem hmem b).1]
  · rcases List.mem_append.mp hc with hc | hc
    · exact hcode c hc
    · exact h.left c (a.comment_subset hc)
  · rcases List.mem_append.mp hc with hc | hc
    · exact hcode c hc
    · exact h.right c (b.comment_subset hc)

/-- A filler is its own twin. -/
theorem twins_filler : ∀ filler ∈ [includeFiller, defineFiller, regionFiller],
    Twins filler filler := by
  decide

/-! ### Disks -/

theorem twinDisks_put {d e : Disk} (h : TwinDisks d e) (l : Location) {a b : List UInt8}
    (hab : TwinTexts (Text.decodeLossy a) (Text.decodeLossy b)) :
    TwinDisks (d.put l (.file a)) (e.put l (.file b)) := by
  intro k
  by_cases hk : k.names = []
  · simp [Disk.node?, hk, TwinNodes]
  · rw [Disk.node?_put d l _ hk, Disk.node?_put e l _ hk]
    split_ifs
    · exact hab
    · exact h k

theorem twinDisks_empty : TwinDisks .empty .empty := by
  intro l
  by_cases hl : l.names = []
  · simp [Disk.node?, hl, TwinNodes]
  · simp [Disk.node?, hl, Disk.empty, TwinNodes]

namespace TwinDisks

variable {d e : Disk}

theorem followAll (h : TwinDisks d e) : ∀ (pieces : List Text) (l : Location),
    d.followAll l pieces = e.followAll l pieces
  | [], _ => rfl
  | piece :: pieces, l => by
    have hsearch : d.unsearchable? l = e.unsearchable? l := by
      have hl := h l
      unfold Disk.unsearchable?
      generalize d.node? l = m at hl ⊢
      generalize e.node? l = n at hl ⊢
      unfold TwinNodes at hl
      split at hl <;> first | rfl | exact hl.elim
    have hfollow : d.follow l piece = e.follow l piece := by
      rw [Disk.follow, Disk.follow, hsearch]
    rw [Disk.followAll, Disk.followAll, hfollow]
    split
    · rfl
    · exact followAll h pieces _

/-- A path leads to twins, or nowhere for the same reason. -/
theorem readText (h : TwinDisks d e) (path : Text) :
    Agree TwinTexts (d.readText path) (e.readText path) := by
  unfold Disk.readText Disk.read Disk.resolve
  cases Disk.refused? path with
  | some r => exact .error r
  | none =>
    simp only [h.followAll]
    cases e.followAll (Location.start path) (Path.pieces path) with
    | error r => exact .error r
    | ok l =>
      have hl := h l
      simp only
      generalize d.node? l = m at hl ⊢
      generalize e.node? l = n at hl ⊢
      unfold TwinNodes at hl
      split at hl
      · exact .error _
      · exact .error _
      · simp only
        split_ifs
        · exact .error _
        · exact .ok hl
      · exact hl.elim

/-- A name leads to twins under the same path, or to no file. -/
theorem find? (h : TwinDisks d e) (p : Preprocessor) (name : Text) :
    (p.find? d name = none ∧ p.find? e name = none) ∨
      ∃ path a b, p.find? d name = some (path, a) ∧ p.find? e name = some (path, b) ∧
        TwinTexts a b := by
  unfold Preprocessor.find?
  induction p.candidates name with
  | nil => exact Or.inl ⟨rfl, rfl⟩
  | cons path paths ih =>
    rw [List.findSome?_cons, List.findSome?_cons]
    rcases h.readText path with ⟨r, hd, he⟩ | ⟨a, b, hd, he, hab⟩
    · rw [hd, he]
      exact ih
    · rw [hd, he]
      exact Or.inr ⟨path, a, b, rfl, rfl, hab⟩

end TwinDisks

/-! ### Lines of a stream -/

/-- Lines that a step takes alike: the same marker, or twins. -/
inductive Like : Text → Text → Prop
  | marker {m : Marker} (reads : Marker.ofLine? m.line = some m) : Like m.line m.line
  | twins {a b : Text} (twins : Twins a b) : Like a b

namespace Like

variable {a b : Text}

theorem marks (h : Like a b) : Marker.ofLine? a = Marker.ofLine? b := by
  cases h with
  | marker reads => rfl
  | twins twins => rw [twins.left.unmarked, twins.right.unmarked]

theorem code (h : Like a b) : a.code = b.code := by
  cases h with
  | marker reads => rfl
  | twins twins => exact twins.code

theorem unjoined (h : Like a b) : continues a = false ∧ continues b = false := by
  cases h with
  | marker reads => exact ⟨continues_marker _, continues_marker _⟩
  | twins twins => exact ⟨twins.left.unjoined, twins.right.unjoined⟩

theorem twins_of_unmarked (h : Like a b) (hm : Marker.ofLine? b = none) : Twins a b := by
  cases h with
  | marker reads =>
    rw [hm] at reads
    cases reads
  | twins twins => exact twins

theorem step_stack (h : Like a b) (s : FileStack) : s.step a = s.step b := by
  rw [FileStack.step, FileStack.step, h.marks]

theorem step_reader (h : Like a b) (r : Reader) : r.step a = r.step b := by
  rw [Reader.step, Reader.step, h.step_stack, h.code]

end Like

theorem splice_of_like {as bs : List Text} (h : List.Forall₂ Like as bs) :
    splice as = as ∧ splice bs = bs := by
  have hall : (∀ a ∈ as, continues a = false) ∧ ∀ b ∈ bs, continues b = false := by
    induction h with
    | nil => simp
    | cons hab _ ih =>
      obtain ⟨ha, hb⟩ := hab.unjoined
      simp only [List.forall_mem_cons]
      exact ⟨⟨ha, ih.1⟩, hb, ih.2⟩
  exact ⟨splice_of_unjoined hall.1, splice_of_unjoined hall.2⟩

theorem needsPreprocessing_of_like {as bs : List Text} (h : List.Forall₂ Like as bs) :
    needsPreprocessing as = needsPreprocessing bs := by
  unfold needsPreprocessing
  induction h with
  | nil => rfl
  | cons hab _ ih => rw [List.any_cons, List.any_cons, hab.marks, hab.code, ih]

/-! ### Inclusion -/

/-- No replacement brings in a backslash or a sign. -/
def Preprocessor.Quiet (p : Preprocessor) : Prop :=
  ∀ r ∈ p.predefined ++ p.stored, Source.Quiet r.expansion

theorem Preprocessor.Quiet.alike {p q : Preprocessor} (h : p.Quiet) (ha : p.Alike q) :
    q.Quiet := by
  unfold Quiet
  rw [ha.predefined, ha.stored]
  exact h

theorem quiet_expandAll {rs : List Replacement} {text t : Text}
    (hrs : ∀ r ∈ rs, Quiet r.expansion) (ht : Quiet text)
    (h : Replacement.expandAll rs text = .ok t) : Quiet t :=
  Replacement.forall_expandAll quiet_isIdentChar hrs ht h

/-- Twins enter a stream as twins. -/
theorem Twins.enterLine {p : Preprocessor} (hp : p.Quiet) (a b : Text) (h : Twins a b) :
    Agree Twins (p.enterLine a) (p.enterLine b) := by
  unfold Preprocessor.enterLine
  rw [h.code]
  split_ifs
  · exact .ok h
  · cases hexp : Replacement.expandAll p.predefined b.code with
    | error f => exact .error f
    | ok code =>
      have hcode : Quiet code := quiet_expandAll (fun r hr => hp r (by simp [hr]))
        (h.right.subset b.code_subset) hexp
      exact .ok (h.recode hcode)

theorem TwinTexts.enter {p : Preprocessor} {a b : Text} (h : TwinTexts a b) (hp : p.Quiet) :
    Agree (List.Forall₂ Like) (p.enter a) (p.enter b) := by
  rcases Agree.mapM (Twins.enterLine hp) h with ⟨f, ha, hb⟩ | ⟨as, bs, ha, hb, hlines⟩
  · exact Or.inl ⟨f, ha, hb⟩
  · exact Or.inr ⟨as, bs, ha, hb, hlines.imp fun _ _ => .twins⟩

/-- What the preprocessor makes of related things: the same error, or results that are related, and
the same of itself in either case. -/
def Beside {α : Type} (R : α → α → Prop) (x y : Preprocessor × Except Stop α) : Prop :=
  (∃ q e, x = (q, .error e) ∧ y = (q, .error e)) ∨
    ∃ q a b, x = (q, .ok a) ∧ y = (q, .ok b) ∧ q.Quiet ∧ R a b

/-- Inclusions that differ in the comments of what they have written at most. -/
structure Inclusion.Like (s t : Inclusion) : Prop where
  pre : s.pre = t.pre
  reader : s.reader = t.reader
  count : s.count = t.count
  out : List.Forall₂ Source.Like s.out.toList t.out.toList
  quiet : t.pre.Quiet

namespace Inclusion

variable {d e : Disk} {s t : Inclusion} {a b : Text}

theorem Like.keep (h : s.Like t) (hab : Source.Like a b) : (s.keep a).Like (t.keep b) := by
  refine ⟨h.pre, h.reader, h.count, ?_, h.quiet⟩
  simp only [Inclusion.keep, Array.toList_push]
  exact List.rel_append h.out (.cons hab .nil)

theorem Like.insert (h : s.Like t) (hdisks : TwinDisks d e) {name : Text}
    (hname : name ≠ [] ∧ ∀ c ∈ name, Text.isBlank c = false) :
    (s.insert d name).1.Like (t.insert e name).1 ∧
      (s.insert d name).2 = (t.insert e name).2 := by
  obtain ⟨pre, reader, out, count⟩ := s
  obtain ⟨pre', reader', out', count'⟩ := t
  obtain ⟨rfl, rfl, rfl, hout, hquiet⟩ := h
  have hasked : (pre.ask name).Quiet := hquiet.alike (pre.alike_ask name)
  unfold Inclusion.insert
  simp only
  rcases hdisks.find? (pre.ask name) name with ⟨hd, he⟩ | ⟨path, a, b, hd, he, hab⟩
  · rw [hd, he]
    exact ⟨⟨rfl, rfl, rfl, hout, hasked⟩, rfl⟩
  · rw [hd, he]
    have htaken : ((pre.ask name).takeIn path).Quiet := hasked.alike (Preprocessor.alike_takeIn _ _)
    simp only
    rcases hab.enter htaken with ⟨f, hd, he⟩ | ⟨as, bs, hd, he, hlines⟩
    · rw [hd, he]
      exact ⟨⟨rfl, rfl, rfl, hout, htaken⟩, rfl⟩
    · rw [hd, he]
      refine ⟨⟨rfl, rfl, rfl, ?_, htaken⟩, rfl⟩
      have hfiller : Source.Like includeFiller includeFiller :=
        .twins (twins_filler _ (by simp))
      have henter := Source.Like.marker (Marker.ofLine?_line (m := .enter name) hname.1 hname.2)
      have hleave := Source.Like.marker (Marker.ofLine?_line (m := .leave name) hname.1 hname.2)
      simp only [Array.toList_push, Array.toList_appendList, List.append_assoc,
        List.singleton_append]
      exact List.rel_append hout (.cons hfiller (.cons henter (List.rel_append hlines
        (.cons hleave .nil))))

theorem Like.active (h : s.Like t) (hdisks : TwinDisks d e) (hab : Source.Like a b) :
    (s.active d a).1.Like (t.active e b).1 ∧ (s.active d a).2 = (t.active e b).2 := by
  unfold Inclusion.active
  rw [hab.code]
  by_cases hdefine : b.code.mentions defineWord = true
  · rw [if_pos hdefine, if_pos hdefine]
    cases definition b.code with
    | error p => exact ⟨h.keep hab, rfl⟩
    | ok r =>
      have hreader : s.reader.define r.name = t.reader.define r.name := by rw [h.reader]
      refine ⟨Like.keep ⟨h.pre, hreader, h.count, h.out, h.quiet⟩ hab, rfl⟩
  · rw [if_neg hdefine, if_neg hdefine]
    by_cases hinclude : b.code.mentions includeWord = true
    · rw [if_pos hinclude, if_pos hinclude]
      cases hname : includedName? b.code with
      | none => exact ⟨h, by rw [h.reader]⟩
      | some name => exact h.insert hdisks (includedName?_ok hname)
    · rw [if_neg hinclude, if_neg hinclude]
      exact ⟨h.keep hab, rfl⟩

/-- One line, with its comment or another. -/
theorem Like.step (hdisks : TwinDisks d e) (s t : Inclusion) (a b : Text) (h : s.Like t)
    (hab : Source.Like a b) :
    (s.step d a).1.Like (t.step e b).1 ∧ (s.step d a).2 = (t.step e b).2 := by
  unfold Inclusion.step
  rw [h.reader, hab.step_reader]
  obtain ⟨reader, role⟩ := t.reader.step b
  have hread : Inclusion.Like { s with reader := reader } { t with reader := reader } :=
    ⟨h.pre, rfl, h.count, h.out, h.quiet⟩
  cases role with
  | error stop => exact ⟨hread, rfl⟩
  | ok role =>
    cases role with
    | active => exact hread.active hdisks hab
    | marker => exact ⟨hread.keep hab, rfl⟩
    | inactive => exact ⟨hread.keep hab, rfl⟩

end Inclusion

variable {d e : Disk} {p : Preprocessor} {as bs : List Text}

/-- Inclusion of lines and of like lines. -/
theorem includeLines_of_like (hdisks : TwinDisks d e) (hp : p.Quiet) (file : Text)
    (h : List.Forall₂ Like as bs) :
    Beside (fun x y => List.Forall₂ Like x.1 y.1 ∧ x.2 = y.2) (includeLines d p file as)
      (includeLines e p file bs) := by
  have hstart : (Inclusion.start p file).Like (.start p file) := ⟨rfl, rfl, rfl, .nil, hp⟩
  obtain ⟨s, t, stop, hs, ht, hlike⟩ := walk_related (Inclusion.Like.step hdisks) h hstart
  rw [includeLines, includeLines, hs, ht]
  cases stop with
  | none =>
    simp only [hlike.pre]
    exact Or.inr ⟨t.pre, _, _, rfl, rfl, hlike.quiet, hlike.out, hlike.count⟩
  | some stop =>
    simp only [hlike.pre]
    exact Or.inl ⟨t.pre, stop, rfl, rfl⟩

/-! ### Expansion -/

/-- Expansions that differ in the comments of what they have written at most. -/
structure Expansion.Like (s t : Expansion) : Prop where
  pre : s.pre = t.pre
  reader : s.reader = t.reader
  out : List.Forall₂ Source.Like s.out.toList t.out.toList
  quiet : t.pre.Quiet

namespace Expansion

variable {s t : Expansion} {a b : Text}

theorem Like.keep (h : s.Like t) (hab : Source.Like a b) : (s.keep a).Like (t.keep b) := by
  refine ⟨h.pre, h.reader, ?_, h.quiet⟩
  simp only [Expansion.keep, Array.toList_push]
  exact List.rel_append h.out (.cons hab .nil)

theorem Like.define (h : s.Like t) {code : Text} (hcode : Source.Quiet code) :
    (s.define code).1.Like (t.define code).1 ∧ (s.define code).2 = (t.define code).2 := by
  obtain ⟨pre, reader, out⟩ := s
  obtain ⟨pre', reader', out'⟩ := t
  obtain ⟨rfl, rfl, hout, hquiet⟩ := h
  unfold Expansion.define
  cases hr : definition code with
  | error p => exact ⟨⟨rfl, rfl, hout, hquiet⟩, rfl⟩
  | ok r =>
    simp only
    cases hexp : Replacement.expandAll (pre.predefined ++ pre.stored) r.expansion with
    | error f => exact ⟨⟨rfl, rfl, hout, hquiet⟩, rfl⟩
    | ok expansion =>
      have hnew : Source.Quiet expansion :=
        quiet_expandAll hquiet (hcode.subset (definition_subset hr)) hexp
      refine ⟨Like.keep ⟨rfl, rfl, hout, fun q hq => ?_⟩
        (.twins (twins_filler _ (by simp))), rfl⟩
      rcases Preprocessor.mem_store.mp hq with hq | rfl
      · exact hquiet q hq
      · exact hnew

theorem Like.active (h : s.Like t) (hab : Twins a b) :
    (s.active a).1.Like (t.active b).1 ∧ (s.active a).2 = (t.active b).2 := by
  have hcode : Source.Quiet b.code := hab.right.subset b.code_subset
  unfold Expansion.active
  rw [hab.code]
  split_ifs
  · exact h.define hcode
  · rw [h.pre]
    cases hexp : Replacement.expandAll t.pre.stored b.code with
    | error f => exact ⟨h, rfl⟩
    | ok code =>
      have hnew : Source.Quiet code :=
        quiet_expandAll (fun r hr => h.quiet r (by simp [hr])) hcode hexp
      exact ⟨h.keep (.twins (hab.recode hnew)), rfl⟩

/-- One line, with its comment or another. -/
theorem Like.step (s t : Expansion) (a b : Text) (h : s.Like t) (hab : Source.Like a b) :
    (s.step a).1.Like (t.step b).1 ∧ (s.step a).2 = (t.step b).2 := by
  unfold Expansion.step
  rw [h.reader, hab.step_reader]
  cases hr : t.reader.step b with
  | mk reader role =>
    have hread : Expansion.Like { s with reader := reader } { t with reader := reader } :=
      ⟨h.pre, rfl, h.out, h.quiet⟩
    cases role with
    | error stop => exact ⟨hread, rfl⟩
    | ok role =>
      cases role with
      | active =>
        have hm := Reader.unmarked_of_step hr (by decide)
        exact hread.active (hab.twins_of_unmarked hm)
      | marker => exact ⟨hread.keep hab, rfl⟩
      | inactive => exact ⟨hread.keep (.twins (twins_filler _ (by simp))), rfl⟩

end Expansion

/-- Expansion of lines and of like lines. -/
theorem expandLines_of_like (hp : p.Quiet) (file : Text) (h : List.Forall₂ Like as bs) :
    Beside (List.Forall₂ Like) (expandLines p file as) (expandLines p file bs) := by
  have hstart : (Expansion.start p file).Like (.start p file) := ⟨rfl, rfl, .nil, hp⟩
  obtain ⟨s, t, stop, hs, ht, hlike⟩ := walk_related Expansion.Like.step h hstart
  rw [expandLines, expandLines, hs, ht]
  cases stop with
  | none =>
    simp only [hlike.pre, hlike.reader]
    split_ifs
    · exact Or.inr ⟨t.pre, _, _, rfl, rfl, hlike.quiet, hlike.out⟩
    · exact Or.inl ⟨t.pre, _, rfl, rfl⟩
  | some stop =>
    simp only [hlike.pre]
    exact Or.inl ⟨t.pre, stop, rfl, rfl⟩

/-! ### Rounds -/

/-- Rounds over lines and over like lines. -/
theorem rounds_of_like (hdisks : TwinDisks d e) (file : Text) : ∀ (left : Nat) {p : Preprocessor}
    {as bs : List Text}, p.Quiet → List.Forall₂ Like as bs →
      Beside (List.Forall₂ Like) (Preprocessor.rounds d file left p as)
        (Preprocessor.rounds e file left p bs)
  | 0, p, as, bs, _, _ => Or.inl ⟨p, _, rfl, rfl⟩
  | left + 1, p, as, bs, hp, h => by
    have hannounced : (p.announce left).Quiet := hp.alike (p.alike_note _ _)
    rw [Preprocessor.rounds, Preprocessor.rounds]
    rcases includeLines_of_like hdisks hannounced file h with
      ⟨q, stop, hd, he⟩ | ⟨q, ⟨as, count⟩, ⟨bs, count'⟩, hd, he, hquiet, hlines, hcount⟩
    · rw [hd, he]
      exact Or.inl ⟨q, stop, rfl, rfl⟩
    · obtain rfl : count = count' := hcount
      rw [hd, he]
      simp only
      split_ifs
      · exact rounds_of_like hdisks file left hquiet hlines
      · rw [(splice_of_like hlines).1, (splice_of_like hlines).2]
        rcases expandLines_of_like hquiet file hlines with
          ⟨r, stop, has, hbs⟩ | ⟨r, as, bs, has, hbs, hquiet, hlines⟩
        · rw [has, hbs]
          exact Or.inl ⟨r, stop, rfl, rfl⟩
        · rw [has, hbs]
          simp only [needsPreprocessing_of_like hlines]
          split_ifs
          · exact rounds_of_like hdisks file left hquiet hlines
          · exact Or.inr ⟨_, as, bs, rfl, rfl, hquiet.alike (r.alike_note _ _), hlines⟩

/-- Twins are preprocessed alike. -/
theorem processText_of_twins (hdisks : TwinDisks d e) (hp : p.Quiet) (file : Text) {a b : Text}
    (h : TwinTexts a b) :
    Beside (List.Forall₂ Like) (p.processText d file a) (p.processText e file b) := by
  rw [Preprocessor.processText, Preprocessor.processText]
  rcases h.enter hp with ⟨f, ha, hb⟩ | ⟨as, bs, ha, hb, hlines⟩
  · rw [ha, hb]
    exact Or.inl ⟨p, _, rfl, rfl⟩
  · rw [ha, hb]
    exact rounds_of_like hdisks file p.maxRounds hp hlines

end Source

open Object Source

/-! ### Assembly -/

/-- A session takes a line by its code. -/
theorem Source.Like.step_session {a b : Text} (h : Like a b) (s : Session) :
    s.step a = s.step b := by
  have hread : Statement.ofLine? a = Statement.ofLine? b := by
    rw [Statement.ofLine?, Statement.ofLine?, h.code]
  unfold Session.step Session.obey
  rw [h.step_stack, hread]

theorem feed_of_like {as bs : List Text} (h : List.Forall₂ Like as bs) (s : Session) :
    s.feed as = s.feed bs := by
  have hwalk : walk Session.step s as = walk Session.step s bs := by
    have hkeeps : ∀ (s t : Session) (a b : Text), s = t → Like a b →
        (s.step a).1 = (t.step b).1 ∧ (s.step a).2 = (t.step b).2 := by
      rintro s _ a b rfl hab
      rw [hab.step_session]
      exact ⟨rfl, rfl⟩
    obtain ⟨t, t', stop, ht, ht', rfl⟩ := walk_related hkeeps h (rfl : s = s)
    rw [ht, ht']
  rw [Session.feed, Session.feed, hwalk]

/-- **Comments do not matter.** Assembling one of two sources that differ in their comments at most,
on one of two disks whose files do, gives the same outcome as assembling the other on the other:
the same bytes, symbols and included files, or the same error at the same position, with the same
notes. Lines and the texts of predefined names are without backslashes and marker signs. -/
theorem assembleSource_of_twins {d e : Disk} {settings : Settings} {a b : Text} (name : Text)
    (hdisks : TwinDisks d e) (htexts : TwinTexts a b)
    (hdefines : ∀ p ∈ settings.defines, Quiet p.2) :
    assembleSource d settings name a = assembleSource e settings name b := by
  have hp : (Preprocessor.start settings).Quiet := by
    intro r hr
    have hr : r ∈ settings.defines.map fun p => (⟨p.1, p.2⟩ : Replacement) := by
      simpa [Preprocessor.start] using hr
    obtain ⟨p, hp, rfl⟩ := List.mem_map.mp hr
    exact hdefines p hp
  unfold assembleSource assembleWith
  simp only
  generalize hq : ({ Preprocessor.start settings with journal := _ } : Preprocessor) = q
  have hquiet : q.Quiet := hq ▸ hp
  rcases processText_of_twins hdisks hquiet name htexts with
    ⟨r, stop, ha, hb⟩ | ⟨r, as, bs, ha, hb, -, hlines⟩
  · rw [ha, hb]
  · rw [ha, hb]
    simp only [assembleLines, feed_of_like hlines]

/-- A disk with one file, which defines a port. -/
def portDisk (line : String) : Disk :=
  Disk.empty.put (Location.working.child "port.inc".toList) (.file (Text.encode line.toList))

set_option maxRecDepth 4000 in
/-- A source with and without its comments, and so its one file. A predefined text has a semicolon
of its own. -/
theorem assembleSource_blink_of_twins :
    let settings : Settings := { defines := [("MASK".toList, "#0F ; low bits".toList)] }
    let bare := "#include <port.inc>\nxrl PORT, MASK\n".toList
    let noted := "#include <port.inc>;#define\nxrl PORT, MASK; MASK: #endif\n".toList
    let outcome := assembleSource (portDisk "#define PORT P1\n") settings "m.asm".toList bare
    outcome = assembleSource (portDisk "#define PORT P1;P2\n") settings "m.asm".toList noted ∧
      outcome.result.toOption.map (fun a => a.image) = some [(0, 0x63), (1, 0x90), (2, 0x0F)] := by
  intro settings bare noted outcome
  refine ⟨assembleSource_of_twins _ (twinDisks_put twinDisks_empty _ ?_) ?_ ?_, ?_⟩
  · decide
  · decide
  · decide
  · decide +kernel

end Mcs51
