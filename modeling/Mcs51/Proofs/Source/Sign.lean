import Mcs51.Proofs.Source.Joining
import Mcs51.Proofs.Source.Passes
import Mcs51.Proofs.Text.Parts

/-! # The sign of a marker

A line that starts with the sign of a marker may be taken for one. Lines without the sign never are
(`SignFree.unmarked`), and the sign comes into a stream only from a file, from a replacement or with
a marker: cutting, trimming and replacing keep it out. -/

namespace Mcs51.Source

/-! ### Markers and other lines -/

/-- A text without the sign of a marker. -/
def SignFree (text : Text) : Prop := markerSign ∉ text

/-- A line that is a marker, or has no sign of one. -/
def Proper (text : Text) : Prop :=
  SignFree text ∨ ∃ m : Marker, text = m.line ∧ Marker.ofLine? text = some m

theorem signFree_includeFiller : SignFree includeFiller := by unfold SignFree; decide

theorem signFree_defineFiller : SignFree defineFiller := by unfold SignFree; decide

theorem signFree_regionFiller : SignFree regionFiller := by unfold SignFree; decide

theorem signFree_spliceFiller : SignFree spliceFiller := by unfold SignFree; decide

theorem unmarked_of_head {line : Text} (h : line.head? ≠ some markerSign) :
    Marker.ofLine? line = none := by
  cases line with
  | nil => rfl
  | cons c rest => simp [Marker.ofLine?, show c ≠ markerSign by simpa using h]

theorem SignFree.unmarked {text : Text} (h : SignFree text) : Marker.ofLine? text = none :=
  unmarked_of_head fun hhead => h (List.mem_of_head? hhead)

theorem Proper.signFree {text : Text} (h : Proper text) (hm : Marker.ofLine? text = none) :
    SignFree text := by
  rcases h with h | ⟨m, -, hm'⟩
  · exact h
  · rw [hm] at hm'
    simp at hm'

/-- A marker never goes on in the next line. -/
theorem continues_marker (m : Marker) : continues m.line = false := by
  cases m with
  | enter name =>
    have hline : (Marker.enter name).line =
        (markerSign :: ' ' :: name ++ [' ']) ++ Marker.enterTag := by
      simp [Marker.line]
    rw [hline, continues_append _ (by decide)]
    decide
  | leave name =>
    have hline : (Marker.leave name).line =
        (markerSign :: ' ' :: name ++ [' ']) ++ Marker.leaveTag := by
      simp [Marker.line]
    rw [hline, continues_append _ (by decide)]
    decide

theorem Proper.signFree_of_continues {text : Text} (h : Proper text) (hc : continues text = true) :
    SignFree text := by
  rcases h with h | ⟨m, rfl, -⟩
  · exact h
  · rw [continues_marker] at hc
    simp at hc

/-- The lines that take the place of one count for one. -/
theorem Inclusion.counts_block {k : Nat} {name : Text} {lines : List Text}
    (hname : name ≠ [] ∧ ∀ c ∈ name, Text.isBlank c = false) (h : FileStack.Counts k lines) :
    FileStack.Counts 1 (block name lines) :=
  (FileStack.counts_line signFree_includeFiller.unmarked).append (h.bracket hname.1 hname.2)

/-! ### The sign of a marker stays out -/

theorem signFree_of_subset {a b : Text} (h : a ⊆ b) (hb : SignFree b) : SignFree a :=
  fun ha => hb (h ha)

theorem SignFree.append {a b : Text} (ha : SignFree a) (hb : SignFree b) : SignFree (a ++ b) := by
  simp only [SignFree, List.mem_append, not_or]
  exact ⟨ha, hb⟩

/-- No file on the disk has the sign of a marker. -/
def signFreeDisk (d : Disk) : Bool :=
  d.nodes.all fun n => match n.2 with
    | .file bytes => !(Text.decodeLossy bytes).contains markerSign
    | .directory => true

theorem signFree_of_signFreeDisk {d : Disk} (h : signFreeDisk d = true) (path text : Text)
    (hread : d.readText path = .ok text) : SignFree text := by
  obtain ⟨l, bytes, hmem, rfl⟩ := Disk.mem_of_readText hread
  simpa [SignFree] using List.all_eq_true.mp h _ hmem

theorem definition_subset {code : Text} {r : Replacement} (h : definition code = .ok r) :
    r.expansion ⊆ code := by
  unfold definition at h
  simp only at h
  split_ifs at h
  rw [← Except.ok.inj h]
  intro c hc
  have hc := Text.trim_subset _ (Text.afterField_subset _ (Text.trim_subset _ hc))
  cases ha : code.after? defineWord with
  | none => simp [ha] at hc
  | some rest =>
    rw [ha] at hc
    exact Text.after?_subset ha hc

/-- No replacement of the preprocessor brings in the sign of a marker. -/
def Preprocessor.SignFree (p : Preprocessor) : Prop :=
  ∀ r ∈ p.predefined ++ p.stored, Source.SignFree r.expansion

theorem signFree_start : (Preprocessor.start {}).SignFree :=
  fun r hr => by simp [Preprocessor.start] at hr

theorem Preprocessor.SignFree.alike {p q : Preprocessor} (h : p.SignFree) (ha : p.Alike q) :
    q.SignFree := by
  unfold Preprocessor.SignFree
  rw [ha.predefined, ha.stored]
  exact h

theorem isIdentChar_ne_sign (c : Char) (hc : Text.isIdentChar c = true) : c ≠ markerSign := by
  rintro rfl
  revert hc
  decide

theorem signFree_expandAll {rs : List Replacement} {text t : Text}
    (hrs : ∀ r ∈ rs, SignFree r.expansion) (ht : SignFree text)
    (h : Replacement.expandAll rs text = .ok t) : SignFree t := by
  have hall := Replacement.forall_expandAll isIdentChar_ne_sign
    (fun r hr c hc (h : c = markerSign) => hrs r hr (h ▸ hc))
    (fun c hc (h : c = markerSign) => ht (h ▸ hc)) h
  exact fun hm => hall _ hm rfl

theorem exists_of_mem_mapM {α β ε : Type} {f : α → Except ε β} {b : β} :
    ∀ {as : List α} {bs : List β}, as.mapM f = .ok bs → b ∈ bs → ∃ a ∈ as, f a = .ok b
  | [], bs, h, hb => by
    cases h
    simp at hb
  | a :: as, bs, h, hb => by
    rw [List.mapM_cons] at h
    cases hf : f a with
    | error e => rw [hf] at h; cases h
    | ok b' =>
      cases hrest : as.mapM f with
      | error e => rw [hf, hrest] at h; cases h
      | ok bs' =>
        rw [hf, hrest] at h
        cases h
        rcases List.mem_cons.mp hb with rfl | hb
        · exact ⟨a, by simp, hf⟩
        · obtain ⟨a', ha', hf'⟩ := exists_of_mem_mapM hrest hb
          exact ⟨a', by simp [ha'], hf'⟩

theorem mapM_of_forall {α β ε : Type} {f : α → Except ε β} {g : α → β} : ∀ {as : List α},
    (∀ a ∈ as, f a = .ok (g a)) → as.mapM f = .ok (as.map g)
  | [], _ => rfl
  | a :: as, h => by
    have ih := mapM_of_forall (f := f) (g := g) fun b hb => h b (List.mem_cons_of_mem a hb)
    rw [List.mapM_cons, h a (by simp), ih]
    rfl

/-- Where the characters of a line that enters come from. -/
theorem forall_enter {P : Char → Prop} (hident : ∀ c, Text.isIdentChar c = true → P c)
    {p : Preprocessor} (hp : ∀ r ∈ p.predefined, ∀ c ∈ r.expansion, P c) {text : Text}
    (ht : ∀ c ∈ text, P c) {lines : List Text} (h : p.enter text = .ok lines) :
    ∀ line ∈ lines, ∀ c ∈ line, P c := by
  intro line hline
  obtain ⟨l, hl, hf⟩ := exists_of_mem_mapM h hline
  have hl : ∀ c ∈ l, P c := fun c hc => ht c (Text.lines_subset hl hc)
  unfold Preprocessor.enterLine at hf
  split_ifs at hf
  · cases hf
    exact hl
  · obtain ⟨code, hcode, rfl⟩ := except_map_ok hf
    have hall := Replacement.forall_expandAll hident hp
      (fun c hc => hl c (Text.code_subset l hc)) hcode
    intro c hc
    rcases List.mem_append.mp hc with hc | hc
    · exact hall c hc
    · exact hl c (Text.comment_subset l hc)

theorem signFree_enter {p : Preprocessor} {text : Text} {lines : List Text} (hp : p.SignFree)
    (ht : SignFree text) (h : p.enter text = .ok lines) : ∀ line ∈ lines, SignFree line := by
  intro line hline hsign
  refine forall_enter (P := (· ≠ markerSign)) isIdentChar_ne_sign
    (fun r hr c hc heq => hp r (by simp [hr]) (heq ▸ hc)) (fun c hc heq => ht (heq ▸ hc)) h line
    hline _ hsign rfl

theorem between?_subset {first last : Char} {text inner : Text}
    (h : between? first last text = some inner) : inner ⊆ text := by
  cases text with
  | nil => simp [between?] at h
  | cons c rest =>
    simp only [between?] at h
    split_ifs at h
    rw [← Option.some.inj h]
    exact fun x hx => List.mem_cons_of_mem _ (List.dropLast_subset _ hx)

/-- The name of an included file is one field. -/
theorem includedName?_ok {code name : Text} (h : includedName? code = some name) :
    name ≠ [] ∧ ∀ c ∈ name, Text.isBlank c = false := by
  unfold includedName? at h
  split at h
  · simp at h
  · next arg harg =>
    simp only at h
    split_ifs at h with hempty
    rw [← Option.some.inj h]
    refine ⟨by simpa using hempty, fun c hc => ?_⟩
    have hsub : c ∈ Text.removeBlanks arg := by
      cases h1 : between? '<' '>' (Text.removeBlanks arg) with
      | some inner =>
        rw [h1] at hc
        exact between?_subset h1 hc
      | none =>
        cases h2 : between? '"' '"' (Text.removeBlanks arg) with
        | some inner =>
          rw [h1, h2] at hc
          exact between?_subset h2 hc
        | none =>
          rw [h1, h2] at hc
          exact hc
    simpa using (List.mem_filter.mp hsub).2

end Mcs51.Source
