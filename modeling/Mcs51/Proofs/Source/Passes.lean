import Mcs51.Proofs.Source.Replacement
import Mcs51.Proofs.Source.View

/-! # What the passes of a round do to a line

A round reads its lines twice, once to include files and once to expand. What either pass does with
a line that it takes is said here once: `Inclusion.Takes` and `Expansion.Takes` list the cases,
bookkeeping aside, and the lines written for the line. -/

namespace Mcs51.Disk

/-- A text that can be read is that of a file on the disk. -/
theorem mem_of_readText {d : Disk} {path text : Text} (h : d.readText path = .ok text) :
    ∃ l bytes, (l, Node.file bytes) ∈ d.nodes ∧ text = Text.decodeLossy bytes := by
  obtain ⟨bytes, hread, rfl⟩ := Source.except_map_ok h
  unfold read at hread
  split at hread
  · simp at hread
  · next l b hresolve =>
    cases hread
    refine ⟨l, bytes, ?_, rfl⟩
    unfold resolve at hresolve
    split at hresolve
    · simp at hresolve
    · split at hresolve
      · simp at hresolve
      · next place hplace =>
        split at hresolve
        · simp at hresolve
        · next b hnode =>
          split_ifs at hresolve
          cases hresolve
          unfold node? at hnode
          split_ifs at hnode
          · simp at hnode
          · obtain ⟨front, back, hnodes, -⟩ := List.lookup_eq_some_iff.mp hnode
            simp [hnodes]
        · simp at hresolve
  · simp at hread

/-- The texts of all files on a disk. -/
def texts (d : Disk) : List Text :=
  d.nodes.filterMap fun n => match n.2 with
    | .file bytes => some (Text.decodeLossy bytes)
    | .directory => none

theorem mem_texts {d : Disk} {path text : Text} (h : d.readText path = .ok text) :
    text ∈ d.texts := by
  obtain ⟨l, bytes, hmem, rfl⟩ := mem_of_readText h
  exact List.mem_filterMap.mpr ⟨_, hmem, rfl⟩

end Mcs51.Disk

namespace Mcs51.Source

/-! ### Roles -/

theorem Reader.marked_of_step {r s : Reader} {line : Text}
    (h : r.step line = (s, .ok .marker)) : ∃ m, Marker.ofLine? line = some m := by
  unfold step at h
  split at h
  · simp at h
  · next stack hs => exact FileStack.marked_of_step hs
  · simp only at h
    split at h
    · simp at h
    · simp at h
    · split_ifs at h <;> simp at h

theorem Reader.unmarked_of_step {r s : Reader} {line : Text} {role : Role}
    (h : r.step line = (s, .ok role)) (hrole : role ≠ .marker) : Marker.ofLine? line = none := by
  unfold step at h
  split at h
  · simp at h
  · simp only [Prod.mk.injEq, Except.ok.injEq] at h
    exact absurd h.2.symm hrole
  · next stack hs => exact FileStack.unmarked_of_step hs

/-! ### Inclusion -/

/-- Two states of the preprocessor that read and replace alike. -/
structure Preprocessor.Alike (p q : Preprocessor) : Prop where
  roots : q.roots = p.roots
  maxRounds : q.maxRounds = p.maxRounds
  predefined : q.predefined = p.predefined
  stored : q.stored = p.stored

namespace Preprocessor

theorem Alike.refl (p : Preprocessor) : Alike p p := ⟨rfl, rfl, rfl, rfl⟩

theorem Alike.trans {p q r : Preprocessor} (h : Alike p q) (h' : Alike q r) : Alike p r :=
  ⟨h'.roots.trans h.roots, h'.maxRounds.trans h.maxRounds, h'.predefined.trans h.predefined,
    h'.stored.trans h.stored⟩

theorem alike_note (p : Preprocessor) (level : Level) (words : Text) :
    Alike p (p.note level words) := ⟨rfl, rfl, rfl, rfl⟩

theorem alike_ask (p : Preprocessor) (name : Text) : Alike p (p.ask name) := ⟨rfl, rfl, rfl, rfl⟩

theorem alike_takeIn (p : Preprocessor) (path : Text) : Alike p (p.takeIn path) := by
  unfold takeIn addIncluded
  split_ifs
  · exact alike_note p _ _
  · exact ⟨rfl, rfl, rfl, rfl⟩

theorem alike_insert (p : Preprocessor) (name path : Text) :
    Alike p ((p.ask name).takeIn path) :=
  (p.alike_ask name).trans (alike_takeIn _ path)

theorem Alike.enter {p q : Preprocessor} (h : Alike p q) (text : Text) :
    q.enter text = p.enter text := by
  unfold Preprocessor.enter
  congr 1
  funext line
  unfold enterLine
  rw [h.predefined]

theorem Alike.find? {p q : Preprocessor} (h : Alike p q) (d : Disk) (name : Text) :
    q.find? d name = p.find? d name := by
  unfold Preprocessor.find? candidates
  rw [h.roots]

/-- A file that is found can be read. -/
theorem find?_ok {p : Preprocessor} {d : Disk} {name path text : Text}
    (h : p.find? d name = some (path, text)) : d.readText path = .ok text := by
  obtain ⟨q, -, hq⟩ := List.exists_of_findSome?_eq_some h
  obtain ⟨t, ht, hpair⟩ := Option.map_eq_some_iff.mp hq
  cases hpair
  cases hr : d.readText path with
  | error e => simp [hr, Except.toOption] at ht
  | ok u =>
    rw [hr] at ht
    cases ht
    rfl

end Preprocessor

namespace Inclusion

/-- The lines that take the place of one that includes a file. -/
def block (name : Text) (lines : List Text) : List Text :=
  includeFiller :: (Marker.enter name).line :: (lines ++ [(Marker.leave name).line])

/-- What an inclusion that takes a line does, by what the line says, and the lines it writes. -/
inductive Takes (d : Disk) (s : Inclusion) (line : Text) (t : Inclusion) : Use → List Text → Prop
  | keep {use : Use} (other : use.included? = none) (pre : t.pre = s.pre)
      (count : t.count = s.count) : Takes d s line t use [line]
  | insert {name path text : Text} {lines : List Text} (unmarked : Marker.ofLine? line = none)
      (names : includedName? line.code = some name)
      (found : s.pre.find? d name = some (path, text)) (enters : s.pre.enter text = .ok lines)
      (pre : t.pre = (s.pre.ask name).takeIn path) (count : t.count = s.count + 1) :
      Takes d s line t (.includes (some name)) (block name lines)

theorem insert_ok {d : Disk} {s t : Inclusion} {name line : Text}
    (hm : Marker.ofLine? line = none) (hn : includedName? line.code = some name)
    (h : s.insert d name = (t, none)) :
    t.reader = s.reader ∧ ∃ written, t.out.toList = s.out.toList ++ written ∧
      Takes d s line t (.includes (some name)) written := by
  unfold insert at h
  simp only at h
  split at h
  · simp at h
  · next path text hfind =>
    split at h
    · simp at h
    · next lines henter =>
      cases h
      refine ⟨rfl, block name lines, by simp [block], .insert hm hn hfind ?_ rfl rfl⟩
      rw [← henter, (s.pre.alike_insert name path).enter]

/-- What an inclusion does with an active line. -/
theorem active_ok {d : Disk} {s t : Inclusion} {line : Text} (hm : Marker.ofLine? line = none)
    (h : s.active d line = (t, none)) :
    t.reader.stack = s.reader.stack ∧
      t.reader.view = s.reader.view.after (.ofCode line.code) ∧
      ∃ written, t.out.toList = s.out.toList ++ written ∧
        Takes d s line t (.ofCode line.code) written := by
  unfold active at h
  unfold Use.ofCode
  split_ifs at h ⊢
  · cases hr : definition line.code with
    | ok r =>
      rw [hr] at h
      cases h
      exact ⟨rfl, rfl, [line], by simp [keep], .keep rfl rfl rfl⟩
    | error e =>
      rw [hr] at h
      cases h
      exact ⟨rfl, rfl, [line], by simp [keep], .keep rfl rfl rfl⟩
  · split at h
    · simp at h
    · next name hn =>
      obtain ⟨hreader, hwritten⟩ := insert_ok hm hn h
      rw [hn, hreader]
      exact ⟨rfl, rfl, hwritten⟩
  · cases h
    exact ⟨rfl, rfl, [line], by simp [keep], .keep rfl rfl rfl⟩

/-- **What an inclusion does with a line that it takes.** -/
theorem takes_of_step {d : Disk} {s t : Inclusion} {line : Text} (h : s.step d line = (t, none)) :
    ∃ use written, s.reader.Sees line use t.reader ∧ t.out.toList = s.out.toList ++ written ∧
      Takes d s line t use written := by
  unfold step at h
  split at h
  · simp at h
  · next reader hr =>
    obtain ⟨hstack, hrole⟩ := Reader.role_of_step hr
    obtain ⟨hstack', hview, written, hout, htakes⟩ :=
      active_ok (Reader.unmarked_of_step hr (by simp)) h
    refine ⟨.ofCode line.code, written, ⟨by rw [hstack']; exact hstack, ?_⟩, hout, ?_⟩
    · simp [View.step, hrole, hview]
    · generalize Use.ofCode line.code = use at htakes ⊢
      cases htakes with
      | keep other pre count => exact .keep other pre count
      | insert hm hn found enters pre count => exact .insert hm hn found enters pre count
  · next reader role hrole' hr =>
    obtain ⟨hstack, hrole⟩ := Reader.role_of_step hr
    cases h
    refine ⟨.idle, [line], ⟨hstack, ?_⟩, by simp [keep], .keep rfl rfl rfl⟩
    cases role with
    | active => exact absurd rfl hrole'
    | _ => simp [View.step, hrole, keep]

/-- **An inclusion takes a line** if the file stack and the regions do, and if a file that the line
includes can be put in. -/
theorem exists_step {d : Disk} {s : Inclusion} {line : Text} {v : View} {use : Use}
    (hstack : ∃ b, (s.reader.stack.step line).2 = .ok b)
    (hview : s.reader.view.step line = some (v, use))
    (hready : ∀ name?, use.included? = some name? → ∃ name path text lines, name? = some name ∧
      s.pre.find? d name = some (path, text) ∧ s.pre.enter text = .ok lines) :
    ∃ t, s.step d line = (t, none) := by
  obtain ⟨⟨u, role⟩, hrole, huse⟩ := Option.map_eq_some_iff.mp hview
  obtain ⟨r, hr⟩ := Reader.exists_step hstack hrole
  unfold step
  rw [hr]
  cases role with
  | marker => exact ⟨_, rfl⟩
  | inactive => exact ⟨_, rfl⟩
  | active =>
    cases huse
    show ∃ t, active d _ line = (t, none)
    unfold active
    unfold Use.ofCode at hready
    split_ifs at hready ⊢
    · split <;> exact ⟨_, rfl⟩
    · obtain ⟨name, path, text, lines, hname, hfind, henter⟩ := hready _ rfl
      have henter' := (s.pre.alike_insert name path).enter text
      have hfind' := (s.pre.alike_ask name).find? d name
      rw [hfind] at hfind'
      rw [henter] at henter'
      rw [hname]
      simp only [insert, hfind', henter']
      exact ⟨_, rfl⟩
    · exact ⟨_, rfl⟩

end Inclusion

theorem includeLines_ok {d : Disk} {p q : Preprocessor} {file : Text} {lines out : List Text}
    {count : Nat} (h : includeLines d p file lines = (q, .ok (out, count))) :
    ∃ s, walk (Inclusion.step d) (.start p file) lines = (s, none) ∧ s.pre = q ∧
      s.out.toList = out ∧ s.count = count := by
  unfold includeLines at h
  split at h
  · next s hs =>
    cases h
    exact ⟨s, hs, rfl, rfl, rfl⟩
  · simp at h

/-! ### Expansion -/

/-- The replacements in effect after another one was stored. -/
theorem Preprocessor.mem_store {p : Preprocessor} {level : Level} {words : Text}
    {new r : Replacement} :
    r ∈ ((p.note level words).store new).predefined ++ ((p.note level words).store new).stored ↔
      r ∈ p.predefined ++ p.stored ∨ r = new := by
  show r ∈ p.predefined ++ (p.stored ++ [new]) ↔ _
  rw [← List.append_assoc, List.mem_append, List.mem_singleton]

namespace Expansion

/-- What an expansion that takes a line does, by what the line says, and the line it writes. -/
inductive Takes (s : Expansion) (line : Text) (t : Expansion) : Use → Text → Prop
  | marker {m : Marker} (marks : Marker.ofLine? line = some m) (pre : t.pre = s.pre) :
      Takes s line t .idle line
  | skip (unmarked : Marker.ofLine? line = none) (pre : t.pre = s.pre) :
      Takes s line t .idle regionFiller
  | define {r : Replacement} {expansion words : Text} (unmarked : Marker.ofLine? line = none)
      (defines : definition line.code = .ok r)
      (expands : Replacement.expandAll (s.pre.predefined ++ s.pre.stored) r.expansion =
        .ok expansion)
      (pre : t.pre = (s.pre.note .trace words).store ⟨r.name, expansion⟩) :
      Takes s line t (.defines r) defineFiller
  | expand {use : Use} {code : Text} (unmarked : Marker.ofLine? line = none)
      (active : use = .ofCode line.code) (other : line.code.mentions defineWord = false)
      (expands : Replacement.expandAll s.pre.stored line.code = .ok code) (pre : t.pre = s.pre) :
      Takes s line t use (code ++ line.comment)

/-- What an expansion does with an active line. -/
theorem active_ok {s t : Expansion} {line : Text} (hm : Marker.ofLine? line = none)
    (h : s.active line = (t, none)) :
    t.reader.stack = s.reader.stack ∧
      t.reader.view = s.reader.view.after (.ofCode line.code) ∧
      ∃ written, t.out.toList = s.out.toList ++ [written] ∧
        Takes s line t (.ofCode line.code) written := by
  unfold active at h
  split_ifs at h with hd
  · unfold define at h
    simp only at h
    split at h
    · simp at h
    · next r hr =>
      split at h
      · simp at h
      · next expansion he =>
        cases h
        have huse : Use.ofCode line.code = .defines r := by simp [Use.ofCode, hd, hr]
        rw [huse]
        exact ⟨rfl, rfl, defineFiller, by simp [keep], .define hm hr he rfl⟩
  · split at h
    · simp at h
    · next code hc =>
      cases h
      refine ⟨rfl, ?_, code ++ line.comment, by simp [keep], .expand hm rfl (by simpa using hd) hc rfl⟩
      unfold Use.ofCode
      rw [if_neg hd]
      split_ifs <;> rfl

/-- **What an expansion does with a line that it takes.** -/
theorem takes_of_step {s t : Expansion} {line : Text} (h : s.step line = (t, none)) :
    ∃ use written, s.reader.Sees line use t.reader ∧ t.out.toList = s.out.toList ++ [written] ∧
      Takes s line t use written := by
  unfold step at h
  split at h
  · simp at h
  · next reader hr =>
    cases h
    obtain ⟨m, hm⟩ := Reader.marked_of_step hr
    obtain ⟨hstack, hrole⟩ := Reader.role_of_step hr
    exact ⟨.idle, line, ⟨hstack, by simp [View.step, hrole, keep]⟩, by simp [keep], .marker hm rfl⟩
  · next reader hr =>
    cases h
    obtain ⟨hstack, hrole⟩ := Reader.role_of_step hr
    exact ⟨.idle, regionFiller, ⟨hstack, by simp [View.step, hrole, keep]⟩, by simp [keep],
      .skip (Reader.unmarked_of_step hr (by simp)) rfl⟩
  · next reader hr =>
    obtain ⟨hstack, hrole⟩ := Reader.role_of_step hr
    obtain ⟨hstack', hview, written, hout, htakes⟩ :=
      active_ok (Reader.unmarked_of_step hr (by simp)) h
    refine ⟨.ofCode line.code, written, ⟨by rw [hstack']; exact hstack, ?_⟩, hout, ?_⟩
    · simp [View.step, hrole, hview]
    · generalize huse : Use.ofCode line.code = use at htakes ⊢
      cases htakes with
      | marker marks pre => exact .marker marks pre
      | skip unmarked pre => exact .skip unmarked pre
      | define unmarked defines expands pre => exact .define unmarked defines expands pre
      | expand unmarked active other expands pre => exact .expand unmarked active other expands pre

/-- A line that is taken does what it was seen to say. -/
theorem takes_of_seen {s t : Expansion} {line : Text} {v : View} {use : Use}
    (h : s.step line = (t, none)) (hview : s.reader.view.step line = some (v, use)) :
    t.reader.view = v ∧ (s.reader.stack.step line).1 = t.reader.stack ∧
      ∃ written, t.out.toList = s.out.toList ++ [written] ∧ Takes s line t use written := by
  obtain ⟨use', written, hsees, hout, htakes⟩ := takes_of_step h
  obtain ⟨rfl, rfl⟩ := Prod.mk.inj (Option.some.inj (hsees.view.symm.trans hview))
  obtain ⟨b, hb⟩ := hsees.stack
  exact ⟨rfl, by rw [hb], written, hout, htakes⟩

/-- **An expansion takes a line** if the file stack and the regions do, and if the line does not
fail to define a name. Replacements with identifiers for names never fail. -/
theorem exists_step {s : Expansion} {line : Text} {v : View} {use : Use}
    (hnames : ∀ r ∈ s.pre.predefined ++ s.pre.stored, r.name.isIdent = true)
    (hstack : ∃ b, (s.reader.stack.step line).2 = .ok b)
    (hview : s.reader.view.step line = some (v, use)) (hdefines : use ≠ .misdefines) :
    ∃ t, s.step line = (t, none) := by
  obtain ⟨⟨u, role⟩, hrole, huse⟩ := Option.map_eq_some_iff.mp hview
  obtain ⟨r, hr⟩ := Reader.exists_step hstack hrole
  unfold step
  rw [hr]
  cases role with
  | marker => exact ⟨_, rfl⟩
  | inactive => exact ⟨_, rfl⟩
  | active =>
    cases huse
    show ∃ t, active _ line = (t, none)
    unfold active
    unfold Use.ofCode at hdefines
    split_ifs at hdefines ⊢
    · unfold define
      split at hdefines
      · next q hq =>
        obtain ⟨expansion, he⟩ := Replacement.exists_expandAll
          (fun r hr => opensAscii_of_isIdent (hnames r hr)) q.expansion
        simp only [hq, he]
        exact ⟨_, rfl⟩
      · exact absurd rfl hdefines
    all_goals
      obtain ⟨code, hcode⟩ := Replacement.exists_expandAll
        (fun r hr => opensAscii_of_isIdent (hnames r (List.mem_append_right _ hr))) line.code
      simp only [hcode]
      exact ⟨_, rfl⟩

end Expansion

theorem expandLines_ok {p q : Preprocessor} {file : Text} {lines out : List Text}
    (h : expandLines p file lines = (q, .ok out)) :
    ∃ s, walk Expansion.step (.start p file) lines = (s, none) ∧ s.pre = q ∧
      s.out.toList = out := by
  unfold expandLines at h
  split at h
  · next s hs =>
    split_ifs at h
    · cases h
      exact ⟨s, hs, rfl, rfl⟩
    · simp at h
  · simp at h

end Mcs51.Source
