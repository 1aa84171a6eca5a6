import Mcs51.Proofs.Object.LinkErrors

/-! # What linking leaves alone

Linking takes any list of entries, also one that no first pass gives. What it asks of the order of
the entries is a matter of neighbours (`Entry.FitsBetween`, `Ordered`): a label in a page has to
follow on the address before its own, whatever was written there, a label of two bytes needs a
second cell right after it, and a second cell such a label right before it.

`Links` is what linking does to the bytes written so far, and it is what `linkFrom` does
(`Links.linkFrom`, `links_of_linkFrom`). From it follow what is accepted (`Links.ordered`,
`exists_links`) and what stays: every entry gives one byte at its own address, and a byte that was
there from the beginning is kept, but for the upper three bits of a byte before a label in a page
(`KeepsByte`, `Links.frames`). -/

namespace Mcs51.Object

open Instruction

/-! ### Neighbours -/

/-- The entry is a label that puts its page into the byte before it. -/
def Entry.IsPaged (e : Entry) : Prop := ∃ name pos, e.cell = .label name pos .page

/-- The entry is a label of two bytes. -/
def Entry.IsWide (e : Entry) : Prop := ∃ name pos, e.cell = .label name pos .absolute

/-- An entry can stand between the entries before and after it, if there are any. -/
def Entry.FitsBetween (before : Option Entry) (e : Entry) (after : Option Entry) : Prop :=
  match e.cell with
  | .byte _ | .label _ _ .relative => True
  | .label _ _ .page => ∃ d ∈ before, d.addr + 1 = e.addr
  | .label _ _ .absolute => ∃ d ∈ after, d.cell = .second
  | .second => ∃ d ∈ before, d.IsWide

/-- Every entry can stand where it stands, the first one after `before`. -/
def Ordered : Option Entry → List Entry → Prop
  | _, [] => True
  | before, e :: rest => e.FitsBetween before rest.head? ∧ Ordered (some e) rest

/-- What a byte may become when the entry after it is linked: only a label in a page changes it, and
the lower five bits stay then. -/
structure KeepsByte (after : Option Entry) (b c : UInt8) : Prop where
  low : c.toNat % 32 = b.toNat % 32
  whole : (∀ e ∈ after, ¬ e.IsPaged) → c = b

theorem KeepsByte.refl (after : Option Entry) (b : UInt8) : KeepsByte after b b :=
  ⟨rfl, fun _ => rfl⟩

/-! ### Linking as a relation -/

/-- What linking makes of the bytes written so far, latest first, when it takes entries: one at a
time, or two where a label has two bytes. -/
inductive Links (symbols : Table Text UInt16) : Image → List Entry → Image → Prop
  | nil {w : Image} : Links symbols w [] w
  | byte {w w' : Image} {a : UInt16} {b : UInt8} {es : List Entry}
      (rest : Links symbols ((a, b) :: w) es w') : Links symbols w (⟨a, .byte b⟩ :: es) w'
  | relative {w w' : Image} {a target : UInt16} {name : Text} {pos : Pos} {d : UInt8}
      {es : List Entry} (found : symbols.lookup name = some target)
      (reached : displacement (a + 1) target = .ok d) (rest : Links symbols ((a, d) :: w) es w') :
      Links symbols w (⟨a, .label name pos .relative⟩ :: es) w'
  | page {w w' : Image} {a a' target : UInt16} {op op' : UInt8} {name : Text} {pos : Pos}
      {es : List Entry} (follows : a + 1 = a') (found : symbols.lookup name = some target)
      (folded : foldPage op (a' + 1) target = .ok op')
      (rest : Links symbols ((a', lowByte target) :: (a, op') :: w) es w') :
      Links symbols ((a, op) :: w) (⟨a', .label name pos .page⟩ :: es) w'
  | absolute {w w' : Image} {a a' target : UInt16} {name : Text} {pos : Pos} {es : List Entry}
      (found : symbols.lookup name = some target)
      (rest : Links symbols ((a', lowByte target) :: (a, highByte target) :: w) es w') :
      Links symbols w (⟨a, .label name pos .absolute⟩ :: ⟨a', .second⟩ :: es) w'

variable {symbols : Table Text UInt16} {w w' : Image} {es : List Entry}

theorem Linking.writePaged_eq_ok {l l' : Linking} {a target : UInt16} {name : Text}
    (h : l.writePaged a target name = .ok l') :
    ∃ before op op' older, l.written = (before, op) :: older ∧ before + 1 = a ∧
      foldPage op (a + 1) target = .ok op' ∧
      l'.written = (a, lowByte target) :: (before, op') :: older := by
  unfold writePaged at h
  split at h
  · next before op older hw =>
    split_ifs at h with hfollows
    cases hfold : foldPage op (a + 1) target with
    | error p => rw [hfold] at h; cases h
    | ok op' => rw [hfold] at h; cases h; exact ⟨before, op, op', older, hw, hfollows, hfold, rfl⟩
  · cases h

/-- What linking has done is what the relation says. -/
theorem links_of_linkFrom {l l' : Linking} (h : linkFrom symbols l es = (l', none)) :
    Links symbols l.written es l'.written := by
  fun_induction linkFrom symbols l es with
  | case1 l =>
    cases h
    exact .nil
  | case2 l e rest look b hcell ih =>
    obtain ⟨a, cell⟩ := e
    cases hcell
    exact .byte (ih h)
  | case5 l e rest look name pos target found d reached hcell ih =>
    obtain ⟨a, cell⟩ := e
    cases hcell
    exact .relative found reached (ih h)
  | case7 l e rest look name pos target found m paged hcell ih =>
    obtain ⟨a, cell⟩ := e
    cases hcell
    obtain ⟨before, op, op', older, hw, hfollows, hfold, hm⟩ := Linking.writePaged_eq_ok paged
    have hw : l.written = (before, op) :: older := hw
    have hlinks := ih h
    rw [hm] at hlinks
    rw [hw]
    exact .page hfollows found hfold hlinks
  | case9 l e look name pos target found low rest hcell ih =>
    obtain ⟨a, cell⟩ := e
    cases hcell
    exact .absolute found (ih h)
  | case3 | case4 | case6 | case8 | case10 => simp at h

/-- What the relation says is what linking does. -/
theorem Links.linkFrom (h : Links symbols w es w') : ∀ {l : Linking}, l.written = w →
    ∃ l', linkFrom symbols l es = (l', none) ∧ l'.written = w' := by
  induction h with
  | nil => exact fun hl => ⟨_, rfl, hl⟩
  | byte rest ih =>
    intro l hl
    simp only [Object.linkFrom]
    exact ih (by simp [Linking.write, Linking.look, hl])
  | relative found reached rest ih =>
    intro l hl
    simp only [Object.linkFrom, found, reached]
    exact ih (by simp [Linking.write, Linking.look, hl])
  | page follows found folded rest ih =>
    intro l hl
    simp only [Object.linkFrom, found, Linking.writePaged, Linking.look, hl, if_pos follows, folded,
      Except.map]
    exact ih rfl
  | absolute found rest ih =>
    intro l hl
    simp only [Object.linkFrom, found]
    exact ih (by simp [Linking.write, Linking.look, hl])

/-- **Linking is the relation**, from nothing written. -/
theorem link_eq_ok_iff_links {image : Image} :
    link symbols es = .ok image ↔ Links symbols [] es image.reverse := by
  unfold link
  constructor
  · intro h
    split at h
    · next l hl =>
      cases h
      rw [List.reverse_reverse]
      exact links_of_linkFrom hl
    · cases h
  · intro h
    obtain ⟨l, hl, hwritten⟩ := h.linkFrom (l := ⟨[], []⟩) rfl
    rw [hl]
    simp only [hwritten, List.reverse_reverse]

/-! ### What is accepted -/

/-- What is linked is in order, and every entry of it can be linked. The entry before is the one
that wrote the latest byte. -/
theorem Links.ordered (h : Links symbols w es w') : ∀ before : Option Entry,
    before.map Entry.addr = w.head?.map Prod.fst →
      Ordered before es ∧ ∀ e ∈ es, Linkable symbols e := by
  induction h with
  | nil => exact fun _ _ => ⟨trivial, by simp⟩
  | @byte w w' a b es rest ih =>
    intro before hbefore
    obtain ⟨hord, hlink⟩ := ih (some ⟨a, .byte b⟩) rfl
    exact ⟨⟨trivial, hord⟩, List.forall_mem_cons.mpr ⟨trivial, hlink⟩⟩
  | @relative w w' a target name pos d es found reached rest ih =>
    intro before hbefore
    obtain ⟨hord, hlink⟩ := ih (some ⟨a, .label name pos .relative⟩) rfl
    refine ⟨⟨trivial, hord⟩, List.forall_mem_cons.mpr ⟨⟨target, found, ?_⟩, hlink⟩⟩
    by_contra hr
    rw [displacement_error hr] at reached
    cases reached
  | @page w w' a a' target op op' name pos es follows found folded rest ih =>
    intro before hbefore
    obtain ⟨hord, hlink⟩ := ih (some ⟨a', .label name pos .page⟩) rfl
    obtain ⟨d, rfl, hd⟩ := Option.map_eq_some_iff.mp hbefore
    have hd : d.addr = a := hd
    exact ⟨⟨⟨d, rfl, by rw [hd, follows]⟩, hord⟩, List.forall_mem_cons.mpr
      ⟨⟨target, found, (foldPage_ok_iff.mp folded).1⟩, hlink⟩⟩
  | @absolute w w' a a' target name pos es found rest ih =>
    intro before hbefore
    obtain ⟨hord, hlink⟩ := ih (some ⟨a', .second⟩) rfl
    refine ⟨⟨⟨_, rfl, rfl⟩, ⟨⟨_, rfl, name, pos, rfl⟩, hord⟩⟩, ?_⟩
    exact List.forall_mem_cons.mpr ⟨⟨target, found, trivial⟩,
      List.forall_mem_cons.mpr ⟨trivial, hlink⟩⟩

/-- What is in order can be linked, if every entry of it can. A second cell does not come first. -/
theorem exists_links : ∀ {es : List Entry} {before : Option Entry} {w : Image},
    before.map Entry.addr = w.head?.map Prod.fst → (∀ d ∈ before, ¬ d.IsWide) →
      Ordered before es → (∀ e ∈ es, Linkable symbols e) → ∃ w', Links symbols w es w'
  | [], _, w, _, _, _, _ => ⟨w, .nil⟩
  | ⟨a, .byte b⟩ :: es, before, w, hbefore, hnarrow, hord, hlink => by
    obtain ⟨w', h⟩ := exists_links (w := (a, b) :: w) rfl (by simp [Entry.IsWide]) hord.2
      fun e he => hlink e (List.mem_cons_of_mem _ he)
    exact ⟨w', .byte h⟩
  | ⟨a, .second⟩ :: es, before, w, hbefore, hnarrow, hord, hlink => by
    obtain ⟨d, hd, hwide⟩ := hord.1
    exact absurd hwide (hnarrow d hd)
  | ⟨a, .label name pos .relative⟩ :: es, before, w, hbefore, hnarrow, hord, hlink => by
    obtain ⟨target, found, hr⟩ := hlink _ List.mem_cons_self
    obtain ⟨d, hd⟩ := displacement_reaches hr
    obtain ⟨w', h⟩ := exists_links (w := (a, d) :: w) rfl (by simp [Entry.IsWide]) hord.2
      fun e he => hlink e (List.mem_cons_of_mem _ he)
    exact ⟨w', .relative found hd h⟩
  | ⟨a', .label name pos .page⟩ :: es, before, w, hbefore, hnarrow, hord, hlink => by
    obtain ⟨target, found, hr⟩ := hlink _ List.mem_cons_self
    obtain ⟨d, rfl, hfollows⟩ := hord.1
    obtain ⟨⟨a, op⟩, hhead, ha⟩ := Option.map_eq_some_iff.mp hbefore.symm
    obtain ⟨older, rfl⟩ : ∃ older, w = (a, op) :: older := by
      cases w with
      | nil => simp at hhead
      | cons p older => exact ⟨older, by simpa using hhead⟩
    obtain ⟨op', hop⟩ := foldPage_reaches op hr
    obtain ⟨w', h⟩ := exists_links (w := (a', lowByte target) :: (a, op') :: older) rfl
      (by simp [Entry.IsWide]) hord.2 fun e he => hlink e (List.mem_cons_of_mem _ he)
    have ha : a = d.addr := ha
    exact ⟨w', .page (by rw [ha]; exact hfollows) found hop h⟩
  | ⟨a, .label name pos .absolute⟩ :: es, before, w, hbefore, hnarrow, hord, hlink => by
    obtain ⟨target, found, -⟩ := hlink _ List.mem_cons_self
    obtain ⟨d, hd, hsecond⟩ := hord.1
    obtain ⟨⟨a', cell⟩, es', rfl⟩ : ∃ d es', es = d :: es' := by
      cases es with
      | nil => cases hd
      | cons d es' => exact ⟨d, es', rfl⟩
    obtain rfl : cell = .second := by cases hd; exact hsecond
    obtain ⟨w', h⟩ := exists_links
      (w := (a', lowByte target) :: (a, highByte target) :: w) rfl (by simp [Entry.IsWide]) hord.2.2
      fun e he => hlink e (List.mem_cons_of_mem _ (List.mem_cons_of_mem _ he))
    exact ⟨w', .absolute found h⟩

/-! ### What stays -/

/-- A byte for every entry, at its address, and for a byte that was given one that keeps it. -/
inductive Frames : List Entry → Image → Prop
  | nil : Frames [] []
  | cons {e : Entry} {es : List Entry} {c : UInt8} {image : Image}
      (kept : ∀ b, e.cell = .byte b → KeepsByte es.head? b c) (rest : Frames es image) :
      Frames (e :: es) ((e.addr, c) :: image)

/-- What may become of the bytes written so far, latest first, when the next entry is linked: the
latest may change. -/
inductive Retouches (next : Option Entry) : Image → Image → Prop
  | nil : Retouches next [] []
  | cons {a : UInt16} {b c : UInt8} {w : Image} (kept : KeepsByte next b c) :
      Retouches next ((a, b) :: w) ((a, c) :: w)

theorem Retouches.refl (next : Option Entry) : ∀ w : Image, Retouches next w w
  | [] => .nil
  | (_, b) :: _ => .cons (.refl next b)

/-- **Linking leaves a frame.** Bytes written before stay but for the latest, and the entries get a
byte each. -/
theorem Links.frames (h : Links symbols w es w') : ∃ image v, Frames es image ∧
    Retouches es.head? w v ∧ w' = image.reverse ++ v := by
  induction h with
  | @nil w => exact ⟨[], w, .nil, .refl _ w, rfl⟩
  | @byte w w' a b es rest ih =>
    obtain ⟨image, v, hframes, hv, rfl⟩ := ih
    cases hv with | @cons _ _ c _ kept =>
      refine ⟨(a, c) :: image, w, .cons ?_ hframes, .refl _ w, by simp⟩
      rintro _ ⟨⟩
      exact kept
  | @relative w w' a target name pos d es found reached rest ih =>
    obtain ⟨image, v, hframes, hv, rfl⟩ := ih
    cases hv with | @cons _ _ c _ kept =>
      exact ⟨(a, c) :: image, w, .cons nofun hframes, .refl _ w, by simp⟩
  | @page w w' a a' target op op' name pos es follows found folded rest ih =>
    obtain ⟨image, v, hframes, hv, rfl⟩ := ih
    cases hv with | @cons _ _ c _ kept =>
      refine ⟨(a', c) :: image, (a, op') :: w, .cons nofun hframes, .cons ⟨?_, ?_⟩, by simp⟩
      · exact (foldPage_ok folded).1
      · exact fun hnot => absurd ⟨name, pos, rfl⟩ (hnot _ rfl)
  | @absolute w w' a a' target name pos es found rest ih =>
    obtain ⟨image, v, hframes, hv, rfl⟩ := ih
    cases hv with | @cons _ _ c _ kept =>
      exact ⟨(a, highByte target) :: (a', c) :: image, w, .cons nofun (.cons nofun hframes),
        .refl _ w, by simp⟩

theorem Frames.length {image : Image} (h : Frames es image) : image.length = es.length := by
  induction h with
  | nil => rfl
  | cons kept rest ih => rw [List.length_cons, List.length_cons, ih]

theorem Frames.getElem? {image : Image} (h : Frames es image) : ∀ {i : Nat} {e : Entry},
    es[i]? = some e → ∃ c, image[i]? = some (e.addr, c) ∧
      ∀ b, e.cell = .byte b → KeepsByte es[i + 1]? b c := by
  induction h with
  | nil => simp
  | @cons e es c image kept rest ih =>
    intro i d hd
    cases i with
    | zero =>
      obtain rfl : e = d := by simpa using hd
      refine ⟨c, rfl, fun b hb => ?_⟩
      rw [List.getElem?_cons_succ, ← List.head?_eq_getElem?]
      exact kept b hb
    | succ i => exact ih (by simpa using hd)

/-! ### Which labels count -/

/-- Two tables say the same of the names in the entries. -/
def AgreeOn (symbols others : Table Text UInt16) (es : List Entry) : Prop :=
  ∀ e ∈ es, ∀ name pos mode, e.cell = .label name pos mode →
    symbols.lookup name = others.lookup name

theorem AgreeOn.tail {others : Table Text UInt16} {e : Entry}
    (h : AgreeOn symbols others (e :: es)) : AgreeOn symbols others es :=
  fun d hd => h d (List.mem_cons_of_mem _ hd)

/-- Linking looks up no other names than those of the entries. -/
theorem linkFrom_congr {others : Table Text UInt16} : ∀ (es : List Entry) (l : Linking),
    AgreeOn symbols others es → linkFrom symbols l es = linkFrom others l es
  | [], _, _ => rfl
  | ⟨a, .byte b⟩ :: es, l, h => linkFrom_congr es _ h.tail
  | ⟨a, .second⟩ :: es, l, _ => rfl
  | ⟨a, .label name pos mode⟩ :: es, l, h => by
    have hname : symbols.lookup name = others.lookup name :=
      h _ List.mem_cons_self name pos mode rfl
    have ih (m : Linking) : linkFrom symbols m es = linkFrom others m es := linkFrom_congr es m h.tail
    simp only [linkFrom, hname]
    cases others.lookup name with
    | none => rfl
    | some target =>
      cases mode with
      | relative | page => simp only [ih]
      | absolute =>
        cases es with
        | nil => rfl
        | cons low es =>
          obtain ⟨a', cell⟩ := low
          cases cell with
          | second => exact linkFrom_congr es _ h.tail.tail
          | byte | label => rfl

/-! ### Linking as a whole -/

/-- **What linking accepts and what it changes.** Whatever the entries are, they are linked exactly
if they are in order and every label of them has an address in reach of its mode. Then each entry
has one byte in its place and at its address, and a byte that was given stays, or keeps its lower
five bits where a label in a page comes next. All that counts of the symbols is what they say of the
names in the entries. -/
theorem link_changes_placeholders_only (symbols : Table Text UInt16) (es : List Entry) :
    ((∃ image, link symbols es = .ok image) ↔
      Ordered none es ∧ ∀ e ∈ es, Linkable symbols e) ∧
    (∀ image, link symbols es = .ok image → image.length = es.length ∧
      ∀ i e, es[i]? = some e → ∃ c, image[i]? = some (e.addr, c) ∧
        ∀ b, e.cell = .byte b → KeepsByte es[i + 1]? b c) ∧
    ∀ others : Table Text UInt16, AgreeOn symbols others es → link symbols es = link others es := by
  refine ⟨⟨fun ⟨image, h⟩ => ?_, fun ⟨hord, hlink⟩ => ?_⟩, fun image h => ?_, fun others h => ?_⟩
  · exact (link_eq_ok_iff_links.mp h).ordered none rfl
  · obtain ⟨w, hw⟩ := exists_links (w := []) rfl (by simp) hord hlink
    exact ⟨w.reverse, link_eq_ok_iff_links.mpr (by rwa [List.reverse_reverse])⟩
  · obtain ⟨image', v, hframes, hv, heq⟩ := (link_eq_ok_iff_links.mp h).frames
    cases hv
    obtain rfl : image = image' := by simpa using heq
    exact ⟨hframes.length, fun i e he => hframes.getElem? he⟩
  · unfold link
    rw [linkFrom_congr es _ h]

/-- Labels in a page that follow on a byte across address 0 and on the second byte of another
label. -/
theorem link_changes_placeholders_only_odd :
    let pos : Pos := ⟨"main.asm".toList, 1⟩
    let es : List Entry :=
      [⟨0xFFFF, .byte 0xE1⟩, ⟨0, .label "near".toList pos .page⟩,
        ⟨0x0700, .label "near".toList pos .absolute⟩, ⟨0x0701, .second⟩,
        ⟨0x0702, .label "near".toList pos .page⟩, ⟨0, .byte 0x22⟩]
    let symbols : Table Text UInt16 := [("near".toList, 0x0345)]
    let others : Table Text UInt16 := [("far".toList, 0x2000), ("near".toList, 0x0345)]
    Ordered none es ∧ (∀ e ∈ es, Linkable symbols e) ∧ AgreeOn symbols others es ∧
      ∃ image c d, link symbols es = .ok image ∧ link others es = .ok image ∧ image.length = 6 ∧
        image[0]? = some (0xFFFF, c) ∧ c.toNat % 32 = 0x01 ∧ image[5]? = some (0, d) ∧
        d = 0x22 := by
  intro pos es symbols others
  have hord : Ordered none es :=
    ⟨trivial, ⟨_, rfl, rfl⟩, ⟨_, rfl, rfl⟩, ⟨_, rfl, _, _, rfl⟩, ⟨_, rfl, rfl⟩, trivial, trivial⟩
  have hlink : ∀ e ∈ es, Linkable symbols e := by
    simp only [es, List.forall_mem_cons]
    exact ⟨trivial, ⟨0x0345, by decide, by decide⟩, ⟨0x0345, by decide, trivial⟩, trivial,
      ⟨0x0345, by decide, by decide⟩, trivial, by simp⟩
  have hagree : AgreeOn symbols others es := by
    intro e he name pos' mode hcell
    obtain rfl : name = "near".toList := by
      simp only [es, List.mem_cons, List.not_mem_nil, or_false] at he
      rcases he with rfl | rfl | rfl | rfl | rfl | rfl <;> cases hcell <;> rfl
    decide
  obtain ⟨haccept, hkeep, hsame⟩ := link_changes_placeholders_only symbols es
  obtain ⟨image, himage⟩ := haccept.mpr ⟨hord, hlink⟩
  obtain ⟨hlength, hframe⟩ := hkeep image himage
  obtain ⟨c, hc, hfirst⟩ := hframe 0 _ rfl
  obtain ⟨d, hd, hlast⟩ := hframe 5 _ rfl
  exact ⟨hord, hlink, hagree, image, c, d, himage, (hsame others hagree).symm.trans himage, hlength,
    hc, (hfirst _ rfl).low, hd, (hlast _ rfl).whole (by simp [es])⟩

end Mcs51.Object
