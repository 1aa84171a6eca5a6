import Mcs51.Object.Link
import Mcs51.Proofs.Instruction.Reading
import Mcs51.Proofs.Object.Layout

/-! # Linking a stream of entries

Entries that come from instructions keep an order: a label in a page stands right after its opcode,
and a label of two bytes right before its second cell. This is a `Stream`, and on a stream linking
is simple. It can fail in two ways only, an unknown label and a target out of reach
(`Entry.fault?`), and it fails on the first entry that has such a fault (`linkFrom_fault`). If none
has, it writes the bytes that `Resolves` gives each entry on its own (`linkFrom_resolves`).

`resolves_placement` cuts the bytes again where the instructions were cut, and `resolves_append`
where one stream ends and the next begins. Linking a stream and resolving it are one and the same
(`link_ok_iff_resolves`). -/

namespace Mcs51.Object

open Instruction Source

/-! ### Streams and their faults -/

/-- Entries in an order in which all can be written, labels aside. -/
inductive Stream : List Entry → Prop
  | nil : Stream []
  | byte {a : UInt16} {b : UInt8} {es : List Entry} (rest : Stream es) :
      Stream (⟨a, .byte b⟩ :: es)
  | relative {a : UInt16} {name : Text} {pos : Pos} {es : List Entry} (rest : Stream es) :
      Stream (⟨a, .label name pos .relative⟩ :: es)
  | page {a a' : UInt16} {op : UInt8} {name : Text} {pos : Pos} {es : List Entry}
      (follows : a + 1 = a') (rest : Stream es) :
      Stream (⟨a, .byte op⟩ :: ⟨a', .label name pos .page⟩ :: es)
  | absolute {a a' : UInt16} {name : Text} {pos : Pos} {es : List Entry} (rest : Stream es) :
      Stream (⟨a, .label name pos .absolute⟩ :: ⟨a', .second⟩ :: es)

/-- A label that is written in this way can have this address. -/
def Reaches (next target : UInt16) : Mode → Prop
  | .relative => -128 ≤ (target.toNat : Int) - next.toNat ∧ (target.toNat : Int) - next.toNat ≤ 127
  | .page => target.toNat / 2048 = next.toNat / 2048
  | .absolute => True

instance (next target : UInt16) (mode : Mode) : Decidable (Reaches next target mode) := by
  cases mode <;> unfold Reaches <;> infer_instance

/-- What is wrong with a target out of reach. -/
def reachProblem (next target : UInt16) : Mode → Problem
  | .page => .outsidePage target next
  | _ => .tooFar target next

/-- Why an entry cannot be written, if it cannot. -/
def Entry.fault? (symbols : Table Text UInt16) (e : Entry) : Option Error :=
  match e.cell with
  | .label name pos mode =>
    match symbols.lookup name with
    | none => some ⟨.undefinedLabel name, some pos⟩
    | some target =>
      if Reaches (e.addr + 1) target mode then none
      else some ⟨reachProblem (e.addr + 1) target mode, some pos⟩
  | _ => none

/-- The bytes of a stream once its labels have addresses. -/
inductive Resolves (symbols : Table Text UInt16) : List Entry → Image → Prop
  | nil : Resolves symbols [] []
  | byte {a : UInt16} {b : UInt8} {es : List Entry} {image : Image}
      (rest : Resolves symbols es image) :
      Resolves symbols (⟨a, .byte b⟩ :: es) ((a, b) :: image)
  | relative {a target : UInt16} {name : Text} {pos : Pos} {d : UInt8} {es : List Entry}
      {image : Image} (found : symbols.lookup name = some target)
      (reached : displacement (a + 1) target = .ok d) (rest : Resolves symbols es image) :
      Resolves symbols (⟨a, .label name pos .relative⟩ :: es) ((a, d) :: image)
  | page {a a' target : UInt16} {op op' : UInt8} {name : Text} {pos : Pos} {es : List Entry}
      {image : Image} (found : symbols.lookup name = some target)
      (folded : foldPage op (a' + 1) target = .ok op') (rest : Resolves symbols es image) :
      Resolves symbols (⟨a, .byte op⟩ :: ⟨a', .label name pos .page⟩ :: es)
        ((a, op') :: (a', lowByte target) :: image)
  | absolute {a a' target : UInt16} {name : Text} {pos : Pos} {es : List Entry} {image : Image}
      (found : symbols.lookup name = some target) (rest : Resolves symbols es image) :
      Resolves symbols (⟨a, .label name pos .absolute⟩ :: ⟨a', .second⟩ :: es)
        ((a, highByte target) :: (a', lowByte target) :: image)

variable {symbols : Table Text UInt16}

theorem displacement_reaches {next target : UInt16} (h : Reaches next target .relative) :
    ∃ d, displacement next target = .ok d :=
  ⟨_, if_pos h⟩

theorem displacement_error {next target : UInt16} (h : ¬ Reaches next target .relative) :
    displacement next target = .error (reachProblem next target .relative) :=
  if_neg h

theorem foldPage_reaches (opcode : UInt8) {next target : UInt16} (h : Reaches next target .page) :
    ∃ op, foldPage opcode next target = .ok op := by
  unfold foldPage
  rw [if_neg (by simpa using and_page_eq_iff.mpr h)]
  exact ⟨_, rfl⟩

theorem foldPage_error (opcode : UInt8) {next target : UInt16} (h : ¬ Reaches next target .page) :
    foldPage opcode next target = .error (reachProblem next target .page) := by
  unfold foldPage
  rw [if_pos (mt and_page_eq_iff.mp h)]
  rfl

theorem fault?_label (symbols : Table Text UInt16) (a : UInt16) (name : Text) (pos : Pos)
    (mode : Mode) : Entry.fault? symbols ⟨a, .label name pos mode⟩ =
      match symbols.lookup name with
      | none => some ⟨.undefinedLabel name, some pos⟩
      | some target => if Reaches (a + 1) target mode then none
        else some ⟨reachProblem (a + 1) target mode, some pos⟩ := rfl

theorem fault?_label_eq_none {a : UInt16} {name : Text} {pos : Pos} {mode : Mode} :
    Entry.fault? symbols ⟨a, .label name pos mode⟩ = none ↔
      ∃ target, symbols.lookup name = some target ∧ Reaches (a + 1) target mode := by
  rw [fault?_label]
  cases symbols.lookup name <;> simp

/-- **Where linking a stream ends**: with the first fault. -/
theorem linkFrom_fault {es : List Entry} (h : Stream es) : ∀ l : Linking,
    (linkFrom symbols l es).2 = es.findSome? (Entry.fault? symbols) := by
  induction h with
  | nil => exact fun l => rfl
  | byte rest ih => exact fun l => ih _
  | relative rest ih =>
    intro l
    rw [List.findSome?_cons, fault?_label]
    simp only [linkFrom]
    cases symbols.lookup _ with
    | none => rfl
    | some target =>
      simp only
      split_ifs with hr
      · obtain ⟨d, hd⟩ := displacement_reaches hr
        rw [hd]
        exact ih _
      · rw [displacement_error hr]
  | @page a a' op name pos es follows rest ih =>
    intro l
    rw [List.findSome?_cons, List.findSome?_cons, fault?_label]
    simp only [Entry.fault?, linkFrom]
    cases symbols.lookup name with
    | none => rfl
    | some target =>
      simp only [Linking.writePaged, Linking.look, Linking.write, if_pos follows]
      split_ifs with hr
      · obtain ⟨op', hop⟩ := foldPage_reaches op hr
        rw [hop]
        exact ih _
      · rw [foldPage_error op hr]
        rfl
  | absolute rest ih =>
    intro l
    rw [List.findSome?_cons, List.findSome?_cons, fault?_label]
    simp only [linkFrom]
    cases symbols.lookup _ with
    | none => rfl
    | some target => exact ih _

/-- **What linking a stream writes** if no entry has a fault. -/
theorem linkFrom_resolves {es : List Entry} (h : Stream es) :
    (∀ e ∈ es, e.fault? symbols = none) → ∀ l : Linking, ∃ image, Resolves symbols es image ∧
      (linkFrom symbols l es).1.written = image.reverse ++ l.written := by
  induction h with
  | nil => exact fun _ l => ⟨[], .nil, rfl⟩
  | @byte a b es rest ih =>
    intro hes l
    obtain ⟨image, hres, hw⟩ := ih (fun e he => hes e (by simp [he]))
      ((l.look ⟨a, .byte b⟩).write a b)
    exact ⟨(a, b) :: image, .byte hres, hw.trans (by simp [Linking.write, Linking.look])⟩
  | @relative a name pos es rest ih =>
    intro hes l
    obtain ⟨target, hfound, hr⟩ := fault?_label_eq_none.mp (hes _ List.mem_cons_self)
    obtain ⟨d, hd⟩ := displacement_reaches hr
    obtain ⟨image, hres, hw⟩ := ih (fun e he => hes e (by simp [he]))
      ((l.look ⟨a, .label name pos .relative⟩).write a d)
    refine ⟨(a, d) :: image, .relative hfound hd hres, ?_⟩
    simp only [linkFrom, hfound, hd]
    exact hw.trans (by simp [Linking.write, Linking.look])
  | @page a a' op name pos es follows rest ih =>
    intro hes l
    obtain ⟨target, hfound, hr⟩ := 
      fault?_label_eq_none.mp (hes ⟨a', .label name pos .page⟩ (by simp))
    obtain ⟨op', hop⟩ := foldPage_reaches op hr
    obtain ⟨image, hres, hw⟩ := ih (fun e he => hes e (by simp [he]))
      ⟨(a', lowByte target) :: (a, op') :: l.written,
        ⟨a', .label name pos .page⟩ :: ⟨a, .byte op⟩ :: l.seen⟩
    refine ⟨(a, op') :: (a', lowByte target) :: image, .page hfound hop hres, ?_⟩
    simp only [linkFrom, hfound, Linking.writePaged, Linking.look, Linking.write, if_pos follows,
      hop]
    exact hw.trans (by simp)
  | @absolute a a' name pos es rest ih =>
    intro hes l
    obtain ⟨target, hfound, -⟩ := fault?_label_eq_none.mp (hes _ List.mem_cons_self)
    obtain ⟨image, hres, hw⟩ := ih (fun e he => hes e (by simp [he]))
      (((l.look ⟨a, .label name pos .absolute⟩).write a (highByte target)).write a'
        (lowByte target))
    refine ⟨(a, highByte target) :: (a', lowByte target) :: image, .absolute hfound hres, ?_⟩
    simp only [linkFrom, hfound]
    exact hw.trans (by simp [Linking.write, Linking.look])

theorem link_ok {es : List Entry} {image : Image} (h : Stream es)
    (hlink : link symbols es = .ok image) : Resolves symbols es image := by
  unfold link at hlink
  split at hlink
  · next l hl =>
    cases hlink
    have hnone : (linkFrom symbols ⟨[], []⟩ es).2 = _ := linkFrom_fault h _
    rw [hl] at hnone
    obtain ⟨image, hres, hw⟩ :=
      linkFrom_resolves h (List.findSome?_eq_none_iff.mp hnone.symm) ⟨[], []⟩
    rw [hl] at hw
    have hw : l.written = image.reverse ++ [] := hw
    rwa [hw, List.append_nil, List.reverse_reverse]
  · simp at hlink

/-! ### Streams of instructions -/

/-- Bytes at consecutive addresses, from the given one on. -/
def placeBytes : Nat → List UInt8 → Image
  | _, [] => []
  | n, b :: bs => (UInt16.ofNat n, b) :: placeBytes (n + 1) bs

theorem stream_fields {pos : Pos} {rest : List Entry} (hrest : Stream rest) :
    ∀ {fields : List Field} (n : Nat), (∀ name, Field.label name .page ∉ fields) →
      Stream (placeFrom n (fields.flatMap (fieldCells pos)) ++ rest)
  | [], _, _ => hrest
  | f :: fields, n, h => by
    have ih (m : Nat) : Stream (placeFrom m (fields.flatMap (fieldCells pos)) ++ rest) :=
      stream_fields hrest m fun name hn => h name (by simp [hn])
    rw [List.flatMap_cons, placeFrom_append, List.append_assoc]
    cases f with
    | byte b => exact .byte (ih _)
    | label name mode =>
      cases mode with
      | relative => exact .relative (ih _)
      | page => exact absurd List.mem_cons_self (h name)
      | absolute => exact .absolute (ih _)

/-- The entries of an instruction keep a stream a stream. -/
theorem stream_placement {code : Text} {pos : Pos} {n : Nat} {e : Encoding} {rest : List Entry}
    (h : assemble code (UInt16.ofNat n) = .ok e) (hrest : Stream rest) :
    Stream ((Placement.mk code pos n e).entries ++ rest) := by
  obtain ⟨op, fields⟩ := e
  show Stream (⟨UInt16.ofNat n, .byte op⟩ ::
    (placeFrom (n + 1) (fields.flatMap (fieldCells pos)) ++ rest))
  by_cases hp : ∃ name, Field.label name .page ∈ fields
  · obtain ⟨name, hp⟩ := hp
    obtain rfl : fields = [.label name .page] := page_alone h hp
    exact .page (UInt16.ofNat_add n 1).symm hrest
  · exact .byte (stream_fields hrest (n + 1) (not_exists.mp hp))

theorem Acts.stream {n n' : Nat} {pos : Pos} {action : Action} {new : List Placement}
    {rest : List Entry} (h : Acts n pos action n' new) (hrest : Stream rest) :
    Stream (new.flatMap Placement.entries ++ rest) := by
  cases h with
  | nothing => exact hrest
  | origin spells => exact hrest
  | instruction encodes room =>
    rw [List.flatMap_singleton]
    exact stream_placement encodes hrest

/-- What a first pass places is a stream. -/
theorem Run.stream {s t : Session} {lines : List Text} {ps : List Placement}
    (h : Run s lines t ps) : Stream (ps.flatMap Placement.entries) := by
  induction h with
  | nil => exact .nil
  | cons takes rest ih =>
    rw [List.flatMap_append]
    cases takes with
    | marker step counter symbols entries => exact ih
    | statement step reads defines acts entries => exact acts.stream ih

theorem Stream.ne_page {es : List Entry} (h : Stream es) {a : UInt16} {name : Text} {pos : Pos}
    {es' : List Entry} : es ≠ ⟨a, .label name pos .page⟩ :: es' := by
  rintro rfl
  cases h

theorem Resolves.of_byte {a : UInt16} {b : UInt8} {es : List Entry} {image : Image}
    (h : Resolves symbols (⟨a, .byte b⟩ :: es) image) (hes : Stream es) :
    ∃ image', image = (a, b) :: image' ∧ Resolves symbols es image' := by
  cases h with
  | byte rest => exact ⟨_, rfl, rest⟩
  | page found folded rest => exact absurd rfl hes.ne_page

theorem resolves_fields {pos : Pos} {rest : List Entry} (hrest : Stream rest) :
    ∀ {fields : List Field} {n : Nat} {image : Image}, (∀ name, Field.label name .page ∉ fields) →
      Resolves symbols (placeFrom n (fields.flatMap (fieldCells pos)) ++ rest) image →
      ∃ args image', image = placeBytes n args ++ image' ∧ Written symbols n fields args ∧
        Resolves symbols rest image'
  | [], _, image, _, h => ⟨[], image, rfl, .nil, h⟩
  | f :: fields, n, image, hp, h => by
    have hp' : ∀ name, Field.label name .page ∉ fields := fun name hn => hp name (by simp [hn])
    rw [List.flatMap_cons, placeFrom_append, List.append_assoc] at h
    cases f with
    | byte b =>
      obtain ⟨image₁, rfl, htail⟩ := h.of_byte (stream_fields hrest _ hp')
      obtain ⟨args, image', rfl, hw, hr⟩ := resolves_fields hrest hp' htail
      exact ⟨b :: args, image', rfl, .byte hw, hr⟩
    | label name mode =>
      cases mode with
      | page => exact absurd List.mem_cons_self (hp name)
      | relative =>
        cases h with | relative found reached h =>
          obtain ⟨args, image', rfl, hw, hr⟩ := resolves_fields hrest hp' h
          exact ⟨_ :: args, image', rfl, .relative found reached hw, hr⟩
      | absolute =>
        cases h with | absolute found h =>
          obtain ⟨args, image', rfl, hw, hr⟩ := resolves_fields hrest hp' h
          exact ⟨_ :: _ :: args, image', rfl, .absolute found hw, hr⟩

/-- **The bytes of an instruction** stand at consecutive addresses from its own on, before those of
what follows it. -/
theorem resolves_placement {code : Text} {pos : Pos} {n : Nat} {e : Encoding} {rest : List Entry}
    {image : Image} (h : assemble code (UInt16.ofNat n) = .ok e) (hrest : Stream rest)
    (hres : Resolves symbols ((Placement.mk code pos n e).entries ++ rest) image) :
    ∃ op args image', image = placeBytes n (op :: args) ++ image' ∧
      e.Becomes symbols n op args ∧ Resolves symbols rest image' := by
  obtain ⟨op, fields⟩ := e
  change Resolves symbols (⟨UInt16.ofNat n, .byte op⟩ ::
    (placeFrom (n + 1) (fields.flatMap (fieldCells pos)) ++ rest)) image at hres
  by_cases hp : ∃ name, Field.label name .page ∈ fields
  · obtain ⟨name, hp⟩ := hp
    obtain rfl : fields = [.label name .page] := page_alone h hp
    cases hres with
    | byte rest => cases rest
    | page found folded rest =>
      refine ⟨_, _, _, rfl, .page found ?_, rest⟩
      rwa [UInt16.ofNat_add, UInt16.add_assoc] at folded
  · have hp := not_exists.mp hp
    obtain ⟨image₁, rfl, htail⟩ := hres.of_byte (stream_fields hrest _ hp)
    obtain ⟨args, image', rfl, hw, hr⟩ := resolves_fields hrest hp htail
    exact ⟨op, args, image', rfl, .plain hw, hr⟩

theorem resolves_of_written {pos : Pos} {rest : List Entry} {image : Image}
    (hrest : Resolves symbols rest image) : ∀ {fields : List Field} {n : Nat} {args : List UInt8},
      Written symbols n fields args →
      Resolves symbols (placeFrom n (fields.flatMap (fieldCells pos)) ++ rest)
        (placeBytes n args ++ image)
  | [], _, _, h => by
    cases h
    exact hrest
  | f :: fields, n, args, h => by
    cases h with
    | byte h => exact .byte (resolves_of_written hrest h)
    | relative found reached h => exact .relative found reached (resolves_of_written hrest h)
    | absolute found h => exact .absolute found (resolves_of_written hrest h)

/-- **Linking sees of an instruction only what it becomes**: the bytes that its encoding becomes
stand before those of what follows it. -/
theorem resolves_placement_iff {code : Text} {pos : Pos} {n : Nat} {e : Encoding}
    {rest : List Entry} {image : Image} (h : assemble code (UInt16.ofNat n) = .ok e)
    (hrest : Stream rest) :
    Resolves symbols ((Placement.mk code pos n e).entries ++ rest) image ↔
      ∃ op args image', image = placeBytes n (op :: args) ++ image' ∧
        e.Becomes symbols n op args ∧ Resolves symbols rest image' := by
  refine ⟨resolves_placement h hrest, ?_⟩
  rintro ⟨op, args, image', rfl, hbecomes, hres⟩
  cases hbecomes with
  | plain written => exact .byte (resolves_of_written hres written)
  | page found folded =>
    refine .page found ?_ hres
    rwa [UInt16.ofNat_add, UInt16.add_assoc]

/-! ### Pieces of a stream -/

theorem Stream.append {es more : List Entry} (h : Stream es) (hmore : Stream more) :
    Stream (es ++ more) := by
  induction h with
  | nil => exact hmore
  | byte rest ih => exact .byte ih
  | relative rest ih => exact .relative ih
  | page follows rest ih => exact .page follows ih
  | absolute rest ih => exact .absolute ih

/-- There is a byte for each entry, at its address. -/
theorem Resolves.addresses {es : List Entry} {image : Image} (h : Resolves symbols es image) :
    image.map Prod.fst = es.map Entry.addr := by
  induction h with
  | nil => rfl
  | byte rest ih | relative found reached rest ih => rw [List.map_cons, ih, List.map_cons]
  | page found folded rest ih | absolute found rest ih =>
    rw [List.map_cons, List.map_cons, ih, List.map_cons, List.map_cons]

theorem Resolves.append {es more : List Entry} {image image' : Image}
    (h : Resolves symbols es image) (hmore : Resolves symbols more image') :
    Resolves symbols (es ++ more) (image ++ image') := by
  induction h with
  | nil => exact hmore
  | byte rest ih => exact .byte ih
  | relative found reached rest ih => exact .relative found reached ih
  | page found folded rest ih => exact .page found folded ih
  | absolute found rest ih => exact .absolute found ih

/-- The bytes of two streams in a row are those of the first, then those of the second. -/
theorem resolves_append {es more : List Entry} {image : Image} (h : Stream es)
    (hmore : Stream more) :
    Resolves symbols (es ++ more) image ↔ ∃ front back, image = front ++ back ∧
      Resolves symbols es front ∧ Resolves symbols more back := by
  constructor
  · induction h generalizing image with
    | nil => exact fun hr => ⟨[], image, rfl, .nil, hr⟩
    | byte rest ih =>
      intro hr
      obtain ⟨image₁, rfl, htail⟩ := Resolves.of_byte hr (rest.append hmore)
      obtain ⟨front, back, rfl, hf, hb⟩ := ih htail
      exact ⟨_ :: front, back, rfl, .byte hf, hb⟩
    | relative rest ih =>
      intro hr
      cases hr with | relative found reached htail =>
        obtain ⟨front, back, rfl, hf, hb⟩ := ih htail
        exact ⟨_ :: front, back, rfl, .relative found reached hf, hb⟩
    | page follows rest ih =>
      intro hr
      cases hr with
      | byte htail => cases htail
      | page found folded htail =>
        obtain ⟨front, back, rfl, hf, hb⟩ := ih htail
        exact ⟨_ :: _ :: front, back, rfl, .page found folded hf, hb⟩
    | absolute rest ih =>
      intro hr
      cases hr with | absolute found htail =>
        obtain ⟨front, back, rfl, hf, hb⟩ := ih htail
        exact ⟨_ :: _ :: front, back, rfl, .absolute found hf, hb⟩
  · rintro ⟨front, back, rfl, hf, hb⟩
    exact hf.append hb

/-- What entries resolve to is what linking writes on top of what is there. -/
theorem Resolves.linkFrom {es : List Entry} {image : Image} (h : Resolves symbols es image) :
    Stream es → ∀ l : Linking, ∃ l', linkFrom symbols l es = (l', none) ∧
      l'.written = image.reverse ++ l.written := by
  induction h with
  | nil => exact fun _ l => ⟨l, rfl, rfl⟩
  | @byte a b es image rest ih =>
    intro hs l
    cases hs with
    | byte hs =>
      obtain ⟨l', hl, hw⟩ := ih hs ((l.look ⟨a, .byte b⟩).write a b)
      exact ⟨l', hl, hw.trans (by simp [Linking.write, Linking.look])⟩
    | page follows hs => cases rest
  | @relative a target name pos d es image found reached rest ih =>
    intro hs l
    cases hs with | relative hs =>
      obtain ⟨l', hl, hw⟩ := ih hs ((l.look ⟨a, .label name pos .relative⟩).write a d)
      refine ⟨l', ?_, hw.trans (by simp [Linking.write, Linking.look])⟩
      simp only [Object.linkFrom, found, reached]
      exact hl
  | @page a a' target op op' name pos es image found folded rest ih =>
    intro hs l
    cases hs with
    | byte hs => cases hs
    | page follows hs =>
      obtain ⟨l', hl, hw⟩ := ih hs ⟨(a', lowByte target) :: (a, op') :: l.written,
        ⟨a', .label name pos .page⟩ :: ⟨a, .byte op⟩ :: l.seen⟩
      refine ⟨l', ?_, hw.trans (by simp)⟩
      simp only [Object.linkFrom, found, Linking.writePaged, Linking.look, Linking.write,
        if_pos follows, folded]
      exact hl
  | @absolute a a' target name pos es image found rest ih =>
    intro hs l
    cases hs with | absolute hs =>
      obtain ⟨l', hl, hw⟩ := ih hs
        (((l.look ⟨a, .label name pos .absolute⟩).write a (highByte target)).write a'
          (lowByte target))
      refine ⟨l', ?_, hw.trans (by simp [Linking.write, Linking.look])⟩
      simp only [Object.linkFrom, found]
      exact hl

/-- **Linking a stream** gives the bytes that it resolves to, and fails if there are none. -/
theorem link_ok_iff_resolves {es : List Entry} {image : Image} (h : Stream es) :
    link symbols es = .ok image ↔ Resolves symbols es image := by
  refine ⟨link_ok h, fun hr => ?_⟩
  obtain ⟨l, hl, hw⟩ := hr.linkFrom h ⟨[], []⟩
  rw [link, hl]
  simp [hw]

end Mcs51.Object
