import Mathlib.Data.List.Chain
import Mcs51.Object.HexRecord
import Mcs51.Proofs.Object.Stream
import Mcs51.Proofs.Text.Numeral
import Mcs51.Proofs.Text.Parts

/-! # Hex files read back

A reader of hex files, made from the rules of the format and not from the writer: a record is a
colon and pairs of hexadecimal digits, its first byte counts its data, all its bytes sum to zero,
and only the last record of a file is not one of data (`HexRecord.ofLine?`, `readHexFile?`).

`Grouped` says what records are like that hold the bytes of an image: each has one to sixteen bytes
at consecutive addresses, and none could have been joined to the one before it. Adding a byte keeps
this (`Grouped.add`), so the records of an image have it.

Main statement: `hexText_reads_back`, a hex file reads back as the image it was written for. -/

namespace Mcs51.Object

open Instruction

/-! ### The reader -/

/-- The bytes of a text that is made of pairs of hexadecimal digits. -/
def readBytes? : Text → Option (List UInt8)
  | [] => some []
  | [_] => none
  | a :: b :: rest =>
    match Text.digitValue? a, Text.digitValue? b with
    | some x, some y => (readBytes? rest).map (UInt8.ofNat (x * 16 + y) :: ·)
    | _, _ => none

/-- The record on a line. Its bytes are the count of its data, the two bytes of its address, its
kind, its data and its checksum, and they sum to zero. -/
def HexRecord.ofLine? (line : Text) : Option HexRecord :=
  match line with
  | ':' :: digits =>
    match readBytes? digits with
    | some (count :: high :: low :: kind :: rest) =>
      if count.toNat + 1 = rest.length ∧
          (count :: high :: low :: kind :: rest).foldl (· + ·) 0 = 0 then
        some ⟨wordAddress high low, kind, rest.dropLast⟩
      else none
    | _ => none
  | _ => none

/-- The line that closes a hex file. -/
def closingLine : Text := ":00000001FF".toList

/-- The data records on the lines of a hex file. After them comes the closing line and nothing
else. -/
def readHexLines? : List Text → Option (List HexRecord)
  | [] => none
  | [last] => if last = closingLine then some [] else none
  | line :: rest =>
    match HexRecord.ofLine? line with
    | some r => if r.kind = 0 then (readHexLines? rest).map (r :: ·) else none
    | none => none

/-- The data records of a hex file. -/
def readHexFile? (text : Text) : Option (List HexRecord) := readHexLines? text.lines

/-- The bytes of a record at their addresses. -/
def HexRecord.bytes (r : HexRecord) : Image := placeBytes r.addr.toNat r.data

/-! ### Records -/

theorem readBytes?_hexByte (b : UInt8) (t : Text) :
    readBytes? (Text.hexByte b ++ t) = (readBytes? t).map (b :: ·) := by
  have hb := b.toNat_lt
  have hpair : UInt8.ofNat (b.toNat / 16 * 16 + b.toNat % 16) = b := by
    rw [Nat.div_add_mod']
    exact UInt8.ofNat_toNat
  rw [Text.hexByte, Text.hex_byte hb, List.cons_append, List.cons_append, List.nil_append,
    readBytes?, Text.digitValue?_upperDigit (by omega), Text.digitValue?_upperDigit (by omega)]
  simp only [hpair]

/-- The digits of bytes read as the bytes. -/
theorem readBytes?_flatMap (bs : List UInt8) : readBytes? (bs.flatMap Text.hexByte) = some bs := by
  induction bs with
  | nil => rfl
  | cons b bs ih => rw [List.flatMap_cons, readBytes?_hexByte, ih, Option.map_some]

namespace HexRecord

/-- The bytes that the line of a record spells. -/
def spelled (r : HexRecord) : List UInt8 :=
  UInt8.ofNat r.data.length :: highByte r.addr :: lowByte r.addr :: r.kind ::
    (r.data ++ [r.checksum])

theorem text_eq {r : HexRecord} (h : r.data.length < 256) :
    r.text = ':' :: r.spelled.flatMap Text.hexByte := by
  have hcount : Text.hexByte (UInt8.ofNat r.data.length) = Text.hex 2 r.data.length := by
    rw [Text.hexByte, UInt8.toNat_ofNat', Nat.mod_eq_of_lt h]
  have haddr : Text.hexWord r.addr =
      Text.hexByte (highByte r.addr) ++ Text.hexByte (lowByte r.addr) := by
    rw [Text.hexWord, Text.hex_word, Text.hexByte, Text.hexByte, toNat_highByte, toNat_lowByte]
  simp [text, spelled, hcount, haddr]

/-- The checksum brings the bytes of a record to zero. -/
theorem sum_spelled (r : HexRecord) : r.spelled.foldl (· + ·) 0 = 0 := by
  simp only [spelled, List.foldl_cons, List.foldl_append, List.foldl_nil, UInt8.zero_add, checksum]
  generalize r.data.foldl (· + ·) _ = total
  grind

/-- **A record reads back from its line.** -/
theorem ofLine?_text {r : HexRecord} (h : r.data.length < 256) : ofLine? r.text = some r := by
  have hsum := r.sum_spelled
  have hcount : (UInt8.ofNat r.data.length).toNat + 1 = (r.data ++ [r.checksum]).length := by
    rw [UInt8.toNat_ofNat', Nat.mod_eq_of_lt h, List.length_append, List.length_singleton]
  rw [text_eq h, ofLine?]
  simp only [readBytes?_flatMap]
  unfold spelled at hsum ⊢
  simp only
  rw [if_pos ⟨hcount, hsum⟩, wordAddress_bytes, List.dropLast_concat]

end HexRecord

/-! ### Files -/

/-- Data records and a closing line read as the records. -/
theorem readHexLines?_append : ∀ {rs : List HexRecord},
    (∀ r ∈ rs, r.kind = 0 ∧ r.data.length < 256) →
      readHexLines? (rs.map HexRecord.text ++ [closingLine]) = some rs
  | [], _ => rfl
  | r :: rs, h => by
    obtain ⟨hkind, hlen⟩ := h r (by simp)
    have ih := readHexLines?_append fun q hq => h q (List.mem_cons_of_mem r hq)
    cases hrest : rs.map HexRecord.text ++ [closingLine] with
    | nil => simp at hrest
    | cons line rest =>
      rw [hrest] at ih
      rw [List.map_cons, List.cons_append, hrest, readHexLines?, HexRecord.ofLine?_text hlen]
      · simp only [if_pos hkind, ih, Option.map_some]
      · simp

/-- Every character of a record is a colon or a digit. -/
theorem HexRecord.mem_text {r : HexRecord} (h : r.data.length < 256) :
    ∀ c ∈ r.text, c = ':' ∨ Text.isUpperHex c = true := by
  intro c hc
  rw [text_eq h] at hc
  rcases List.mem_cons.mp hc with rfl | hc
  · exact Or.inl rfl
  · obtain ⟨b, -, hb⟩ := List.mem_flatMap.mp hc
    have hhex := Text.forall_hex (P := fun c => Text.isUpperHex c = true)
      Text.isUpperHex_upperDigit 2 b.toNat
    exact Or.inr (hhex c hb)

theorem HexRecord.text_closing : closing.text = closingLine := by decide

/-- The lines of a hex file. -/
theorem lines_hexText {image : Image} (h : ∀ r ∈ hexRecords image, r.data.length < 256) :
    (hexText image).lines = (hexRecords image).map HexRecord.text := by
  have hunlines : hexText image = Text.unlines ((hexRecords image).map HexRecord.text) := by
    rw [hexText, Text.unlines, List.flatMap_map]
  rw [hunlines]
  refine Text.lines_unlines fun l hl => ?_
  obtain ⟨r, hr, rfl⟩ := List.mem_map.mp hl
  have hchars := HexRecord.mem_text (h r hr)
  constructor
  · intro hn
    rcases hchars _ hn with h | h <;> revert h <;> decide
  · intro hlast
    rcases hchars _ (List.mem_of_getLast? hlast) with h | h <;> revert h <;> decide

/-! ### Grouping -/

/-- The byte after a record would not have fitted into it. -/
def Apart (r r' : HexRecord) : Prop :=
  r.data.length = 16 ∨ r'.addr.toNat ≠ r.addr.toNat + r.data.length

/-- A record of data: one to sixteen bytes, whose addresses do not run past the last one. -/
structure HexRecord.IsData (r : HexRecord) : Prop where
  kind : r.kind = 0
  nonempty : 1 ≤ r.data.length
  short : r.data.length ≤ 16
  unwrapped : r.addr.toNat + r.data.length ≤ 65536

/-- Records, latest first, that hold the bytes of an image. -/
structure Grouped (records : List HexRecord) (image : Image) : Prop where
  data : ∀ r ∈ records, r.IsData
  apart : records.IsChain fun r' r => Apart r r'
  bytes : records.reverse.flatMap HexRecord.bytes = image

theorem placeBytes_append (bs cs : List UInt8) : ∀ n : Nat,
    placeBytes n (bs ++ cs) = placeBytes n bs ++ placeBytes (n + bs.length) cs := by
  induction bs with
  | nil => exact fun n => rfl
  | cons b bs ih =>
    intro n
    rw [List.cons_append, placeBytes, placeBytes, ih, List.length_cons, List.cons_append,
      Nat.add_right_comm, Nat.add_assoc]

theorem HexRecord.bytes_single (a : UInt16) (kind b : UInt8) :
    HexRecord.bytes ⟨a, kind, [b]⟩ = [(a, b)] := by
  simp [bytes, placeBytes]

theorem HexRecord.isData_single (a : UInt16) (b : UInt8) :
    HexRecord.IsData ⟨a, HexRecord.dataKind, [b]⟩ :=
  ⟨rfl, Nat.le_refl 1, show 1 ≤ 16 by decide, a.toNat_lt⟩

/-- A byte that follows on the latest record and finds room in it joins it. -/
theorem Grouped.join {r : HexRecord} {rest : List HexRecord} {image : Image} {a : UInt16}
    {b : UInt8} (h : Grouped (r :: rest) image) (hnext : a.toNat = r.addr.toNat + r.data.length)
    (hroom : r.data.length < 16) :
    Grouped ({ r with data := r.data ++ [b] } :: rest) (image ++ [(a, b)]) := by
  have hr := h.data r (by simp)
  have haddr : UInt16.ofNat (r.addr.toNat + r.data.length) = a := by
    rw [← hnext]
    exact UInt16.ofNat_toNat
  have ha := a.toNat_lt
  have hlen : (r.data ++ [b]).length = r.data.length + 1 := by simp
  refine ⟨fun q hq => ?_, ?_, ?_⟩
  · rcases List.mem_cons.mp hq with rfl | hq
    · refine ⟨hr.kind, ?_, ?_, ?_⟩ <;> simp only [hlen] <;> omega
    · exact h.data q (by simp [hq])
  · have hchain := h.apart
    rw [List.isChain_cons] at hchain ⊢
    exact hchain
  · rw [← h.bytes]
    simp [HexRecord.bytes, placeBytes_append, placeBytes, haddr]

/-- Any other byte opens a record, which could not have been joined to the latest one. -/
theorem Grouped.open {r : HexRecord} {rest : List HexRecord} {image : Image} {a : UInt16}
    {b : UInt8} (h : Grouped (r :: rest) image)
    (hjoin : ¬ (a.toNat = r.addr.toNat + r.data.length ∧ r.data.length < 16)) :
    Grouped (⟨a, HexRecord.dataKind, [b]⟩ :: r :: rest) (image ++ [(a, b)]) := by
  have hr := h.data r (by simp)
  refine ⟨fun q hq => ?_, ?_, ?_⟩
  · rcases List.mem_cons.mp hq with rfl | hq
    · exact HexRecord.isData_single a b
    · exact h.data q hq
  · rw [List.isChain_cons_cons]
    refine ⟨?_, h.apart⟩
    by_cases heq : a.toNat = r.addr.toNat + r.data.length
    · have hfull : 16 ≤ r.data.length :=
        Nat.not_lt.mp fun hlt => hjoin ⟨heq, hlt⟩
      exact Or.inl (Nat.le_antisymm hr.short hfull)
    · exact Or.inr heq
  · rw [List.reverse_cons, List.flatMap_append, h.bytes, List.flatMap_singleton,
      HexRecord.bytes_single]

/-- **One byte more.** Adding a byte to records that hold an image gives records that hold the image
with the byte at its end. -/
theorem Grouped.add {records : List HexRecord} {image : Image} (h : Grouped records image)
    (p : UInt16 × UInt8) : Grouped (HexRecord.add records p) (image ++ [p]) := by
  obtain ⟨a, b⟩ := p
  cases records with
  | nil =>
    obtain rfl : image = [] := h.bytes.symm
    refine ⟨fun q hq => ?_, .singleton _, ?_⟩
    · rw [List.mem_singleton.mp hq]
      exact HexRecord.isData_single a b
    · simp [HexRecord.add, HexRecord.bytes_single]
  | cons r rest =>
    by_cases hjoin : a.toNat = r.next ∧ r.data.length < HexRecord.maxData
    · rw [HexRecord.add, if_pos hjoin]
      exact h.join hjoin.1 hjoin.2
    · rw [HexRecord.add, if_neg hjoin]
      exact h.open hjoin

theorem grouped_foldl (image : Image) : ∀ {records : List HexRecord} {done : Image},
    Grouped records done → Grouped (image.foldl HexRecord.add records) (done ++ image) := by
  induction image with
  | nil => exact fun h => by simpa using h
  | cons p image ih =>
    intro records done h
    have hstep := ih (h.add p)
    rwa [List.append_assoc, List.singleton_append] at hstep

/-- **A hex file reads back as its image.** The reader accepts the file; the bytes of its data
records, in their order and each at its address, are the image. A record has one to sixteen bytes
whose addresses do not wrap, and no record could have been joined to the one before it. -/
theorem hexText_reads_back (image : Image) :
    ∃ records, readHexFile? (hexText image) = some records ∧
      records.flatMap HexRecord.bytes = image ∧ (∀ r ∈ records, r.IsData) ∧
      records.IsChain Apart := by
  have hgrouped : Grouped (image.foldl HexRecord.add []) image :=
    grouped_foldl image ⟨by simp, List.IsChain.nil, rfl⟩
  refine ⟨(image.foldl HexRecord.add []).reverse, ?_, hgrouped.bytes, fun r hr => ?_, ?_⟩
  · have hshort (r : HexRecord) (hr : r ∈ (image.foldl HexRecord.add []).reverse) :
        r.kind = 0 ∧ r.data.length < 256 := by
      have hdata := hgrouped.data r (List.mem_reverse.mp hr)
      exact ⟨hdata.kind, Nat.lt_of_le_of_lt hdata.short (by decide)⟩
    have hlines : (hexText image).lines = (hexRecords image).map HexRecord.text := by
      refine lines_hexText fun r hr => ?_
      rcases List.mem_append.mp hr with hr | hr
      · exact (hshort r hr).2
      · rw [List.mem_singleton.mp hr]
        decide
    rw [readHexFile?, hlines, hexRecords, List.map_append, List.map_singleton,
      HexRecord.text_closing]
    exact readHexLines?_append hshort
  · exact hgrouped.data r (List.mem_reverse.mp hr)
  · rw [List.isChain_reverse]
    exact hgrouped.apart

/-- The byte after the last address opens a record of its own. -/
example : hexText [(0xFFFF, 0xAA), (0x0000, 0x55)] =
    ":01FFFF00AA57\n:0100000055AA\n:00000001FF\n".toList := by
  decide

end Mcs51.Object
