import Mcs51.Proofs.Object.Stream

/-! # Which branches can be linked

A branch holds one signed byte: the processor adds it to the address after that byte, and goes
round from the end of memory to its beginning and back. `Branches` says this of a byte and an
address, and nothing about how an assembler finds the byte.

Linking takes the distance from the address after the byte to the label as a plain difference, so it
does not go round: a label just past address 0 is out of reach from the last bytes of memory
(`not_accepted_across_zero`). Otherwise it accepts what the processor can do, and in every case what
it accepts is right (`relative_accepted_iff`). -/

namespace Mcs51.Object

open Instruction

/-- From the byte at an address, the processor gets to the target by a displacement. -/
structure Branches (a target : UInt16) (d : Int) : Prop where
  low : -128 ≤ d
  high : d ≤ 127
  lands : ((a.toNat : Int) + 1 + d) % 65536 = target.toNat

/-- It does so without going round. After the last byte of memory the next address is 0, and the
displacement is added to that. -/
structure BranchesWithin (a target : UInt16) (d : Int) : Prop extends Branches a target d where
  direct : a ≠ 0xFFFF → (a.toNat : Int) + 1 + d = target.toNat

/-- Linking writes this byte for an entry, and goes on. -/
def Accepts (symbols : Table Text UInt16) (e : Entry) (b : UInt8) : Prop :=
  ∀ l rest, linkFrom symbols l (e :: rest) = linkFrom symbols ((l.look e).write e.addr b) rest

/-- Linking ends with an error when it comes to an entry. -/
def Refuses (symbols : Table Text UInt16) (e : Entry) (err : Error) : Prop :=
  ∀ l rest, linkFrom symbols l (e :: rest) = (l.look e, some err)

/-! ### Distances -/

section

variable {a next target : UInt16} {b : UInt8} {d : Int}

theorem displacement_eq_ok_iff : displacement next target = .ok b ↔
    ∃ d : Int, -128 ≤ d ∧ d ≤ 127 ∧ next.toNat + d = target.toNat ∧ b = UInt8.ofInt d := by
  unfold displacement
  simp only
  constructor
  · intro h
    split_ifs at h with hrange
    exact ⟨_, hrange.1, hrange.2, by omega, (Except.ok.inj h).symm⟩
  · rintro ⟨d, hlow, hhigh, hsum, rfl⟩
    have hd : (target.toNat : Int) - next.toNat = d := by omega
    rw [hd, if_pos ⟨hlow, hhigh⟩]

/-- A plain distance is one that the processor can do. -/
theorem branches_of_distance (hlow : -128 ≤ d) (hhigh : d ≤ 127)
    (hsum : (a + 1).toNat + d = target.toNat) : Branches a target d := by
  have htarget := target.toNat_lt
  rw [UInt16.toNat_add, UInt16.toNat_one] at hsum
  exact ⟨hlow, hhigh, by omega⟩

/-- **Not to go round is to have a plain distance**, except from the last byte of memory back. -/
theorem branchesWithin_iff (hlast : a = 0xFFFF → target.toNat < 0xFF80) :
    BranchesWithin a target d ↔ -128 ≤ d ∧ d ≤ 127 ∧ (a + 1).toNat + d = target.toNat := by
  have ha := a.toNat_lt
  have htarget := target.toNat_lt
  have htop : a = 0xFFFF ↔ a.toNat = 65535 := UInt16.toNat_inj.symm
  rw [UInt16.toNat_add, UInt16.toNat_one]
  rw [htop] at hlast
  constructor
  · rintro ⟨⟨hlow, hhigh, hlands⟩, hdirect⟩
    rw [ne_eq, htop] at hdirect
    exact ⟨hlow, hhigh, by omega⟩
  · rintro ⟨hlow, hhigh, hsum⟩
    refine ⟨⟨hlow, hhigh, by omega⟩, fun hne => ?_⟩
    rw [ne_eq, htop] at hne
    omega

end

/-! ### Entries -/

section

variable {symbols : Table Text UInt16} {name : Text} {pos : Pos} {a target : UInt16} {b : UInt8}

theorem accepts_iff_displacement (found : symbols.lookup name = some target) :
    Accepts symbols ⟨a, .label name pos .relative⟩ b ↔ displacement (a + 1) target = .ok b := by
  constructor
  · intro h
    have hlast := h ⟨[], []⟩ []
    simp only [linkFrom, found] at hlast
    cases hd : displacement (a + 1) target with
    | error p =>
      rw [hd] at hlast
      cases (Prod.mk.inj hlast).2
    | ok d =>
      rw [hd] at hlast
      obtain ⟨hwritten, -⟩ := Linking.mk.inj (Prod.mk.inj hlast).1
      rw [(Prod.mk.inj (List.cons.inj hwritten).1).2]
  · intro h l rest
    simp only [linkFrom, found, h]

/-- **A relative label is accepted exactly if it has a plain distance in reach.** -/
theorem accepts_iff_distance (found : symbols.lookup name = some target) :
    Accepts symbols ⟨a, .label name pos .relative⟩ b ↔
      ∃ d : Int, -128 ≤ d ∧ d ≤ 127 ∧ (a + 1).toNat + d = target.toNat ∧ b = UInt8.ofInt d :=
  (accepts_iff_displacement found).trans displacement_eq_ok_iff

/-- A relative label that has no distance in reach is an error at the line that uses it. -/
theorem refuses_of_distance (found : symbols.lookup name = some target)
    (h : ¬ ∃ d : Int, -128 ≤ d ∧ d ≤ 127 ∧ (a + 1).toNat + d = target.toNat) :
    Refuses symbols ⟨a, .label name pos .relative⟩ ⟨.tooFar target (a + 1), some pos⟩ := by
  have hreach : ¬ Reaches (a + 1) target .relative := fun hr => h ⟨_, hr.1, hr.2, by omega⟩
  intro l rest
  simp only [linkFrom, found, displacement_error hreach]
  rfl

end

/-- **Which relative labels are accepted.** Whatever address a label has, if linking accepts it in a
branch then the byte it writes takes the processor there. Apart from branches that go back from the
last byte of memory, it accepts a label exactly if some displacement gets there without going round,
and reports any other as out of reach, at the line that uses it. -/
theorem relative_accepted_iff {symbols : Table Text UInt16} {name : Text} {target : UInt16}
    (found : symbols.lookup name = some target) (a : UInt16) (pos : Pos) :
    let e : Entry := ⟨a, .label name pos .relative⟩
    (∀ b, Accepts symbols e b → ∃ d, Branches a target d ∧ b = UInt8.ofInt d) ∧
      ((a = 0xFFFF → target.toNat < 0xFF80) →
        (∀ b, Accepts symbols e b ↔ ∃ d, BranchesWithin a target d ∧ b = UInt8.ofInt d) ∧
          ((¬ ∃ d, BranchesWithin a target d) →
            Refuses symbols e ⟨.tooFar target (a + 1), some pos⟩)) := by
  intro e
  refine ⟨fun b hb => ?_, fun hlast => ⟨fun b => ?_, fun hnone => ?_⟩⟩
  · obtain ⟨d, hlow, hhigh, hsum, hbyte⟩ := (accepts_iff_distance found).mp hb
    exact ⟨d, branches_of_distance hlow hhigh hsum, hbyte⟩
  · simp only [accepts_iff_distance found, branchesWithin_iff hlast, e, and_assoc]
  · simp only [branchesWithin_iff hlast] at hnone
    exact refuses_of_distance found hnone

/-- The farthest label before the last address, and one from the last byte of memory on. -/
theorem relative_accepted_iff_top :
    let symbols : Table Text UInt16 := [("back".toList, 0xFF7F), ("first".toList, 5)]
    let pos : Pos := ⟨"main.asm".toList, 1⟩
    symbols.lookup "back".toList = some 0xFF7F ∧ symbols.lookup "first".toList = some 5 ∧
      Accepts symbols ⟨0xFFFE, .label "back".toList pos .relative⟩ 0x80 ∧
      Accepts symbols ⟨0xFFFF, .label "first".toList pos .relative⟩ 5 := by
  intro symbols pos
  have hback : symbols.lookup "back".toList = some 0xFF7F := by decide
  have hfirst : symbols.lookup "first".toList = some 5 := by decide
  refine ⟨hback, hfirst, ?_, ?_⟩
  · refine (((relative_accepted_iff hback 0xFFFE pos).2 (by decide)).1 0x80).mpr ⟨-128, ?_, rfl⟩
    exact ⟨⟨by decide, by decide, by decide⟩, by decide⟩
  · refine (((relative_accepted_iff hfirst 0xFFFF pos).2 (by decide)).1 5).mpr ⟨5, ?_, rfl⟩
    exact ⟨⟨by decide, by decide, by decide⟩, by decide⟩

/-- A branch from the end of memory to its beginning that the processor can do is refused. -/
theorem not_accepted_across_zero :
    let symbols : Table Text UInt16 := [("there".toList, 0)]
    let pos : Pos := ⟨"main.asm".toList, 3⟩
    let e : Entry := ⟨0xFFFD, .label "there".toList pos .relative⟩
    symbols.lookup "there".toList = some 0 ∧ Branches 0xFFFD 0 2 ∧
      Refuses symbols e ⟨.tooFar 0 0xFFFE, some pos⟩ ∧ ¬ ∃ b, Accepts symbols e b := by
  intro symbols pos e
  have found : symbols.lookup "there".toList = some 0 := by decide
  have hsum : ¬ ∃ d : Int, -128 ≤ d ∧ d ≤ 127 ∧
      ((0xFFFD + 1 : UInt16).toNat : Int) + d = (0 : UInt16).toNat := by
    rintro ⟨d, hlow, -, hsum⟩
    have hnext : (0xFFFD + 1 : UInt16).toNat = 0xFFFE := by decide
    have hzero : (0 : UInt16).toNat = 0 := rfl
    omega
  refine ⟨found, ⟨by decide, by decide, by decide⟩, refuses_of_distance found hsum, ?_⟩
  rintro ⟨b, hb⟩
  obtain ⟨d, hlow, hhigh, hd, -⟩ := (accepts_iff_distance found).mp hb
  exact hsum ⟨d, hlow, hhigh, hd⟩

end Mcs51.Object
