import Mcs51.Proofs.Source.WholeWords

/-! # Substitution run by run

A text falls into maximal runs: characters of identifiers and other characters in turn. The runs of
identifier characters are its words. `expand_maximalRuns` says of a replacement whose name is an
identifier what it does to a text, with nothing but runs: each run that is the name gives way to the
expansion, taken as it is, and every other run stays.

A text is looked at here as characters. A character of an identifier is a single byte
(`Text.utf8Size_of_isIdentChar`) and no other character has such a byte in it, so the runs are the
same if they are cut by bytes. -/

namespace Mcs51.Source

/-- A cut of a text into maximal runs, each of characters of identifiers or of other characters. -/
structure MaximalRuns (text : Text) (rs : List Text) : Prop where
  whole : rs.flatten = text
  nonempty : ∀ run ∈ rs, run ≠ []
  /-- The characters of a run are of one kind. -/
  uniform : ∀ run ∈ rs, ∀ x ∈ run, ∀ y ∈ run, Text.isIdentChar x = Text.isIdentChar y
  /-- Where a run ends, characters of the other kind begin. -/
  maximal : rs.IsChain fun a b =>
    ∀ x ∈ a.getLast?, ∀ y ∈ b.head?, Text.isIdentChar x ≠ Text.isIdentChar y

/-- The same as a check. -/
theorem maximalRuns_iff {text : Text} {rs : List Text} : MaximalRuns text rs ↔
    rs.flatten = text ∧ (∀ run ∈ rs, run ≠ []) ∧
      (∀ run ∈ rs, (run.all fun x => run.all fun y =>
        Text.isIdentChar x == Text.isIdentChar y) = true) ∧
      rs.IsChain fun a b => (a.getLast?.all fun x => b.head?.all fun y =>
        Text.isIdentChar x != Text.isIdentChar y) = true := by
  simp only [List.all_eq_true, Option.all_eq_true, beq_iff_eq, bne_iff_ne]
  exact ⟨fun h => ⟨h.whole, h.nonempty, h.uniform, h.maximal⟩,
    fun ⟨hwhole, hnonempty, huniform, hmaximal⟩ => ⟨hwhole, hnonempty, huniform, hmaximal⟩⟩

instance (text : Text) (rs : List Text) : Decidable (MaximalRuns text rs) :=
  decidable_of_iff' _ maximalRuns_iff

/-- Every text can be cut into maximal runs. -/
theorem exists_maximalRuns (text : Text) : ∃ rs, MaximalRuns text rs := by
  let sameKind (a b : Char) : Bool := Text.isIdentChar a == Text.isIdentChar b
  refine ⟨text.splitBy sameKind, List.flatten_splitBy _ _,
    fun run hrun => List.ne_nil_of_mem_splitBy hrun, fun run hrun => ?_, ?_⟩
  · have hchain : run.IsChain fun x y => Text.isIdentChar x = Text.isIdentChar y := by
      simpa [sameKind] using List.isChain_of_mem_splitBy hrun
    have hsymm : Std.Symm fun x y => Text.isIdentChar x = Text.isIdentChar y := ⟨fun _ _ => Eq.symm⟩
    have hall := List.Pairwise.forall_of_forall
      (R := fun x y => Text.isIdentChar x = Text.isIdentChar y) (fun _ _ => rfl)
      (List.isChain_iff_pairwise.mp hchain)
    exact fun x hx y hy => hall hx hy
  · refine (List.isChain_getLast_head_splitBy sameKind text).imp ?_
    rintro a b ⟨ha, hb, hkind⟩ x hx y hy
    obtain rfl : a.getLast ha = x := by simpa [List.getLast?_eq_getLast_of_ne_nil ha] using hx
    obtain rfl : b.head hb = y := by simpa [List.head?_eq_some_head hb] using hy
    simpa [sameKind] using hkind

namespace MaximalRuns

variable {run : Text} {rs : List Text}

/-- Without its first run a text is cut like before. -/
theorem tail (h : MaximalRuns (run ++ rs.flatten) (run :: rs)) : MaximalRuns rs.flatten rs :=
  ⟨rfl, fun r hr => h.nonempty r (List.mem_cons_of_mem _ hr),
    fun r hr => h.uniform r (List.mem_cons_of_mem _ hr), h.maximal.tail⟩

/-- After a run of identifier characters no word goes on. -/
theorem endsWord_tail (h : MaximalRuns (run ++ rs.flatten) (run :: rs))
    (hword : ∀ c ∈ run, Text.isIdentChar c = true) : endsWord rs.flatten = true := by
  cases rs with
  | nil => rfl
  | cons next rs =>
    obtain ⟨c, rest, rfl⟩ := List.exists_cons_of_ne_nil (h.nonempty next (by simp))
    have hne := h.nonempty run List.mem_cons_self
    have hlast : run.getLast hne ∈ run.getLast? := by
      simp [List.getLast?_eq_getLast_of_ne_nil hne]
    have hkind := (List.isChain_cons_cons.mp h.maximal).1 _ hlast c rfl
    rw [hword _ (List.getLast_mem hne)] at hkind
    simpa [endsWord] using hkind.symm

end MaximalRuns

section

variable {name : Text} (hname : ∀ c ∈ name, Text.isIdentChar c = true)
include hname

/-- Characters that are in no word stay. -/
theorem substitute_others (new : Text) {t : Text} : ∀ {u : Text},
    (∀ c ∈ u, Text.isIdentChar c = false) →
      substitute name new (u ++ t) = u ++ substitute name new t
  | [], _ => rfl
  | c :: u, hu => by
    rw [List.cons_append, substitute_cons hname new (hu c (by simp)),
      substitute_others new fun x hx => hu x (List.mem_cons_of_mem _ hx), List.cons_append]

/-- **A substitution goes run by run.** -/
theorem substitute_maximalRuns (new : Text) : ∀ {rs : List Text},
    MaximalRuns rs.flatten rs → substitute name new rs.flatten = rs.flatMap (swap name new)
  | [], _ => rfl
  | run :: rs, h => by
    have hrest := substitute_maximalRuns new h.tail
    have hne := h.nonempty run List.mem_cons_self
    obtain ⟨c, hc⟩ := List.exists_mem_of_ne_nil run hne
    have hkind := fun x hx => h.uniform run List.mem_cons_self x hx c hc
    rw [List.flatten_cons, List.flatMap_cons, ← hrest]
    cases hident : Text.isIdentChar c with
    | true =>
      have hword : ∀ x ∈ run, Text.isIdentChar x = true := fun x hx => (hkind x hx).trans hident
      exact substitute_word hne hword (h.endsWord_tail hword)
    | false =>
      have hother : ∀ x ∈ run, Text.isIdentChar x = false := fun x hx => (hkind x hx).trans hident
      have hswap : swap name new run = run := by
        rw [swap, sameWord_of_mem hname hc hident]
        rfl
      rw [substitute_others hname new hother, hswap]

end

/-- **Replacing an identifier is done once, word by word.** It succeeds on every text and whatever
the expansion is, which may be empty, may mention the name and may look like a placeholder. Any text
has a cut into maximal runs, and on any such cut the result is the runs in their order, with the
expansion in the place of each run that is the name, letter case aside. -/
theorem expand_maximalRuns {r : Replacement} (h : r.name.isIdent = true) (text : Text) :
    (∃ rs, MaximalRuns text rs) ∧
      ∀ rs, MaximalRuns text rs → r.expand text = .ok (rs.flatMap (swap r.name r.expansion)) := by
  have hname := (isIdentChar_of_isIdent h).2
  refine ⟨exists_maximalRuns text, fun rs hrs => ?_⟩
  obtain rfl := hrs.whole
  rw [Replacement.expand_eq h, substitute_maximalRuns hname r.expansion hrs]

/-- Words next to each other, a longer word that has the name in it, and an expansion that mentions
the name and the first placeholder. -/
theorem expand_maximalRuns_bump :
    let r : Replacement := ⟨"x".toList, "X+__macro0__".toList⟩
    let text := "X,xé+x1 ;x".toList
    let rs := ["X", ",", "x", "é+", "x1", " ;", "x"].map String.toList
    r.name.isIdent = true ∧ MaximalRuns text rs ∧
      r.expand text = .ok "X+__macro0__,X+__macro0__é+x1 ;X+__macro0__".toList := by
  intro r text rs
  have hruns : MaximalRuns text rs := by decide
  exact ⟨by decide, hruns, (expand_maximalRuns (r := r) (by decide) text).2 rs hruns⟩

end Mcs51.Source
