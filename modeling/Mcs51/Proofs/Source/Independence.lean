import Mcs51.Proofs.Source.WholeWords
import Mcs51.Source.Preprocessor

/-! # Independent replacements

Two replacements are independent if they have different names and neither expansion has the name of
the other for a word. Either may mention its own name. One after the other they come to a single
substitution that looks at the words of the text as it was (`substitute_substitute_of_avoids`),
so it makes no difference which of them is applied first (`expand_commutes`).

The same then holds of any number of them (`expandAll_perm`), and with it of the order in which
names are predefined (`enter_perm`). -/

namespace Mcs51.Source

/-- Neither replacement has to do with the other. -/
structure Replacement.Independent (r s : Replacement) : Prop where
  names : r.name.sameWord s.name = false
  left : Avoids s.name r.expansion
  right : Avoids r.name s.expansion

/-- **Two substitutions in a row** look at the words of the first text only, if the first puts in
nothing that the second replaces. -/
theorem substitute_substitute_of_avoids {name new other : Text}
    (hname : ∀ c ∈ name, Text.isIdentChar c = true) (h : Avoids other new) (text more : Text) :
    substitute other more (substitute name new text) =
      (pieces text).flatMap fun w => if w.sameWord name then new else swap other more w := by
  rw [substitute, pieces_substitute hname, List.flatMap_assoc]
  refine List.flatMap_congr fun w _ => ?_
  cases Text.sameWord w name with
  | true => exact substitute_of_none h
  | false => exact List.flatMap_singleton _ _

namespace Replacement

variable {r s : Replacement}

theorem Independent.symm (h : r.Independent s) : s.Independent r := by
  refine ⟨?_, h.right, h.left⟩
  rw [Text.sameWord, Bool.beq_comm]
  exact h.names

/-- A word is the name of at most one of the two. -/
theorem Independent.sameWord (h : r.Independent s) {w : Text} (hw : w.sameWord r.name = true) :
    w.sameWord s.name = false := by
  rw [Text.sameWord, Text.sameWord_iff.mp hw]
  exact h.names

theorem Independent.substitute_comm (h : r.Independent s) (hr : r.name.isIdent = true)
    (hs : s.name.isIdent = true) (text : Text) :
    substitute s.name s.expansion (substitute r.name r.expansion text) =
      substitute r.name r.expansion (substitute s.name s.expansion text) := by
  rw [substitute_substitute_of_avoids (isIdentChar_of_isIdent hr).2 h.left,
    substitute_substitute_of_avoids (isIdentChar_of_isIdent hs).2 h.right]
  refine List.flatMap_congr fun w _ => ?_
  unfold swap
  cases hw : Text.sameWord w r.name with
  | true => simp [h.sameWord hw]
  | false => simp

/-- **Independent replacements commute.** Both orders succeed on every text and give the same. -/
theorem expand_commutes (hr : r.name.isIdent = true) (hs : s.name.isIdent = true)
    (h : r.Independent s) (text : Text) :
    ∃ a b t, r.expand text = .ok a ∧ s.expand a = .ok t ∧ s.expand text = .ok b ∧
      r.expand b = .ok t :=
  ⟨_, _, _, expand_eq hr text, expand_eq hs _, expand_eq hs text,
    by rw [expand_eq hr, h.substitute_comm hr hs]⟩

/-- Two replacements that mention their own names, one of which brings in the first placeholder. In
the text the names stand next to each other's and in a longer word. -/
theorem expand_commutes_counters :
    let r : Replacement := ⟨"i".toList, "(I+1)".toList⟩
    let s : Replacement := ⟨"J".toList, "__macro0__+j".toList⟩
    r.name.isIdent = true ∧ s.name.isIdent = true ∧ r.Independent s ∧
      ∃ a b t, r.expand "i,J+ij;j-I".toList = .ok a ∧ s.expand a = .ok t ∧
        s.expand "i,J+ij;j-I".toList = .ok b ∧ r.expand b = .ok t ∧
        a = "(I+1),J+ij;j-(I+1)".toList ∧ b = "i,__macro0__+j+ij;__macro0__+j-I".toList := by
  intro r s
  have hind : r.Independent s := ⟨by decide, by decide, by decide⟩
  obtain ⟨a, b, t, ha, ht, hb, ht'⟩ :=
    expand_commutes (r := r) (s := s) (by decide) (by decide) hind "i,J+ij;j-I".toList
  have hfirst : r.expand "i,J+ij;j-I".toList = .ok "(I+1),J+ij;j-(I+1)".toList := by decide
  have hsecond : s.expand "i,J+ij;j-I".toList = .ok "i,__macro0__+j+ij;__macro0__+j-I".toList := by
    decide
  refine ⟨by decide, by decide, hind, a, b, t, ha, ht, hb, ht', ?_, ?_⟩
  · exact Except.ok.inj (ha.symm.trans hfirst)
  · exact Except.ok.inj (hb.symm.trans hsecond)

/-- **Independent replacements may be applied in any order.** -/
theorem expandAll_perm {rs rs' : List Replacement} (hperm : rs.Perm rs')
    (hnames : ∀ r ∈ rs, r.name.isIdent = true) (hind : rs.Pairwise Independent) :
    ∀ text, expandAll rs text = expandAll rs' text := by
  induction hperm with
  | nil => exact fun _ => rfl
  | cons r _ ih =>
    intro text
    have hr := hnames r List.mem_cons_self
    rw [expandAll_cons hr, expandAll_cons hr]
    exact ih (fun q hq => hnames q (List.mem_cons_of_mem _ hq)) (List.pairwise_cons.mp hind).2 _
  | swap r s rs =>
    intro text
    have hr := hnames r (by simp)
    have hs := hnames s (by simp)
    have hrs : s.Independent r := (List.pairwise_cons.mp hind).1 r List.mem_cons_self
    rw [expandAll_cons hs, expandAll_cons hr, expandAll_cons hr, expandAll_cons hs,
      hrs.substitute_comm hs hr]
  | trans hperm _ ih ih' =>
    intro text
    have hind' := (hperm.pairwise_iff fun {_ _} => Independent.symm).mp hind
    rw [ih hnames hind, ih' (fun q hq => hnames q (hperm.mem_iff.mpr hq)) hind']

end Replacement

/-- **The order in which independent names are predefined makes no difference.** -/
theorem enter_perm {p q : Preprocessor} (hperm : p.predefined.Perm q.predefined)
    (hnames : ∀ r ∈ p.predefined, r.name.isIdent = true)
    (hind : p.predefined.Pairwise Replacement.Independent) (source : Text) :
    p.enter source = q.enter source := by
  have hline : p.enterLine = q.enterLine := by
    funext line
    rw [Preprocessor.enterLine, Preprocessor.enterLine,
      Replacement.expandAll_perm hperm hnames hind]
  rw [Preprocessor.enter, Preprocessor.enter, hline]

end Mcs51.Source
