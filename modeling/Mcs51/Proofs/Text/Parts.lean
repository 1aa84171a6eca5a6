import Mathlib.Data.List.Basic
import Mathlib.Data.List.TakeWhile
import Mcs51.Text.Basic

/-! # Parts of a text

Cutting and trimming bring no character into a text: whatever they give is part of it. Lines that
are written one after the other, each ended by a line feed, are cut apart again
(`lines_unlines`). -/

namespace Mcs51.Text

theorem code_subset (line : Text) : code line ⊆ line := (List.takeWhile_prefix _).subset

theorem comment_subset (line : Text) : comment line ⊆ line := (List.dropWhile_suffix _).subset

theorem code_comment : ∀ line : Text, code (comment line) = []
  | [] => rfl
  | c :: line => by
    rw [comment, List.dropWhile_cons]
    split_ifs with hc
    · exact code_comment line
    · rw [code, List.takeWhile_cons, if_neg hc]

theorem notMem_code (line : Text) : ';' ∉ line.code := by
  intro h
  have := List.mem_takeWhile_imp h
  simp at this

/-- The code and the comment of a line whose front has no comment. -/
theorem parts_append_of_notMem {front : Text} (h : ';' ∉ front) (rest : Text) :
    code (front ++ rest) = front ++ code rest ∧ comment (front ++ rest) = comment rest := by
  have hfront : ∀ c ∈ front, (c != ';') = true := by
    intro c hc
    rw [bne_iff_ne]
    rintro rfl
    exact h hc
  exact ⟨List.takeWhile_append_of_pos hfront, List.dropWhile_append_of_pos hfront⟩

/-- The code and the comment of a line whose front has a comment. -/
theorem parts_append_of_mem : ∀ {front : Text}, ';' ∈ front → ∀ rest : Text,
    code (front ++ rest) = code front ∧ comment (front ++ rest) = comment front ++ rest
  | [], h, _ => by simp at h
  | c :: front, h, rest => by
    unfold code comment
    by_cases hc : c = ';'
    · simp [hc]
    · have hfront : ';' ∈ front := (List.mem_cons.mp h).resolve_left (Ne.symm hc)
      have ih := parts_append_of_mem hfront rest
      unfold code comment at ih
      simp [hc, ih.1, ih.2]

theorem code_isPrefix (front rest : Text) : code front <+: code (front ++ rest) := by
  by_cases h : ';' ∈ front
  · have hcode := (parts_append_of_mem h rest).1
    exact hcode.symm ▸ List.prefix_rfl
  · rw [(parts_append_of_notMem h rest).1]
    exact (List.takeWhile_prefix _).trans (List.prefix_append _ _)

theorem code_of_notMem {code : Text} (h : ';' ∉ code) (line : Text) :
    (code ++ line.comment).code = code ∧ (code ++ line.comment).comment = line.comment := by
  have hnil := code_comment line
  have hwhole := code_append_comment line.comment
  rw [hnil, List.nil_append] at hwhole
  obtain ⟨hcode, hcomment⟩ := parts_append_of_notMem h line.comment
  rw [hcode, hcomment, hnil, hwhole, List.append_nil]
  exact ⟨rfl, rfl⟩

/-- A comment put after a text adds nothing to its code. -/
theorem code_of_append_comment (t line : Text) : code (t ++ comment line) = code t := by
  by_cases h : ';' ∈ t
  · exact (parts_append_of_mem h _).1
  · have hcode : code t = t := by simpa [code] using (parts_append_of_notMem h []).1
    rw [(parts_append_of_notMem h _).1, code_comment, List.append_nil, hcode]

theorem code_append_comment_isPrefix (line t : Text) : code (t ++ comment line) <+: t := by
  rw [code_of_append_comment]
  exact List.takeWhile_prefix _

theorem trim_subset (t : Text) : trim t ⊆ t := by
  intro c hc
  unfold trim trimEnd trimStart at hc
  have hc := (List.dropWhile_suffix _).subset (List.mem_reverse.mp hc)
  exact (List.dropWhile_suffix _).subset (List.mem_reverse.mp hc)

theorem afterField_subset (t : Text) : afterField t ⊆ t := (List.dropWhile_suffix _).subset

theorem after?_subset {text needle rest : Text} (h : text.after? needle = some rest) :
    rest ⊆ text := by
  obtain ⟨n, -, rfl⟩ := Option.map_eq_some_iff.mp h
  exact List.drop_subset _ _

theorem dropReturn_subset (line : Text) : dropReturn line ⊆ line := by
  unfold dropReturn
  split_ifs
  · exact List.dropLast_subset line
  · exact fun _ h => h

theorem subset_intercalate {sep piece : Text} : ∀ {pieces : List Text}, piece ∈ pieces →
    piece ⊆ sep.intercalate pieces
  | [], h => by simp at h
  | [p], h => by
    rw [List.mem_singleton.mp h, List.intercalate_singleton]
    exact fun _ h => h
  | p :: q :: pieces, h => by
    rw [List.intercalate_cons_cons]
    intro c hc
    rcases List.mem_cons.mp h with rfl | h
    · simp [hc]
    · have hmem : c ∈ sep.intercalate (q :: pieces) := subset_intercalate h hc
      simp [hmem]

theorem lines_subset {text line : Text} (h : line ∈ text.lines) : line ⊆ text := by
  have hpiece : ∃ piece ∈ text.splitOn '\n', line ⊆ piece := by
    unfold lines at h
    rcases List.mem_append.mp h with h | h
    · obtain ⟨piece, hp, rfl⟩ := List.mem_map.mp h
      exact ⟨piece, List.dropLast_subset _ hp, dropReturn_subset piece⟩
    · have hp := (List.mem_filter.mp h).1
      exact ⟨line, List.mem_of_getLast? (by simpa using hp), fun _ h => h⟩
  obtain ⟨piece, hp, hsub⟩ := hpiece
  have hwhole : piece ⊆ ['\n'].intercalate (text.splitOn '\n') := subset_intercalate hp
  rw [List.intercalate_splitOn] at hwhole
  exact fun c hc => hwhole (hsub hc)

/-! ### Writing lines -/

/-- Lines as a text, each ended by a line feed. -/
def unlines (ls : List Text) : Text := ls.flatMap fun l => l ++ ['\n']

theorem splitOn_line {line : Text} (h : '\n' ∉ line) (t : Text) :
    (line ++ '\n' :: t).splitOn '\n' = line :: t.splitOn '\n' := by
  have hline : ∀ c ∈ line, (c == '\n') = false := by
    intro c hc
    rw [beq_eq_false_iff_ne]
    rintro rfl
    exact h hc
  unfold List.splitOn
  rw [List.splitOnP_append_cons line t (by decide), List.splitOnP_eq_singleton hline,
    List.singleton_append]

/-- A line feed ends a line. -/
theorem lines_cons {line : Text} (h : '\n' ∉ line) (t : Text) :
    lines (line ++ '\n' :: t) = dropReturn line :: lines t := by
  have hne : t.splitOn '\n' ≠ [] := List.splitOnP_ne_nil _ t
  simp only [lines, splitOn_line h, List.dropLast_cons_of_ne_nil hne,
    List.getLast?_cons_of_ne_nil hne, List.map_cons, List.cons_append]

theorem splitOn_unlines : ∀ {ls : List Text}, (∀ l ∈ ls, '\n' ∉ l) →
    (unlines ls).splitOn '\n' = ls ++ [[]]
  | [], _ => by simp [unlines]
  | l :: ls, h => by
    have hcut : unlines (l :: ls) = l ++ '\n' :: unlines ls := by simp [unlines]
    have ih : (unlines ls).splitOn '\n' = ls ++ [[]] :=
      splitOn_unlines fun m hm => h m (by simp [hm])
    rw [hcut, splitOn_line (h l (by simp)), ih, List.cons_append]

/-- Lines are read back from their text, if no line feed stands in one and no carriage return at the
end of one. -/
theorem lines_unlines {ls : List Text} (h : ∀ l ∈ ls, '\n' ∉ l ∧ l.getLast? ≠ some '\r') :
    (unlines ls).lines = ls := by
  have hreturn : ls.map dropReturn = ls := by
    conv_rhs => rw [← List.map_id ls]
    refine List.map_congr_left fun l hl => ?_
    rw [dropReturn, if_neg (h l hl).2]
    rfl
  unfold lines
  rw [splitOn_unlines fun l hl => (h l hl).1]
  simp [hreturn]

end Mcs51.Text
