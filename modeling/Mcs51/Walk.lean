import Mcs51.Problem

/-! # Walks

A pass over a list that may stop at any member. A step gives the state after it and, if it could not
finish, the reason; `walk` goes on until the end of the list or the first reason to stop, and keeps
the state in either case. -/

namespace Mcs51

variable {σ α : Type}

/-- Takes the members of a list one after the other, up to the first that stops. -/
def walk (step : σ → α → σ × Option Stop) : σ → List α → σ × Option Stop
  | s, [] => (s, none)
  | s, a :: rest =>
    match step s a with
    | (s, none) => walk step s rest
    | (s, some e) => (s, some e)

@[simp] theorem walk_nil (step : σ → α → σ × Option Stop) (s : σ) : walk step s [] = (s, none) :=
  rfl

theorem walk_append (step : σ → α → σ × Option Stop) (s : σ) (as bs : List α) :
    walk step s (as ++ bs) =
      match walk step s as with
      | (s, none) => walk step s bs
      | (s, some e) => (s, some e) := by
  induction as generalizing s with
  | nil => rfl
  | cons a as ih =>
    simp only [List.cons_append, walk]
    split
    · exact ih _
    · rfl

/-- A walk that gets past its first member goes on from the state after it. -/
theorem walk_cons_eq_none {step : σ → α → σ × Option Stop} {s t : σ} {a : α} {as : List α} :
    walk step s (a :: as) = (t, none) ↔
      ∃ u, step s a = (u, none) ∧ walk step u as = (t, none) := by
  simp only [walk]
  split
  · next u hu => rw [hu]; simp
  · next u e hu => rw [hu]; simp

/-- A walk that gets past the front of a list goes on from the state after it. -/
theorem walk_append_eq_none {step : σ → α → σ × Option Stop} {s t : σ} {as bs : List α} :
    walk step s (as ++ bs) = (t, none) ↔
      ∃ u, walk step s as = (u, none) ∧ walk step u bs = (t, none) := by
  rw [walk_append]
  split
  · next u hu => simp [hu]
  · next u e hu => simp [hu]

/-- What every step keeps, a walk keeps. -/
theorem walk_invariant {step : σ → α → σ × Option Stop} {P : σ → Prop}
    (keeps : ∀ s a, P s → P (step s a).1) {s : σ} (as : List α) (h : P s) :
    P (walk step s as).1 := by
  induction as generalizing s with
  | nil => exact h
  | cons a as ih =>
    have ha := keeps s a h
    simp only [walk]
    split <;> rename_i e <;> rw [e] at ha
    · exact ih ha
    · exact ha

end Mcs51
