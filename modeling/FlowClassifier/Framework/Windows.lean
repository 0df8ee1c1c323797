import Mathlib.Data.List.Induction

/-!
# Greedy windows

A list is cut from left to right into windows.  The first element opens a window; a later element
stays in the open window when it `joins` the element that opened it, and otherwise closes the
window and opens the next.  A closed window is kept with the element that closed it, which is what
a system that reports a window on the arrival of the next one can be compared with.
-/

namespace FlowClassifier
namespace Windows

variable {α : Type*}

/-- The windows of a list: the closed ones, each with the element that closed it, and the open
one. -/
structure Cut (α : Type*) where
  closed : List (List α × α)
  openW : List α

/-- One more element. -/
def Cut.push (joins : α → α → Bool) (c : Cut α) (a : α) : Cut α :=
  match c.openW with
  | [] => { c with openW := [a] }
  | o :: _ =>
      if joins o a then { c with openW := c.openW ++ [a] }
      else { closed := c.closed ++ [(c.openW, a)], openW := [a] }

/-- The windows of a list. -/
def cut (joins : α → α → Bool) (as : List α) : Cut α := as.foldl (Cut.push joins) ⟨[], []⟩

variable (joins : α → α → Bool)

@[simp] lemma cut_nil : cut joins [] = ⟨[], []⟩ := rfl

lemma cut_concat (as : List α) (a : α) : cut joins (as ++ [a]) = (cut joins as).push joins a := by
  simp [cut]

/-- The first element opens a window. -/
lemma cut_concat_first {as : List α} (h : (cut joins as).openW = []) (a : α) :
    cut joins (as ++ [a]) = ⟨(cut joins as).closed, [a]⟩ := by
  rw [cut_concat, Cut.push, h]

/-- An element that joins the open window. -/
lemma cut_concat_joins {as w : List α} {o a : α} (h : (cut joins as).openW = o :: w)
    (hj : joins o a = true) :
    cut joins (as ++ [a]) = ⟨(cut joins as).closed, o :: w ++ [a]⟩ := by
  rw [cut_concat, Cut.push, h]
  exact if_pos hj

/-- An element that closes the open window. -/
lemma cut_concat_closes {as w : List α} {o a : α} (h : (cut joins as).openW = o :: w)
    (hj : joins o a = false) :
    cut joins (as ++ [a]) = ⟨(cut joins as).closed ++ [(o :: w, a)], [a]⟩ := by
  rw [cut_concat, Cut.push, h]
  exact if_neg (by rw [hj]; exact Bool.false_ne_true)

/-- Cutting loses, repeats and reorders nothing. -/
theorem flatten_cut (as : List α) :
    ((cut joins as).closed.map Prod.fst).flatten ++ (cut joins as).openW = as := by
  induction as using List.reverseRecOn with
  | nil => rfl
  | append_singleton as a ih =>
      rw [cut_concat]
      unfold Cut.push
      cases ho : (cut joins as).openW with
      | nil =>
          rw [ho] at ih
          simp only [List.append_nil] at ih
          simp only [ih]
      | cons o w =>
          rw [ho] at ih
          simp only []
          split
          · rw [← List.append_assoc, ih]
          · simp only [List.map_append, List.map_cons, List.map_nil, List.flatten_append,
              List.flatten_cons, List.flatten_nil, List.append_nil]
            rw [ih]

/-- A list of copies of one element that joins itself is one open window. -/
lemma cut_replicate {a : α} (h : joins a a = true) (n : ℕ) :
    cut joins (List.replicate n a) = ⟨[], List.replicate n a⟩ := by
  induction n with
  | zero => rfl
  | succ n ih =>
      rw [List.replicate_succ', cut_concat, ih]
      cases n with
      | zero => rfl
      | succ n => simp [Cut.push, List.replicate_succ, h]

/-- The open window is the end of the list. -/
lemma openW_suffix (as : List α) : (cut joins as).openW <:+ as :=
  ⟨_, flatten_cut joins as⟩

end Windows
end FlowClassifier
