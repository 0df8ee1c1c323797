import Mathlib.Init

/-!
# Programs that are interrupted

A program that changes a state step by step can be stopped by an exception in the middle, and what
it has done before that stays.  Its result is a value of `Except σ α`: `.ok a` when it came to its
end, `.error s` when it was stopped while the state was `s`.
-/

namespace FlowClassifier
namespace Interrupted

universe u

variable {σ : Type*} {α β γ : Type u}

/-- A step that changes nothing: without a result it stops the program in the state it found. -/
def stopAt (s : σ) : Option α → Except σ α
  | some a => .ok a
  | none => .error s

@[simp] lemma stopAt_some (s : σ) (a : α) : stopAt s (some a) = .ok a := rfl

@[simp] lemma stopAt_none (s : σ) : stopAt s (none : Option α) = .error s := rfl

/-- The state a program leaves, whether it came to its end or not. -/
def left : Except σ σ → σ
  | .ok s => s
  | .error s => s

@[simp] lemma left_ok (s : σ) : left (.ok s) = s := rfl

@[simp] lemma left_error (s : σ) : left (.error s) = s := rfl

@[simp] lemma ok_bind (a : α) (f : α → Except σ β) : (Except.ok a).bind f = f a := rfl

@[simp] lemma error_bind (s : σ) (f : α → Except σ β) : (Except.error s).bind f = .error s := rfl

@[simp] lemma bind_eq_bind (x : Except σ α) (f : α → Except σ β) : x >>= f = x.bind f := rfl

lemma bind_bind (x : Except σ α) (f : α → Except σ β) (g : β → Except σ γ) :
    (x.bind f).bind g = x.bind fun a => (f a).bind g := by
  cases x <;> rfl

/-- A program comes to its end when both of its parts do. -/
lemma bind_eq_ok_iff {x : Except σ α} {f : α → Except σ β} {b : β} :
    x.bind f = .ok b ↔ ∃ a, x = .ok a ∧ f a = .ok b := by
  cases x <;> simp

/-- Nothing after the end changes nothing. -/
@[simp] lemma bind_ok (x : Except σ α) : x.bind Except.ok = x := by
  cases x <;> rfl

/-- Steps that come to their end, one after the other. -/
lemma foldlM_append_ok {f : β → α → Except σ β} {l l' : List α} {b b' : β}
    (h : l.foldlM f b = .ok b') : (l ++ l').foldlM f b = l'.foldlM f b' := by
  induction l generalizing b with
  | nil =>
      obtain rfl := Except.ok.inj h
      rfl
  | cons a l ih =>
      obtain ⟨b₁, hstep, hrest⟩ := bind_eq_ok_iff.1 h
      rw [List.cons_append, List.foldlM_cons, hstep]
      exact ih hrest

/-! ## What holds at the end, and what when interrupted -/

/-- A result that comes to its end has `Q`, and a state in which it was interrupted has `P`. -/
def Ends (Q : α → Prop) (P : σ → Prop) : Except σ α → Prop
  | .ok a => Q a
  | .error s => P s

section Ends

variable {P : σ → Prop} {Q : α → Prop} {R : β → Prop}

/-- A step without a result leaves the state as it was. -/
lemma ends_stopAt {s : σ} (h : P s) (x : Option α) : Ends (fun a => x = some a) P (stopAt s x) := by
  cases x with
  | none => exact h
  | some a => exact rfl

/-- The rule for two parts, one after the other. -/
lemma Ends.bind {x : Except σ α} {f : α → Except σ β} (hx : Ends Q P x)
    (hf : ∀ a, Q a → Ends R P (f a)) : Ends R P (x.bind f) := by
  cases x with
  | ok a => exact hf a hx
  | error s => exact hx

/-- The rule for a loop: what every turn keeps holds at the end. -/
lemma Ends.foldlM {f : α → γ → Except σ α} {l : List γ} {a : α} (ha : Q a)
    (hf : ∀ c ∈ l, ∀ a, Q a → Ends Q P (f a c)) : Ends Q P (l.foldlM f a) := by
  induction l generalizing a with
  | nil => exact ha
  | cons c l ih =>
      rw [List.foldlM_cons]
      exact (hf c (List.mem_cons_self ..) a ha).bind fun a' ha' =>
        ih ha' fun c' hc' => hf c' (List.mem_cons_of_mem _ hc')

/-- What holds at the end and when interrupted holds of the state that is left. -/
lemma Ends.left {x : Except σ σ} (h : Ends P P x) : P (left x) := by
  cases x with
  | ok s => exact h
  | error s => exact h

end Ends

end Interrupted
end FlowClassifier
