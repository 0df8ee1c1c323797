import Mathlib.Data.List.Range
import Mathlib.Logic.Function.Iterate
import Mathlib.Order.Basic

/-!
# Loops

A while loop with a bound on the number of its tests: no result when the bound is reached before
the test fails.  `Ends` says the same without a bound: the body runs exactly so many times.
`exists_ends` is the total-correctness rule: with an invariant and a variant the loop ends after at
most as many runs as the variant says, and the invariant holds of every state it goes through.

A counting loop with a fixed step, over an array that is a concatenation of blocks of that length,
visits the blocks (`map_strides`), and what is left when the array ends within one
(`map_strides_append`).
-/

namespace FlowClassifier
namespace Loop

variable {σ : Type*}

/-- `while (cond) body`, with at most `fuel` tests. -/
def whileLoop (cond : σ → Bool) (body : σ → σ) : ℕ → σ → Option σ
  | 0, _ => none
  | fuel + 1, s => if cond s then whileLoop cond body fuel (body s) else some s

lemma whileLoop_of_not_cond {cond : σ → Bool} {body : σ → σ} {s : σ} (h : cond s = false)
    (fuel : ℕ) : whileLoop cond body (fuel + 1) s = some s := by
  simp [whileLoop, h]

/-- A result does not depend on how much fuel is left over. -/
lemma whileLoop_mono {cond : σ → Bool} {body : σ → σ} {fuel : ℕ} {s s' : σ}
    (h : whileLoop cond body fuel s = some s') (k : ℕ) :
    whileLoop cond body (fuel + k) s = some s' := by
  induction fuel generalizing s with
  | zero => exact absurd h (by simp [whileLoop])
  | succ fuel ih =>
      have hadd : fuel + 1 + k = fuel + k + 1 := by omega
      rw [hadd]
      unfold whileLoop at h ⊢
      cases hc : cond s with
      | true =>
          simp only [hc, if_true] at h ⊢
          exact ih h
      | false =>
          simp only [hc, Bool.false_eq_true, if_false] at h ⊢
          exact h

/-- The loop ends after its body has run `k` times. -/
structure Ends (cond : σ → Bool) (body : σ → σ) (s : σ) (k : ℕ) : Prop where
  continues : ∀ j, j < k → cond (body^[j] s) = true
  stops : cond (body^[k] s) = false

lemma whileLoop_of_ends {cond : σ → Bool} {body : σ → σ} {s : σ} {k : ℕ}
    (h : Ends cond body s k) {fuel : ℕ} (hfuel : k < fuel) :
    whileLoop cond body fuel s = some (body^[k] s) := by
  induction k generalizing s fuel with
  | zero =>
      obtain ⟨fuel, rfl⟩ : ∃ f, fuel = f + 1 := ⟨fuel - 1, by omega⟩
      exact whileLoop_of_not_cond h.stops fuel
  | succ k ih =>
      obtain ⟨fuel, rfl⟩ : ∃ f, fuel = f + 1 := ⟨fuel - 1, by omega⟩
      have hcont : cond s = true := h.continues 0 (Nat.succ_pos k)
      have hrest : Ends cond body (body s) k :=
        ⟨fun j hj => h.continues (j + 1) (Nat.succ_lt_succ hj), h.stops⟩
      simp only [whileLoop, hcont, if_true]
      exact ih hrest (by omega)

/-- An invariant that the body keeps while it decreases a variant. -/
theorem exists_ends {cond : σ → Bool} {body : σ → σ} (inv : σ → Prop) (variant : σ → ℕ)
    (hbody : ∀ s, inv s → cond s = true → inv (body s) ∧ variant (body s) < variant s) {s : σ}
    (hs : inv s) : ∃ k ≤ variant s, Ends cond body s k ∧ ∀ j ≤ k, inv (body^[j] s) := by
  induction hv : variant s using Nat.strongRecOn generalizing s with
  | _ v ih =>
      cases hc : cond s with
      | false =>
          refine ⟨0, Nat.zero_le _, ⟨fun j hj => absurd hj (Nat.not_lt_zero j), hc⟩, ?_⟩
          intro j hj
          rw [Nat.le_zero.1 hj]
          exact hs
      | true =>
          obtain ⟨hinv, hlt⟩ := hbody s hs hc
          obtain ⟨k, hk, hends, hall⟩ := ih (variant (body s)) (by omega) hinv rfl
          refine ⟨k + 1, by omega, ⟨?_, hends.stops⟩, ?_⟩
          · intro j hj
            cases j with
            | zero => exact hc
            | succ j => exact hends.continues j (Nat.lt_of_succ_lt_succ hj)
          · intro j hj
            cases j with
            | zero => exact hs
            | succ j => exact hall j (Nat.le_of_succ_le_succ hj)

/-! ## Counting loops -/

/-- The numbers `for (i = 0; i < stop; i += step)` runs over, for a positive step. -/
def strides (step stop : ℕ) : List ℕ := List.range' 0 ((stop + step - 1) / step) step

lemma strides_add {step : ℕ} (hstep : 0 < step) (stop : ℕ) :
    strides step (step + stop) = 0 :: (strides step stop).map (step + ·) := by
  have hcount : (step + stop + step - 1) / step = (stop + step - 1) / step + 1 := by
    have hsum : step + stop + step - 1 = stop + step - 1 + step := by omega
    rw [hsum, Nat.add_div_right _ hstep]
  rw [strides, strides, hcount, List.range'_succ, List.map_add_range']
  simp

/-- A body that looks at one block only, from where the loop stands. -/
theorem map_strides {α β : Type*} {step : ℕ} (hstep : 0 < step) (f : List α → β)
    (hf : ∀ b rest, b.length = step → f (b ++ rest) = f b) {blocks : List (List α)}
    (hblocks : ∀ b ∈ blocks, b.length = step) :
    (strides step blocks.flatten.length).map (fun i => f (blocks.flatten.drop i)) =
      blocks.map f := by
  induction blocks with
  | nil =>
      have hzero : (step - 1) / step = 0 := Nat.div_eq_of_lt (by omega)
      simp [strides, hzero]
  | cons b blocks ih =>
      have hb : b.length = step := hblocks b (List.mem_cons_self ..)
      have hrest := ih fun c hc => hblocks c (List.mem_cons_of_mem _ hc)
      have hdrop : ∀ i, (b ++ blocks.flatten).drop (step + i) = blocks.flatten.drop i := by
        intro i
        rw [← hb, List.drop_append]
        simp
      rw [List.flatten_cons, List.length_append, hb, strides_add hstep, List.map_cons,
        List.map_map, List.map_cons, ← hrest]
      congr 1
      · exact hf b blocks.flatten hb
      · exact List.map_congr_left fun i _ => congrArg f (hdrop i)

/-- The same when the array ends within a block. -/
theorem map_strides_append {α β : Type*} {step : ℕ} (hstep : 0 < step) (f : List α → β)
    (hf : ∀ b rest, b.length = step → f (b ++ rest) = f b) {blocks : List (List α)}
    (hblocks : ∀ b ∈ blocks, b.length = step) {tail : List α} (htail : tail.length < step) :
    (strides step (blocks.flatten ++ tail).length).map
        (fun i => f ((blocks.flatten ++ tail).drop i)) =
      blocks.map f ++ if tail = [] then [] else [f tail] := by
  induction blocks with
  | nil =>
      rw [List.flatten_nil, List.nil_append, List.map_nil, List.nil_append]
      split
      · rename_i hnil
        have hzero : (step - 1) / step = 0 := Nat.div_eq_of_lt (by omega)
        simp [hnil, strides, hzero]
      · rename_i hne
        have hpos : 0 < tail.length := List.length_pos_iff.2 hne
        have hone : (tail.length + step - 1) / step = 1 := by
          rw [Nat.div_eq_iff hstep]
          omega
        simp [strides, hone]
  | cons b blocks ih =>
      have hb : b.length = step := hblocks b (List.mem_cons_self ..)
      have hrest := ih fun c hc => hblocks c (List.mem_cons_of_mem _ hc)
      have hdrop : ∀ i, (b ++ (blocks.flatten ++ tail)).drop (step + i) =
          (blocks.flatten ++ tail).drop i := by
        intro i
        rw [← hb, List.drop_append]
        simp
      rw [List.flatten_cons, List.append_assoc, List.length_append, hb, strides_add hstep,
        List.map_cons, List.map_map, List.map_cons, List.cons_append, ← hrest]
      congr 1
      · exact hf b _ hb
      · exact List.map_congr_left fun i _ => congrArg f (hdrop i)

/-- The front of an array of blocks: whole blocks, and the front of the next one. -/
lemma take_flatten {α : Type*} {step : ℕ} (hstep : 0 < step) {blocks : List (List α)}
    (hblocks : ∀ b ∈ blocks, b.length = step) (n : ℕ) :
    blocks.flatten.take n = (blocks.take (n / step)).flatten ++
      ((blocks[n / step]?).getD []).take (n % step) := by
  induction blocks generalizing n with
  | nil => simp
  | cons b blocks ih =>
      have hb : b.length = step := hblocks b (List.mem_cons_self ..)
      rcases Nat.lt_or_ge n step with hn | hn
      · rw [List.flatten_cons, List.take_append_of_le_length (by omega), Nat.div_eq_of_lt hn,
          Nat.mod_eq_of_lt hn]
        rfl
      · obtain ⟨m, rfl⟩ : ∃ m, n = m + step := ⟨n - step, by omega⟩
        have hrest := ih (fun c hc => hblocks c (List.mem_cons_of_mem _ hc)) m
        rw [List.flatten_cons, List.take_append, hb, Nat.add_sub_cancel,
          List.take_of_length_le (by omega), hrest, Nat.add_div_right _ hstep, Nat.add_mod_right,
          List.take_succ_cons, List.getElem?_cons_succ, List.flatten_cons, List.append_assoc]

end Loop
end FlowClassifier
