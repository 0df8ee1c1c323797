import Mathlib.Algebra.BigOperators.Group.List.Basic
import Mathlib.Algebra.Order.Field.Basic
import Mathlib.Data.Nat.Find
import Mathlib.Data.Nat.Prime.Basic
import Mathlib.Data.Rat.Cast.Order
import Mathlib.Tactic.FieldSimp
import Mathlib.Tactic.Linarith
import Mathlib.Tactic.Positivity
import Mathlib.Tactic.Ring

/-!
# Sums of inverse powers of two

A list of exponents stands for the number `weight es`, the sum of `2^-e`.  Multiplying a natural
number by it is approximated by `shifts es`, the sum of its right shifts, each of which rounds
down: `shifts_le_mul_weight` and `mul_weight_lt_shifts` bound the error by the number of shifts.
`maxDividend` inverts the sum of the shifts: the largest number that it brings under a bound.

The second part is about one step of a greedy expansion.  `Within r sum w` says that `sum` falls
short of `r` by less than `2 w`, where `w` is the next power to try; taking it when it fits and
passing on keeps this for the next power, and taking it more than halves what is missing.
-/

namespace FlowClassifier
namespace InversePowers

/-- The number a list of exponents stands for. -/
def weight (es : List ℕ) : ℚ := (es.map fun e => 1 / (2 : ℚ) ^ e).sum

/-- A number shifted by every exponent, summed. -/
def shifts (es : List ℕ) (s : ℕ) : ℕ := (es.map fun e => s / 2 ^ e).sum

@[simp] lemma weight_nil : weight [] = 0 := rfl

@[simp] lemma weight_cons (e : ℕ) (es : List ℕ) : weight (e :: es) = 1 / 2 ^ e + weight es := by
  simp [weight]

lemma weight_concat (es : List ℕ) (e : ℕ) : weight (es ++ [e]) = weight es + 1 / 2 ^ e := by
  simp [weight]

@[simp] lemma shifts_nil (s : ℕ) : shifts [] s = 0 := rfl

@[simp] lemma shifts_cons (e : ℕ) (es : List ℕ) (s : ℕ) :
    shifts (e :: es) s = s / 2 ^ e + shifts es s := by
  simp [shifts]

/-- Sums of inverse powers of two are fractions over a power of two. -/
lemma exists_weight_eq (es : List ℕ) : ∃ n k : ℕ, weight es * 2 ^ k = n := by
  induction es with
  | nil => exact ⟨0, 0, by simp⟩
  | cons e es ih =>
      obtain ⟨n, k, hn⟩ := ih
      refine ⟨2 ^ k + n * 2 ^ e, k + e, ?_⟩
      have hpos : (2 : ℚ) ^ e ≠ 0 := by positivity
      push_cast
      rw [weight_cons, ← hn, pow_add]
      field_simp

/-- So the inverse of a number is such a sum only when it is a power of two. -/
lemma eq_two_pow_of_weight {n : ℕ} (hn : 0 < n) {es : List ℕ} (h : weight es = 1 / n) :
    ∃ j, n = 2 ^ j := by
  obtain ⟨m, k, hm⟩ := exists_weight_eq es
  have hne : (n : ℚ) ≠ 0 := by exact_mod_cast hn.ne'
  have hmul : (m : ℚ) * n = 2 ^ k := by
    rw [← hm, h]
    field_simp
  have hdvd : n ∣ 2 ^ k := ⟨m, by rw [mul_comm]; exact_mod_cast hmul.symm⟩
  obtain ⟨j, -, hj⟩ := (Nat.dvd_prime_pow Nat.prime_two).1 hdvd
  exact ⟨j, hj⟩

lemma shifts_mono (es : List ℕ) {s s' : ℕ} (h : s ≤ s') : shifts es s ≤ shifts es s' := by
  induction es with
  | nil => exact Nat.le_refl _
  | cons e es ih =>
      rw [shifts_cons, shifts_cons]
      exact Nat.add_le_add (Nat.div_le_div_right h) ih

/-- The largest number up to `n` whose shifts sum up to at most `b`. -/
def maxDividend (es : List ℕ) (n b : ℕ) : ℕ := Nat.findGreatest (fun s => shifts es s ≤ b) n

/-- The shifts of a number stay under a bound up to the largest such number. -/
lemma le_maxDividend_iff {es : List ℕ} {n b s : ℕ} (hs : s ≤ n) :
    s ≤ maxDividend es n b ↔ shifts es s ≤ b := by
  constructor
  · intro h
    have hzero : shifts es 0 ≤ b := by
      have : shifts es 0 = 0 := by simp [shifts]
      omega
    have hmax : shifts es (maxDividend es n b) ≤ b :=
      Nat.findGreatest_spec (P := fun s => shifts es s ≤ b) (Nat.zero_le n) hzero
    exact Nat.le_trans (shifts_mono es h) hmax
  · intro h
    exact Nat.le_findGreatest hs h

/-- A shift rounds down, by less than one. -/
private lemma shift_bounds (s e : ℕ) :
    ((s / 2 ^ e : ℕ) : ℚ) ≤ s * (1 / 2 ^ e) ∧ s * (1 / 2 ^ e) < ((s / 2 ^ e : ℕ) : ℚ) + 1 := by
  have hpos : (0 : ℚ) < 2 ^ e := by positivity
  have hdiv := Nat.div_add_mod s (2 ^ e)
  have hmod := Nat.mod_lt s (Nat.two_pow_pos e)
  have hdivq : (2 : ℚ) ^ e * ((s / 2 ^ e : ℕ) : ℚ) + ((s % 2 ^ e : ℕ) : ℚ) = s := by
    exact_mod_cast hdiv
  have hmodq : ((s % 2 ^ e : ℕ) : ℚ) < 2 ^ e := by exact_mod_cast hmod
  have hnonneg : (0 : ℚ) ≤ ((s % 2 ^ e : ℕ) : ℚ) := Nat.cast_nonneg _
  rw [mul_one_div]
  constructor
  · rw [le_div_iff₀ hpos]
    linarith
  · rw [div_lt_iff₀ hpos]
    linarith

lemma shifts_le_mul_weight (es : List ℕ) (s : ℕ) : (shifts es s : ℚ) ≤ s * weight es := by
  induction es with
  | nil => simp
  | cons e es ih =>
      have he := (shift_bounds s e).1
      rw [shifts_cons, weight_cons, Nat.cast_add, mul_add]
      exact add_le_add he ih

lemma mul_weight_le_shifts (es : List ℕ) (s : ℕ) :
    s * weight es ≤ shifts es s + (es.length : ℚ) := by
  induction es with
  | nil => simp
  | cons e es ih =>
      have he := (shift_bounds s e).2.le
      rw [shifts_cons, weight_cons, Nat.cast_add, mul_add, List.length_cons, Nat.cast_succ]
      linarith

lemma mul_weight_lt_shifts {es : List ℕ} (hes : es ≠ []) (s : ℕ) :
    s * weight es < shifts es s + (es.length : ℚ) := by
  obtain ⟨e, es, rfl⟩ := List.exists_cons_of_ne_nil hes
  have he := (shift_bounds s e).2
  have htail := mul_weight_le_shifts es s
  rw [shifts_cons, weight_cons, Nat.cast_add, mul_add, List.length_cons, Nat.cast_succ]
  linarith

/-! ## Greedy steps -/

/-- `sum` does not exceed `r`, and falls short of it by less than twice `w`. -/
structure Within (r sum w : ℚ) : Prop where
  le : sum ≤ r
  lt : r - sum < 2 * w

/-- The next power fits: it is taken, and more than half of what was missing is gone. -/
lemma Within.take {r sum w : ℚ} (h : Within r sum w) (hfits : sum + w ≤ r) :
    Within r (sum + w) (w / 2) ∧ 2 * (r - (sum + w)) < r - sum := by
  have hlt := h.lt
  refine ⟨⟨hfits, ?_⟩, ?_⟩ <;> linarith

/-- The next power does not fit: it is passed over. -/
lemma Within.pass {r sum w : ℚ} (h : Within r sum w) (hfits : ¬ sum + w ≤ r) :
    Within r sum (w / 2) := by
  have hle := h.le
  rw [not_le] at hfits
  refine ⟨hle, ?_⟩
  linarith

end InversePowers
end FlowClassifier
