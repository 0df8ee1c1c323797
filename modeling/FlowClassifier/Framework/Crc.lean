import Mathlib.Algebra.Order.BigOperators.Group.Finset
import Mathlib.Data.Fintype.Card

/-!
# Cyclic redundancy checks

The remainder register of a cyclic redundancy check, fed a string of bits.  A register that starts
at zero computes a linear function of its input over exclusive or (`remainder_xor`), and everything
said here about a check follows from that: `XorLinear` states it for functions between bit vectors,
two inputs have the same image exactly when their difference has the image zero
(`XorLinear.eq_iff`), and if every image is reached at all, all are reached equally often
(`XorLinear.card_fiber`).
-/

namespace FlowClassifier

/-! ## The register -/

namespace Crc

variable {w : ℕ}

/-- One shift of the register `r`: the generator `poly` is subtracted when the bit that leaves and
the bit `b` of the message differ. -/
def shift (poly r : BitVec w) (b : Bool) : BitVec w :=
  if r.msb ^^ b then r <<< 1 ^^^ poly else r <<< 1

/-- The register after a string of bits. -/
def remainder (poly r : BitVec w) (bits : List Bool) : BitVec w := bits.foldl (shift poly) r

lemma shift_eq (poly r : BitVec w) (b : Bool) :
    shift poly r b = r <<< 1 ^^^ (if r.msb ^^ b then poly else 0) := by
  unfold shift
  split
  · rfl
  · exact (BitVec.xor_zero (x := r <<< 1)).symm

/-- Two subtractions of the generator cancel. -/
lemma subtract_xor (poly : BitVec w) (a b : Bool) :
    (if a ^^ b then poly else 0) = (if a then poly else 0) ^^^ (if b then poly else 0) := by
  cases a <;> cases b <;> simp

lemma shift_xor (poly r s : BitVec w) (a b : Bool) :
    shift poly (r ^^^ s) (a ^^ b) = shift poly r a ^^^ shift poly s b := by
  have hbit : ((r ^^^ s).msb ^^ (a ^^ b)) = ((r.msb ^^ a) ^^ (s.msb ^^ b)) := by
    rw [BitVec.msb_xor]
    cases r.msb <;> cases s.msb <;> cases a <;> cases b <;> rfl
  rw [shift_eq, shift_eq, shift_eq, hbit, subtract_xor, BitVec.shiftLeft_xor_distrib]
  ac_rfl

/-- The register is linear in what it holds and what it is fed together. -/
theorem remainder_xor (poly : BitVec w) {l m : List Bool} (h : l.length = m.length)
    (r s : BitVec w) :
    remainder poly (r ^^^ s) (l.zipWith xor m) = remainder poly r l ^^^ remainder poly s m := by
  induction l generalizing m r s with
  | nil =>
      rw [List.length_eq_zero_iff.1 h.symm]
      rfl
  | cons a l ih =>
      cases m with
      | nil => simp at h
      | cons b m =>
          rw [List.zipWith_cons_cons, remainder, List.foldl_cons, shift_xor]
          exact ih (by simpa using h) _ _

end Crc

/-! ## Linear functions -/

/-- Functions of bit vectors that are linear over exclusive or. -/
structure XorLinear {m n : ℕ} (f : BitVec m → BitVec n) : Prop where
  map_xor : ∀ x y, f (x ^^^ y) = f x ^^^ f y

namespace XorLinear

variable {k m n : ℕ} {f : BitVec m → BitVec n}

lemma map_zero (hf : XorLinear f) : f 0 = 0 := by
  have h := hf.map_xor 0 0
  rwa [BitVec.xor_self, BitVec.xor_self] at h

/-- Inputs with the same image are those whose difference has the image zero. -/
theorem eq_iff (hf : XorLinear f) (x y : BitVec m) : f x = f y ↔ f (x ^^^ y) = 0 := by
  rw [hf.map_xor]
  exact BitVec.xor_eq_zero_iff.symm

lemma comp {g : BitVec k → BitVec m} (hf : XorLinear f) (hg : XorLinear g) :
    XorLinear fun x => f (g x) where
  map_xor x y := by rw [hg.map_xor, hf.map_xor]

/-! ### Images of the unit vectors -/

/-- The sum of those of `e 0, …, e (k - 1)` that the low bits of `x` select. -/
def combination {w : ℕ} (e : ℕ → BitVec n) (x : BitVec w) : ℕ → BitVec n
  | 0 => 0
  | k + 1 => combination e x k ^^^ if x.getLsbD k then e k else 0

lemma combination_congr {w : ℕ} {e e' : ℕ → BitVec n} (x : BitVec w) {k : ℕ}
    (h : ∀ i < k, e i = e' i) : combination e x k = combination e' x k := by
  induction k with
  | zero => rfl
  | succ k ih =>
      rw [combination, combination, ih fun i hi => h i (Nat.lt_succ_of_lt hi),
        h k (Nat.lt_succ_self k)]

lemma getLsbD_combination_twoPow {w : ℕ} (x : BitVec w) (k i : ℕ) :
    (combination (BitVec.twoPow w) x k).getLsbD i = (decide (i < k) && x.getLsbD i) := by
  induction k with
  | zero => simp [combination]
  | succ k ih =>
      rw [combination, BitVec.getLsbD_xor, ih]
      by_cases hik : i = k
      · subst hik
        by_cases hi : x.getLsbD i
        · have hlt := BitVec.lt_of_getLsbD hi
          simp [hi, hlt]
        · simp [hi]
      · have hne : (if x.getLsbD k then BitVec.twoPow w k else 0).getLsbD i = false := by
          split
          · rw [BitVec.getLsbD_twoPow]
            simp [Ne.symm hik]
          · simp
        rw [hne, Bool.xor_false]
        congr 1
        exact decide_eq_decide.2 (by omega)

/-- A vector is the sum of the unit vectors its bits select. -/
lemma combination_twoPow {w : ℕ} (x : BitVec w) : combination (BitVec.twoPow w) x w = x := by
  refine BitVec.eq_of_getLsbD_eq fun i hi => ?_
  rw [getLsbD_combination_twoPow, decide_eq_true hi, Bool.true_and]

lemma map_combination (hf : XorLinear f) {w : ℕ} (e : ℕ → BitVec m) (x : BitVec w) (k : ℕ) :
    f (combination e x k) = combination (fun i => f (e i)) x k := by
  induction k with
  | zero => exact hf.map_zero
  | succ k ih =>
      rw [combination, combination, hf.map_xor, ih]
      split
      · rfl
      · rw [hf.map_zero]

/-- A linear function is determined by the images of the unit vectors. -/
theorem apply_eq (hf : XorLinear f) (x : BitVec m) :
    f x = combination (fun i => f (BitVec.twoPow m i)) x m := by
  rw [← hf.map_combination, combination_twoPow]

/-- The same for a list of the images. -/
lemma apply_eq_images (hf : XorLinear f) {images : List (BitVec n)}
    (h : (List.range m).map (fun i => f (BitVec.twoPow m i)) = images) (x : BitVec m) :
    f x = combination (fun i => images.getD i 0) x m := by
  rw [hf.apply_eq, ← h]
  exact combination_congr x fun i hi => by simp [List.getD, hi]

/-- A linear function that reaches the unit vectors reaches every vector. -/
theorem surjective (hf : XorLinear f) (e : ℕ → BitVec m)
    (h : ∀ i < n, f (e i) = BitVec.twoPow n i) : Function.Surjective f := by
  intro y
  refine ⟨combination e y n, ?_⟩
  rw [hf.map_combination, combination_congr y h, combination_twoPow]

/-! ### Blocks -/

/-- When the function tells all `k` low bits apart but has a zero `d` one bit further up, a vector
is alone with its image in its aligned block of `2 ^ j` vectors exactly for `j ≤ k`. -/
theorem alone_iff (hf : XorLinear f) {k : ℕ} (hk : k ≤ m)
    (hker : ∀ x : BitVec k, f (x.setWidth m) = 0 → x = 0) {d : BitVec m} (hne : d ≠ 0)
    (hd : f d = 0) (hlt : d.toNat < 2 ^ (k + 1)) (x : BitVec m) (j : ℕ) :
    (∀ y : BitVec m, y >>> j = x >>> j → f y = f x → y = x) ↔ j ≤ k := by
  have hblock : ∀ y : BitVec m, ∀ j, y >>> j = x >>> j ↔ (y ^^^ x).toNat < 2 ^ j := by
    intro y j
    rw [← BitVec.xor_eq_zero_iff, ← BitVec.ushiftRight_xor_distrib, ← BitVec.toNat_inj,
      BitVec.toNat_ushiftRight, Nat.shiftRight_eq_div_pow]
    exact Nat.div_eq_zero_iff_lt (Nat.two_pow_pos j)
  constructor
  · intro halone
    by_contra hj
    have hpow : 2 ^ (k + 1) ≤ 2 ^ j := Nat.pow_le_pow_right (by omega) (by omega)
    have hxd : (x ^^^ d) ^^^ x = d := by
      rw [BitVec.xor_comm x, BitVec.xor_assoc, BitVec.xor_self, BitVec.xor_zero]
    have heq := halone (x ^^^ d) ((hblock _ j).2 (by rw [hxd]; omega))
      (by rw [hf.map_xor, hd]; exact BitVec.xor_zero)
    rw [heq, BitVec.xor_self] at hxd
    exact hne hxd.symm
  · intro hj y hy hfy
    have hpow : 2 ^ j ≤ 2 ^ k := Nat.pow_le_pow_right (by omega) hj
    have hsmall : (y ^^^ x).toNat < 2 ^ k := lt_of_lt_of_le ((hblock y j).1 hy) hpow
    have hwiden : ((y ^^^ x).setWidth k).setWidth m = y ^^^ x := by
      refine BitVec.eq_of_toNat_eq ?_
      rw [BitVec.toNat_setWidth, BitVec.toNat_setWidth, Nat.mod_eq_of_lt hsmall,
        Nat.mod_eq_of_lt (lt_of_lt_of_le hsmall (Nat.pow_le_pow_right (by omega) hk))]
    have hzero := hker ((y ^^^ x).setWidth k) (by rw [hwiden, ← (hf.eq_iff y x).1 hfy])
    rw [hzero] at hwiden
    exact BitVec.xor_eq_zero_iff.1 (by rw [← hwiden]; simp)

/-! ### Fibers -/

/-- The inputs with the image `y`. -/
def fiber (f : BitVec m → BitVec n) (y : BitVec n) : Finset ℕ :=
  (Finset.range (2 ^ m)).filter fun x => f (BitVec.ofNat m x) = y

lemma mem_fiber {y : BitVec n} {x : BitVec m} : x.toNat ∈ fiber f y ↔ f x = y := by
  simp [fiber, x.isLt]

/-- Adding `d` moves one fiber onto another. -/
lemma card_fiber_le (hf : XorLinear f) (y : BitVec n) (d : BitVec m) :
    (fiber f y).card ≤ (fiber f (y ^^^ f d)).card := by
  refine Finset.card_le_card_of_injOn (fun x => (BitVec.ofNat m x ^^^ d).toNat) ?_ ?_
  · intro x hx
    have hx := (Finset.mem_filter.1 hx).2
    refine mem_fiber.2 ?_
    rw [hf.map_xor, hx]
  · intro x hx x' hx' h
    have hlt := Finset.mem_range.1 (Finset.mem_filter.1 hx).1
    have hlt' := Finset.mem_range.1 (Finset.mem_filter.1 hx').1
    have hd := BitVec.xor_left_inj d |>.1 (BitVec.eq_of_toNat_eq h)
    have hnat := congrArg BitVec.toNat hd
    rwa [BitVec.toNat_ofNat, BitVec.toNat_ofNat, Nat.mod_eq_of_lt hlt,
      Nat.mod_eq_of_lt hlt'] at hnat

/-- A linear function that reaches every value reaches each one equally often. -/
theorem card_fiber (hf : XorLinear f) (hsurj : Function.Surjective f) (y : BitVec n) :
    2 ^ n * (fiber f y).card = 2 ^ m := by
  have hle : ∀ y y', (fiber f y).card ≤ (fiber f y').card := by
    intro y y'
    obtain ⟨d, hd⟩ := hsurj (y ^^^ y')
    have h := hf.card_fiber_le y d
    rwa [hd, ← BitVec.xor_assoc, BitVec.xor_self, BitVec.zero_xor] at h
  have hsum : (Finset.range (2 ^ m)).card =
      ∑ b ∈ Finset.range (2 ^ n), (fiber f (BitVec.ofNat n b)).card := by
    rw [Finset.card_eq_sum_card_fiberwise (f := fun x => (f (BitVec.ofNat m x)).toNat)
      fun x _ => Finset.mem_coe.2 (Finset.mem_range.2 (BitVec.isLt _))]
    refine Finset.sum_congr rfl fun b hb => congrArg Finset.card (Finset.filter_congr fun x _ => ?_)
    rw [← BitVec.toNat_inj, BitVec.toNat_ofNat, Nat.mod_eq_of_lt (Finset.mem_range.1 hb)]
  rw [Finset.card_range, Finset.sum_const_nat fun b _ => le_antisymm (hle _ y) (hle y _),
    Finset.card_range] at hsum
  exact hsum.symm

end XorLinear
end FlowClassifier
