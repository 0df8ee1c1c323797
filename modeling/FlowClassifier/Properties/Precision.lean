import Mathlib.Algebra.Order.BigOperators.Group.List
import FlowClassifier.Controller.Approx

/-!
# The mean precision

At its end `expo.c` prints how good its table is: the mean over all elements of what the search has
carried as `prec`.  `meanPrecision_eq` reads the number off the table.  It is the mean of
`n * (2^-a + 2^-b + 2^-c)` over the rows, so a sum divided by the table comes out that much too low
on the average, by less than an eighth, and not at all only if the table ends at one or two.
-/

namespace FlowClassifier

open Loop InversePowers

namespace Expo

/-! ## The precision of a row -/

/-- The exponents a row stands for. A zero after the first entry was never written. -/
def rowExponents : List ℕ → List ℕ
  | [] => []
  | e :: row => e :: row.filter (· ≠ 0)

/-- How much of the inverse of an element its row reaches. -/
def precision (elem : ℕ) (row : List ℕ) : ℚ := elem * weight (rowExponents row)

/-- The precisions of the rows, for the elements from `n` on. -/
def precisions (n : ℕ) (res : List (List ℕ)) : List ℚ :=
  (res.zipIdx n).map fun x => precision x.2 x.1

lemma precisions_cons (n : ℕ) (row : List ℕ) (res : List (List ℕ)) :
    precisions n (row :: res) = precision n row :: precisions (n + 1) res := rfl

variable {n e : ℕ} {es : List ℕ}

lemma rowExponents_of_expansion (h : Expansion n e es) (k : ℕ) :
    rowExponents (es ++ List.replicate k 0) = es := by
  obtain ⟨rest, rfl⟩ := h.first
  have hpos : ∀ x ∈ rest, x ≠ 0 := by
    intro x hx
    have hlt := List.rel_of_pairwise_cons h.increasing hx
    omega
  rw [List.cons_append, rowExponents, List.filter_append]
  have hrest : rest.filter (· ≠ 0) = rest := List.filter_eq_self.2 (by simpa using hpos)
  have hzeros : (List.replicate k 0).filter (· ≠ 0) = [] := by simp
  rw [hrest, hzeros, List.append_nil]

lemma exponent_eq {j : ℕ} (h : Expansion n e es) (hj : n = 2 ^ j) : e = j := by
  have hle : j ≤ e := by
    refine (Nat.pow_le_pow_iff_right (by decide : 1 < 2)).1 ?_
    rw [← hj]
    exact h.le_pow
  have hlt : e < j + 1 := by
    refine (Nat.pow_lt_pow_iff_right (by decide : 1 < 2)).1 ?_
    rw [pow_succ, ← hj, mul_comm]
    exact h.pow_lt
  omega

lemma weight_eq_inverse_iff (h : Expansion n e es) : weight es = 1 / n ↔ ∃ j, n = 2 ^ j := by
  refine ⟨eq_two_pow_of_weight h.pos, ?_⟩
  rintro ⟨j, hj⟩
  have hcast : (n : ℚ) = 2 ^ e := by
    rw [exponent_eq h hj, hj]
    push_cast
    rfl
  rw [h.exact (by rw [exponent_eq h hj, hj]), hcast]
  simp

/-- A row reaches more than seven eighths, and all of it exactly for a power of two. -/
lemma precision_of_isRow {row : List ℕ} (h : IsRow n row) :
    7 / 8 < precision n row ∧ precision n row ≤ 1 ∧ (precision n row = 1 ↔ ∃ j, n = 2 ^ j) := by
  obtain ⟨e, es, hexp, rfl⟩ := h
  have hnpos : (0 : ℚ) < n := by exact_mod_cast hexp.pos
  have hone : (n : ℚ) * (1 / n) = 1 := by field_simp
  have hlow : 7 / 8 * (1 / (n : ℚ)) < weight es := by
    have hpos : (0 : ℚ) < 1 / n := by positivity
    rcases hexp.precise with hfine | ⟨-, hthree⟩
    · linarith
    · exact hthree
  rw [precision, rowExponents_of_expansion hexp, ← weight_eq_inverse_iff hexp]
  refine ⟨?_, ?_, ?_⟩
  · have hmul := mul_lt_mul_of_pos_left hlow hnpos
    linarith
  · have hmul := mul_le_mul_of_nonneg_left hexp.weight_le hnpos.le
    linarith
  · rw [eq_div_iff hnpos.ne', mul_comm]

/-! ## The search -/

/-- What the search tallies on the side. -/
structure Search.Tallies (n : ℕ) (s : Search) : Prop where
  pow : s.pow2Loc = 2 ^ s.expPow2Loc
  sum : s.sum = weight s.tab
  prec : s.prec = n * weight s.tab

lemma tallies_startSearch {g : Carried} (hpow : g.pow2Gen = 2 ^ g.expPow2Gen) :
    (startSearch n g).Tallies n := by
  have hcast : ((g.pow2Gen : ℕ) : ℚ) = 2 ^ g.expPow2Gen := by rw [hpow]; push_cast; rfl
  refine ⟨?_, ?_, ?_⟩
  · show g.pow2Gen * 2 = 2 ^ (g.expPow2Gen + 1)
    rw [hpow, pow_succ]
  · simp [startSearch, hcast]
  · simp [startSearch, hcast, div_eq_mul_inv, mul_comm]

lemma Search.Tallies.addElement {s : Search} (h : s.Tallies n) : (s.addElement n).Tallies n := by
  have hcast : ((s.pow2Loc : ℕ) : ℚ) = 2 ^ s.expPow2Loc := by rw [h.pow]; push_cast; rfl
  have hpow : s.pow2Loc * 2 = 2 ^ (s.expPow2Loc + 1) := by rw [h.pow, pow_succ]
  unfold Search.addElement
  split
  · have hsum : s.sum + 1 / (s.pow2Loc : ℚ) = weight (s.tab ++ [s.expPow2Loc]) := by
      rw [weight_concat, h.sum, hcast]
    refine ⟨hpow, hsum, ?_⟩
    show (s.sum + 1 / (s.pow2Loc : ℚ)) / (1 / n) = _
    rw [hsum, div_div_eq_mul_div, div_one, mul_comm]
  · exact ⟨hpow, h.sum, h.prec⟩

lemma Search.Tallies.iterate {s : Search} (h : s.Tallies n) (k : ℕ) :
    ((Search.addElement n)^[k] s).Tallies n := by
  induction k with
  | zero => exact h
  | succ k ih =>
      rw [Function.iterate_succ_apply']
      exact ih.addElement

/-! ## `main` -/

lemma handleElement_precision {fuel : ℕ} (hfuel : 6 ≤ fuel) {g : Carried}
    (hg : (updatePower2 n g).Covers n) :
    ∃ row, handleElement fuel n g =
        some (row, { updatePower2 n g with sumPrec := g.sumPrec + precision n row }) ∧
      IsRow n row := by
  obtain ⟨k, hk, hends, -, hexp⟩ := search_ends hg
  have hret := handleElement_of_ends (Nat.lt_of_le_of_lt hk hfuel) hends
  have hprec := ((tallies_startSearch (n := n) hg.pow).iterate k).prec
  have hsum : (updatePower2 n g).sumPrec = g.sumPrec := by
    unfold updatePower2
    split
    · rfl
    · rfl
  refine ⟨_, ?_, _, _, hexp, rfl⟩
  rw [hret, precision, rowExponents_of_expansion hexp, ← hprec, hsum]

lemma handleFrom_precision {fuel : ℕ} (hfuel : 6 ≤ fuel) (count : ℕ) {g : Carried}
    (hg : (updatePower2 n g).Covers n) :
    ∃ res g', handleFrom fuel n count g = some (res, g') ∧ res.length = count ∧
      g'.sumPrec = g.sumPrec + (precisions n res).sum ∧
      ∀ x ∈ res.zipIdx n, IsRow x.2 x.1 := by
  induction count generalizing n g with
  | zero => exact ⟨[], g, rfl, rfl, by simp [precisions], by simp⟩
  | succ count ih =>
      obtain ⟨row, hrun, hrow⟩ := handleElement_precision hfuel hg
      have hcov : Carried.Covers
          { updatePower2 n g with sumPrec := g.sumPrec + precision n row } n :=
        ⟨hg.pow, hg.le_pow, hg.pow_lt⟩
      obtain ⟨res, g', hrest, hlen, hsum, hrows⟩ := ih (covers_updatePower2 hcov)
      refine ⟨row :: res, g', ?_, by rw [List.length_cons, hlen], ?_, ?_⟩
      · simp only [handleFrom, hrun, hrest, Option.bind_eq_bind, Option.bind_some]
      · rw [hsum, precisions_cons, List.sum_cons, add_assoc]
      · intro x hx
        rw [List.zipIdx_cons] at hx
        rcases List.mem_cons.1 hx with rfl | hx
        · exact hrow
        · exact hrows x hx

lemma three_ne_two_pow : ¬ ∃ j, 3 = 2 ^ j := by
  rintro ⟨j, hj⟩
  have hdvd : 3 ∣ 2 ^ j := ⟨1, by omega⟩
  exact absurd (Nat.prime_three.dvd_of_dvd_pow hdvd) (by decide)

section Table

variable {res : List (List ℕ)} (hrows : ∀ x ∈ res.zipIdx 1, IsRow x.2 x.1)

include hrows

lemma precision_le_one : ∀ x ∈ res.zipIdx 1, precision x.2 x.1 ≤ 1 :=
  fun x hx => (precision_of_isRow (hrows x hx)).2.1

lemma exists_precision_lt_one (hlen : 2 < res.length) :
    ∃ x ∈ res.zipIdx 1, precision x.2 x.1 < 1 := by
  have hmem : (res[2], 3) ∈ res.zipIdx 1 := by
    rw [List.mk_mem_zipIdx_iff_le_and_getElem?_sub]
    exact ⟨by omega, List.getElem?_eq_getElem hlen⟩
  obtain ⟨-, hle, hiff⟩ := precision_of_isRow (hrows _ hmem)
  exact ⟨_, hmem, lt_of_le_of_ne hle fun h => three_ne_two_pow (hiff.1 h)⟩

lemma precision_eq_one (hlen : res.length ≤ 2) : ∀ x ∈ res.zipIdx 1, precision x.2 x.1 = 1 := by
  intro x hx
  refine (precision_of_isRow (hrows x hx)).2.2.2 ?_
  have hfirst := List.le_snd_of_mem_zipIdx hx
  have hlast := List.snd_lt_of_mem_zipIdx hx
  rcases Nat.lt_or_ge x.2 2 with h | h
  · exact ⟨0, by omega⟩
  · exact ⟨1, by omega⟩

lemma mean_bounds {nb : ℕ} (hlen : res.length = nb) (hnb : 1 ≤ nb) :
    7 / 8 < (precisions 1 res).sum / nb ∧ (precisions 1 res).sum / nb ≤ 1 ∧
      ((precisions 1 res).sum / nb = 1 ↔ nb ≤ 2) := by
  have hnbpos : (0 : ℚ) < nb := by exact_mod_cast hnb
  have hcard : (res.zipIdx 1).length = nb := by rw [List.length_zipIdx, hlen]
  have hne : res.zipIdx 1 ≠ [] := by
    rw [← List.length_pos_iff, hcard]
    exact hnb
  have hconst : ∀ c : ℚ, ((res.zipIdx 1).map fun _ => c).sum = c * nb := by
    intro c
    rw [List.map_const', List.sum_replicate, hcard, nsmul_eq_mul, mul_comm]
  refine ⟨?_, ?_, ?_⟩
  · rw [lt_div_iff₀ hnbpos, ← hconst]
    exact List.sum_lt_sum_of_ne_nil hne _ _ fun x hx => (precision_of_isRow (hrows x hx)).1
  · rw [div_le_one hnbpos, ← one_mul (nb : ℚ), ← hconst]
    exact List.sum_le_sum (precision_le_one hrows)
  · rw [div_eq_one_iff_eq hnbpos.ne', ← one_mul (nb : ℚ), ← hconst]
    constructor
    · intro heq
      by_contra hgt
      have hthird := exists_precision_lt_one hrows (by omega)
      exact absurd heq (List.sum_lt_sum _ _ (precision_le_one hrows) hthird).ne
    · intro hle
      rw [precisions]
      congr 1
      exact List.map_congr_left (precision_eq_one hrows (by omega))

end Table

/-- **What `main` prints is the mean precision of its table**: more than seven eighths, at most one,
and one only for a table of one or two elements.  A row is exact if its element is a power of two,
and only then. -/
theorem meanPrecision_eq {fuel nb : ℕ} (hfuel : 6 ≤ fuel) (hnb : 1 ≤ nb) :
    ∃ res m, handleAll fuel nb = some res ∧ res.length = nb ∧ meanPrecision fuel nb = some m ∧
      m = (precisions 1 res).sum / nb ∧
      (∀ x ∈ res.zipIdx 1, 7 / 8 < precision x.2 x.1 ∧ precision x.2 x.1 ≤ 1 ∧
        (precision x.2 x.1 = 1 ↔ ∃ j, x.2 = 2 ^ j)) ∧
      7 / 8 < m ∧ m ≤ 1 ∧ (m = 1 ↔ nb ≤ 2) := by
  have hstart : (updatePower2 1 ⟨1, 0, 0⟩).Covers 1 := ⟨rfl, le_rfl, by decide⟩
  obtain ⟨res, g', hrun, hlen, hsum, hrows⟩ := handleFrom_precision hfuel nb hstart
  rw [zero_add] at hsum
  refine ⟨res, (precisions 1 res).sum / nb, ?_, hlen, ?_, rfl,
    fun x hx => precision_of_isRow (hrows x hx), ?_⟩
  · rw [handleAll, hrun, Option.map_some]
  · rw [meanPrecision, hrun, Option.map_some, hsum]
  exact mean_bounds hrows hlen hnb

/-- The largest table. -/
theorem meanPrecision_eq_valMax :
    ∃ m, meanPrecision 6 valMax = some m ∧ 7 / 8 < m ∧ m < 1 := by
  obtain ⟨res, m, -, -, hm, -, -, hlow, hle, hone⟩ :=
    meanPrecision_eq (le_refl 6) (by decide : 1 ≤ valMax)
  refine ⟨m, hm, hlow, lt_of_le_of_ne hle fun h => ?_⟩
  exact absurd (hone.1 h) (by decide)

end Expo
end FlowClassifier
