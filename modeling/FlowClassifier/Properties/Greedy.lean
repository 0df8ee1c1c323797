import Mathlib.Order.Bounds.Basic
import FlowClassifier.Controller.Approx

/-!
# The greedy expansion terminates and is tight

The inner loop of `Handle_Element` has no visible bound: it runs until three powers are found or the
sum is precise, and passes over every power that does not fit.  `greedy_expansion` follows the loop
of `main` from element to element: what it carries is the least power of two that covers the
element, the inner loop ends after at most five runs of its body, and the exponents stored for the
element are an `Expo.Expansion` of it.  Up to `VALMAX` no power leaves the range of an int, and
every exponent fits a byte.
-/

namespace FlowClassifier

open Loop InversePowers Expo

/-- What `Handle_Element` does at element `i`, where `g` is the carried state once its power covers
the element and `row` is the array it returns. -/
structure GreedyAt (i : ℕ) (g : Carried) (row : List ℕ) : Prop where
  pow : g.pow2Gen = 2 ^ g.expPow2Gen
  least : IsLeast {p | (∃ e, p = 2 ^ e) ∧ i ≤ p} g.pow2Gen
  search : ∃ k ≤ 5, Ends Search.continues (Search.addElement i) (startSearch i g) k ∧
    (i ≤ valMax → ∀ j ≤ k, ((Search.addElement i)^[j] (startSearch i g)).pow2Loc < 2 ^ 31)
  exponents : ∃ es, row = es ++ List.replicate (maxSum - es.length) 0 ∧ 1 ≤ es.length ∧
    es.length ≤ 3 ∧ es.Pairwise (· < ·) ∧ es.head? = some g.expPow2Gen ∧
    (∀ e ∈ es, e ≤ g.expPow2Gen + 5) ∧ (i ≤ valMax → ∀ e ∈ es, e < 2 ^ 8) ∧
    weight es ≤ 1 / i ∧
    (95 / 100 * (1 / i) ≤ weight es ∨ es.length = 3 ∧ 7 / (8 * i) < weight es)

private lemma first_lt {i e : ℕ} (hlt : 2 ^ e < 2 * i) (hi : i ≤ valMax) : e < 15 := by
  have hval : valMax = 10000 := rfl
  by_contra hge
  have hpow : 2 ^ 15 ≤ 2 ^ e := Nat.pow_le_pow_right (by decide) (by omega)
  omega

private lemma isLeast_pow {i e : ℕ} (hle : i ≤ 2 ^ e) (hlt : 2 ^ e < 2 * i) :
    IsLeast {p | (∃ e, p = 2 ^ e) ∧ i ≤ p} (2 ^ e) := by
  refine ⟨⟨⟨e, rfl⟩, hle⟩, ?_⟩
  rintro p ⟨⟨e', rfl⟩, hp⟩
  by_contra hlt'
  have hexp : e' + 1 ≤ e := (Nat.pow_lt_pow_iff_right (by decide)).1 (not_le.1 hlt')
  have hpow : 2 ^ (e' + 1) ≤ 2 ^ e := Nat.pow_le_pow_right (by decide) hexp
  rw [pow_succ] at hpow
  omega

private lemma greedyAt_of_covers {fuel : ℕ} (hfuel : 6 ≤ fuel) {i : ℕ} {g : Carried}
    (hg : (updatePower2 i g).Covers i) :
    ∃ row g', handleElement fuel i g = some (row, g') ∧ GreedyAt i (updatePower2 i g) row := by
  obtain ⟨k, hk, hends, hpow, hexp⟩ := search_ends hg
  have hret := handleElement_of_ends (Nat.lt_of_le_of_lt hk hfuel) hends
  have hlt : i ≤ valMax → (updatePower2 i g).expPow2Gen < 15 := first_lt hexp.pow_lt
  obtain ⟨rest, hrest⟩ := hexp.first
  refine ⟨_, _, hret, hg.pow, ?_, ?_, _, rfl, ?_,
    hexp.length_le, hexp.increasing, ?_, hexp.le_first_add_five, ?_, hexp.weight_le, ?_⟩
  · rw [hg.pow]
    exact isLeast_pow hexp.le_pow hexp.pow_lt
  · refine ⟨k, hk, hends, fun hi j hj => lt_of_le_of_lt (hpow j hj) ?_⟩
    have := hlt hi
    exact Nat.pow_lt_pow_right (by decide) (by omega)
  · rw [hrest]
    exact Nat.succ_pos _
  · rw [hrest]
    rfl
  · intro hi e he
    have hfive := hexp.le_first_add_five e he
    have := hlt hi
    omega
  · refine hexp.precise.imp_right fun hthree => ⟨hthree.1, ?_⟩
    have heighths : (7 : ℚ) / (8 * i) = 7 / 8 * (1 / i) := by
      rw [div_mul_div_comm, mul_one]
    rw [heighths]
    exact hthree.2

/-- **The greedy expansion terminates and is tight**, at every element of every run of `main`: `g`
is what the loop has carried past the elements before `i`. -/
theorem greedy_expansion {fuel : ℕ} (hfuel : 6 ≤ fuel) (nb : ℕ) :
    ∃ res, handleAll fuel nb = some res ∧ res.length = nb ∧
      ∀ i, 1 ≤ i → i ≤ nb → ∃ g row,
        handleFrom fuel 1 (i - 1) ⟨1, 0, 0⟩ = some (res.take (i - 1), g) ∧
          res[i - 1]? = some row ∧ GreedyAt i (updatePower2 i g) row := by
  obtain ⟨res, hall, hlen, -⟩ := handleAll_spec hfuel nb
  refine ⟨res, hall, hlen, fun i hi hi' => ?_⟩
  obtain ⟨before, g, hbefore, hcount, hg⟩ := exists_handleFrom hfuel (i - 1)
  rw [Nat.sub_add_cancel hi] at hg
  obtain ⟨row, g', hrow, hgreedy⟩ := greedyAt_of_covers hfuel hg
  -- `main` over all elements is the loop before `i`, then `i`, then the rest.
  have hsplit : nb = i - 1 + (1 + (nb - i)) := by omega
  have hidx : 1 + (i - 1) = i := by omega
  rw [handleAll, hsplit, handleFrom_add, hbefore, Option.bind_some, handleFrom_add, hidx,
    handleFrom_one, hrow] at hall
  simp only [Option.map_some, Option.bind_some, Option.map_map] at hall
  obtain ⟨after, -, hres⟩ := Option.map_eq_some_iff.1 hall
  have hres' : res = before ++ row :: after.1 := hres.symm
  refine ⟨g, row, ?_, ?_, hgreedy⟩
  · rw [hbefore, hres', ← hcount, List.take_left]
  · rw [hres', List.getElem?_append_right (by omega), hcount, Nat.sub_self]
    rfl

/-- Among the elements up to 17. -/
theorem greedy_expansion_seventeen :
    ∃ res, handleAll 6 17 = some res ∧ ∃ g row, res[16]? = some row ∧
      GreedyAt 17 (updatePower2 17 g) row := by
  obtain ⟨res, hall, -, hgreedy⟩ := greedy_expansion (le_refl 6) 17
  obtain ⟨g, row, -, hrow, hat⟩ := hgreedy 17 (by decide) le_rfl
  exact ⟨res, hall, g, row, hrow, hat⟩

end FlowClassifier
