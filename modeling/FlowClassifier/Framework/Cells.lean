import Mathlib.Data.List.Perm.Basic
import Mathlib.Data.List.Nodup
import Mathlib.Data.Nat.Find
import Mathlib.Order.Lattice

/-!
# Cells between cut points

Nondecreasing cut points `b 0 ≤ b 1 ≤ … ≤ b n` divide the values from `b 0` to `b n` into the
closed cells `[b (j - 1), b j]`, numbered from 1.  Neighbouring cells share a cut point, so a value
can lie in several.  `exists_find?_inCell` says that the first cell is the right one: it comes at
or before cell `k` exactly when the value is at most `b k`.  `exists_filter_inCell_iff` says when
there is no other: exactly when the value is none of the inner cut points, and not past the last.

`idxOf_lt_idxOf_of_lt` numbers the values of a sorted list by their first position.
-/

namespace FlowClassifier
namespace Cells

variable {α : Type*} [LinearOrder α] {b : ℕ → α} {n : ℕ} {x : α}

/-- The value lies in cell `j`. -/
def InCell (b : ℕ → α) (x : α) (j : ℕ) : Prop := b (j - 1) ≤ x ∧ x ≤ b j

instance (j : ℕ) : Decidable (InCell b x j) := by
  unfold InCell
  infer_instance

/-- A value between the ends lies in the cell of the first cut point that reaches it, whether or not
the cut points are in order. -/
lemma exists_first_inCell (hn : 0 < n) (h0 : b 0 ≤ x) (hx : x ≤ b n) :
    ∃ j, 1 ≤ j ∧ j ≤ n ∧ InCell b x j ∧ ∀ k, 1 ≤ k → k < j → b k < x := by
  have hex : ∃ k, 1 ≤ k ∧ x ≤ b k := ⟨n, hn, hx⟩
  obtain ⟨hpos, hle⟩ := Nat.find_spec hex
  have hbelow : ∀ k, 1 ≤ k → k < Nat.find hex → b k < x := by
    intro k hk hlt
    exact lt_of_not_ge fun hge => Nat.find_min hex hlt ⟨hk, hge⟩
  refine ⟨Nat.find hex, hpos, Nat.find_min' hex ⟨hn, hx⟩, ⟨?_, hle⟩, hbelow⟩
  rcases Nat.eq_or_lt_of_le hpos with hone | hone
  · rw [← hone]
    exact h0
  · exact le_of_lt (hbelow _ (by omega) (by omega))

/-- The first cell a value lies in, found in order. -/
theorem exists_find?_inCell (hn : 0 < n) (hb : ∀ i j, i ≤ j → j ≤ n → b i ≤ b j) (h0 : b 0 ≤ x)
    (hx : x ≤ b n) :
    ∃ j, (List.range' 1 n).find? (fun j => decide (InCell b x j)) = some j ∧ 1 ≤ j ∧ j ≤ n ∧
      ∀ k, 1 ≤ k → k ≤ n → (x ≤ b k ↔ j ≤ k) := by
  obtain ⟨j, hj, hjn, hcell, hbelow⟩ := exists_first_inCell hn h0 hx
  refine ⟨j, List.find?_range'_eq_some.2 ⟨decide_eq_true hcell, ?_, ?_⟩, hj, hjn, ?_⟩
  · exact List.mem_range'_1.2 ⟨hj, by omega⟩
  · intro k hk hlt
    have hout : ¬ InCell b x k := fun h => absurd h.2 (not_le_of_gt (hbelow k hk hlt))
    simpa using hout
  · intro k hk hkn
    constructor
    · intro h
      by_contra hlt
      exact absurd h (not_le_of_gt (hbelow k hk (by omega)))
    · intro h
      exact le_trans hcell.2 (hb _ _ h hkn)

/-- A value lies in exactly one cell when it is not past the last and none of the inner cut points,
and only then. -/
theorem exists_filter_inCell_iff (hn : 0 < n) (hb : ∀ i j, i ≤ j → j ≤ n → b i ≤ b j)
    (h0 : b 0 ≤ x) :
    (∃ j, (List.range' 1 n).filter (fun j => decide (InCell b x j)) = [j]) ↔
      x ≤ b n ∧ ∀ k, 1 ≤ k → k < n → x ≠ b k := by
  constructor
  · rintro ⟨j, hj⟩
    have hcell : j ∈ (List.range' 1 n).filter (fun j => decide (InCell b x j)) := by
      rw [hj]
      exact List.mem_singleton_self j
    obtain ⟨hrange, hin⟩ := List.mem_filter.1 hcell
    refine ⟨(of_decide_eq_true hin).2.trans (hb _ _ ?_ le_rfl), ?_⟩
    · have hbounds := List.mem_range'_1.1 hrange
      omega
    rintro k hk hkn rfl
    have hmem : ∀ i, 1 ≤ i → i ≤ n → InCell b (b k) i → i = j := by
      intro i hi hin hcell
      have h : i ∈ (List.range' 1 n).filter (fun j => decide (InCell b (b k) j)) :=
        List.mem_filter.2 ⟨List.mem_range'_1.2 ⟨hi, by omega⟩, decide_eq_true hcell⟩
      rw [hj] at h
      exact List.mem_singleton.1 h
    -- The value lies in the two cells that meet at it.
    have hleft := hmem k hk (by omega) ⟨hb _ _ (by omega) (by omega), le_rfl⟩
    have hright := hmem (k + 1) (by omega) hkn ⟨le_rfl, hb _ _ (by omega) hkn⟩
    omega
  · rintro ⟨hx, hne⟩
    obtain ⟨j, hfind, hj, hjn, hpos⟩ := exists_find?_inCell hn hb h0 hx
    have hcell : InCell b x j := by simpa using List.find?_some hfind
    refine ⟨j, List.perm_singleton.1 ?_⟩
    refine (List.perm_ext_iff_of_nodup ?_ (List.nodup_singleton j)).2 fun i => ?_
    · exact List.Nodup.filter _ List.nodup_range'
    · rw [List.mem_filter, List.mem_range'_1, List.mem_singleton, decide_eq_true_iff]
      constructor
      · rintro ⟨⟨hi, hin⟩, hicell⟩
        have hji : j ≤ i := (hpos i hi (by omega)).1 hicell.2
        rcases Nat.eq_or_lt_of_le hji with heq | hlt
        · exact heq.symm
        · -- A later cell starts at the value, which would be an inner cut point.
          have hge : b j ≤ x := le_trans (hb _ _ (by omega) (by omega)) hicell.1
          exact absurd (le_antisymm hcell.2 hge) (hne j hj (by omega))
      · rintro rfl
        exact ⟨⟨hj, by omega⟩, hcell⟩

/-- Two cells meet in the upper end of the first. -/
lemma eq_of_inCell_of_lt (hb : ∀ i j, i ≤ j → j ≤ n → b i ≤ b j) {i j : ℕ} (hj : j ≤ n)
    (hij : i < j) (hi : InCell b x i) (hcell : InCell b x j) : x = b i :=
  le_antisymm hi.2 (le_trans (hb i (j - 1) (by omega) (by omega)) hcell.1)

/-- In a sorted list a smaller value comes first. -/
lemma idxOf_lt_idxOf_of_lt {l : List α} (hl : l.Pairwise (· ≤ ·)) {s t : α} (hs : s ∈ l)
    (ht : t ∈ l) (hst : s < t) : l.idxOf s < l.idxOf t := by
  have hsl := List.idxOf_lt_length_of_mem hs
  have htl := List.idxOf_lt_length_of_mem ht
  have hgets : l[l.idxOf s] = s := List.getElem_idxOf hsl
  have hgett : l[l.idxOf t] = t := List.getElem_idxOf htl
  by_contra hle
  rcases Nat.eq_or_lt_of_le (Nat.le_of_not_lt hle) with heq | hlt
  · simp only [heq, hgets] at hgett
    exact absurd hgett (ne_of_lt hst)
  · have hge := List.pairwise_iff_getElem.1 hl _ _ htl hsl hlt
    rw [hgets, hgett] at hge
    exact absurd hst (not_lt_of_ge hge)

end Cells
end FlowClassifier
