import Mathlib.Data.List.Basic

/-!
# Run-length compression of consecutive keys

A table gives a value to each of a range of consecutive keys.  `runs` reads it in key order and
emits one range for each maximal run of equal values.  The compression is lossless in the strong
sense needed of a range table: every key lies in exactly one range, which carries its value
(`filter_runs`); the ranges come in key order without gaps, and neighbouring ones carry different
values (`isChain_runs`).  `represents_runs` puts this together as one fact about the ranges.
-/

namespace FlowClassifier
namespace RunLength

/-- The keys from `lo` to `hi`, all with one value. -/
structure Run (β : Type*) where
  lo : ℕ
  hi : ℕ
  value : β
  deriving DecidableEq

variable {β : Type*}

/-- Does a run contain a key? -/
def Run.contains (n : ℕ) (r : Run β) : Bool := decide (r.lo ≤ n) && decide (n ≤ r.hi)

lemma contains_eq_true_iff {n : ℕ} {r : Run β} : r.contains n = true ↔ r.lo ≤ n ∧ n ≤ r.hi := by
  simp [Run.contains]

/-- The rows of the keys `k`, `k + 1`, ..., with the values of a function. -/
def rowsFrom (f : ℕ → β) (k m : ℕ) : List (ℕ × β) := (List.range' k m).map fun n => (n, f n)

lemma rowsFrom_succ (f : ℕ → β) (k m : ℕ) :
    rowsFrom f k (m + 1) = (k, f k) :: rowsFrom f (k + 1) m := by
  simp [rowsFrom, List.range'_succ]

variable [DecidableEq β]

/-- The runs of a list of rows, while the run of `old` from `lo` to `hi` is open. -/
def runs (lo hi : ℕ) (old : β) : List (ℕ × β) → List (Run β)
  | [] => [⟨lo, hi, old⟩]
  | (k, v) :: rows => if v = old then runs lo k old rows else ⟨lo, hi, old⟩ :: runs k k v rows

/-- No run starts before the open one. -/
lemma le_lo_of_mem_runs {f : ℕ → β} {lo hi m : ℕ} {old : β} (hlo : lo ≤ hi) :
    ∀ r ∈ runs lo hi old (rowsFrom f (hi + 1) m), lo ≤ r.lo := by
  induction m generalizing lo hi old with
  | zero =>
      intro r hr
      simp only [rowsFrom, List.range'_zero, List.map_nil, runs, List.mem_singleton] at hr
      subst hr
      exact Nat.le_refl lo
  | succ m ih =>
      intro r hr
      rw [rowsFrom_succ] at hr
      unfold runs at hr
      split at hr
      · exact ih (by omega) r hr
      · rcases List.mem_cons.1 hr with rfl | hr
        · exact Nat.le_refl _
        · have := ih (Nat.le_refl _) r hr
          omega

/-- The open run comes first, perhaps longer than it was. -/
lemma exists_runs_eq_cons (lo hi : ℕ) (old : β) (rows : List (ℕ × β)) :
    ∃ hi' rs, runs lo hi old rows = ⟨lo, hi', old⟩ :: rs := by
  induction rows generalizing hi with
  | nil => exact ⟨hi, [], rfl⟩
  | cons row rows ih =>
      unfold runs
      split
      · exact ih row.1
      · exact ⟨hi, _, rfl⟩

/-- A run follows another: it starts right after it, with another value. -/
def Run.Follows (r s : Run β) : Prop := s.lo = r.hi + 1 ∧ s.value ≠ r.value

/-- The runs leave no gap, and neighbouring ones differ. -/
theorem isChain_runs (f : ℕ → β) (lo hi : ℕ) (old : β) (m : ℕ) :
    (runs lo hi old (rowsFrom f (hi + 1) m)).IsChain Run.Follows := by
  induction m generalizing lo hi old with
  | zero => exact List.IsChain.singleton _
  | succ m ih =>
      rw [rowsFrom_succ]
      unfold runs
      by_cases hv : f (hi + 1) = old
      · rw [if_pos hv]
        exact ih lo (hi + 1) old
      · rw [if_neg hv]
        have hrest := ih (hi + 1) (hi + 1) (f (hi + 1))
        obtain ⟨hi', rs, heq⟩ := exists_runs_eq_cons (hi + 1) (hi + 1) (f (hi + 1))
          (rowsFrom f (hi + 1 + 1) m)
        rw [heq] at hrest ⊢
        exact List.isChain_cons_cons.2 ⟨⟨rfl, hv⟩, hrest⟩

/-- Every run has a key, and none goes past the last row. -/
lemma bounds_of_mem_runs {f : ℕ → β} {lo hi m : ℕ} {old : β} (hlo : lo ≤ hi) :
    ∀ r ∈ runs lo hi old (rowsFrom f (hi + 1) m), r.lo ≤ r.hi ∧ r.hi ≤ hi + m := by
  induction m generalizing lo hi old with
  | zero =>
      intro r hr
      obtain rfl := List.mem_singleton.1 hr
      exact ⟨hlo, Nat.le_refl _⟩
  | succ m ih =>
      intro r hr
      rw [rowsFrom_succ] at hr
      unfold runs at hr
      split at hr
      · have := ih (by omega) r hr
        omega
      · rcases List.mem_cons.1 hr with rfl | hr
        · exact ⟨hlo, Nat.le_add_right _ _⟩
        · have := ih (Nat.le_refl _) r hr
          omega

/-- The runs come in key order, and no two share a key. -/
lemma pairwise_runs {f : ℕ → β} {lo hi m : ℕ} {old : β} (hlo : lo ≤ hi) :
    (runs lo hi old (rowsFrom f (hi + 1) m)).Pairwise fun r s => r.hi < s.lo := by
  induction m generalizing lo hi old with
  | zero => exact List.pairwise_singleton _ _
  | succ m ih =>
      rw [rowsFrom_succ]
      unfold runs
      split
      · exact ih (by omega)
      · exact List.pairwise_cons.2 ⟨le_lo_of_mem_runs (Nat.le_refl _), ih (Nat.le_refl _)⟩

/-- **Compression is lossless.**  Every key from the start of the open run to the last row is
contained in exactly one run, which carries its value. -/
theorem filter_runs {f : ℕ → β} {lo hi : ℕ} {old : β} (m : ℕ) (hlo : lo ≤ hi)
    (hold : ∀ n, lo ≤ n → n ≤ hi → f n = old) {n : ℕ} (hn : lo ≤ n) (hn' : n ≤ hi + m) :
    ∃ r, (runs lo hi old (rowsFrom f (hi + 1) m)).filter (Run.contains n) = [r] ∧
      r.value = f n := by
  induction m generalizing lo hi old with
  | zero =>
      refine ⟨⟨lo, hi, old⟩, ?_, (hold n hn hn').symm⟩
      have hin : (⟨lo, hi, old⟩ : Run β).contains n = true := contains_eq_true_iff.2 ⟨hn, hn'⟩
      simp only [rowsFrom, List.range'_zero, List.map_nil, runs]
      rw [List.filter_cons_of_pos hin, List.filter_nil]
  | succ m ih =>
      rw [rowsFrom_succ]
      unfold runs
      by_cases hv : f (hi + 1) = old
      · -- The open run grows by the new key.
        rw [if_pos hv]
        refine ih (by omega) ?_ hn (by omega)
        intro j hj hj'
        rcases Nat.lt_or_ge hi j with h | h
        · have hjk : j = hi + 1 := by omega
          rw [hjk, hv]
        · exact hold j hj h
      · rw [if_neg hv]
        rcases Nat.lt_or_ge hi n with h | h
        · -- The key is past the run that was closed.
          have hout : ¬ (⟨lo, hi, old⟩ : Run β).contains n = true := by
            rw [contains_eq_true_iff]
            intro hin
            exact absurd hin.2 (Nat.not_le.2 h)
          rw [List.filter_cons_of_neg hout]
          refine ih (Nat.le_refl _) ?_ (by omega) (by omega)
          intro j hj hj'
          have hjk : j = hi + 1 := by omega
          rw [hjk]
        · -- The key is in the run that was closed, and before all others.
          have hin : (⟨lo, hi, old⟩ : Run β).contains n = true := contains_eq_true_iff.2 ⟨hn, h⟩
          refine ⟨⟨lo, hi, old⟩, ?_, (hold n hn h).symm⟩
          rw [List.filter_cons_of_pos hin]
          have hnone : (runs (hi + 1) (hi + 1) (f (hi + 1)) (rowsFrom f (hi + 1 + 1) m)).filter
              (Run.contains n) = [] := by
            rw [List.filter_eq_nil_iff]
            intro r hr hrn
            have hstart := le_lo_of_mem_runs (Nat.le_refl (hi + 1)) r hr
            have := (contains_eq_true_iff.1 hrn).1
            omega
          rw [hnone]

/-- Runs that stand for a function on the keys from `lo` to `hi`. -/
structure Represents (f : ℕ → β) (lo hi : ℕ) (rs : List (Run β)) : Prop where
  bounds : ∀ r ∈ rs, lo ≤ r.lo ∧ r.lo ≤ r.hi ∧ r.hi ≤ hi
  pairwise : rs.Pairwise fun r s => r.hi < s.lo
  chain : rs.IsChain Run.Follows
  value : ∀ r ∈ rs, ∀ n, r.lo ≤ n → n ≤ r.hi → r.value = f n
  cover : ∀ n, lo ≤ n → n ≤ hi → ∃ r ∈ rs, r.lo ≤ n ∧ n ≤ r.hi

/-- The runs of a list of rows stand for the function the rows tabulate. -/
theorem represents_runs {f : ℕ → β} {lo hi : ℕ} {old : β} (m : ℕ) (hlo : lo ≤ hi)
    (hold : ∀ n, lo ≤ n → n ≤ hi → f n = old) :
    Represents f lo (hi + m) (runs lo hi old (rowsFrom f (hi + 1) m)) where
  bounds r hr := ⟨le_lo_of_mem_runs hlo r hr, bounds_of_mem_runs hlo r hr⟩
  pairwise := pairwise_runs hlo
  chain := isChain_runs f lo hi old m
  value r hr n hn hn' := by
    have hstart := le_lo_of_mem_runs hlo r hr
    have hend := (bounds_of_mem_runs hlo r hr).2
    obtain ⟨r', hfilter, hvalue⟩ := filter_runs m hlo hold (n := n) (by omega) (by omega)
    have hmem := List.mem_filter.2 ⟨hr, contains_eq_true_iff.2 ⟨hn, hn'⟩⟩
    rw [hfilter, List.mem_singleton] at hmem
    rw [hmem, hvalue]
  cover n hn hn' := by
    obtain ⟨r, hfilter, -⟩ := filter_runs m hlo hold hn hn'
    have hr := List.mem_filter.1 (hfilter ▸ List.mem_singleton_self r)
    exact ⟨r, hr.1, contains_eq_true_iff.1 hr.2⟩

end RunLength
end FlowClassifier
