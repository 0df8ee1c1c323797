import Mathlib.Algebra.BigOperators.Group.List.Basic
import Mathlib.Data.Nat.ModEq

/-!
# Ones' complement sums

Addition with an end-around carry, and the checksum built on it: the complement of the sum of some
words, stored among them so that a reader finds all ones when it adds up everything.

The sum of words of width `w` is a representative of their sum as numbers modulo `2 ^ w - 1`, the
one between 1 and `2 ^ w - 1` unless all words are zero (`toNat_sum`).  Whether a list of words
verifies is therefore a question of divisibility (`verifies_iff`), and all that is said about
checksums here follows from that.
-/

namespace FlowClassifier
namespace OnesComplement

variable {w : ℕ}

/-- Addition with the carry added at the other end. -/
def add (a b : BitVec w) : BitVec w :=
  BitVec.ofNat w ((a.toNat + b.toNat) % 2 ^ w + (a.toNat + b.toNat) / 2 ^ w)

/-- The sum of some words. -/
def sum (words : List (BitVec w)) : BitVec w := words.foldl add 0

/-- The checksum of some words. -/
def checksum (words : List (BitVec w)) : BitVec w := ~~~ sum words

/-- The test a reader makes on words that include their checksum. -/
def Verifies (words : List (BitVec w)) : Prop := sum words = BitVec.allOnes w

instance (words : List (BitVec w)) : Decidable (Verifies words) := by
  unfold Verifies
  infer_instance

/-! ## Sums as residues -/

/-- The representative of a number modulo `2 ^ w - 1`: zero stands for zero alone. -/
def residue (w n : ℕ) : ℕ := if n = 0 then 0 else (n - 1) % (2 ^ w - 1) + 1

section Residue

variable {m n : ℕ}

lemma residue_of_lt (h : n < 2 ^ w) : residue w n = n := by
  unfold residue
  split
  · rename_i h0
    exact h0.symm
  · rw [Nat.mod_eq_of_lt (by omega)]
    omega

lemma residue_pos (h : 0 < n) : 0 < residue w n := by
  rw [residue, if_neg (by omega)]
  exact Nat.succ_pos _

lemma residue_modEq (w n : ℕ) : residue w n ≡ n [MOD 2 ^ w - 1] := by
  unfold residue
  split
  · rename_i h0
    rw [h0]
  · have h := (Nat.mod_modEq (n - 1) (2 ^ w - 1)).add_right 1
    rwa [Nat.sub_add_cancel (by omega)] at h

/-- Numbers of one residue class have one representative, if both are zero or none is. -/
lemma residue_congr (h : m ≡ n [MOD 2 ^ w - 1]) (h0 : m = 0 ↔ n = 0) :
    residue w m = residue w n := by
  by_cases hm : m = 0
  · rw [hm, h0.1 hm]
  · have hn : n ≠ 0 := fun hn => hm (h0.2 hn)
    have hpred : m - 1 ≡ n - 1 [MOD 2 ^ w - 1] := by
      refine Nat.ModEq.add_right_cancel' 1 ?_
      rwa [Nat.sub_add_cancel (by omega), Nat.sub_add_cancel (by omega)]
    have hmod : (m - 1) % (2 ^ w - 1) = (n - 1) % (2 ^ w - 1) := hpred
    rw [residue, residue, if_neg hm, if_neg hn, hmod]

lemma residue_residue_add (w m n : ℕ) : residue w (residue w m + n) = residue w (m + n) := by
  refine residue_congr ((residue_modEq w m).add_right n) ?_
  rcases Nat.eq_zero_or_pos m with rfl | hm
  · rfl
  · have hpos := residue_pos (w := w) hm
    omega

/-- All ones represent the non-zero multiples. -/
lemma residue_eq_iff (hw : 0 < w) : residue w n = 2 ^ w - 1 ↔ 0 < n ∧ 2 ^ w - 1 ∣ n := by
  have hpow : 1 < 2 ^ w := Nat.one_lt_two_pow (by omega)
  constructor
  · intro h
    have hne : n ≠ 0 := by
      rintro rfl
      rw [residue, if_pos rfl] at h
      omega
    refine ⟨by omega, (Nat.modEq_zero_iff_dvd).1 ?_⟩
    have hmod := residue_modEq w n
    rw [h] at hmod
    exact hmod.symm.trans (Nat.modEq_zero_iff_dvd.2 dvd_rfl)
  · rintro ⟨hpos, hdvd⟩
    have hclass : n ≡ 2 ^ w - 1 [MOD 2 ^ w - 1] :=
      (Nat.modEq_zero_iff_dvd.2 hdvd).trans (Nat.modEq_zero_iff_dvd.2 dvd_rfl).symm
    rw [residue_congr hclass (by omega), residue_of_lt (by omega)]

end Residue

lemma toNat_add (hw : 0 < w) (a b : BitVec w) :
    (add a b).toNat = residue w (a.toNat + b.toNat) := by
  have hpow : 1 < 2 ^ w := Nat.one_lt_two_pow (by omega)
  have ha := a.isLt
  have hb := b.isLt
  rw [add, BitVec.toNat_ofNat]
  by_cases hlt : a.toNat + b.toNat < 2 ^ w
  · rw [Nat.mod_eq_of_lt hlt, Nat.div_eq_of_lt hlt, Nat.add_zero, Nat.mod_eq_of_lt hlt,
      residue_of_lt hlt]
  · -- the carry is one, and stands for the `2 ^ w` that was cut off
    have hdiv : (a.toNat + b.toNat) / 2 ^ w = 1 := Nat.div_eq_of_lt_le (by omega) (by omega)
    have hmod : (a.toNat + b.toNat) % 2 ^ w = a.toNat + b.toNat - 2 ^ w := by
      rw [Nat.mod_eq_sub_mod (by omega), Nat.mod_eq_of_lt (by omega)]
    have hpred : (a.toNat + b.toNat - 1) % (2 ^ w - 1) = a.toNat + b.toNat - 2 ^ w := by
      rw [Nat.mod_eq_sub_mod (by omega), Nat.mod_eq_of_lt (by omega)]
      omega
    rw [hdiv, hmod, Nat.mod_eq_of_lt (by omega), residue, if_neg (by omega), hpred]

/-- **The sum of some words** represents their sum as numbers. -/
theorem toNat_sum (hw : 0 < w) (words : List (BitVec w)) :
    (sum words).toNat = residue w (words.map BitVec.toNat).sum := by
  have hfold : ∀ a : BitVec w,
      (words.foldl add a).toNat = residue w (a.toNat + (words.map BitVec.toNat).sum) := by
    induction words with
    | nil =>
        intro a
        exact (residue_of_lt a.isLt).symm
    | cons b words ih =>
        intro a
        rw [List.foldl_cons, ih, toNat_add hw, residue_residue_add, List.map_cons, List.sum_cons,
          Nat.add_assoc]
  have hzero : (0 : BitVec w).toNat = 0 := BitVec.toNat_zero
  rw [sum, hfold 0, hzero, Nat.zero_add]

/-! ## Verification -/

/-- A list of words verifies when its sum is a non-zero multiple of `2 ^ w - 1`. -/
lemma verifies_iff (hw : 0 < w) (words : List (BitVec w)) :
    Verifies words ↔
      0 < (words.map BitVec.toNat).sum ∧ 2 ^ w - 1 ∣ (words.map BitVec.toNat).sum := by
  rw [Verifies, ← BitVec.toNat_inj, toNat_sum hw, BitVec.toNat_allOnes, residue_eq_iff hw]

/-- **A list with its own checksum in it verifies**, wherever the checksum stands. -/
theorem verifies_checksum (hw : 0 < w) (pre post : List (BitVec w)) :
    Verifies (pre ++ checksum (pre ++ post) :: post) := by
  have hpow : 1 < 2 ^ w := Nat.one_lt_two_pow (by omega)
  set n := ((pre ++ post).map BitVec.toNat).sum with hn
  have hcheck : (checksum (pre ++ post)).toNat = 2 ^ w - 1 - residue w n := by
    rw [checksum, BitVec.toNat_not, toNat_sum hw]
  have hle : residue w n < 2 ^ w := by
    rw [← toNat_sum hw (pre ++ post)]
    exact BitVec.isLt _
  have hsum : ((pre ++ checksum (pre ++ post) :: post).map BitVec.toNat).sum =
      n + (2 ^ w - 1 - residue w n) := by
    have hsplit : n = (pre.map BitVec.toNat).sum + (post.map BitVec.toNat).sum := by
      rw [hn, List.map_append, List.sum_append]
    rw [List.map_append, List.map_cons, List.sum_append, List.sum_cons, hcheck]
    omega
  rw [verifies_iff hw, hsum]
  constructor
  · rcases Nat.eq_zero_or_pos n with h0 | hpos
    · rw [h0, residue, if_pos rfl]
      omega
    · omega
  · have hmod : n + (2 ^ w - 1 - residue w n) ≡ residue w n + (2 ^ w - 1 - residue w n)
        [MOD 2 ^ w - 1] := (residue_modEq w n).symm.add_right _
    rw [Nat.add_sub_cancel' (by omega)] at hmod
    exact Nat.modEq_zero_iff_dvd.1 (hmod.trans (Nat.modEq_zero_iff_dvd.2 dvd_rfl))

/-- **More words behind a list that verifies**: the whole verifies exactly when they add up to
nothing, plain zero or all ones. -/
theorem verifies_append_iff (hw : 0 < w) {words : List (BitVec w)} (h : Verifies words)
    (more : List (BitVec w)) :
    Verifies (words ++ more) ↔ sum more = 0 ∨ sum more = BitVec.allOnes w := by
  obtain ⟨hpos, hdvd⟩ := (verifies_iff hw words).1 h
  have hmore : Verifies (words ++ more) ↔ 2 ^ w - 1 ∣ (more.map BitVec.toNat).sum := by
    rw [verifies_iff hw, List.map_append, List.sum_append, Nat.dvd_add_right hdvd]
    exact and_iff_right (by omega)
  rw [hmore]
  rcases Nat.eq_zero_or_pos (more.map BitVec.toNat).sum with h0 | hsum
  · have hzero : sum more = 0 := by
      rw [← BitVec.toNat_inj, toNat_sum hw, h0]
      rfl
    exact iff_of_true (h0 ▸ dvd_zero _) (.inl hzero)
  · have hne : sum more ≠ 0 := by
      intro hzero
      have hnat : (sum more).toNat = 0 := by
        rw [hzero]
        exact BitVec.toNat_zero
      rw [toNat_sum hw] at hnat
      exact absurd hnat (residue_pos hsum).ne'
    rw [or_iff_right hne, ← Verifies, verifies_iff hw, and_iff_right hsum]

end OnesComplement
end FlowClassifier
