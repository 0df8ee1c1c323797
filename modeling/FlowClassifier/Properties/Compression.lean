import Mathlib.Data.List.Chain
import Mathlib.Data.List.GetD
import FlowClassifier.Controller.ApproxRules

/-!
# The compression of the division file is lossless

`write_appr_rule` does not install one entry per count but one per run of equal rows, with a run
already open before the first row and another to be flushed after the last.  `lossless_compression`
says that nothing is lost for any file of the format, whatever the rows hold: the entries cut the
counts from 1 to the last into consecutive ranges, each carries the exponents of all of its rows,
and no two neighbours could have been one.

The parameters of `Pow` are eight bits wide and the count is a key of twelve.  A row with a larger
exponent stops the controller, and so does a file of more than 4095 rows
(`not_lossless_wide_exponent`).
-/

namespace FlowClassifier

open RunLength Interrupted

/-! ## Files and entries -/

/-- A row of the format: one to three exponents, none zero. -/
structure IsExponents (row : List ℕ) : Prop where
  length_pos : 1 ≤ row.length
  length_le : row.length ≤ 3
  ne_zero : ∀ e ∈ row, e ≠ 0

/-- The row of a count in a file with the given rows after the first, which is `1 0 `. -/
def fileRow (rows : List (List ℕ)) (y : ℕ) : List ℕ := if y = 1 then [0] else rows.getD (y - 2) []

/-- A row filled up to three exponents with 255. -/
def padded (row : List ℕ) : List ℕ := row ++ List.replicate (3 - row.length) 255

/-- Entries that hold what a file says, and no less. -/
structure Lossless (rows : List (List ℕ)) (es : List (RangeEntry PowParams)) : Prop where
  nonempty : ∀ e ∈ es, e.lo ≤ e.hi
  disjoint : es.Pairwise fun e e' => e.hi < e'.lo
  union : ∀ y, (∃ e ∈ es, e.lo ≤ y ∧ y ≤ e.hi) ↔ 1 ≤ y ∧ y ≤ rows.length + 1
  carries : ∀ e ∈ es, ∀ y, e.lo ≤ y → y ≤ e.hi → e.params.powers = padded (fileRow rows y)
  neighbours : es.IsChain fun e e' => e'.params ≠ e.params
  priorities : (es.map RangeEntry.priority).Nodup

/-! ## What the controller reads -/

variable {rows : List (List ℕ)}

lemma exportedPowers_eq_padded (hrows : ∀ row ∈ rows, IsExponents row) (first : List ℕ) {y : ℕ}
    (hy : 1 ≤ y) (hy' : y ≤ rows.length + 1) :
    exportedPowers (first :: rows) y = padded (fileRow rows y) := by
  unfold exportedPowers fileRow
  by_cases hone : y = 1
  · rw [if_pos hone, if_pos hone]
    rfl
  · have hin : y - 2 < rows.length := by omega
    have hget : (first :: rows).getD (y - 1) [] = rows[y - 2] := by
      have hidx : y - 1 = y - 2 + 1 := by omega
      rw [hidx, List.getD_cons_succ, List.getD_eq_getElem _ _ hin]
    have hkeep : rows[y - 2].filter (· ≠ 0) = rows[y - 2] := by
      refine List.filter_eq_self.2 fun e he => ?_
      simpa using (hrows _ (List.getElem_mem hin)).ne_zero e he
    rw [if_neg hone, if_neg hone, hget, paddedRow, hkeep, List.getD_eq_getElem _ _ hin]
    rfl

lemma isPowers_padded (hrows : ∀ row ∈ rows, IsExponents row)
    (hfit : ∀ row ∈ rows, ∀ e ∈ row, e ≤ 255) {y : ℕ} (hy : 1 ≤ y) (hy' : y ≤ rows.length + 1) :
    IsPowers (padded (fileRow rows y)) := by
  unfold fileRow
  by_cases hone : y = 1
  · rw [if_pos hone]
    exact ⟨by decide, 0, 255, 255, rfl, by decide, by decide, by decide⟩
  · have hin : y - 2 < rows.length := by omega
    rw [if_neg hone, List.getD_eq_getElem _ _ hin]
    have hrow := hrows _ (List.getElem_mem hin)
    have hle := hfit _ (List.getElem_mem hin)
    generalize rows[y - 2] = row at hrow hle
    have hne := hrow.ne_zero
    have hpos := hrow.length_pos
    have hlen := hrow.length_le
    match row with
    | [a] =>
        have ha := hle a (by simp)
        exact ⟨by simp [padded], a, 255, 255, rfl, by omega, by decide, by decide⟩
    | [a, b] =>
        have ha := hle a (by simp)
        have hb := hle b (by simp)
        exact ⟨by simp [padded], a, b, 255, rfl, by omega, by omega, by decide⟩
    | [a, b, c] =>
        have ha := hle a (by simp)
        have hb := hle b (by simp)
        have hc := hle c (by simp)
        have ha' := hne a (by simp)
        exact ⟨by simp [padded, ha'], a, b, c, rfl, by omega, by omega, by omega⟩
    | _ :: _ :: _ :: _ :: _ =>
        simp only [List.length_cons] at hlen
        omega

/-! ## The entries of the runs -/

private lemma forall_entriesFrom {rs : List (Run (List ℕ))} {prio : ℕ}
    {P : ℕ × ℕ × PowParams → Prop} (h : ∀ r ∈ rs, P (r.lo, r.hi, toParams r.value)) :
    ∀ e ∈ entriesFrom prio rs, P (e.lo, e.hi, e.params) := by
  intro e he
  have hmem : (e.lo, e.hi, e.params) ∈
      (entriesFrom prio rs).map fun e => (e.lo, e.hi, e.params) := List.mem_map_of_mem he
  rw [map_entriesFrom] at hmem
  obtain ⟨r, hr, heq⟩ := List.mem_map.1 hmem
  rw [← heq]
  exact h r hr

private lemma exists_entriesFrom {rs : List (Run (List ℕ))} (prio : ℕ) {r : Run (List ℕ)}
    (hr : r ∈ rs) : ∃ e ∈ entriesFrom prio rs, e.lo = r.lo ∧ e.hi = r.hi := by
  have hmem : (r.lo, r.hi, toParams r.value) ∈
      (entriesFrom prio rs).map fun e => (e.lo, e.hi, e.params) := by
    rw [map_entriesFrom]
    exact List.mem_map_of_mem (f := fun r : Run (List ℕ) => (r.lo, r.hi, toParams r.value)) hr
  obtain ⟨e, he, heq⟩ := List.mem_map.1 hmem
  simp only [Prod.mk.injEq] at heq
  exact ⟨e, he, heq.1, heq.2.1⟩

/-- Neighbouring entries carry different powers. -/
private lemma isChain_entriesFrom {rs : List (Run (List ℕ))} (prio : ℕ)
    (hchain : rs.IsChain Run.Follows) (hpowers : ∀ r ∈ rs, IsPowers r.value) :
    (entriesFrom prio rs).IsChain fun e e' => e'.params ≠ e.params := by
  have hkeys : ((entriesFrom prio rs).map fun e => (e.lo, e.hi, e.params)).IsChain
      fun k k' => k'.2.2 ≠ k.2.2 := by
    rw [map_entriesFrom, List.isChain_map]
    refine hchain.imp_of_mem_imp fun r s hr hs hrs heq => hrs.2 ?_
    have := congrArg PowParams.powers heq
    rwa [powers_toParams (hpowers r hr), powers_toParams (hpowers s hs)] at this
  exact (List.isChain_map _).1 hkeys

/-- The entries of runs that stand for the rows of a file are lossless. -/
lemma lossless_entriesFrom {f : ℕ → List ℕ} {rs : List (Run (List ℕ))}
    (h : Represents f 1 (rows.length + 1) rs)
    (hf : ∀ y, 1 ≤ y → y ≤ rows.length + 1 → f y = padded (fileRow rows y))
    (hpow : ∀ y, 1 ≤ y → y ≤ rows.length + 1 → IsPowers (f y)) (prio : ℕ) :
    Lossless rows (entriesFrom prio rs) := by
  have hpowers := isPowers_of_represents h hpow
  have hrange : ∀ r ∈ rs, ∀ y, r.lo ≤ y → y ≤ r.hi → 1 ≤ y ∧ y ≤ rows.length + 1 := by
    intro r hr y hy hy'
    obtain ⟨hone, -, hlast⟩ := h.bounds r hr
    exact ⟨hone.trans hy, hy'.trans hlast⟩
  refine ⟨?_, ?_, ?_, ?_, isChain_entriesFrom prio h.chain hpowers, ?_⟩
  · exact forall_entriesFrom (P := fun k => k.1 ≤ k.2.1) fun r hr => (h.bounds r hr).2.1
  · have hkeys : ((entriesFrom prio rs).map fun e => (e.lo, e.hi, e.params)).Pairwise
        fun k k' => k.2.1 < k'.1 := by
      rw [map_entriesFrom, List.pairwise_map]
      exact h.pairwise
    exact List.pairwise_map.1 hkeys
  · intro y
    constructor
    · rintro ⟨e, he, hy⟩
      exact forall_entriesFrom
        (P := fun k => ∀ y, k.1 ≤ y ∧ y ≤ k.2.1 → 1 ≤ y ∧ y ≤ rows.length + 1)
        (fun r hr y hy => hrange r hr y hy.1 hy.2) e he y hy
    · rintro ⟨hy, hy'⟩
      obtain ⟨r, hr, hin⟩ := h.cover y hy hy'
      obtain ⟨e, he, helo, hehi⟩ := exists_entriesFrom prio hr
      exact ⟨e, he, by rw [helo, hehi]; exact hin⟩
  · refine forall_entriesFrom
      (P := fun k => ∀ y, k.1 ≤ y → y ≤ k.2.1 → k.2.2.powers = padded (fileRow rows y)) ?_
    intro r hr y hy hy'
    obtain ⟨hone, hlast⟩ := hrange r hr y hy hy'
    show (toParams r.value).powers = _
    rw [powers_toParams (hpowers r hr), h.value r hr y hy hy', hf y hone hlast]
  · rw [map_priority_entriesFrom]
    exact List.nodup_range'

/-! ## The result -/

lemma isPowers_exportedPowers (first : List ℕ) (hrows : ∀ row ∈ rows, IsExponents row)
    (hfit : ∀ row ∈ rows, ∀ e ∈ row, e ≤ 255) {y : ℕ} (hy : 1 ≤ y) (hy' : y ≤ rows.length + 1) :
    IsPowers (exportedPowers (first :: rows) y) := by
  rw [exportedPowers_eq_padded hrows first hy hy']
  exact isPowers_padded hrows hfit hy hy'

/-- **Range compression is lossless.**  A file with any rows of one to three non-zero exponents is
loaded into both division tables alike, without losing a row, when the exponents fit into the
parameters of `Pow` and the counts into the key of the tables. -/
theorem lossless_compression (first : List ℕ) (hrows : ∀ row ∈ rows, IsExponents row)
    (hfit : ∀ row ∈ rows, ∀ e ∈ row, e ≤ 255) (hlen : rows.length + 1 ≤ 4095) {switch : Tables}
    (hswitch : ∀ d, switch.divide d = []) :
    ∃ t, writeApprRule (Expo.exportCSV (first :: rows)) switch = .ok t ∧
      Lossless rows (t.divide .DW) ∧ t.divide .UP = t.divide .DW := by
  have hf : ∀ y, 1 ≤ y → y ≤ rows.length + 1 →
      exportedPowers (first :: rows) y = padded (fileRow rows y) :=
    fun y => exportedPowers_eq_padded hrows first
  have hpow : ∀ y, 1 ≤ y → y ≤ rows.length + 1 → IsPowers (exportedPowers (first :: rows) y) :=
    fun y => isPowers_exportedPowers first hrows hfit
  refine ⟨_, writeApprRule_of_le (List.length_cons ..) hlen hpow switch, ?_, ?_⟩
  · simp only [Tables.appendDivide, hswitch, List.nil_append]
    exact lossless_entriesFrom (represents_exportedPowers _ _) hf hpow 1
  · simp only [Tables.appendDivide, hswitch]

/-- Equal neighbours, equal rows apart, and a last run of two. -/
theorem lossless_compression_five_counts :
    ∃ t, writeApprRule (Expo.exportCSV ([0] :: [[1], [2, 3], [1], [1]])) Tables.empty = .ok t ∧
      Lossless [[1], [2, 3], [1], [1]] (t.divide .DW) ∧ t.divide .UP = t.divide .DW :=
  lossless_compression [0]
    (by
      intro row hrow
      simp only [List.mem_cons, List.not_mem_nil, or_false] at hrow
      rcases hrow with rfl | rfl | rfl | rfl <;> exact ⟨by decide, by decide, by decide⟩)
    (by decide) (by decide) fun _ => rfl

/-- Entries that stop before the last count have lost a row. -/
lemma Lossless.exists_last {es : List (RangeEntry PowParams)} (h : Lossless rows es) :
    ∃ e ∈ es, rows.length + 1 ≤ e.hi := by
  obtain ⟨e, he, -, hlast⟩ := (h.union (rows.length + 1)).2 ⟨Nat.succ_pos _, le_rfl⟩
  exact ⟨e, he, hlast⟩

/-- Two files of the format that are refused, one with an exponent that needs nine bits and one with
a count that needs thirteen: the entries installed before are not those of the file. -/
theorem not_lossless_wide_exponent :
    ((∀ row ∈ [[256]], IsExponents row) ∧
      (∀ t, writeApprRule (Expo.exportCSV ([0] :: [[256]])) Tables.empty ≠ .ok t) ∧
      ¬ Lossless [[256]]
        ((left (writeApprRule (Expo.exportCSV ([0] :: [[256]])) Tables.empty)).divide .DW)) ∧
    (∀ row ∈ List.replicate 4095 [1], IsExponents row) ∧
      (∀ t, writeApprRule (Expo.exportCSV ([0] :: List.replicate 4095 [1])) Tables.empty ≠
        .ok t) ∧
      ¬ Lossless (List.replicate 4095 [1])
        ((left (writeApprRule (Expo.exportCSV ([0] :: List.replicate 4095 [1]))
          Tables.empty)).divide .DW) := by
  have hlen : (List.replicate 4095 [1]).length = 4095 := List.length_replicate
  have hrows : ∀ row ∈ List.replicate 4095 [1], IsExponents row := by
    intro row hrow
    rw [List.eq_of_mem_replicate hrow]
    exact ⟨by decide, by decide, by decide⟩
  have hfit : ∀ row ∈ List.replicate 4095 [1], ∀ e ∈ row, e ≤ 255 := by
    intro row hrow e he
    rw [List.eq_of_mem_replicate hrow, List.mem_singleton] at he
    omega
  refine ⟨⟨?_, fun t hload => ?_, fun h => ?_⟩, hrows, fun t => ?_, fun h => ?_⟩
  · intro row hrow
    rw [List.mem_singleton.1 hrow]
    exact ⟨by decide, by decide, by decide⟩
  · have hrefused :
        (writeApprRule (Expo.exportCSV ([0] :: [[256]])) Tables.empty).isOk = false := by
      decide +kernel
    rw [hload] at hrefused
    exact Bool.noConfusion hrefused
  · -- Only the range of the first count has been installed.
    have hfirst : ∀ e ∈ (left (writeApprRule (Expo.exportCSV ([0] :: [[256]]))
        Tables.empty)).divide .DW, e.hi ≤ 1 := by
      decide +kernel
    obtain ⟨e, he, hlast⟩ := h.exists_last
    exact absurd hlast (Nat.not_le.2 (Nat.lt_succ_of_le (hfirst e he)))
  · refine writeApprRule_of_gt (by rw [List.length_cons, hlen]) (by decide) ?_ Tables.empty t
    intro y hy hy'
    exact isPowers_exportedPowers [0] hrows hfit hy (by rw [hlen]; exact hy')
  · obtain ⟨e, he, hlast⟩ := h.exists_last
    have hhi := divideUpTo_left_writeApprRule _ (fun _ => rfl) .DW e he
    rw [hlen] at hlast
    exact absurd hlast (Nat.not_le.2 (Nat.lt_succ_of_le hhi))

end FlowClassifier
