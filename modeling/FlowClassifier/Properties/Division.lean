import FlowClassifier.Controller.ApproxRules
import FlowClassifier.Switch.Cell

/-!
# The table-driven division

The switch divides by a count with one lookup and three shifts.  Three programs have to agree for
that: `expo.c`, which chooses the exponents, the controller, which reads them back and compresses
them into ranges, and the action `Pow`.  `divisionTables_of_outCsv` puts the first two together:
after loading, every count has exactly one entry, with the exponents chosen for it.  The key of the
tables has twelve bits, so a file for more than 4095 counts is refused, although `expo.c` accepts
numbers up to `VALMAX` (`writeApprRule_readValue_iff`).
`divides_of_expansion` is about the third: what the shifts compute with such exponents is the
quotient up to an eighth and the rounding of three shifts, and the quotient itself for a power of
two.
-/

namespace FlowClassifier

open InversePowers RunLength

/-! ## Three shifts -/

lemma shifts_append (es es' : List ℕ) (s : ℕ) :
    shifts (es ++ es') s = shifts es s + shifts es' s := by
  simp [shifts]

lemma shifts_padding {w : ℕ} (hw : w ≤ 255) (x : BitVec w) (k : ℕ) :
    shifts (List.replicate k 255) x.toNat = 0 := by
  have hlt : x.toNat < 2 ^ 255 := lt_of_lt_of_le x.isLt (Nat.pow_le_pow_right (by decide) hw)
  have hzero : x.toNat / 2 ^ 255 = 0 := Nat.div_eq_of_lt hlt
  induction k with
  | zero => rfl
  | succ k ih => rw [List.replicate_succ, shifts_cons, ih, hzero]

/-- Without a carry out of the field, `Pow` computes the sum of the shifts. -/
lemma toNat_apply {w : ℕ} {es : List ℕ} (h : IsPowers es) (x : BitVec w)
    (hfits : shifts es x.toNat < 2 ^ w) :
    ((toParams es).apply x).toNat = shifts es x.toNat ∧
      ((toParams es).apply x).toNat = (x >>> (toParams es).powera.toNat).toNat +
        (x >>> (toParams es).powerb.toNat).toNat + (x >>> (toParams es).powerc.toNat).toNat := by
  obtain ⟨-, a, b, c, rfl, ha, hb, hc⟩ := h
  have hshift : ∀ k, k < 256 → (x >>> (BitVec.ofNat 8 k).toNat).toNat = x.toNat / 2 ^ k := by
    intro k hk
    have hk' : (BitVec.ofNat 8 k).toNat = k := by
      rw [BitVec.toNat_ofNat]
      exact Nat.mod_eq_of_lt hk
    rw [hk', BitVec.toNat_ushiftRight, Nat.shiftRight_eq_div_pow]
  simp only [shifts_cons, shifts_nil, Nat.add_zero] at hfits ⊢
  simp only [PowParams.apply, toParams, BitVec.toNat_add, hshift a ha, hshift b hb, hshift c hc]
  rw [Nat.mod_add_mod, Nat.mod_eq_of_lt (by omega)]
  exact ⟨Nat.add_assoc .., rfl⟩

/-- Parameters that divide a field of `w` bits by `n`: the sum of the shifts does not wrap, never
exceeds the quotient, is above seven eighths of it less three, and is the quotient when `n` is a
power of two. -/
structure Divides (w n : ℕ) (p : PowParams) (x : BitVec w) : Prop where
  no_wrap : (p.apply x).toNat = (x >>> p.powera.toNat).toNat + (x >>> p.powerb.toNat).toNat +
    (x >>> p.powerc.toNat).toNat
  le_div : (p.apply x).toNat ≤ x.toNat / n
  gt : 7 * (x.toNat : ℚ) / (8 * n) - 3 < (p.apply x).toNat
  exact : (∃ k, n = 2 ^ k) → (p.apply x).toNat = x.toNat / n

section Expansions

variable {n e : ℕ} {es : List ℕ}

lemma shifts_le_div (hexp : Expo.Expansion n e es) (x : ℕ) : shifts es x ≤ x / n := by
  have hn := hexp.pos
  have hnq : (0 : ℚ) < n := by exact_mod_cast hn
  have hxq : (0 : ℚ) ≤ x := Nat.cast_nonneg _
  rw [Nat.le_div_iff_mul_le hn]
  have hweight := shifts_le_mul_weight es x
  have hbound : (x : ℚ) * weight es ≤ x * (1 / n) :=
    mul_le_mul_of_nonneg_left hexp.weight_le hxq
  have hquot : (shifts es x : ℚ) ≤ x / n := by
    rw [← mul_one_div]
    exact le_trans hweight hbound
  rw [le_div_iff₀ hnq] at hquot
  exact_mod_cast hquot

/-- Seven eighths of the weight are there, and fewer than three shifts' rounding is lost. -/
lemma lt_shifts (hexp : Expo.Expansion n e es) (x : ℕ) :
    7 * (x : ℚ) / (8 * n) - 3 < shifts es x := by
  have hnq : (0 : ℚ) < n := by exact_mod_cast hexp.pos
  have hxq : (0 : ℚ) ≤ x := Nat.cast_nonneg _
  have hne : es ≠ [] := by
    obtain ⟨rest, hrest⟩ := hexp.first
    rw [hrest]
    exact List.cons_ne_nil _ _
  have hlost := mul_weight_lt_shifts hne x
  have hthree : (es.length : ℚ) ≤ 3 := by exact_mod_cast hexp.length_le
  have hseven : 7 / 8 * (1 / (n : ℚ)) ≤ weight es := by
    have hpos : (0 : ℚ) < 1 / n := by positivity
    rcases hexp.precise with hp | ⟨-, hp⟩
    · linarith
    · exact hp.le
  have hmul : (x : ℚ) * (7 / 8 * (1 / n)) ≤ x * weight es :=
    mul_le_mul_of_nonneg_left hseven hxq
  have hform : 7 * (x : ℚ) / (8 * n) = x * (7 / 8 * (1 / n)) := by
    field_simp
  rw [hform]
  linarith

lemma eq_pow_of_expansion (hexp : Expo.Expansion n e es) {k : ℕ} (hk : n = 2 ^ k) :
    n = 2 ^ e := by
  have hle := hexp.le_pow
  have hlt := hexp.pow_lt
  rw [hk] at hle hlt ⊢
  have hke : k ≤ e := (Nat.pow_le_pow_iff_right (by decide)).1 hle
  have hek : e < k + 1 := by
    rw [← Nat.pow_succ'] at hlt
    exact (Nat.pow_lt_pow_iff_right (by decide)).1 hlt
  have : k = e := by omega
  rw [this]

/-- **What the switch computes with the exponents of a count.** -/
theorem divides_of_expansion {w : ℕ} (hw : w ≤ 255) (hexp : Expo.Expansion n e es)
    (hes : IsPowers (es ++ List.replicate (apprMaxSum - es.length) 255)) (x : BitVec w) :
    Divides w n (toParams (es ++ List.replicate (apprMaxSum - es.length) 255)) x := by
  have hpad : shifts (es ++ List.replicate (apprMaxSum - es.length) 255) x.toNat =
      shifts es x.toNat := by
    rw [shifts_append, shifts_padding hw, Nat.add_zero]
  have hle := shifts_le_div hexp x.toNat
  have hfits : shifts es x.toNat < 2 ^ w :=
    lt_of_le_of_lt (le_trans hle (Nat.div_le_self _ _)) x.isLt
  obtain ⟨hq, hwrap⟩ := toNat_apply hes x (by rw [hpad]; exact hfits)
  rw [hpad] at hq
  refine ⟨hwrap, ?_, ?_, ?_⟩
  · rw [hq]
    exact hle
  · rw [hq]
    exact lt_shifts hexp x.toNat
  · rintro ⟨k, hk⟩
    have hpow := eq_pow_of_expansion hexp hk
    rw [hq, hexp.exact hpow, shifts_cons, shifts_nil, Nat.add_zero, hpow]

end Expansions

/-! ## The loaded tables -/

/-- The exponents `expo.c` stores for the counts up to `nb` fit the action parameters. -/
def ExponentsFit (nb : ℕ) : Prop :=
  ∀ fuel res, Expo.handleAll fuel nb = some res → ∀ row ∈ res, ∀ x ∈ row, x < 256

/-- A table for the counts up to `nb`: exactly one entry of each division table matches a count,
with the padded exponents of an expansion of its inverse. -/
def DivisionTables (t : Tables) (nb : ℕ) : Prop :=
  ∀ n, 1 ≤ n → n ≤ nb → ∃ e es, Expo.Expansion n e es ∧
    IsPowers (es ++ List.replicate (apprMaxSum - es.length) 255) ∧
    ∀ d, ∃ entry, (t.divide d).filter (RangeEntry.hits n) = [entry] ∧
      entry.params = toParams (es ++ List.replicate (apprMaxSum - es.length) 255)

lemma rangeLookup_of_divisionTables {t : Tables} {nb n : ℕ} (h : DivisionTables t nb) (hn : 1 ≤ n)
    (hn' : n ≤ nb) : ∃ e es, Expo.Expansion n e es ∧
      IsPowers (es ++ List.replicate (apprMaxSum - es.length) 255) ∧
      ∀ d, rangeLookup (t.divide d) n =
        some (toParams (es ++ List.replicate (apprMaxSum - es.length) 255)) := by
  obtain ⟨e, es, hexp, hpow, hentry⟩ := h n hn hn'
  refine ⟨e, es, hexp, hpow, fun d => ?_⟩
  obtain ⟨entry, hfilter, hparams⟩ := hentry d
  rw [rangeLookup, Table.winner_eq_of_filter hfilter, Option.map_some, hparams]

private lemma eq_of_expansion_one {e : ℕ} {es : List ℕ} (hexp : Expo.Expansion 1 e es) :
    es = [0] := by
  have he : e = 0 := by
    have hlt := hexp.pow_lt
    rcases Nat.eq_zero_or_pos e with h0 | h0
    · exact h0
    · have h2 : 2 ^ 1 ≤ 2 ^ e := Nat.pow_le_pow_right (by decide) h0
      omega
  rw [← he]
  exact hexp.exact (by rw [he]; rfl)

private lemma pos_of_expansion {n e : ℕ} {es : List ℕ} (hexp : Expo.Expansion n e es)
    (hn : 2 ≤ n) : ∀ x ∈ es, 0 < x := by
  have he : 0 < e := by
    by_contra h0
    have hle := hexp.le_pow
    have : e = 0 := by omega
    rw [this] at hle
    omega
  obtain ⟨rest, hrest⟩ := hexp.first
  have hinc := hexp.increasing
  rw [hrest] at hinc ⊢
  intro x hx
  rcases List.mem_cons.1 hx with rfl | hx
  · exact he
  · exact lt_trans he ((List.pairwise_cons.1 hinc).1 x hx)

private lemma filter_append_zeros {es : List ℕ} (hpos : ∀ x ∈ es, 0 < x) (k : ℕ) :
    (es ++ List.replicate k 0).filter (· ≠ 0) = es := by
  have hkeep : es.filter (· ≠ 0) = es := by
    refine List.filter_eq_self.2 fun x hx => ?_
    have := hpos x hx
    simp only [ne_eq, decide_not, Bool.not_eq_true', decide_eq_false_iff_not]
    omega
  have hdrop : (List.replicate k 0).filter (· ≠ 0) = [] := by
    refine List.filter_eq_nil_iff.2 fun x hx => ?_
    rw [List.eq_of_mem_replicate hx]
    decide
  rw [List.filter_append, hkeep, hdrop, List.append_nil]

/-- The row of a count in the table, without its zeros: they were only there to fill it up, except
in the row of one. -/
private lemma exportedPowers_of_isRow {tab : List (List ℕ)} {n : ℕ} {row : List ℕ} (hn : 1 ≤ n)
    (hrow : tab[n - 1]? = some row) (h : Expo.IsRow n row) :
    ∃ e es, Expo.Expansion n e es ∧ (∀ x ∈ es, x ∈ row) ∧
      exportedPowers tab n = es ++ List.replicate (apprMaxSum - es.length) 255 := by
  obtain ⟨e, es, hexp, rfl⟩ := h
  have hmem : ∀ x ∈ es, x ∈ es ++ List.replicate (Expo.maxSum - es.length) 0 :=
    fun x hx => List.mem_append_left _ hx
  refine ⟨e, es, hexp, hmem, ?_⟩
  unfold exportedPowers
  by_cases hone : n = 1
  · subst hone
    rw [if_pos rfl, eq_of_expansion_one hexp]
    rfl
  · have hpos := pos_of_expansion hexp (by omega)
    rw [if_neg hone, List.getD_eq_getElem?_getD, hrow, Option.getD_some, paddedRow,
      filter_append_zeros hpos]

private lemma isPowers_of_expansion {n e : ℕ} {es : List ℕ} (hexp : Expo.Expansion n e es)
    (hfit : ∀ x ∈ es, x < 256) :
    IsPowers (es ++ List.replicate (apprMaxSum - es.length) 255) := by
  obtain ⟨rest, rfl⟩ := hexp.first
  have hlen := hexp.length_le
  have hinc := hexp.increasing
  match rest with
  | [] =>
      have he := hfit e (by simp)
      refine ⟨?_, e, 255, 255, rfl, he, by decide, by decide⟩
      simp [apprMaxSum]
  | [b] =>
      have he := hfit e (by simp)
      have hb := hfit b (by simp)
      refine ⟨?_, e, b, 255, rfl, he, hb, by decide⟩
      simp [apprMaxSum]
  | [b, c] =>
      have he := hfit e (by simp)
      have hb := hfit b (by simp)
      have hc := hfit c (by simp)
      refine ⟨?_, e, b, c, rfl, he, hb, hc⟩
      intro hzero
      have hlt : e < b := (List.pairwise_cons.1 hinc).1 b (by simp)
      simp only [apprMaxSum, List.length_cons, List.length_nil, Nat.reduceAdd, Nat.sub_self,
        List.replicate_zero, List.append_nil, List.cons.injEq, and_true] at hzero
      omega
  | _ :: _ :: _ :: _ =>
      simp only [List.length_cons] at hlen
      omega

theorem exponentsFit_of_le_valMax {nb : ℕ} (h : nb ≤ Expo.valMax) : ExponentsFit nb := by
  intro fuel res hrun row hrow x hx
  obtain ⟨i, hi⟩ := List.getElem?_of_mem hrow
  obtain ⟨hlt, e, es, hexp, rfl⟩ := Expo.isRow_of_handleAll hrun i row hi
  rcases List.mem_append.1 hx with hx | hx
  · have hfive := hexp.le_first_add_five x hx
    have he : e < 15 := by
      by_contra hge
      have hpow : 2 ^ 15 ≤ 2 ^ e := Nat.pow_le_pow_right (by decide) (by omega)
      have hbound := hexp.pow_lt
      have hval : Expo.valMax = 10000 := rfl
      omega
    omega
  · rw [List.eq_of_mem_replicate hx]
    decide

lemma exists_exportCSV {nb : ℕ} (hnb : 1 ≤ nb) (hfit : ExponentsFit nb) {fuel : ℕ}
    (hfuel : 6 ≤ fuel) :
    ∃ tab m, Expo.outCsv fuel nb = some (Expo.exportCSV tab) ∧ tab.length = m + 1 ∧ nb = m + 1 ∧
      ∀ n, 1 ≤ n → n ≤ nb → ∃ e es, Expo.Expansion n e es ∧
        exportedPowers tab n = es ++ List.replicate (apprMaxSum - es.length) 255 ∧
        IsPowers (exportedPowers tab n) := by
  obtain ⟨m, rfl⟩ : ∃ m, nb = m + 1 := ⟨nb - 1, by omega⟩
  obtain ⟨tab, hrun, hlen, hrows⟩ := Expo.handleAll_spec hfuel (m + 1)
  refine ⟨tab, m, by rw [Expo.outCsv, hrun, Option.map_some], hlen, rfl, ?_⟩
  intro n hn hn'
  have hin : n - 1 < tab.length := by omega
  have hrow : tab[n - 1]? = some tab[n - 1] := List.getElem?_eq_getElem hin
  have hisRow := hrows _ _ hrow
  rw [Nat.sub_add_cancel hn] at hisRow
  obtain ⟨e, es, hexp, hmem, heq⟩ := exportedPowers_of_isRow hn hrow hisRow
  refine ⟨e, es, hexp, heq, ?_⟩
  rw [heq]
  refine isPowers_of_expansion hexp fun x hx => ?_
  exact hfit fuel tab hrun _ (List.mem_of_getElem? hrow) x (hmem x hx)

/-- **From `expo.c` to the tables.**  What is exported for up to 4095 counts and loaded into empty
division tables has one entry for every count. -/
theorem divisionTables_of_outCsv {nb : ℕ} (hnb : 1 ≤ nb) (hmax : nb ≤ 4095) {fuel : ℕ}
    (hfuel : 6 ≤ fuel) {t : Tables} (ht : ∀ d, t.divide d = []) :
    ∃ text t', Expo.outCsv fuel nb = some text ∧ writeApprRule text t = .ok t' ∧
      t' = { t with divide := t'.divide } ∧ DivisionTables t' nb := by
  have hvalMax : Expo.valMax = 10000 := rfl
  obtain ⟨tab, m, htext, hlen, rfl, hpowers⟩ :=
    exists_exportCSV hnb (exponentsFit_of_le_valMax (by omega)) hfuel
  have hload := writeApprRule_of_le hlen hmax (fun n hn hn' => by
    obtain ⟨e, es, -, -, hpow⟩ := hpowers n hn hn'
    exact hpow) t
  refine ⟨Expo.exportCSV tab, _, htext, hload, rfl, ?_⟩
  intro n hn hn'
  obtain ⟨e, es, hexp, heq, hpow⟩ := hpowers n hn hn'
  rw [heq] at hpow
  refine ⟨e, es, hexp, hpow, fun d => ?_⟩
  have hfirst : ∀ j, 1 ≤ j → j ≤ 1 → exportedPowers tab j = exportedPowers tab 1 := by
    intro j hj hj'
    rw [Nat.le_antisymm hj' hj]
  obtain ⟨r, hr, hvalue⟩ := filter_runs m le_rfl hfirst hn (by omega)
  obtain ⟨entry, hentry, hparams⟩ := filter_entriesFrom hr 1
  refine ⟨entry, ?_, ?_⟩
  · simp only [Tables.appendDivide, ht d, List.nil_append]
    exact hentry
  · rw [hparams, hvalue, heq]

lemma writeApprRule_outCsv_ne_ok {nb : ℕ} (hmax : 4095 < nb) (hfit : ExponentsFit nb) {fuel : ℕ}
    (hfuel : 6 ≤ fuel) {text : List Char} (htext : Expo.outCsv fuel nb = some text)
    (t t' : Tables) : writeApprRule text t ≠ .ok t' := by
  obtain ⟨tab, m, htab, hlen, rfl, hpowers⟩ := exists_exportCSV (by omega) hfit hfuel
  obtain rfl := Option.some.inj (htab.symm.trans htext)
  refine writeApprRule_of_gt hlen hmax (fun n hn hn' => ?_) t t'
  obtain ⟨e, es, -, -, hpow⟩ := hpowers n hn hn'
  exact hpow

/-- **Which files can be loaded.**  Of the numbers `Read_Value` accepts, those up to the largest
count of the switch give a file that is loaded, the others one that stops the controller. -/
theorem writeApprRule_readValue_iff {read nb : ℕ} (hread : Expo.readValue read = some nb)
    {fuel : ℕ} (hfuel : 6 ≤ fuel) {t : Tables} (ht : ∀ d, t.divide d = []) :
    ∃ text, Expo.outCsv fuel nb = some text ∧
      ((∃ t', writeApprRule text t = .ok t') ↔ nb ≤ 4095) := by
  obtain ⟨hnb, hmax⟩ := Expo.readValue_bounds hread
  have hfit := exponentsFit_of_le_valMax hmax
  obtain ⟨tab, m, htext, -⟩ := exists_exportCSV hnb hfit hfuel
  refine ⟨_, htext, fun ⟨t', hload⟩ => ?_, fun hle => ?_⟩
  · by_contra hgt
    exact writeApprRule_outCsv_ne_ok (by omega) hfit hfuel htext t t' hload
  · obtain ⟨text', t', htext', hload, -⟩ := divisionTables_of_outCsv hnb hle hfuel ht
    obtain rfl := Option.some.inj (htext.symm.trans htext')
    exact ⟨t', hload⟩

lemma exists_divides {t : Tables} (ht : DivisionTables t 4095) (d : Direction) {n : BitVec 12}
    (hn : n ≠ 0) :
    1 ≤ n.toNat ∧ ∃ p, rangeLookup (t.divide d) n.toNat = some p ∧
      (∀ x : BitVec 32, Divides 32 n.toNat p x) ∧ ∀ x : BitVec 48, Divides 48 n.toNat p x := by
  have hlt := n.isLt
  have hone : 1 ≤ n.toNat := by
    rcases Nat.eq_zero_or_pos n.toNat with h0 | h0
    · exact absurd (BitVec.eq_of_toNat_eq h0) hn
    · exact h0
  obtain ⟨e, es, hexp, hpow, hlook⟩ := rangeLookup_of_divisionTables ht hone (by omega)
  exact ⟨hone, _, hlook d, fun x => divides_of_expansion (by decide) hexp hpow x,
    fun x => divides_of_expansion (by decide) hexp hpow x⟩

/-- A table without gaps gives the uplink its own quotients, whatever the downlink division left. -/
lemma windowFeatures_up_of_divisionTables {t : Tables} (ht : DivisionTables t 4095)
    (h : Direction → Half) :
    windowFeatures t h .UP = halfFeatures (divideHalf t .UP .zero (h .UP)) (h .UP) := by
  unfold windowFeatures halfFeatures
  by_cases hn : (h .UP).nbelem > 0
  · have hne : (h .UP).nbelem ≠ 0 := by
      intro hzero
      rw [hzero] at hn
      exact absurd hn (by decide)
    obtain ⟨-, p, hlook, -, -⟩ := exists_divides ht .UP hne
    simp only [if_pos hn, divideHalf, hlook]
  · simp only [if_neg hn]

/-- **The table-driven division is sound end to end.**  The exponents of all counts up to `VALMAX`
fit.  For every number of counts whose exponents fit `expo.c` produces a file, which the controller
loads if there are at most 4095; and once it is loaded, exactly one entry of each division table
matches a count, the two carry the same parameters, and these divide sizes and times by the count.
With 4095 counts no count that is not zero misses. -/
theorem division_sound :
    (∀ nb, nb ≤ Expo.valMax → ExponentsFit nb) ∧
      ∀ nb, 1 ≤ nb → ExponentsFit nb → ∀ fuel, 6 ≤ fuel →
        ∀ switch : Tables, (∀ d, switch.divide d = []) →
          ∃ text, Expo.outCsv fuel nb = some text ∧
            ((∃ t, writeApprRule text switch = .ok t) ↔ nb ≤ 4095) ∧
            ∀ t, writeApprRule text switch = .ok t →
              (∀ n, 1 ≤ n → n ≤ nb → ∃ e₁ e₂,
                (t.divide .DW).filter (RangeEntry.hits n) = [e₁] ∧
                (t.divide .UP).filter (RangeEntry.hits n) = [e₂] ∧
                e₁.params = e₂.params ∧
                (∀ s : BitVec 32, Divides 32 n e₁.params s) ∧
                ∀ s : BitVec 48, Divides 48 n e₁.params s) ∧
              (nb = 4095 → ∀ h : Direction → Half,
                (∀ d, (h d).nbelem ≠ 0 →
                  (rangeLookup (t.divide d) (h d).nbelem.toNat).isSome = true) ∧
                windowFeatures t h .UP =
                  halfFeatures (divideHalf t .UP .zero (h .UP)) (h .UP)) := by
  refine ⟨fun nb => exponentsFit_of_le_valMax, ?_⟩
  intro nb hnb hfit fuel hfuel switch hswitch
  obtain ⟨tab, -, htext, -⟩ := exists_exportCSV hnb hfit hfuel
  have hrefused : 4095 < nb → ∀ t, writeApprRule (Expo.exportCSV tab) switch ≠ .ok t :=
    fun hgt t => writeApprRule_outCsv_ne_ok hgt hfit hfuel htext switch t
  rcases Nat.lt_or_ge 4095 nb with hgt | hle
  · refine ⟨_, htext, ⟨fun ⟨t, hload⟩ => absurd hload (hrefused hgt t), fun hle => ?_⟩, ?_⟩
    · exact absurd hgt (Nat.not_lt.2 hle)
    · exact fun t hload => absurd hload (hrefused hgt t)
  obtain ⟨text, t, htext', hload, -, htables⟩ := divisionTables_of_outCsv hnb hle hfuel hswitch
  refine ⟨text, htext', ⟨fun _ => hle, fun _ => ⟨t, hload⟩⟩, ?_⟩
  intro t' hload'
  obtain rfl := Except.ok.inj (hload.symm.trans hload')
  refine ⟨?_, ?_⟩
  · intro n hn hn'
    obtain ⟨e, es, hexp, hpow, hentry⟩ := htables n hn hn'
    obtain ⟨e₁, hdw, hparams₁⟩ := hentry .DW
    obtain ⟨e₂, hup, hparams₂⟩ := hentry .UP
    refine ⟨e₁, e₂, hdw, hup, hparams₁.trans hparams₂.symm, ?_, ?_⟩
    · intro s
      rw [hparams₁]
      exact divides_of_expansion (by decide) hexp hpow s
    · intro s
      rw [hparams₁]
      exact divides_of_expansion (by decide) hexp hpow s
  · rintro rfl h
    refine ⟨?_, windowFeatures_up_of_divisionTables htables h⟩
    intro d hne
    obtain ⟨-, p, hlook, -, -⟩ := exists_divides htables d hne
    rw [hlook]
    rfl

/-- The file of the counts up to three, loaded into empty tables: three has its own entry. -/
theorem division_sound_three_counts :
    ∃ text t, Expo.outCsv 6 3 = some text ∧ writeApprRule text Tables.empty = .ok t ∧
      ∃ e₁ e₂, (t.divide .DW).filter (RangeEntry.hits 3) = [e₁] ∧
        (t.divide .UP).filter (RangeEntry.hits 3) = [e₂] ∧ e₁.params = e₂.params ∧
        Divides 48 3 e₁.params winSze := by
  obtain ⟨text, htext, hloads, hdiv⟩ := division_sound.2 3 (by decide)
    (division_sound.1 3 (by decide)) 6 le_rfl Tables.empty fun _ => rfl
  obtain ⟨t, hload⟩ := hloads.2 (by decide)
  obtain ⟨e₁, e₂, hdw, hup, hsame, -, htimes⟩ := (hdiv t hload).1 3 (by decide) le_rfl
  exact ⟨text, t, htext, hload, e₁, e₂, hdw, hup, hsame, htimes winSze⟩

/-- The file of 4096 counts: the controller stops, and no entry of the downlink matches the last. -/
theorem not_division_sound_4096 :
    ExponentsFit 4096 ∧ ∃ text, Expo.outCsv 6 4096 = some text ∧
      (∀ t, writeApprRule text Tables.empty ≠ .ok t) ∧
      ((Interrupted.left (writeApprRule text Tables.empty)).divide .DW).filter
        (RangeEntry.hits 4096) = [] := by
  have hfit : ExponentsFit 4096 := exponentsFit_of_le_valMax (by decide)
  obtain ⟨tab, -, htext, -⟩ := exists_exportCSV (by decide) hfit (le_refl 6)
  refine ⟨hfit, _, htext, writeApprRule_outCsv_ne_ok (by decide) hfit le_rfl htext _, ?_⟩
  refine List.filter_eq_nil_iff.2 fun e he => ?_
  have hhi := divideUpTo_left_writeApprRule _ (fun _ => rfl) .DW e he
  have hmiss : ¬ 4096 ≤ e.hi := by omega
  rw [RangeEntry.hits, decide_eq_false hmiss, Bool.and_false]
  exact Bool.false_ne_true

end FlowClassifier
