import FlowClassifier.Framework.InversePowers
import FlowClassifier.Framework.Loop
import FlowClassifier.Framework.Text

/-!
# Approximating inverses by powers of two

`Utils/Approx/expo.c`: for every count up to the one typed, a list of at most three exponents whose
inverse powers of two sum up to almost the inverse of the count, written to `Out.csv`.  The C
program compares doubles; here the comparisons are exact, on rationals.  Its ints are natural
numbers: with counts up to `VALMAX` the largest power it computes is far below the range of an int
(`Expansion.le_first_add_five`).

The expansion is greedy.  At every step of the search what is missing is less than twice the next
power (`InversePowers.Within`), so five steps bring the precision to 95 % unless three powers are
used up before, and then less than an eighth is missing.
-/

namespace FlowClassifier

open Loop InversePowers Text

/-! ## The program -/

namespace Expo

/-- `VALMAX`. -/
def valMax : ℕ := 10000

/-- `MAXSUM`. -/
def maxSum : ℕ := 3

/-- `PREC`. -/
def precMin : ℚ := 95 / 100

/-- `Read_Value`: the program exits on a number out of bounds. -/
def readValue (read : ℕ) : Option ℕ := if read < 1 ∨ read > valMax then none else some read

/-- What `main` goes on with is between 1 and `VALMAX`. -/
lemma readValue_bounds {read nb : ℕ} (h : readValue read = some nb) : 1 ≤ nb ∧ nb ≤ valMax := by
  unfold readValue at h
  split at h
  · exact absurd h (by simp)
  · obtain rfl := Option.some.inj h
    omega

/-- What `main` carries from one element to the next. -/
structure Carried where
  pow2Gen : ℕ
  expPow2Gen : ℕ
  sumPrec : ℚ

/-- The locals of the search; `tab` holds the `nbSum` entries written so far. -/
structure Search where
  tab : List ℕ
  sum : ℚ
  prec : ℚ
  pow2Loc : ℕ
  expPow2Loc : ℕ

/-- The test of the while loop. -/
def Search.continues (s : Search) : Bool :=
  decide (s.tab.length < maxSum) && decide (s.prec < precMin)

/-- The body of the while loop. -/
def Search.addElement (elem : ℕ) (s : Search) : Search :=
  let s : Search :=
    if s.sum + 1 / s.pow2Loc ≤ 1 / elem then
      { s with
        tab := s.tab ++ [s.expPow2Loc]
        sum := s.sum + 1 / s.pow2Loc
        prec := (s.sum + 1 / s.pow2Loc) / (1 / elem) }
    else s
  { s with pow2Loc := s.pow2Loc * 2, expPow2Loc := s.expPow2Loc + 1 }

/-- The power of two of the element. -/
def updatePower2 (elem : ℕ) (g : Carried) : Carried :=
  if g.pow2Gen < elem then
    { g with expPow2Gen := g.expPow2Gen + 1, pow2Gen := g.pow2Gen * 2 }
  else g

/-- The first inverse power of two. -/
def startSearch (elem : ℕ) (g : Carried) : Search where
  tab := [g.expPow2Gen]
  sum := 1 / g.pow2Gen
  prec := (1 / g.pow2Gen) / (1 / elem)
  pow2Loc := g.pow2Gen * 2
  expPow2Loc := g.expPow2Gen + 1

/-- `Handle_Element`; entries not written stay zero. -/
def handleElement (fuel elem : ℕ) (g : Carried) : Option (List ℕ × Carried) :=
  let g := updatePower2 elem g
  (whileLoop Search.continues (Search.addElement elem) fuel (startSearch elem g)).map fun s =>
    (s.tab ++ List.replicate (maxSum - s.tab.length) 0, { g with sumPrec := g.sumPrec + s.prec })

/-- The loop of `main` over `count` elements from `elem` on. -/
def handleFrom (fuel : ℕ) : ℕ → ℕ → Carried → Option (List (List ℕ) × Carried)
  | _, 0, g => some ([], g)
  | elem, count + 1, g => do
      let (tab, g) ← handleElement fuel elem g
      let (res, g) ← handleFrom fuel (elem + 1) count g
      some (tab :: res, g)

/-- `main`, up to the table it exports. -/
def handleAll (fuel nb : ℕ) : Option (List (List ℕ)) :=
  (handleFrom fuel 1 nb ⟨1, 0, 0⟩).map Prod.fst

/-- The mean precision that `main` prints at its end. -/
def meanPrecision (fuel nb : ℕ) : Option ℚ :=
  (handleFrom fuel 1 nb ⟨1, 0, 0⟩).map fun x => x.2.sumPrec / nb

/-- `"%d "`. -/
def printNum (n : ℕ) : List Char := Nat.toDigits 10 n ++ [' ']

/-- The line of the element at position `i`. -/
def exportLine (i : ℕ) (tab : List ℕ) : List Char :=
  printNum (i + 1) ++ tab.flatMap fun e => if e ≠ 0 then printNum e else []

/-- `Export_CSV`: the first line is fixed, whatever the table says. -/
def exportCSV (tab : List (List ℕ)) : List Char :=
  ['1', ' ', '0', ' '] ++ tab.zipIdx.tail.flatMap fun (row, i) => '\n' :: exportLine i row

/-- `Out.csv` for the elements up to `nb`. -/
def outCsv (fuel nb : ℕ) : Option (List Char) := (handleAll fuel nb).map exportCSV

/-! ## The search -/

/-- The exponents found for `n`, where `e` is the exponent of its power of two. -/
structure Expansion (n e : ℕ) (es : List ℕ) : Prop where
  le_pow : n ≤ 2 ^ e
  pow_lt : 2 ^ e < 2 * n
  first : ∃ rest, es = e :: rest
  increasing : es.Pairwise (· < ·)
  le_first_add_five : ∀ x ∈ es, x ≤ e + 5
  length_le : es.length ≤ 3
  weight_le : weight es ≤ 1 / n
  precise : 95 / 100 * (1 / n) ≤ weight es ∨ es.length = 3 ∧ 7 / 8 * (1 / n) < weight es
  exact : n = 2 ^ e → es = [e]

lemma Expansion.pos {n e : ℕ} {es : List ℕ} (h : Expansion n e es) : 0 < n := by
  have hlt := h.pow_lt
  have hpos := Nat.two_pow_pos e
  omega

/-- What the search keeps. -/
structure Search.Inv (n e : ℕ) (s : Search) : Prop where
  pow : s.pow2Loc = 2 ^ s.expPow2Loc
  sum : s.sum = weight s.tab
  prec : s.prec = s.sum / (1 / n)
  within : Within (1 / n) s.sum (1 / 2 ^ s.expPow2Loc)
  first : ∃ rest, s.tab = e :: rest
  increasing : s.tab.Pairwise (· < ·)
  below : ∀ x ∈ s.tab, x < s.expPow2Loc
  length_le : s.tab.length ≤ 3
  exp_le : s.expPow2Loc ≤ e + 6
  missing : 2 ^ s.tab.length * (1 / (n : ℚ) - s.sum) < 1 / n
  exact : n = 2 ^ e → s.tab = [e]

variable {n e : ℕ}

/-- The precision is low exactly when more than 5 % is missing. -/
private lemma prec_lt_iff (hn : 0 < n) (sum : ℚ) :
    sum / (1 / (n : ℚ)) < precMin ↔ sum < 95 / 100 * (1 / n) := by
  have hpos : (0 : ℚ) < 1 / n := by positivity
  rw [div_lt_iff₀ hpos]
  rfl

private lemma pow_cast (e : ℕ) : ((2 ^ e : ℕ) : ℚ) = 2 ^ e := by push_cast; rfl

private lemma half_pow (e : ℕ) : (1 : ℚ) / 2 ^ (e + 1) = 1 / 2 ^ e / 2 := by
  rw [pow_succ, div_div]

/-- While the search goes on, its power is at most five past the first. -/
private lemma exp_le_of_continues {s : Search} (hle : n ≤ 2 ^ e) (hn : 0 < n) (h : s.Inv n e)
    (hc : s.continues = true) : s.expPow2Loc ≤ e + 5 := by
  have hprec : s.prec < precMin := by
    simp only [Search.continues, Bool.and_eq_true, decide_eq_true_eq] at hc
    exact hc.2
  rw [h.prec, prec_lt_iff hn] at hprec
  have hlt := h.within.lt
  have hnpos : (0 : ℚ) < n := by exact_mod_cast hn
  have hne : (1 : ℚ) / 2 ^ e ≤ 1 / n := by
    refine one_div_le_one_div_of_le hnpos ?_
    rw [← pow_cast]
    exact_mod_cast hle
  -- More than a twentieth of `2^-e` is missing, and less than two of the next powers.
  have hgap : 5 / 100 * ((1 : ℚ) / 2 ^ e) < 2 * (1 / 2 ^ s.expPow2Loc) := by linarith
  by_contra hgt
  have hexp : (2 : ℚ) ^ (e + 6) ≤ 2 ^ s.expPow2Loc := by
    refine pow_le_pow_right₀ (by norm_num) ?_
    omega
  have hpos : (0 : ℚ) < 2 ^ (e + 6) := by positivity
  have hsmall : (1 : ℚ) / 2 ^ s.expPow2Loc ≤ 1 / 2 ^ (e + 6) := one_div_le_one_div_of_le hpos hexp
  have hsplit : (1 : ℚ) / 2 ^ (e + 6) = 1 / 2 ^ e / 64 := by
    rw [pow_add, div_div]
    norm_num
  have hone : (0 : ℚ) < 1 / 2 ^ e := by positivity
  linarith

/-- The search never goes on from an exact power of two. -/
private lemma not_continues_of_exact {s : Search} (hn : 0 < n) (h : s.Inv n e) (hne : n = 2 ^ e) :
    s.continues = false := by
  have hsum : s.sum = 1 / n := by
    rw [h.sum, h.exact hne, hne, pow_cast]
    simp
  have hpos : (0 : ℚ) < 1 / n := by positivity
  have hnot : ¬ s.prec < precMin := by
    rw [h.prec, prec_lt_iff hn, hsum]
    linarith
  simp [Search.continues, hnot]

/-- The next power, as a power and as a rational. -/
private lemma pow2Loc_next {s : Search} (h : s.Inv n e) :
    s.pow2Loc * 2 = 2 ^ (s.expPow2Loc + 1) ∧ ((s.pow2Loc : ℕ) : ℚ) = 2 ^ s.expPow2Loc := by
  refine ⟨?_, ?_⟩
  · rw [h.pow, pow_succ]
  · rw [h.pow, pow_cast]

/-- A step that takes the power. -/
private lemma inv_addElement_take {s : Search} (h : s.Inv n e) (hexp : s.expPow2Loc ≤ e + 5)
    (hlen : s.tab.length < 3) (hexact : ¬ n = 2 ^ e)
    (hfits : s.sum + 1 / (2 : ℚ) ^ s.expPow2Loc ≤ 1 / n) : (s.addElement n).Inv n e := by
  obtain ⟨hpow, hcast⟩ := pow2Loc_next h
  obtain ⟨hwithin, hhalf⟩ := h.within.take hfits
  have heq : s.addElement n =
      { tab := s.tab ++ [s.expPow2Loc]
        sum := s.sum + 1 / 2 ^ s.expPow2Loc
        prec := (s.sum + 1 / 2 ^ s.expPow2Loc) / (1 / n)
        pow2Loc := s.pow2Loc * 2
        expPow2Loc := s.expPow2Loc + 1 } := by
    simp only [Search.addElement, hcast, if_pos hfits]
  rw [heq]
  obtain ⟨rest, hrest⟩ := h.first
  refine ⟨hpow, ?_, rfl, ?_, ?_, ?_, ?_, ?_, ?_, ?_, ?_⟩
  · rw [weight_concat, ← h.sum]
  · rw [half_pow]
    exact hwithin
  · exact ⟨rest ++ [s.expPow2Loc], by rw [hrest, List.cons_append]⟩
  · rw [List.pairwise_append]
    refine ⟨h.increasing, List.pairwise_singleton _ _, ?_⟩
    intro x hx y hy
    rw [List.mem_singleton.1 hy]
    exact h.below x hx
  · intro x hx
    rcases List.mem_append.1 hx with hx | hx
    · exact Nat.lt_succ_of_lt (h.below x hx)
    · rw [List.mem_singleton.1 hx]
      exact Nat.lt_succ_self _
  · rw [List.length_append, List.length_singleton]
    omega
  · show s.expPow2Loc + 1 ≤ e + 6
    omega
  · have hmiss := h.missing
    have htwo : (0 : ℚ) < 2 ^ s.tab.length := by positivity
    rw [List.length_append, List.length_singleton, pow_succ, mul_assoc]
    exact lt_trans (mul_lt_mul_of_pos_left hhalf htwo) hmiss
  · intro hne
    exact absurd hne hexact

/-- A step that passes the power over. -/
private lemma inv_addElement_pass {s : Search} (h : s.Inv n e) (hexp : s.expPow2Loc ≤ e + 5)
    (hfits : ¬ s.sum + 1 / (2 : ℚ) ^ s.expPow2Loc ≤ 1 / n) : (s.addElement n).Inv n e := by
  obtain ⟨hpow, hcast⟩ := pow2Loc_next h
  have heq : s.addElement n =
      { s with pow2Loc := s.pow2Loc * 2, expPow2Loc := s.expPow2Loc + 1 } := by
    simp only [Search.addElement, hcast, if_neg hfits]
  rw [heq]
  refine ⟨hpow, h.sum, h.prec, ?_, h.first, h.increasing, ?_, h.length_le, ?_, h.missing,
    h.exact⟩
  · rw [half_pow]
    exact h.within.pass hfits
  · intro x hx
    exact Nat.lt_succ_of_lt (h.below x hx)
  · show s.expPow2Loc + 1 ≤ e + 6
    omega

/-- One step of the search. -/
private lemma inv_addElement {s : Search} (hle : n ≤ 2 ^ e) (hn : 0 < n) (h : s.Inv n e)
    (hc : s.continues = true) : (s.addElement n).Inv n e := by
  have hexp := exp_le_of_continues hle hn h hc
  have hlen : s.tab.length < 3 := by
    simp only [Search.continues, Bool.and_eq_true, decide_eq_true_eq] at hc
    exact hc.1
  have hexact : ¬ n = 2 ^ e := by
    intro hne
    rw [not_continues_of_exact hn h hne] at hc
    exact Bool.false_ne_true hc
  by_cases hfits : s.sum + 1 / (2 : ℚ) ^ s.expPow2Loc ≤ 1 / n
  · exact inv_addElement_take h hexp hlen hexact hfits
  · exact inv_addElement_pass h hexp hfits

/-- The state carried into the search covers its element: its power is the least one that is not
below. -/
structure Carried.Covers (g : Carried) (n : ℕ) : Prop where
  pow : g.pow2Gen = 2 ^ g.expPow2Gen
  le_pow : n ≤ g.pow2Gen
  pow_lt : g.pow2Gen < 2 * n

lemma Carried.Covers.pos {g : Carried} (h : g.Covers n) : 0 < n := by
  have hlt := h.pow_lt
  omega

private lemma inv_startSearch {g : Carried} (h : g.Covers n) :
    (startSearch n g).Inv n g.expPow2Gen := by
  have hn := h.pos
  have hnpos : (0 : ℚ) < n := by exact_mod_cast hn
  have hcast : ((g.pow2Gen : ℕ) : ℚ) = 2 ^ g.expPow2Gen := by rw [h.pow, pow_cast]
  have hpos : (0 : ℚ) < 2 ^ g.expPow2Gen := by positivity
  have hle : (n : ℚ) ≤ 2 ^ g.expPow2Gen := by
    rw [← hcast]
    exact_mod_cast h.le_pow
  have hlt : (2 : ℚ) ^ g.expPow2Gen < 2 * n := by
    rw [← hcast]
    exact_mod_cast h.pow_lt
  have hsum : (1 : ℚ) / 2 ^ g.expPow2Gen ≤ 1 / n := one_div_le_one_div_of_le hnpos hle
  have hmiss : 2 * ((1 : ℚ) / n - 1 / 2 ^ g.expPow2Gen) < 1 / n := by
    have hinv : (1 : ℚ) / (2 * n) < 1 / 2 ^ g.expPow2Gen := one_div_lt_one_div_of_lt hpos hlt
    have hhalf : (1 : ℚ) / (2 * n) = 1 / n / 2 := by
      rw [mul_comm, div_div]
    linarith
  refine ⟨?_, ?_, rfl, ⟨?_, ?_⟩, ⟨[], rfl⟩, List.pairwise_singleton _ _, ?_, ?_, ?_, ?_, ?_⟩
  · show g.pow2Gen * 2 = 2 ^ (g.expPow2Gen + 1)
    rw [h.pow, pow_succ]
  · simp [startSearch, hcast]
  · show (1 : ℚ) / g.pow2Gen ≤ 1 / n
    rw [hcast]
    exact hsum
  · show (1 : ℚ) / n - 1 / g.pow2Gen < 2 * (1 / 2 ^ (g.expPow2Gen + 1))
    rw [hcast, half_pow]
    linarith
  · intro x hx
    rw [List.mem_singleton.1 hx]
    exact Nat.lt_succ_self _
  · exact (by decide : 1 ≤ 3)
  · show g.expPow2Gen + 1 ≤ g.expPow2Gen + 6
    omega
  · show 2 ^ 1 * ((1 : ℚ) / n - 1 / g.pow2Gen) < 1 / n
    rw [hcast, pow_one]
    exact hmiss
  · intro _
    rfl

/-- What the finished search has found. -/
private lemma expansion_of_inv {s : Search} (hle : n ≤ 2 ^ e) (hlt : 2 ^ e < 2 * n) (h : s.Inv n e)
    (hc : s.continues = false) : Expansion n e s.tab := by
  have hn : 0 < n := by omega
  refine ⟨hle, hlt, h.first, h.increasing, ?_, h.length_le, ?_, ?_, h.exact⟩
  · intro x hx
    have hbelow := h.below x hx
    have hexp := h.exp_le
    omega
  · rw [← h.sum]
    exact h.within.le
  · rw [← h.sum]
    rcases Nat.lt_or_ge s.tab.length 3 with hlen | hlen
    · -- the search stopped because it was precise
      left
      have hprec : ¬ s.prec < precMin := by
        intro hlow
        have : s.continues = true := by simp [Search.continues, maxSum, hlen, hlow]
        rw [this] at hc
        exact Bool.noConfusion hc
      rw [h.prec, prec_lt_iff hn, not_lt] at hprec
      exact hprec
    · -- the search stopped because three powers were used
      right
      have hthree : s.tab.length = 3 := Nat.le_antisymm h.length_le hlen
      have hmiss := h.missing
      rw [hthree] at hmiss
      refine ⟨hthree, ?_⟩
      linarith

/-- **The search ends within five steps, and finds an expansion.**  Its powers stay below the sixth
after the first on the way. -/
theorem search_ends {g : Carried} (hg : g.Covers n) :
    ∃ k ≤ 5, Ends Search.continues (Search.addElement n) (startSearch n g) k ∧
      (∀ j ≤ k, ((Search.addElement n)^[j] (startSearch n g)).pow2Loc ≤
        2 ^ (g.expPow2Gen + 6)) ∧
      Expansion n g.expPow2Gen ((Search.addElement n)^[k] (startSearch n g)).tab := by
  have hle : n ≤ 2 ^ g.expPow2Gen := by
    rw [← hg.pow]
    exact hg.le_pow
  have hlt : 2 ^ g.expPow2Gen < 2 * n := by
    rw [← hg.pow]
    exact hg.pow_lt
  obtain ⟨k, hk, hends, hinv⟩ := exists_ends
    (fun s : Search => s.Inv n g.expPow2Gen)
    (fun s => g.expPow2Gen + 6 - s.expPow2Loc)
    (fun s hs hcont => by
      have hexp := exp_le_of_continues hle hg.pos hs hcont
      have hnext : (s.addElement n).expPow2Loc = s.expPow2Loc + 1 := by
        unfold Search.addElement
        split <;> rfl
      refine ⟨inv_addElement hle hg.pos hs hcont, ?_⟩
      omega)
    (inv_startSearch hg)
  refine ⟨k, ?_, hends, ?_, expansion_of_inv hle hlt (hinv k le_rfl) hends.stops⟩
  · have hstart : (startSearch n g).expPow2Loc = g.expPow2Gen + 1 := rfl
    omega
  · intro j hj
    rw [(hinv j hj).pow]
    exact Nat.pow_le_pow_right (by decide) (hinv j hj).exp_le

/-- `Handle_Element`, once its search has ended. -/
lemma handleElement_of_ends {fuel elem k : ℕ} {g : Carried} (hk : k < fuel)
    (h : Ends Search.continues (Search.addElement elem)
      (startSearch elem (updatePower2 elem g)) k) :
    let s := (Search.addElement elem)^[k] (startSearch elem (updatePower2 elem g))
    handleElement fuel elem g =
      some (s.tab ++ List.replicate (maxSum - s.tab.length) 0,
        { updatePower2 elem g with sumPrec := (updatePower2 elem g).sumPrec + s.prec }) := by
  simp only [handleElement, whileLoop_of_ends h hk, Option.map_some]

/-- What `Handle_Element` returns. -/
theorem handleElement_spec {fuel : ℕ} (hfuel : 6 ≤ fuel) {g : Carried}
    (hg : (updatePower2 n g).Covers n) :
    ∃ es prec, handleElement fuel n g =
        some (es ++ List.replicate (maxSum - es.length) 0,
          { updatePower2 n g with sumPrec := (updatePower2 n g).sumPrec + prec }) ∧
      Expansion n (updatePower2 n g).expPow2Gen es := by
  obtain ⟨k, hk, hends, -, hexp⟩ := search_ends hg
  exact ⟨_, _, handleElement_of_ends (Nat.lt_of_le_of_lt hk hfuel) hends, hexp⟩

/-- The state covers the next element after the update, if it covered the last one. -/
lemma covers_updatePower2 {g : Carried} (h : g.Covers n) :
    (updatePower2 (n + 1) g).Covers (n + 1) := by
  have hn := h.pos
  have hle := h.le_pow
  have hlt := h.pow_lt
  unfold updatePower2
  split
  · refine ⟨?_, ?_, ?_⟩
    · show g.pow2Gen * 2 = 2 ^ (g.expPow2Gen + 1)
      rw [h.pow, pow_succ]
    · show n + 1 ≤ g.pow2Gen * 2
      omega
    · show g.pow2Gen * 2 < 2 * (n + 1)
      omega
  · refine ⟨h.pow, ?_, ?_⟩ <;> omega

/-- The loop of `main` in two parts. -/
lemma handleFrom_add (fuel elem a b : ℕ) (g : Carried) :
    handleFrom fuel elem (a + b) g = (handleFrom fuel elem a g).bind fun x =>
      (handleFrom fuel (elem + a) b x.2).map fun y => (x.1 ++ y.1, y.2) := by
  induction a generalizing elem g with
  | zero =>
      simp only [handleFrom, Option.bind_some, Nat.add_zero, Nat.zero_add, List.nil_append,
        Option.map_id']
  | succ a ih =>
      have hstep : ∀ k, handleFrom fuel elem (k + 1) g = (handleElement fuel elem g).bind fun x =>
          (handleFrom fuel (elem + 1) k x.2).bind fun y => some (x.1 :: y.1, y.2) := fun _ => rfl
      have hidx : elem + 1 + a = elem + (a + 1) := by omega
      rw [Nat.add_right_comm, hstep (a + b), hstep a]
      cases handleElement fuel elem g with
      | none => rfl
      | some x =>
          simp only [Option.bind_some, ih, hidx]
          cases handleFrom fuel (elem + 1) a x.2 with
          | none => rfl
          | some y =>
              simp only [Option.bind_some]
              cases handleFrom fuel (elem + (a + 1)) b y.2 <;> rfl

/-- The loop of `main` over one element. -/
lemma handleFrom_one (fuel elem : ℕ) (g : Carried) :
    handleFrom fuel elem 1 g = (handleElement fuel elem g).map fun y => ([y.1], y.2) := by
  simp only [handleFrom]
  cases handleElement fuel elem g <;> rfl

/-- What the loop of `main` has carried past some elements covers the next one. -/
lemma exists_handleFrom {fuel : ℕ} (hfuel : 6 ≤ fuel) (count : ℕ) :
    ∃ res g, handleFrom fuel 1 count ⟨1, 0, 0⟩ = some (res, g) ∧ res.length = count ∧
      (updatePower2 (count + 1) g).Covers (count + 1) := by
  induction count with
  | zero => exact ⟨[], ⟨1, 0, 0⟩, rfl, rfl, rfl, le_rfl, by decide⟩
  | succ count ih =>
      obtain ⟨res, g, hres, hlen, hg⟩ := ih
      obtain ⟨es, prec, hrun, -⟩ := handleElement_spec hfuel hg
      have hcov : Carried.Covers
          { updatePower2 (count + 1) g with
            sumPrec := (updatePower2 (count + 1) g).sumPrec + prec } (count + 1) :=
        ⟨hg.pow, hg.le_pow, hg.pow_lt⟩
      refine ⟨res ++ [es ++ List.replicate (maxSum - es.length) 0], _, ?_, ?_,
        covers_updatePower2 hcov⟩
      · rw [handleFrom_add, hres, Option.bind_some, Nat.add_comm 1 count, handleFrom_one, hrun,
          Option.map_some, Option.map_some]
      · rw [List.length_append, hlen, List.length_singleton]

/-- A row of the table: an expansion, filled up with zeros. -/
def IsRow (n : ℕ) (row : List ℕ) : Prop :=
  ∃ e es, Expansion n e es ∧ row = es ++ List.replicate (maxSum - es.length) 0

/-- The loop of `main`: a row for every element. -/
lemma handleFrom_spec {fuel : ℕ} (hfuel : 6 ≤ fuel) (count : ℕ) {g : Carried}
    (hg : (updatePower2 n g).Covers n) :
    ∃ res g', handleFrom fuel n count g = some (res, g') ∧ res.length = count ∧
      ∀ i row, res[i]? = some row → IsRow (n + i) row := by
  induction count generalizing n g with
  | zero =>
      refine ⟨[], g, rfl, rfl, ?_⟩
      intro i row hrow
      exact absurd hrow (by simp)
  | succ count ih =>
      obtain ⟨es, prec, hrun, hexp⟩ := handleElement_spec hfuel hg
      have hcov : Carried.Covers
          { updatePower2 n g with sumPrec := (updatePower2 n g).sumPrec + prec } n :=
        ⟨hg.pow, hg.le_pow, hg.pow_lt⟩
      obtain ⟨res, g', hrest, hlen, hrows⟩ := ih (covers_updatePower2 hcov)
      refine ⟨(es ++ List.replicate (maxSum - es.length) 0) :: res, g', ?_,
        by rw [List.length_cons, hlen], ?_⟩
      · simp only [handleFrom, hrun, hrest, Option.bind_eq_bind, Option.bind_some]
      · intro i row hrow
        cases i with
        | zero =>
            simp only [List.getElem?_cons_zero, Option.some.injEq] at hrow
            exact ⟨_, es, hexp, hrow.symm⟩
        | succ i =>
            rw [List.getElem?_cons_succ] at hrow
            have := hrows i row hrow
            rwa [Nat.add_assoc, Nat.add_comm 1 i] at this

/-- **The table has one expansion for every element**, given six units of fuel for each search. -/
theorem handleAll_spec {fuel : ℕ} (hfuel : 6 ≤ fuel) (nb : ℕ) :
    ∃ res, handleAll fuel nb = some res ∧ res.length = nb ∧
      ∀ i row, res[i]? = some row → IsRow (i + 1) row := by
  have hstart : (updatePower2 1 ⟨1, 0, 0⟩).Covers 1 := ⟨rfl, le_rfl, by decide⟩
  obtain ⟨res, g', hrun, hlen, hrows⟩ := handleFrom_spec hfuel nb hstart
  refine ⟨res, ?_, hlen, ?_⟩
  · rw [handleAll, hrun, Option.map_some]
  · intro i row hrow
    rw [Nat.add_comm]
    exact hrows i row hrow

/-! ## Fuel -/

lemma handleElement_mono {fuel elem : ℕ} {g : Carried} {x : List ℕ × Carried}
    (h : handleElement fuel elem g = some x) (k : ℕ) :
    handleElement (fuel + k) elem g = some x := by
  simp only [handleElement, Option.map_eq_some_iff] at h ⊢
  obtain ⟨s, hs, hx⟩ := h
  exact ⟨s, whileLoop_mono hs k, hx⟩

lemma handleFrom_mono {fuel elem count : ℕ} {g : Carried} {x : List (List ℕ) × Carried}
    (h : handleFrom fuel elem count g = some x) (k : ℕ) :
    handleFrom (fuel + k) elem count g = some x := by
  induction count generalizing elem g x with
  | zero => exact h
  | succ count ih =>
      simp only [handleFrom, Option.bind_eq_bind, Option.bind_eq_some_iff] at h ⊢
      obtain ⟨y, hy, z, hz, hx⟩ := h
      exact ⟨y, handleElement_mono hy k, z, ih hz, hx⟩

/-- Every table `main` can produce has an expansion in each row, however much fuel it took. -/
theorem isRow_of_handleAll {fuel nb : ℕ} {res : List (List ℕ)} (h : handleAll fuel nb = some res) :
    ∀ i row, res[i]? = some row → i < nb ∧ IsRow (i + 1) row := by
  have hmore : handleAll (fuel + 6) nb = some res := by
    unfold handleAll at h ⊢
    obtain ⟨x, hx, rfl⟩ := Option.map_eq_some_iff.1 h
    rw [handleFrom_mono hx 6, Option.map_some]
  obtain ⟨res', hrun, hlen, hrows⟩ := handleAll_spec (Nat.le_add_left 6 fuel) nb
  rw [hmore] at hrun
  obtain rfl := Option.some.inj hrun
  intro i row hrow
  refine ⟨?_, hrows i row hrow⟩
  rw [← hlen]
  exact (List.getElem?_eq_some_iff.1 hrow).1

end Expo
end FlowClassifier
