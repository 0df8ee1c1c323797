import FlowClassifier.Controller.Approx
import FlowClassifier.Framework.Interrupted
import FlowClassifier.Framework.RunLength
import FlowClassifier.Switch.Tables

/-!
# Loading the division tables

The part of `main.py` that reads `Out.csv` and fills the two division tables.  Consecutive counts
with the same exponents become one range entry; the loop keeps the open range and installs it when
a row with other exponents comes, and once more after the last row.  An exception leaves the switch
with the entries installed before it (`Framework/Interrupted.lean`).

`writeApprRule_exportCSV` follows a file through: what is exported for a table of `nb` rows is read
back row by row, and the loop installs the run-length compression (`Framework/RunLength.lean`) of
its rows in both tables, up to the first range that does not fit into the twelve bits of a count.
-/

namespace FlowClassifier

open Text RunLength Interrupted

/-! ## The program -/

/-- `MAXSUM` of the controller. -/
def apprMaxSum : ℕ := 3

/-- `insertTableEntry` on one of the two division tables.  An entry equal to one that is there in
match and priority is taken to be accepted. -/
def Tables.insertDivide (d : Direction) (e : RangeEntry PowParams) (t : Tables) : Tables :=
  { t with divide := fun d' => if d' = d then t.divide d' ++ [e] else t.divide d' }

/-- The parameters of `Pow`: `Powers[0]`, `Powers[1]` and `Powers[2]`, eight bits each. -/
def powParams : List ℕ → Option PowParams
  | a :: b :: c :: _ =>
      if a < 256 ∧ b < 256 ∧ c < 256 then
        some ⟨BitVec.ofNat 8 a, BitVec.ofNat 8 b, BitVec.ofNat 8 c⟩
      else none
  | _ => none

/-- `write_appr_switch`: bounds wider than the twelve bits of `mNbElemInTable`, or parameters wider
than those of `Pow`, are refused. -/
def writeApprSwitch (range : ℕ × ℕ) (powers : List ℕ) (prio : ℕ) (switch : Tables) :
    Except Tables Tables :=
  if powers ≠ [0, 0, 0] then do
    let params ← stopAt switch (powParams powers)
    if range.1 < 2 ^ 12 ∧ range.2 < 2 ^ 12 then
      -- One direction
      let switch := switch.insertDivide .DW ⟨prio, range.1, range.2, params⟩
      -- Other direction
      .ok (switch.insertDivide .UP ⟨prio, range.1, range.2, params⟩)
    else .error switch
  else .ok switch

/-- The variables of the loop of `write_appr_rule`; `pow` is that of the last row, if any. -/
structure ApprLoop where
  prio : ℕ
  oldPow : List ℕ
  range : ℕ × ℕ
  pow : Option (List ℕ)
  switch : Tables

/-- The count and the exponents of a row, filled up with 255. -/
def readApprRow (row : List (List Char)) : Option (ℕ × List ℕ) := do
  let row := row.dropLast
  let elem ← row.head?.bind readNat
  let pow ← row.tail.mapM readNat
  some (elem, pow ++ List.replicate (apprMaxSum - pow.length) 255)

/-- The body of the loop. -/
def apprStep (st : ApprLoop) (row : List (List Char)) : Except Tables ApprLoop := do
  let (elem, pow) ← stopAt st.switch (readApprRow row)
  if pow = st.oldPow then .ok { st with range := (st.range.1, elem), pow := some pow }
  else
    let switch ← writeApprSwitch st.range st.oldPow st.prio st.switch
    .ok
      { prio := st.prio + 1, oldPow := pow, range := (elem, elem), pow := some pow
        switch := switch }

/-- What follows the loop. -/
def apprFinish (st : ApprLoop) : Except Tables Tables :=
  if st.oldPow ≠ [0, 0, 0] then do
    let pow ← stopAt st.switch st.pow
    writeApprSwitch st.range pow st.prio st.switch
  else .ok st.switch

/-- `write_appr_rule`. -/
def writeApprRule (file : List Char) (switch : Tables) : Except Tables Tables := do
  let rows := (fileLines file).map (csvRow ' ')
  let st ← rows.foldlM apprStep
    { prio := 1, oldPow := [0, 255, 255], range := (1, 1), pow := none, switch := switch }
  apprFinish st

/-! ## The loop installs the runs -/

/-- Three exponents that fit, not all zero. -/
def IsPowers (v : List ℕ) : Prop :=
  v ≠ [0, 0, 0] ∧ ∃ a b c, v = [a, b, c] ∧ a < 256 ∧ b < 256 ∧ c < 256

/-- The parameters of three exponents. -/
def toParams : List ℕ → PowParams
  | [a, b, c] => ⟨BitVec.ofNat 8 a, BitVec.ofNat 8 b, BitVec.ofNat 8 c⟩
  | _ => ⟨255, 255, 255⟩

/-- The three parameters of an entry, as numbers. -/
def PowParams.powers (p : PowParams) : List ℕ := [p.powera.toNat, p.powerb.toNat, p.powerc.toNat]

lemma powers_toParams {v : List ℕ} (h : IsPowers v) : (toParams v).powers = v := by
  obtain ⟨-, a, b, c, rfl, ha, hb, hc⟩ := h
  simp only [toParams, PowParams.powers, BitVec.toNat_ofNat, Nat.reducePow, Nat.mod_eq_of_lt ha,
    Nat.mod_eq_of_lt hb, Nat.mod_eq_of_lt hc]

/-- The entries of some runs, with increasing priorities. -/
def entriesFrom : ℕ → List (Run (List ℕ)) → List (RangeEntry PowParams)
  | _, [] => []
  | prio, r :: rs => ⟨prio, r.lo, r.hi, toParams r.value⟩ :: entriesFrom (prio + 1) rs

/-- Both division tables with more entries. -/
def Tables.appendDivide (t : Tables) (es : List (RangeEntry PowParams)) : Tables :=
  { t with divide := fun d => t.divide d ++ es }

/-- One run after the other is installed, until one is refused. -/
def installRuns : ℕ → List (Run (List ℕ)) → Tables → Except Tables Tables
  | _, [], t => .ok t
  | prio, r :: rs, t =>
      (writeApprSwitch (r.lo, r.hi) r.value prio t).bind (installRuns (prio + 1) rs)

lemma writeApprSwitch_of_isPowers {v : List ℕ} (h : IsPowers v) (range : ℕ × ℕ) (prio : ℕ)
    (t : Tables) :
    writeApprSwitch range v prio t =
      if range.1 < 2 ^ 12 ∧ range.2 < 2 ^ 12 then
        .ok (t.appendDivide [⟨prio, range.1, range.2, toParams v⟩])
      else .error t := by
  obtain ⟨hne, a, b, c, rfl, ha, hb, hc⟩ := h
  have hparams : powParams [a, b, c] = some (toParams [a, b, c]) := by
    simp only [powParams, ha, hb, hc, and_self, if_true, toParams]
  unfold writeApprSwitch
  rw [if_pos hne, hparams]
  simp only [stopAt_some, bind_eq_bind, ok_bind]
  split
  · simp only [Except.ok.injEq, Tables.insertDivide, Tables.appendDivide, Tables.mk.injEq,
      true_and, and_true]
    funext d
    cases d <;> rfl
  · rfl

lemma appendDivide_appendDivide (t : Tables) (es es' : List (RangeEntry PowParams)) :
    (t.appendDivide es).appendDivide es' = t.appendDivide (es ++ es') := by
  simp [Tables.appendDivide]

/-- The loop on rows that are read as `nums`: it installs the runs, the open one included. -/
lemma foldlM_apprStep {rows : List (List (List Char))} {nums : List (ℕ × List ℕ)}
    (hread : rows.map readApprRow = nums.map some) (hnums : ∀ num ∈ nums, IsPowers num.2)
    (st : ApprLoop) (hold : IsPowers st.oldPow) (hpow : st.pow = some st.oldPow) :
    (rows.foldlM apprStep st).bind apprFinish =
      installRuns st.prio (runs st.range.1 st.range.2 st.oldPow nums) st.switch := by
  induction rows generalizing nums st with
  | nil =>
      have hnil : nums = [] := by simpa using hread.symm
      subst hnil
      simp only [List.foldlM_nil, Except.pure, pure, ok_bind, apprFinish, if_pos hold.1, hpow,
        stopAt_some, bind_eq_bind, runs, installRuns]
      exact (bind_ok _).symm
  | cons row rows ih =>
      cases nums with
      | nil => exact absurd hread (by simp)
      | cons num nums =>
          obtain ⟨elem, pow⟩ := num
          simp only [List.map_cons, List.cons.injEq] at hread
          obtain ⟨hrow, hrest⟩ := hread
          have hpow' : IsPowers pow := hnums (elem, pow) (List.mem_cons_self ..)
          have hnums' : ∀ num ∈ nums, IsPowers num.2 :=
            fun num h => hnums num (List.mem_cons_of_mem _ h)
          simp only [List.foldlM_cons, bind_eq_bind, apprStep, hrow, stopAt_some, ok_bind]
          by_cases hsame : pow = st.oldPow
          · rw [if_pos hsame, ok_bind]
            have hgrow := ih hrest hnums'
              { st with range := (st.range.1, elem), pow := some pow } hold (congrArg some hsame)
            refine hgrow.trans ?_
            simp only [runs, if_pos hsame]
          · rw [if_neg hsame]
            simp only [runs, if_neg hsame, installRuns, bind_bind, ok_bind]
            refine congrArg _ (funext fun switch => ?_)
            exact ih hrest hnums' _ hpow' rfl

/-- Runs whose keys fit are all installed. -/
lemma installRuns_of_lt {rs : List (Run (List ℕ))} (hpow : ∀ r ∈ rs, IsPowers r.value)
    (hfit : ∀ r ∈ rs, r.lo < 2 ^ 12 ∧ r.hi < 2 ^ 12) (prio : ℕ) (t : Tables) :
    installRuns prio rs t = .ok (t.appendDivide (entriesFrom prio rs)) := by
  induction rs generalizing prio t with
  | nil => simp [installRuns, entriesFrom, Tables.appendDivide]
  | cons r rs ih =>
      rw [installRuns, writeApprSwitch_of_isPowers (hpow r (List.mem_cons_self ..)),
        if_pos (hfit r (List.mem_cons_self ..)), ok_bind,
        ih (fun r hr => hpow r (List.mem_cons_of_mem _ hr))
          (fun r hr => hfit r (List.mem_cons_of_mem _ hr)),
        appendDivide_appendDivide]
      rfl

/-- A run whose keys do not fit stops the controller. -/
lemma installRuns_ne_ok {rs : List (Run (List ℕ))} (hpow : ∀ r ∈ rs, IsPowers r.value)
    {r : Run (List ℕ)} (hr : r ∈ rs) (hwide : 2 ^ 12 ≤ r.hi) (prio : ℕ) (t t' : Tables) :
    installRuns prio rs t ≠ .ok t' := by
  induction rs generalizing prio t with
  | nil => exact absurd hr List.not_mem_nil
  | cons r' rs ih =>
      intro h
      obtain ⟨t₁, hfirst, hrest⟩ := bind_eq_ok_iff.1 h
      rcases List.mem_cons.1 hr with rfl | hr
      · rw [writeApprSwitch_of_isPowers (hpow r (List.mem_cons_self ..)),
          if_neg (fun hlt => absurd hlt.2 (Nat.not_lt.2 hwide))] at hfirst
        exact absurd hfirst (by simp)
      · exact ih (fun r hr => hpow r (List.mem_cons_of_mem _ hr)) hr _ _ hrest

lemma map_entriesFrom (prio : ℕ) (rs : List (Run (List ℕ))) :
    (entriesFrom prio rs).map (fun e => (e.lo, e.hi, e.params)) =
      rs.map fun r => (r.lo, r.hi, toParams r.value) := by
  induction rs generalizing prio with
  | nil => rfl
  | cons r rs ih => rw [entriesFrom, List.map_cons, List.map_cons, ih]

/-- The entries are numbered. -/
lemma map_priority_entriesFrom (prio : ℕ) (rs : List (Run (List ℕ))) :
    (entriesFrom prio rs).map RangeEntry.priority = List.range' prio rs.length := by
  induction rs generalizing prio with
  | nil => rfl
  | cons r rs ih => rw [entriesFrom, List.map_cons, ih, List.length_cons, List.range'_succ]

/-- The unique run that contains a count becomes the unique entry that matches it. -/
lemma filter_entriesFrom {n : ℕ} {rs : List (Run (List ℕ))} {r : Run (List ℕ)}
    (h : rs.filter (Run.contains n) = [r]) (prio : ℕ) :
    ∃ e, (entriesFrom prio rs).filter (RangeEntry.hits n) = [e] ∧ e.params = toParams r.value := by
  obtain ⟨e, he, hkey⟩ := Table.exists_filter_eq_singleton
    (fun k : ℕ × ℕ × PowParams => decide (k.1 ≤ n) && decide (n ≤ k.2.1)) (map_entriesFrom prio rs)
    h
  exact ⟨e, he, congrArg (fun k => k.2.2) hkey⟩

/-! ## Reading the file back -/

/-- The exponents the controller reads from a row of the table. -/
def paddedRow (row : List ℕ) : List ℕ :=
  row.filter (· ≠ 0) ++ List.replicate (apprMaxSum - (row.filter (· ≠ 0)).length) 255

/-- Numbers, each followed by a blank. -/
def numLine (ns : List ℕ) : List Char := terminated ' ' (ns.map (Nat.toDigits 10))

lemma exportLine_eq (i : ℕ) (row : List ℕ) :
    Expo.exportLine i row = numLine ((i + 1) :: row.filter (· ≠ 0)) := by
  have hrow : (row.flatMap fun e => if e ≠ 0 then Expo.printNum e else []) =
      numLine (row.filter (· ≠ 0)) := by
    induction row with
    | nil => rfl
    | cons e row ih =>
        rw [List.flatMap_cons, ih]
        by_cases he : e = 0
        · rw [List.filter_cons_of_neg (by simpa using he), if_neg (by simpa using he)]
          rfl
        · rw [List.filter_cons_of_pos (by simpa using he), if_pos he]
          rfl
  rw [Expo.exportLine, hrow]
  rfl

/-- A line of numbers is read back. -/
lemma readApprRow_numLine (elem : ℕ) (ns : List ℕ) :
    readApprRow (csvRow ' ' (numLine (elem :: ns))) =
      some (elem, ns ++ List.replicate (apprMaxSum - ns.length) 255) := by
  have hblank : ∀ f ∈ (elem :: ns).map (Nat.toDigits 10), ' ' ∉ f := by
    intro f hf
    obtain ⟨n, -, rfl⟩ := List.mem_map.1 hf
    exact not_mem_toDigits (by decide) n
  rw [numLine, csvRow_terminated hblank (by simp)]
  simp only [readApprRow, List.dropLast_concat, List.map_cons, List.head?_cons, Option.bind_some,
    List.tail_cons, readNat_toDigits, mapM_readNat, Option.bind_eq_bind]

/-- A line has no newline in it, and is not empty. -/
lemma newline_notMem_numLine (ns : List ℕ) : '\n' ∉ numLine ns := by
  intro hmem
  obtain ⟨f, hf, hc⟩ := List.mem_flatMap.1 hmem
  obtain ⟨n, -, rfl⟩ := List.mem_map.1 hf
  rcases List.mem_append.1 hc with hc | hc
  · exact not_mem_toDigits (by decide) n hc
  · exact absurd (List.mem_singleton.1 hc) (by decide)

/-- The numbers on the lines of the exported file. -/
def exportedNums (tab : List (List ℕ)) : List (List ℕ) :=
  [1, 0] :: tab.zipIdx.tail.map fun (row, i) => (i + 1) :: row.filter (· ≠ 0)

lemma fileLines_exportCSV (tab : List (List ℕ)) :
    fileLines (Expo.exportCSV tab) = (exportedNums tab).map numLine := by
  have htext : Expo.exportCSV tab = ['\n'].intercalate ((exportedNums tab).map numLine) := by
    have hfirst : numLine [1, 0] = ['1', ' ', '0', ' '] := by decide
    rw [exportedNums, List.map_cons, intercalate_cons_eq, List.map_map, List.flatMap_map, hfirst]
    unfold Expo.exportCSV
    congr 1
    refine List.flatMap_congr fun x _ => ?_
    obtain ⟨row, i⟩ := x
    show '\n' :: Expo.exportLine i row = _
    rw [exportLine_eq]
    rfl
  rw [htext]
  refine fileLines_intercalate ?_ ?_ (by simp [exportedNums])
  · intro l hl
    obtain ⟨ns, -, rfl⟩ := List.mem_map.1 hl
    exact newline_notMem_numLine ns
  · intro l hl
    obtain ⟨ns, hns, rfl⟩ := List.mem_map.1 hl
    have hne : ns ≠ [] := by
      rcases List.mem_cons.1 hns with rfl | hns
      · simp
      · obtain ⟨x, -, rfl⟩ := List.mem_map.1 hns
        simp
    obtain ⟨n, ns, rfl⟩ := List.exists_cons_of_ne_nil hne
    simp [numLine, terminated]

/-- The exponents of a count in the file exported from a table. -/
def exportedPowers (tab : List (List ℕ)) (n : ℕ) : List ℕ :=
  if n = 1 then [0, 255, 255] else paddedRow (tab.getD (n - 1) [])

/-- The rows the controller reads: one for each count, in order. -/
lemma readApprRow_exportCSV {tab : List (List ℕ)} {m : ℕ} (hlen : tab.length = m + 1) :
    ((fileLines (Expo.exportCSV tab)).map (csvRow ' ')).map readApprRow =
      ((1, [0, 255, 255]) :: rowsFrom (exportedPowers tab) 2 m).map some := by
  rw [fileLines_exportCSV, exportedNums, List.map_cons, List.map_cons, List.map_cons, List.map_cons,
    readApprRow_numLine]
  refine congrArg₂ List.cons rfl ?_
  refine List.ext_getElem? fun j => ?_
  rcases Nat.lt_or_ge j m with hj | hj
  · have hin : j + 1 < tab.length := by omega
    have hrow : tab[j + 1]? = some tab[j + 1] := List.getElem?_eq_getElem hin
    have hne : ¬ (2 + j = 1) := by omega
    have hidx : 2 + j - 1 = j + 1 := by omega
    simp only [List.getElem?_map, List.getElem?_tail, List.getElem?_zipIdx, hrow, Option.map_some,
      Nat.zero_add, readApprRow_numLine, rowsFrom, List.getElem?_range' hj, exportedPowers,
      if_neg hne, hidx, List.getD_eq_getElem?_getD, Option.getD_some, paddedRow, Nat.one_mul]
    congr 2
    rw [Nat.add_comm 2 j]
  · have hout : ¬ j + 1 < tab.length := by omega
    simp only [List.getElem?_map, List.getElem?_tail, List.getElem?_zipIdx]
    rw [List.getElem?_eq_none (by omega : tab.length ≤ j + 1)]
    simp [rowsFrom, hj]

/-- **Loading an exported table**: the controller installs one run of its rows after the other. -/
theorem writeApprRule_exportCSV {tab : List (List ℕ)} {m : ℕ} (hlen : tab.length = m + 1)
    (hpowers : ∀ n, 1 ≤ n → n ≤ m + 1 → IsPowers (exportedPowers tab n)) (t : Tables) :
    writeApprRule (Expo.exportCSV tab) t =
      installRuns 1 (runs 1 1 (exportedPowers tab 1) (rowsFrom (exportedPowers tab) 2 m)) t := by
  have hread := readApprRow_exportCSV hlen
  have hone : exportedPowers tab 1 = [0, 255, 255] := rfl
  unfold writeApprRule
  generalize (fileLines (Expo.exportCSV tab)).map (csvRow ' ') = rows at hread ⊢
  cases rows with
  | nil => exact absurd hread (by simp)
  | cons row rows =>
      simp only [List.map_cons, List.cons.injEq] at hread
      obtain ⟨hrow, hrest⟩ := hread
      simp only [List.foldlM_cons, bind_eq_bind, apprStep, hrow, stopAt_some, ok_bind, if_true]
      refine (foldlM_apprStep hrest ?_ _ ?_ rfl).trans ?_
      · intro num hnum
        obtain ⟨n, hn, rfl⟩ := List.mem_map.1 hnum
        have hrange := List.mem_range'.1 hn
        obtain ⟨i, hi, rfl⟩ := hrange
        exact hpowers _ (by omega) (by omega)
      · rw [← hone]
        exact hpowers 1 le_rfl (by omega)
      · rw [hone]

/-- The runs of an exported table: they stand for its rows, and carry exponents that fit. -/
lemma represents_exportedPowers (tab : List (List ℕ)) (m : ℕ) :
    Represents (exportedPowers tab) 1 (m + 1)
      (runs 1 1 (exportedPowers tab 1) (rowsFrom (exportedPowers tab) 2 m)) := by
  have hfirst : ∀ y, 1 ≤ y → y ≤ 1 → exportedPowers tab y = exportedPowers tab 1 := by
    intro y hy hy'
    rw [Nat.le_antisymm hy' hy]
  have hruns := represents_runs m (Nat.le_refl 1) hfirst
  rwa [Nat.add_comm 1] at hruns

lemma isPowers_of_represents {f : ℕ → List ℕ} {n : ℕ} {rs : List (Run (List ℕ))}
    (h : Represents f 1 n rs) (hpow : ∀ y, 1 ≤ y → y ≤ n → IsPowers (f y)) :
    ∀ r ∈ rs, IsPowers r.value := by
  intro r hr
  obtain ⟨hone, hle, hlast⟩ := h.bounds r hr
  rw [h.value r hr r.lo le_rfl hle]
  exact hpow _ hone (hle.trans hlast)

section Loading

variable {tab : List (List ℕ)} {m : ℕ}

/-- Up to 4095 rows are all installed. -/
theorem writeApprRule_of_le (hlen : tab.length = m + 1) (hm : m + 1 ≤ 4095)
    (hpowers : ∀ n, 1 ≤ n → n ≤ m + 1 → IsPowers (exportedPowers tab n)) (t : Tables) :
    writeApprRule (Expo.exportCSV tab) t =
      .ok (t.appendDivide (entriesFrom 1
        (runs 1 1 (exportedPowers tab 1) (rowsFrom (exportedPowers tab) 2 m)))) := by
  have hruns := represents_exportedPowers tab m
  rw [writeApprRule_exportCSV hlen hpowers]
  refine installRuns_of_lt (isPowers_of_represents hruns hpowers) (fun r hr => ?_) 1 t
  obtain ⟨-, hle, hlast⟩ := hruns.bounds r hr
  omega

/-- More rows are not: the last count does not fit into the key. -/
theorem writeApprRule_of_gt (hlen : tab.length = m + 1) (hm : 4095 < m + 1)
    (hpowers : ∀ n, 1 ≤ n → n ≤ m + 1 → IsPowers (exportedPowers tab n)) (t t' : Tables) :
    writeApprRule (Expo.exportCSV tab) t ≠ .ok t' := by
  have hruns := represents_exportedPowers tab m
  obtain ⟨r, hr, hlast⟩ := hruns.cover (m + 1) (by omega) le_rfl
  rw [writeApprRule_exportCSV hlen hpowers]
  exact installRuns_ne_ok (isPowers_of_represents hruns hpowers) hr (by omega) 1 t t'

end Loading

/-! ## What a division table can hold -/

/-- No entry of a division table reaches above `nb`. -/
def DivideUpTo (nb : ℕ) (t : Tables) : Prop := ∀ d, ∀ e ∈ t.divide d, e.hi ≤ nb

section UpTo

variable {nb : ℕ}

lemma DivideUpTo.insertDivide {t : Tables} (ht : DivideUpTo nb t) (d : Direction)
    {e : RangeEntry PowParams} (he : e.hi ≤ nb) : DivideUpTo nb (t.insertDivide d e) := by
  intro d' e' hmem
  simp only [Tables.insertDivide] at hmem
  split at hmem
  · rcases List.mem_append.1 hmem with hmem | hmem
    · exact ht d' e' hmem
    · rw [List.mem_singleton.1 hmem]
      exact he
  · exact ht d' e' hmem

/-- Only a range whose bounds fit into the key is installed. -/
lemma DivideUpTo.writeApprSwitch {range : ℕ × ℕ} {t : Tables} (ht : DivideUpTo nb t)
    (hrange : range.2 < 2 ^ 12 → range.2 ≤ nb) (powers : List ℕ) (prio : ℕ) :
    Ends (DivideUpTo nb) (DivideUpTo nb) (writeApprSwitch range powers prio t) := by
  unfold FlowClassifier.writeApprSwitch
  split
  · refine (ends_stopAt ht _).bind fun params _ => ?_
    split
    · rename_i hfit
      exact (ht.insertDivide .DW (hrange hfit.2)).insertDivide .UP (hrange hfit.2)
    · exact ht
  · exact ht

/-- What the loop of `write_appr_rule` keeps while it reads counts up to `nb`. -/
structure ApprLoop.UpTo (nb : ℕ) (st : ApprLoop) : Prop where
  range : st.range.2 < 2 ^ 12 → st.range.2 ≤ nb
  switch : DivideUpTo nb st.switch

lemma ApprLoop.UpTo.apprStep {st : ApprLoop} (hst : st.UpTo nb) {row : List (List Char)}
    (hrow : ∀ num, readApprRow row = some num → num.1 < 2 ^ 12 → num.1 ≤ nb) :
    Ends (ApprLoop.UpTo nb) (DivideUpTo nb) (apprStep st row) := by
  unfold FlowClassifier.apprStep
  refine (ends_stopAt hst.switch _).bind fun num hnum => ?_
  by_cases hsame : num.2 = st.oldPow
  · simp only [if_pos hsame]
    exact ⟨hrow _ hnum, hst.switch⟩
  · simp only [if_neg hsame]
    refine (hst.switch.writeApprSwitch hst.range _ _).bind fun switch hswitch => ?_
    exact ⟨hrow _ hnum, hswitch⟩

/-- **The controller installs no count above those of the file**, and never one wider than the key,
whether it comes to the end of the file or not. -/
theorem DivideUpTo.writeApprRule {file : List Char} {t : Tables} (ht : DivideUpTo nb t)
    (hone : 1 ≤ nb)
    (hrows : ∀ row ∈ (fileLines file).map (csvRow ' '), ∀ num,
      readApprRow row = some num → num.1 < 2 ^ 12 → num.1 ≤ nb) :
    DivideUpTo nb (left (writeApprRule file t)) := by
  unfold FlowClassifier.writeApprRule
  refine Ends.left (Ends.bind (Q := ApprLoop.UpTo nb) ?_ fun st hst => ?_)
  · exact Ends.foldlM ⟨fun _ => hone, ht⟩ fun row hrow st hst => hst.apprStep (hrows row hrow)
  · unfold apprFinish
    split
    · refine (ends_stopAt hst.switch _).bind fun pow _ => ?_
      exact hst.switch.writeApprSwitch hst.range _ _
    · exact hst.switch

end UpTo

lemma divideUpTo_of_forall_nil {t : Tables} (ht : ∀ d, t.divide d = []) (nb : ℕ) :
    DivideUpTo nb t := by
  intro d e he
  rw [ht d] at he
  exact absurd he List.not_mem_nil

/-- Whatever a file holds, the counts that are installed from it fit into the key. -/
lemma divideUpTo_left_writeApprRule (file : List Char) {t : Tables} (ht : ∀ d, t.divide d = []) :
    DivideUpTo 4095 (left (writeApprRule file t)) :=
  (divideUpTo_of_forall_nil ht 4095).writeApprRule (by decide)
    fun _ _ _ _ hlt => Nat.le_of_lt_succ hlt

end FlowClassifier
