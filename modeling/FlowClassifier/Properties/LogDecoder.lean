import FlowClassifier.Switch.DebugLog
import FlowClassifier.Visualize.FtsFromLog

/-!
# The decoder of the debug log

The switch writes fourteen values at the end of a window, and `FtsFromLog.sh` cuts the log it leaves
into lines of fourteen.  `filOut_of_logsWrites` says that the two agree for a log of any length: one
line per closed window, in order, with the verdict and the index in exchanged places.  The filter
then keeps the windows of the identifier (`filOutTemp_csvOf`), and `GetGraphs.py` gets their
features back (`getGraphs_csvOf`).

`Percent.awk` divides by the number of kept lines without asking whether there are any.  So the
whole decoder does what it is for exactly when the identifier names a window that was closed in the
run (`decoderInverts_iff`); for any other no fraction is printed, whatever the `awk` at hand does
with a division by zero.
-/

namespace FlowClassifier

open Mealy Text Grep

/-! ## What is to be read back -/

/-- The six columns of one direction. -/
def Features.columns (ft : Features) : List ℕ :=
  [ft.meanSZ.toNat, ft.stdSZ.toNat, ft.meanIAT.toNat, ft.stdIAT.toNat, ft.sum.toNat, ft.nb.toNat]

/-- The columns of a window: the features down and up, the verdict and the index. -/
def Report.columns (r : Report) : List ℕ :=
  (r.features .DW).columns ++ (r.features .UP).columns ++ [r.isCG.toNat, r.index.val]

/-- The line of a window in `out.csv`. -/
def Report.csvLine (r : Report) : List Char := numRow ',' r.columns

/-- The identifier of a window's conversation, as it is printed and typed. -/
def Report.idf (r : Report) : List Char := Nat.toDigits 10 r.index

/-- A file with one line per window. -/
def csvOf (rs : List Report) : List Char := terminated '\n' (rs.map Report.csvLine)

/-- The windows labelled cloud gaming. -/
def nbCG (rs : List Report) : ℕ := rs.countP fun r => r.isCG = 1

/-- The share of windows labelled cloud gaming, with the two counts. -/
def percentageOf (rs : List Report) : Percentage :=
  ⟨some (nbCG rs / rs.length), rs.length, nbCG rs⟩

/-- The windows of one identifier. -/
def ofIdf (idf : List Char) (rs : List Report) : List Report := rs.filter fun r => r.idf = idf

/-- The log has one line for each debug write, in order, with the written value in field 17, and
speaks of the debug arrays nowhere else. -/
def LogsWrites (log : List Char) (ws : List DebugWrite) : Prop :=
  List.Forall₂ (fun line w => cutField ' ' 17 line = Nat.toDigits 10 w.value)
    ((fileLines log).filter (found "ingress.Write".toList)) ws

/-- The scripts read back what the switch wrote: `out.csv` has the windows in order, the filtered
file has those of the identifier, and the percentage is theirs. -/
structure DecoderInverts (grep : List Char → List Char → Bool) (awk : ZeroDivision)
    (rs : List Report) (log idf : List Char) : Prop where
  rows : filOut grep log = csvOf rs
  kept : filOutTemp grep idf (filOut grep log) = csvOf (ofIdf idf rs)
  percentage : percentAwk awk (filOutTemp grep idf (filOut grep log)) =
    some (percentageOf (ofIdf idf rs))

/-! ## A log of this form -/

/-- The array a debug write goes to. -/
def DebugWrite.array : DebugWrite → List Char
  | .bits12 .. => "Write12Bits".toList
  | .bits32 .. => "Write32Bits".toList
  | .bits48 .. => "Write48Bits".toList
  | .bit1 .. => "Write1Bit".toList

/-- The first thirteen words of the line the software switch logs for a write to an array. -/
def logHead (array : List Char) : List (List Char) :=
  ["[15:32:11.480]".toList, "[bmv2]".toList, "[T]".toList, "[thread".toList, "3713]".toList,
    "[2.0]".toList, "[cxt".toList, "0]".toList, "Wrote".toList, "register".toList,
    "basic_tutorial_ingress.".toList ++ array, "at".toList, "index".toList]

/-- Its seventeen words. -/
def DebugWrite.logWords (w : DebugWrite) : List (List Char) :=
  logHead w.array ++
    [Nat.toDigits 10 w.index, "with".toList, "value".toList, Nat.toDigits 10 w.value]

/-- The log of a list of debug writes. -/
def logText (ws : List DebugWrite) : List Char :=
  terminated '\n' (ws.map fun w => [' '].intercalate w.logWords)

private lemma forall_array {motive : List Char → Prop}
    (h : ∀ a ∈ ["Write12Bits".toList, "Write32Bits".toList, "Write48Bits".toList,
      "Write1Bit".toList], motive a) (w : DebugWrite) : motive w.array := by
  cases w with
  | bits12 => exact h _ (.head _)
  | bits32 => exact h _ (.tail _ (.head _))
  | bits48 => exact h _ (.tail _ (.tail _ (.head _)))
  | bit1 => exact h _ (.tail _ (.tail _ (.tail _ (.head _))))

private lemma notMem_logWords {c : Char} (hc : c = ' ' ∨ c = '\n') (w : DebugWrite) :
    ∀ l ∈ w.logWords, c ∉ l := by
  have hdigit : c.isDigit = false := by
    rcases hc with rfl | rfl
    · decide
    · decide
  have hhead : ∀ l ∈ logHead w.array ++ ["with".toList, "value".toList], c ∉ l := by
    refine forall_array (motive := fun a =>
      ∀ l ∈ logHead a ++ ["with".toList, "value".toList], c ∉ l) ?_ w
    rcases hc with rfl | rfl
    · decide
    · decide
  intro l hl
  simp only [DebugWrite.logWords, List.mem_append, List.mem_cons, List.not_mem_nil, or_false] at hl
  rcases hl with hl | rfl | rfl | rfl | rfl
  · exact hhead l (List.mem_append_left _ hl)
  · exact not_mem_toDigits hdigit _
  · exact hhead _ (by simp)
  · exact hhead _ (by simp)
  · exact not_mem_toDigits hdigit _

private lemma found_logWords (w : DebugWrite) :
    found "ingress.Write".toList ([' '].intercalate w.logWords) = true := by
  have hword : "basic_tutorial_ingress.".toList ++ w.array ∈ w.logWords := by
    simp [DebugWrite.logWords, logHead]
  refine found_of_infix (infix_intercalate ' ' hword) ?_
  exact forall_array (motive := fun a =>
    found "ingress.Write".toList ("basic_tutorial_ingress.".toList ++ a) = true) (by decide) w

/-- **Every list of debug writes has a log of the assumed form.** -/
theorem logsWrites_logText (ws : List DebugWrite) : LogsWrites (logText ws) ws := by
  have hlines : fileLines (logText ws) = ws.map fun w => [' '].intercalate w.logWords := by
    refine fileLines_terminated fun l hl => ?_
    obtain ⟨w, -, rfl⟩ := List.mem_map.1 hl
    exact notMem_intercalate (by decide) (notMem_logWords (.inr rfl) w)
  have hfound : (ws.map fun w => [' '].intercalate w.logWords).filter
      (found "ingress.Write".toList) = ws.map fun w => [' '].intercalate w.logWords := by
    refine List.filter_eq_self.2 fun l hl => ?_
    obtain ⟨w, -, rfl⟩ := List.mem_map.1 hl
    exact found_logWords w
  rw [LogsWrites, hlines, hfound, List.forall₂_map_left_iff, List.forall₂_same]
  intro w _
  exact cutField_intercalate (notMem_logWords (.inl rfl) w) (by simp [DebugWrite.logWords]) rfl

/-! ## From the log to the lines -/

/-- The values a window's end writes, as the log shows them. -/
def Report.values (r : Report) : List (List Char) :=
  r.writes.map fun w => Nat.toDigits 10 w.value

lemma length_values (r : Report) : r.values.length = 14 := rfl

/-- The numerals of the debug writes are the words the script collects. -/
lemma vls_of_logsWrites {grep : List Char → List Char → Bool} (hgrep : GrepSpec grep)
    {log : List Char} {ws : List DebugWrite} (hlog : LogsWrites log ws) :
    vls grep log = ws.map fun w => Nat.toDigits 10 w.value := by
  have hall : ("ingress.Write".toList.all fun c => c = '.' ∨ IsOrdinary c) = true := by decide
  have hord : ∀ c ∈ "ingress.Write".toList, c = '.' ∨ IsOrdinary c := by simpa using hall
  have hfound : grep "ingress.Write".toList = found "ingress.Write".toList :=
    funext (hgrep.anywhere _ hord)
  have hfields : ((fileLines log).filter (found "ingress.Write".toList)).map (cutField ' ' 17) =
      ws.map fun w => Nat.toDigits 10 w.value := by
    rw [← List.forall₂_eq_eq_eq, List.forall₂_map_left_iff, List.forall₂_map_right_iff]
    exact hlog
  rw [vls, hfound, hfields]
  refine words_terminated ?_ ?_
  · intro l hl
    obtain ⟨w, -, rfl⟩ := List.mem_map.1 hl
    exact Nat.toDigits_ne_nil
  · intro l hl c hc
    obtain ⟨w, -, rfl⟩ := List.mem_map.1 hl
    refine Bool.eq_false_iff.2 fun hblank => ?_
    simp only [isBlank, decide_eq_true_eq] at hblank
    rcases hblank with rfl | rfl | rfl
    · exact not_mem_toDigits (by decide) w.value hc
    · exact not_mem_toDigits (by decide) w.value hc
    · exact not_mem_toDigits (by decide) w.value hc

lemma vlsLine_eq_drop (vls : List (List Char)) (i : ℕ) :
    vlsLine vls i = vlsLine (vls.drop i) 0 := by
  simp only [vlsLine, vlsAt, List.getElem?_drop, Nat.zero_add]

lemma vlsLine_append {b : List (List Char)} (hb : b.length = 14) (rest : List (List Char)) :
    vlsLine (b ++ rest) 0 = vlsLine b 0 := by
  have hat : ∀ k < 14, vlsAt (b ++ rest) (0 + k) = vlsAt b (0 + k) := by
    intro k hk
    rw [vlsAt, vlsAt, List.getElem?_append_left (by omega)]
  rw [vlsLine, vlsLine]
  congr 1
  refine List.map_congr_left fun k hk => hat k ?_
  simp only [List.mem_cons, List.not_mem_nil, or_false] at hk
  omega

/-- The index and the verdict, written in one order, are printed in the other. -/
lemma vlsLine_values (r : Report) : vlsLine r.values 0 = r.csvLine := by
  have hidx : (BitVec.ofNat 32 r.index.val).toNat = r.index := by
    have := r.index.isLt
    rw [BitVec.toNat_ofNat, Nat.mod_eq_of_lt (by omega)]
  simp only [vlsLine, vlsAt, Report.values, Report.writes, Features.writes, Report.csvLine, numRow,
    Report.columns, Features.columns, DebugWrite.value, hidx, List.map_cons, List.map_nil,
    List.cons_append, List.nil_append]
  rfl

/-- **Before filtering**: the decoder prints the windows of the log in order. -/
theorem filOut_of_logsWrites {grep : List Char → List Char → Bool} (hgrep : GrepSpec grep)
    {log : List Char} {rs : List Report} (hlog : LogsWrites log (rs.flatMap Report.writes)) :
    filOut grep log = csvOf rs := by
  have hvls : vls grep log = (rs.map Report.values).flatten := by
    rw [vls_of_logsWrites hgrep hlog, List.map_flatMap, List.flatMap_def]
    rfl
  have hblocks : ∀ b ∈ rs.map Report.values, b.length = 14 := by
    intro b hb
    obtain ⟨r, -, rfl⟩ := List.mem_map.1 hb
    exact length_values r
  have hlines := Loop.map_strides (by omega) (fun l => vlsLine l 0)
    (fun b rest hb => vlsLine_append hb rest) hblocks
  rw [filOut, hvls, csvOf]
  congr 1
  calc
    (Loop.strides 14 (rs.map Report.values).flatten.length).map
          (vlsLine (rs.map Report.values).flatten) =
        (rs.map Report.values).map (fun l => vlsLine l 0) := by
      rw [← hlines]
      exact List.map_congr_left fun i _ => vlsLine_eq_drop _ i
    _ = rs.map Report.csvLine := by
      rw [List.map_map]
      exact List.map_congr_left fun r _ => vlsLine_values r

/-! ## The filter -/

lemma fileLines_csvOf (rs : List Report) : fileLines (csvOf rs) = rs.map Report.csvLine := by
  refine fileLines_terminated fun l hl => ?_
  obtain ⟨r, -, rfl⟩ := List.mem_map.1 hl
  exact notMem_numRow (by decide) (by decide) _

/-- An identifier of digits stands at the end of the lines of its windows only. -/
lemma suffix_csvLine_iff (r : Report) {idf : List Char} (hidf : ',' ∉ idf) :
    ',' :: idf <:+ r.csvLine ↔ r.idf = idf := by
  have hline : r.csvLine = numRow ',' ((r.features .DW).columns ++ (r.features .UP).columns ++
      [r.isCG.toNat]) ++ ',' :: r.idf := by
    rw [Report.idf, ← numRow_concat ',' (by simp [Features.columns]), Report.csvLine,
      Report.columns, List.append_assoc _ [r.isCG.toNat]]
    rfl
  have hcomma : ',' ∉ r.idf := not_mem_toDigits (by decide) _
  rw [hline, cons_suffix_append_cons_iff hcomma _ hidf, eq_comm]

/-- **After filtering**: the windows of the identifier stay, in order. -/
theorem filOutTemp_csvOf {grep : List Char → List Char → Bool} (hgrep : GrepSpec grep)
    {idf : List Char} (hidf : ∀ c ∈ idf, c.isDigit) (rs : List Report) :
    filOutTemp grep idf (csvOf rs) = csvOf (ofIdf idf rs) := by
  have hordinary : ∀ c ∈ ',' :: idf, IsOrdinary c := by
    intro c hc
    rcases List.mem_cons.1 hc with rfl | hc
    · decide
    · exact isOrdinary_of_isDigit (hidf c hc)
  have hcomma : ',' ∉ idf := fun hc => absurd (hidf ',' hc) (by decide)
  rw [filOutTemp, fileLines_csvOf, List.filter_map, csvOf, ofIdf]
  congr 2
  refine List.filter_congr fun r _ => ?_
  rw [Function.comp_apply, Bool.eq_iff_iff, hgrep.atEnd_iff hordinary,
    suffix_csvLine_iff r hcomma, decide_eq_true_eq]

/-! ## The percentage -/

lemma csvRow_csvLine (r : Report) :
    csvRow ',' r.csvLine = r.columns.map (Nat.toDigits 10) :=
  csvRow_numRow (by decide) (by simp [Report.columns, Features.columns])

lemma percentLine_csvLine (st : ℕ × ℕ) (r : Report) :
    percentLine st r.csvLine = (st.1 + 1, if r.isCG = 1 then st.2 + 1 else st.2) := by
  have hfield : ((csvRow ',' r.csvLine)[12]?).getD [] = Nat.toDigits 10 r.isCG.toNat := by
    rw [csvRow_csvLine]
    rfl
  have hone : Nat.toDigits 10 r.isCG.toNat = ['1'] ↔ r.isCG = 1 := by
    generalize r.isCG = cg
    revert cg
    decide
  obtain ⟨lines, cg⟩ := st
  simp only [percentLine, hfield, hone]

lemma foldl_percentLine (rs : List Report) (st : ℕ × ℕ) :
    (rs.map Report.csvLine).foldl percentLine st = (st.1 + rs.length, st.2 + nbCG rs) := by
  induction rs generalizing st with
  | nil => rfl
  | cons r rs ih =>
      rw [List.map_cons, List.foldl_cons, ih, percentLine_csvLine, List.length_cons, nbCG, nbCG]
      by_cases hcg : r.isCG = 1
      · rw [if_pos hcg, List.countP_cons_of_pos (by simpa using hcg)]
        ext <;> omega
      · rw [if_neg hcg, List.countP_cons_of_neg (by simpa using hcg)]
        ext <;> omega

lemma percentage_percentEnd_zero {awk : ZeroDivision} {out : Percentage}
    (h : percentEnd awk 0 0 = some out) : out = ⟨none, 0, 0⟩ := by
  cases awk with
  | ends => exact absurd h (by simp [percentEnd])
  | notNumber => exact (Option.some.inj h).symm

/-- **The percentage of a file of windows**, if there are any. -/
theorem percentAwk_csvOf (awk : ZeroDivision) (rs : List Report) :
    percentAwk awk (csvOf rs) =
      if rs = [] then percentEnd awk 0 0 else some (percentageOf rs) := by
  rw [percentAwk, fileLines_csvOf, foldl_percentLine]
  cases rs with
  | nil => rfl
  | cons r rs => simp [percentEnd, percentageOf]

/-! ## The columns of the graphs -/

/-- The columns of the features of one direction. -/
def columnsOf (fts : List Features) : Columns where
  meanSZ := fts.map fun ft => ft.meanSZ.toNat
  stdSZ := fts.map fun ft => ft.stdSZ.toNat
  meanIAT := fts.map fun ft => ft.meanIAT.toNat
  stdIAT := fts.map fun ft => ft.stdIAT.toNat
  sumSze := fts.map fun ft => ft.sum.toNat
  nbPaks := fts.map fun ft => ft.nb.toNat

lemma append_columnsOf (fts : List Features) (ft : Features) {lines : List (List Char)} {k : ℕ}
    (h : ∀ j < 6, lines[k + j]? = (ft.columns.map (Nat.toDigits 10))[j]?) :
    (columnsOf fts).append lines k = some (columnsOf (fts ++ [ft])) := by
  have hat : ∀ j < 6, intAt lines (k + j) = ft.columns[j]? := by
    intro j hj
    rw [intAt, h j hj, List.getElem?_map]
    cases ft.columns[j]? with
    | none => rfl
    | some n => exact readNat_toDigits n
  have h0 := hat 0 (by omega)
  have h1 := hat 1 (by omega)
  have h2 := hat 2 (by omega)
  have h3 := hat 3 (by omega)
  have h4 := hat 4 (by omega)
  have h5 := hat 5 (by omega)
  rw [Nat.add_zero] at h0
  simp only [Columns.append, h0, h1, h2, h3, h4, h5]
  simp [columnsOf, Features.columns]

/-- The columns of a list of windows. -/
def graphsOf (rs : List Report) : Columns × Columns :=
  (columnsOf (rs.map fun r => r.features .DW), columnsOf (rs.map fun r => r.features .UP))

lemma graphsStep_csvLine (rs : List Report) (r : Report) :
    graphsStep (graphsOf rs) (csvRow ',' r.csvLine) = some (graphsOf (rs ++ [r])) := by
  have hlen : ∀ ft : Features, ft.columns.length = 6 := fun _ => rfl
  have hDW : ∀ j < 6, (csvRow ',' r.csvLine)[0 + j]? =
      ((r.features .DW).columns.map (Nat.toDigits 10))[j]? := by
    intro j hj
    rw [csvRow_csvLine, List.getElem?_map, List.getElem?_map, Report.columns, List.append_assoc,
      List.getElem?_append_left (by rw [hlen]; omega), Nat.zero_add]
  have hUP : ∀ j < 6, (csvRow ',' r.csvLine)[6 + j]? =
      ((r.features .UP).columns.map (Nat.toDigits 10))[j]? := by
    intro j hj
    rw [csvRow_csvLine, List.getElem?_map, List.getElem?_map, Report.columns, List.append_assoc,
      List.getElem?_append_right (by rw [hlen]; omega), hlen, Nat.add_sub_cancel_left,
      List.getElem?_append_left (by rw [hlen]; omega)]
  simp only [graphsStep, graphsOf, append_columnsOf _ _ hDW, append_columnsOf _ _ hUP]
  simp

/-- **The graphs are drawn from the features the switch computed**, down and up. -/
theorem getGraphs_csvOf (rs : List Report) : getGraphs (csvOf rs) = some (graphsOf rs) := by
  have hfold : ∀ rs seen : List Report,
      ((rs.map Report.csvLine).map (csvRow ',')).foldlM graphsStep (graphsOf seen) =
        some (graphsOf (seen ++ rs)) := by
    intro rs
    induction rs with
    | nil => simp
    | cons r rs ih =>
        intro seen
        rw [List.map_cons, List.map_cons, List.foldlM_cons, graphsStep_csvLine]
        simpa using ih (seen ++ [r])
  rw [getGraphs, fileLines_csvOf]
  exact hfold rs []

/-! ## Runs -/

/-- Some packet of the run finds the window of its index over, and the index is the identifier. -/
def ClosesIdf (cfg : Config) (regs : Registers) (ps : List Packet) (idf : List Char) : Prop :=
  ∃ pre p post, ps = pre ++ p :: post ∧ p.IsUdp ∧
    ((runState (switchStep cfg) regs pre).cell (flowIndex cfg p)).WindowOver p.time ∧
    Nat.toDigits 10 (flowIndex cfg p) = idf

lemma closesIdf_iff (cfg : Config) (regs : Registers) (ps : List Packet) (idf : List Char) :
    ClosesIdf cfg regs ps idf ↔ ofIdf idf (reports (trace (switchStep cfg) regs ps)) ≠ [] := by
  have hmem : ofIdf idf (reports (trace (switchStep cfg) regs ps)) ≠ [] ↔
      ∃ x ∈ trace (switchStep cfg) regs ps, ∃ r, x.2 = some r ∧ r.idf = idf := by
    rw [ofIdf, Ne, List.filter_eq_nil_iff]
    simp only [reports, List.mem_filterMap, decide_eq_true_eq, not_forall, not_not]
    constructor
    · rintro ⟨r, ⟨x, hx, hr⟩, hidf⟩
      exact ⟨x, hx, r, hr, hidf⟩
    · rintro ⟨x, hx, r, hr, hidf⟩
      exact ⟨r, ⟨x, hx, hr⟩, hidf⟩
  rw [hmem]
  constructor
  · rintro ⟨pre, p, post, hps, hp, hw, hidf⟩
    have hrep := report_of_windowOver hp hw
    exact ⟨(p, _), (mem_trace_iff _).2 ⟨pre, post, hps, hrep⟩, _, rfl, hidf⟩
  · rintro ⟨⟨p, out⟩, hx, r, rfl, hidf⟩
    obtain ⟨pre, post, hps, hrep⟩ := (mem_trace_iff _).1 hx
    by_cases hp : p.IsUdp
    · obtain ⟨hw, rfl⟩ := report_eq_windowReport hp hrep
      exact ⟨pre, p, post, hps, hp, hw, hidf⟩
    · have hnone := (process_of_not_isUdp cfg (runState (switchStep cfg) regs pre) hp).2
      rw [switchStep, hnone] at hrep
      exact absurd hrep (by simp)

lemma decoderInverts_iff_ne_nil {grep : List Char → List Char → Bool} (hgrep : GrepSpec grep)
    (awk : ZeroDivision) {log : List Char} {rs : List Report}
    (hlog : LogsWrites log (rs.flatMap Report.writes)) (idf : List Char) :
    DecoderInverts grep awk rs log idf ↔ ofIdf idf rs ≠ [] := by
  constructor
  · intro h hnil
    have hpercent := h.percentage
    rw [h.kept, percentAwk_csvOf, if_pos hnil] at hpercent
    have hout := congrArg Percentage.percentage (percentage_percentEnd_zero hpercent)
    exact absurd hout (by simp [percentageOf])
  · intro hne
    obtain ⟨r, hr⟩ := List.exists_mem_of_ne_nil _ hne
    have hidf : r.idf = idf := of_decide_eq_true (List.mem_filter.1 hr).2
    have hdigits : ∀ c ∈ idf, c.isDigit := by
      intro c hc
      rw [← hidf] at hc
      exact Nat.isDigit_of_mem_toDigits (by decide) (by decide) hc
    have hrows := filOut_of_logsWrites hgrep hlog
    have hkept : filOutTemp grep idf (filOut grep log) = csvOf (ofIdf idf rs) := by
      rw [hrows, filOutTemp_csvOf hgrep hdigits]
    refine ⟨hrows, hkept, ?_⟩
    rw [hkept, percentAwk_csvOf, if_neg hne]

/-- **The decoder inverts the debug writes of a run** exactly when the identifier typed is the index
of a window closed in the run. -/
theorem decoderInverts_iff {grep : List Char → List Char → Bool} (hgrep : GrepSpec grep)
    (awk : ZeroDivision) (cfg : Config) (regs : Registers) (ps : List Packet) {log : List Char}
    (hlog : LogsWrites log (runLog cfg regs ps)) (idf : List Char) :
    DecoderInverts grep awk (reports (trace (switchStep cfg) regs ps)) log idf ↔
      ClosesIdf cfg regs ps idf := by
  rw [runLog_eq] at hlog
  rw [closesIdf_iff]
  exact decoderInverts_iff_ne_nil hgrep awk hlog idf

/-- Two packets to a client, 39 ms apart: a window is closed at index 1. -/
theorem decoderInverts_iff_one_window :
    let cfg : Config :=
      { hash := fun a _ => Fin.ofNat 1024 (a.toNat % 1024)
        tables := { Tables.empty with direc := [0xC0A8] } }
    let ps := [udpPacket 0x0A000002 0xC0A80001 1400 1000,
      udpPacket 0x0A000002 0xC0A80001 1400 40000]
    DecoderInverts plainGrep .notNumber (reports (trace (switchStep cfg) Registers.zero ps))
      (logText (runLog cfg Registers.zero ps)) ['1'] := by
  intro cfg ps
  refine (decoderInverts_iff grepSpec_plainGrep .notNumber cfg Registers.zero ps
    (logsWrites_logText _) ['1']).2 ⟨[udpPacket 0x0A000002 0xC0A80001 1400 1000], _, [], rfl,
      isUdp_udpPacket .., ?_, by decide⟩
  have hcell := cell_switchRun cfg [udpPacket 0x0A000002 0xC0A80001 1400 1000] 1
  rw [switchRun] at hcell
  have hidx : flowIndex cfg (udpPacket 0x0A000002 0xC0A80001 1400 40000) = 1 := by decide
  rw [hidx, hcell]
  decide

/-- On the same run the identifier 2 names no window: the filtered file is empty, `Percent.awk`
divides by zero, and either prints nothing or no number. -/
theorem not_decoderInverts_no_window :
    let cfg : Config :=
      { hash := fun a _ => Fin.ofNat 1024 (a.toNat % 1024)
        tables := { Tables.empty with direc := [0xC0A8] } }
    let ps := [udpPacket 0x0A000002 0xC0A80001 1400 1000,
      udpPacket 0x0A000002 0xC0A80001 1400 40000]
    let log := logText (runLog cfg Registers.zero ps)
    LogsWrites log (runLog cfg Registers.zero ps) ∧
      filOutTemp plainGrep ['2'] (filOut plainGrep log) = [] ∧
      percentAwk .ends (filOutTemp plainGrep ['2'] (filOut plainGrep log)) = none ∧
      percentAwk .notNumber (filOutTemp plainGrep ['2'] (filOut plainGrep log)) =
        some ⟨none, 0, 0⟩ ∧
      ∀ awk, ¬ DecoderInverts plainGrep awk (reports (trace (switchStep cfg) Registers.zero ps))
        log ['2'] := by
  intro cfg ps log
  have hlog : LogsWrites log (runLog cfg Registers.zero ps) := logsWrites_logText _
  have hnone : ofIdf ['2'] (reports (trace (switchStep cfg) Registers.zero ps)) = [] := by
    by_contra hne
    obtain ⟨pre, p, post, hps, -, -, hidf⟩ := (closesIdf_iff cfg _ _ _).2 hne
    have hmem : p ∈ ps := by rw [hps]; simp
    have hidx : ∀ q ∈ ps, ¬ Nat.toDigits 10 (flowIndex cfg q) = ['2'] := by decide
    exact hidx p hmem hidf
  have hwrites : LogsWrites log
      ((reports (trace (switchStep cfg) Registers.zero ps)).flatMap Report.writes) := by
    rw [← runLog_eq]
    exact hlog
  have hdigits : ∀ c ∈ ['2'], c.isDigit := by
    intro c hc
    rw [List.mem_singleton.1 hc]
    decide
  have hkept : filOutTemp plainGrep ['2'] (filOut plainGrep log) = csvOf [] := by
    rw [filOut_of_logsWrites grepSpec_plainGrep hwrites,
      filOutTemp_csvOf grepSpec_plainGrep hdigits, hnone]
  refine ⟨hlog, hkept, ?_, ?_, fun awk h => ?_⟩
  · rw [hkept, percentAwk_csvOf, if_pos rfl]
    rfl
  · rw [hkept, percentAwk_csvOf, if_pos rfl]
    rfl
  · exact (decoderInverts_iff_ne_nil grepSpec_plainGrep awk hwrites ['2']).1 h hnone

end FlowClassifier
