import FlowClassifier.Properties.LogDecoder

/-!
# A log that is cut off

The scripts can be run at any time, also while the switch is writing the fourteen values of a
window.  Whole windows are not disturbed by what follows them.  Of a window that is cut off the loop
still prints a line, with nothing in the places of the missing values, and the filter on the last
field removes it, except in one case: the index is the last value but one, so a window of which only
the verdict is missing stays.  `Percent.awk` then counts it as not gaming, and `GetGraphs.py` plots
its features (`csv_of_cut_log`).
-/

namespace FlowClassifier

open Mealy Text Grep

/-! ## The line of a cut window -/

/-- The line printed for a window of which only the verdict is missing. -/
def Report.cutLine (r : Report) : List Char :=
  [','].intercalate (((r.features .DW).columns ++ (r.features .UP).columns).map
    (Nat.toDigits 10) ++ [[], r.idf])

lemma exists_vlsLine_eq (l : List (List Char)) :
    ∃ front, vlsLine l 0 = front ++ ',' :: vlsAt l 12 := by
  refine ⟨[','].intercalate ([0, 1, 2, 3, 4, 5, 6, 7, 8, 9, 10, 11, 13].map fun k => vlsAt l k), ?_⟩
  simp only [vlsLine, Nat.zero_add, List.map_cons, List.map_nil, intercalate_cons_eq]
  simp

lemma vlsLine_cut (r : Report) : vlsLine (r.values.take 13) 0 = r.cutLine := by
  have hidx : (BitVec.ofNat 32 r.index.val).toNat = r.index := by
    have := r.index.isLt
    rw [BitVec.toNat_ofNat, Nat.mod_eq_of_lt (by omega)]
  simp only [vlsLine, vlsAt, Report.values, Report.writes, Features.writes, Report.cutLine,
    Features.columns, Report.idf, DebugWrite.value, hidx, List.map_cons, List.map_nil,
    List.cons_append, List.nil_append, List.take]
  rfl

/-- The filter on a cut line: it stays when the identifier has been written. -/
lemma suffix_cut_iff (r : Report) {m : ℕ} (hm : m < 14) {idf : List Char} (hne : idf ≠ [])
    (hidf : ',' ∉ idf) : ',' :: idf <:+ vlsLine (r.values.take m) 0 ↔ m = 13 ∧ r.idf = idf := by
  obtain ⟨front, hline⟩ := exists_vlsLine_eq (r.values.take m)
  have hvalue : r.values[12]? = some r.idf := by
    have hidx : (BitVec.ofNat 32 r.index.val).toNat = r.index := by
      have := r.index.isLt
      rw [BitVec.toNat_ofNat, Nat.mod_eq_of_lt (by omega)]
    rw [Report.idf, ← hidx]
    rfl
  rcases Nat.lt_or_ge 12 m with hlt | hge
  · have hat : vlsAt (r.values.take m) 12 = r.idf := by
      rw [vlsAt, List.getElem?_take, if_pos hlt, hvalue, Option.getD_some]
    have hcomma : ',' ∉ r.idf := not_mem_toDigits (by decide) _
    rw [hline, hat, cons_suffix_append_cons_iff hcomma _ hidf, eq_comm]
    exact ⟨fun h => ⟨by omega, h⟩, fun h => h.2⟩
  · have hat : vlsAt (r.values.take m) 12 = [] := by
      rw [vlsAt, List.getElem?_take, if_neg (by omega), Option.getD_none]
    rw [hline, hat, cons_suffix_append_cons_iff List.not_mem_nil _ hidf]
    exact ⟨fun h => absurd h hne, fun h => by omega⟩

/-- The window of which only the verdict is missing after some debug writes, if there is one. -/
def cutAt (n : ℕ) (rs : List Report) : List Report :=
  if n % 14 = 13 then (rs.drop (n / 14)).take 1 else []

/-- The values of the window that is cut off. -/
def cutValues (n : ℕ) (rs : List Report) : List (List Char) :=
  (((rs.map Report.values)[n / 14]?).getD []).take (n % 14)

/-- The lines of a log that is cut off: whole windows, and at most one more line. -/
lemma filOut_cut {grep : List Char → List Char → Bool} (hgrep : GrepSpec grep) {n : ℕ}
    {log : List Char} {rs : List Report}
    (hlog : LogsWrites log ((rs.flatMap Report.writes).take n)) :
    filOut grep log = terminated '\n' ((rs.take (n / 14)).map Report.csvLine ++
      if cutValues n rs = [] then [] else [vlsLine (cutValues n rs) 0]) := by
  have hblocks : ∀ b ∈ rs.map Report.values, b.length = 14 := by
    intro b hb
    obtain ⟨r, -, rfl⟩ := List.mem_map.1 hb
    exact length_values r
  have hvls : vls grep log = ((rs.take (n / 14)).map Report.values).flatten ++ cutValues n rs := by
    rw [vls_of_logsWrites hgrep hlog, List.map_take, List.map_flatMap, List.flatMap_def,
      List.map_take, cutValues, ← Loop.take_flatten (by omega) hblocks]
    rfl
  have htake : ∀ b ∈ (rs.take (n / 14)).map Report.values, b.length = 14 := by
    intro b hb
    obtain ⟨r, -, rfl⟩ := List.mem_map.1 hb
    exact length_values r
  have hcut : (cutValues n rs).length < 14 := by
    have hmod : n % 14 < 14 := Nat.mod_lt _ (by omega)
    rw [cutValues, List.length_take]
    omega
  have hlines := Loop.map_strides_append (by omega) (fun l => vlsLine l 0)
    (fun b rest hb => vlsLine_append hb rest) htake hcut
  rw [filOut, hvls]
  congr 1
  calc
    (Loop.strides 14 (((rs.take (n / 14)).map Report.values).flatten ++ cutValues n rs).length).map
          (vlsLine (((rs.take (n / 14)).map Report.values).flatten ++ cutValues n rs)) =
        ((rs.take (n / 14)).map Report.values).map (fun l => vlsLine l 0) ++
          if cutValues n rs = [] then [] else [vlsLine (cutValues n rs) 0] := by
      rw [← hlines]
      exact List.map_congr_left fun i _ => vlsLine_eq_drop _ i
    _ = _ := by
      congr 1
      rw [List.map_map]
      exact List.map_congr_left fun r _ => vlsLine_values r

lemma grep_cut_iff {grep : List Char → List Char → Bool} (hgrep : GrepSpec grep) {idf : List Char}
    (hne : idf ≠ []) (hidf : ∀ c ∈ idf, c.isDigit) (r : Report) {m : ℕ} (hm : m < 14) :
    grep ((',' :: idf) ++ ['$']) (vlsLine (r.values.take m) 0) = true ↔ m = 13 ∧ r.idf = idf := by
  have hordinary : ∀ c ∈ ',' :: idf, IsOrdinary c := by
    intro c hc
    rcases List.mem_cons.1 hc with rfl | hc
    · decide
    · exact isOrdinary_of_isDigit (hidf c hc)
  have hcomma : ',' ∉ idf := fun hc => absurd (hidf ',' hc) (by decide)
  rw [hgrep.atEnd_iff hordinary, suffix_cut_iff r hm hne hcomma]

lemma cutValues_of_getElem? {n : ℕ} {rs : List Report} {r : Report} (hr : rs[n / 14]? = some r) :
    cutValues n rs = r.values.take (n % 14) ∧ cutAt n rs = if n % 14 = 13 then [r] else [] := by
  have hdrop : (rs.drop (n / 14)).take 1 = [r] := by
    rw [List.take_one, List.head?_drop, hr]
    rfl
  refine ⟨?_, by rw [cutAt, hdrop]⟩
  rw [cutValues, List.getElem?_map, hr]
  rfl

lemma cutValues_of_none {n : ℕ} {rs : List Report} (hr : rs[n / 14]? = none) :
    cutValues n rs = [] ∧ cutAt n rs = [] := by
  have hdrop : rs.drop (n / 14) = [] := List.drop_eq_nil_iff.2 (List.getElem?_eq_none_iff.1 hr)
  refine ⟨by rw [cutValues, List.getElem?_map, hr]; simp, ?_⟩
  rw [cutAt, hdrop]
  simp

/-- Of the line of a cut window the filter keeps what it should not: the window without verdict. -/
lemma filter_cut {grep : List Char → List Char → Bool} (hgrep : GrepSpec grep) {idf : List Char}
    (hne : idf ≠ []) (hidf : ∀ c ∈ idf, c.isDigit) (n : ℕ) (rs : List Report) :
    (if cutValues n rs = [] then [] else [vlsLine (cutValues n rs) 0]).filter
        (grep ((',' :: idf) ++ ['$'])) = (ofIdf idf (cutAt n rs)).map Report.cutLine := by
  have hmod : n % 14 < 14 := Nat.mod_lt _ (by omega)
  rcases hr : rs[n / 14]? with _ | r
  · obtain ⟨hvalues, hcut⟩ := cutValues_of_none hr
    rw [if_pos hvalues, hcut]
    simp [ofIdf]
  · obtain ⟨hvalues, hcut⟩ := cutValues_of_getElem? hr
    have hkeep := grep_cut_iff hgrep hne hidf r hmod
    rw [hvalues, hcut]
    by_cases hm : n % 14 = 13
    · have hcons : ¬ r.values.take (n % 14) = [] := by
        rw [← List.length_eq_zero_iff, List.length_take, length_values]
        omega
      rw [if_neg hcons, if_pos hm, ofIdf]
      by_cases hi : r.idf = idf
      · rw [List.filter_cons_of_pos (hkeep.2 ⟨hm, hi⟩), List.filter_cons_of_pos (by simpa using hi),
          hm, vlsLine_cut]
        rfl
      · rw [List.filter_cons_of_neg (fun h => hi (hkeep.1 h).2),
          List.filter_cons_of_neg (by simpa using hi)]
        rfl
    · rw [if_neg hm]
      refine List.filter_eq_nil_iff.2 fun l hl => ?_
      split at hl
      · exact absurd hl List.not_mem_nil
      · rw [List.mem_singleton.1 hl, hkeep]
        exact fun h => hm h.1

lemma filOutTemp_append (grep : List Char → List Char → Bool) (idf : List Char)
    {ls ms : List (List Char)} (hls : ∀ l ∈ ls, '\n' ∉ l) (hms : ∀ l ∈ ms, '\n' ∉ l) :
    filOutTemp grep idf (terminated '\n' (ls ++ ms)) =
      filOutTemp grep idf (terminated '\n' ls) ++ filOutTemp grep idf (terminated '\n' ms) := by
  have hboth : ∀ l ∈ ls ++ ms, '\n' ∉ l := fun l hl =>
    (List.mem_append.1 hl).elim (hls l) (hms l)
  rw [filOutTemp, filOutTemp, filOutTemp, fileLines_terminated hls, fileLines_terminated hms,
    fileLines_terminated hboth, List.filter_append, terminated_append]

lemma newline_notMem_csvLine (r : Report) : '\n' ∉ r.csvLine :=
  notMem_numRow (by decide) (by decide) _

lemma newline_notMem_cutValues (n : ℕ) (rs : List Report) : ∀ l ∈ cutValues n rs, '\n' ∉ l := by
  intro l hl
  have hmem := List.mem_of_mem_take hl
  rcases hr : (rs.map Report.values)[n / 14]? with _ | b
  · rw [hr] at hmem
    exact absurd hmem List.not_mem_nil
  · rw [hr] at hmem
    obtain ⟨r, -, rfl⟩ := List.mem_map.1 (List.mem_of_getElem? hr)
    obtain ⟨w, -, rfl⟩ := List.mem_map.1 hmem
    exact not_mem_toDigits (by decide) w.value

lemma newline_notMem_vlsLine {l : List (List Char)} (hl : ∀ v ∈ l, '\n' ∉ v) :
    '\n' ∉ vlsLine l 0 := by
  refine notMem_intercalate (by decide) fun v hv => ?_
  obtain ⟨k, -, rfl⟩ := List.mem_map.1 hv
  rw [vlsAt]
  rcases hk : l[0 + k]? with _ | v
  · exact List.not_mem_nil
  · exact hl v (List.mem_of_getElem? hk)

lemma filOutTemp_cut {grep : List Char → List Char → Bool} (hgrep : GrepSpec grep) {idf : List Char}
    (hne : idf ≠ []) (hidf : ∀ c ∈ idf, c.isDigit) {n : ℕ} {log : List Char} {rs : List Report}
    (hlog : LogsWrites log ((rs.flatMap Report.writes).take n)) :
    filOutTemp grep idf (filOut grep log) = csvOf (ofIdf idf (rs.take (n / 14))) ++
      terminated '\n' ((ofIdf idf (cutAt n rs)).map Report.cutLine) := by
  have hcsv : ∀ l ∈ (rs.take (n / 14)).map Report.csvLine, '\n' ∉ l := by
    intro l hl
    obtain ⟨r, -, rfl⟩ := List.mem_map.1 hl
    exact newline_notMem_csvLine r
  have hcut : ∀ l ∈ (if cutValues n rs = [] then [] else [vlsLine (cutValues n rs) 0]),
      '\n' ∉ l := by
    intro l hl
    split at hl
    · exact absurd hl List.not_mem_nil
    · rw [List.mem_singleton.1 hl]
      exact newline_notMem_vlsLine (newline_notMem_cutValues n rs)
  rw [filOut_cut hgrep hlog, filOutTemp_append grep idf hcsv hcut,
    ← filOutTemp_csvOf hgrep hidf (rs.take (n / 14)), ← filter_cut hgrep hne hidf n rs]
  congr 1
  rw [filOutTemp, fileLines_terminated hcut]

/-! ## What the readers of the file make of it -/

/-- The fields of a cut line: nothing stands where the verdict would. -/
lemma csvRow_cutLine (r : Report) :
    csvRow ',' r.cutLine =
      ((r.features .DW).columns ++ (r.features .UP).columns).map (Nat.toDigits 10) ++
        [[], r.idf] := by
  rw [Report.cutLine]
  refine csvRow_intercalate ?_ (by simp) ?_
  · intro f hf
    rcases List.mem_append.1 hf with hf | hf
    · obtain ⟨m, -, rfl⟩ := List.mem_map.1 hf
      exact not_mem_toDigits (by decide) m
    · simp only [List.mem_cons, List.not_mem_nil, or_false] at hf
      rcases hf with rfl | rfl
      · exact List.not_mem_nil
      · exact not_mem_toDigits (by decide) _
  · simp [Features.columns]

lemma newline_notMem_cutLine (r : Report) : '\n' ∉ r.cutLine := by
  refine notMem_intercalate (by decide) fun l hl => ?_
  rcases List.mem_append.1 hl with hl | hl
  · obtain ⟨m, -, rfl⟩ := List.mem_map.1 hl
    exact not_mem_toDigits (by decide) m
  · simp only [List.mem_cons, List.not_mem_nil, or_false] at hl
    rcases hl with rfl | rfl
    · exact List.not_mem_nil
    · exact not_mem_toDigits (by decide) _

lemma foldl_percentLine_cut (rs : List Report) (st : ℕ × ℕ) :
    (rs.map Report.cutLine).foldl percentLine st = (st.1 + rs.length, st.2) := by
  have hfield : ∀ r : Report, ((csvRow ',' r.cutLine)[12]?).getD [] = [] := by
    intro r
    rw [csvRow_cutLine]
    rfl
  induction rs generalizing st with
  | nil => rfl
  | cons r rs ih =>
      rw [List.map_cons, List.foldl_cons, ih, percentLine, hfield, if_neg (by simp),
        List.length_cons, Nat.add_assoc, Nat.add_comm 1]

/-- Lines whose first twelve fields are features add them to the graphs, whatever follows. -/
lemma foldlM_graphsStep {line : Report → List Char} {rest : Report → List (List Char)}
    (hline : ∀ r, csvRow ',' (line r) =
      ((r.features .DW).columns ++ (r.features .UP).columns).map (Nat.toDigits 10) ++ rest r)
    (rs seen : List Report) :
    ((rs.map line).map (csvRow ',')).foldlM graphsStep (graphsOf seen) =
      some (graphsOf (seen ++ rs)) := by
  have hlen : ∀ ft : Features, (ft.columns.map (Nat.toDigits 10)).length = 6 := fun _ => rfl
  induction rs generalizing seen with
  | nil => simp
  | cons r rs ih =>
      have hDW : ∀ j < 6, (csvRow ',' (line r))[0 + j]? =
          ((r.features .DW).columns.map (Nat.toDigits 10))[j]? := by
        intro j hj
        rw [hline, List.map_append, List.append_assoc, Nat.zero_add,
          List.getElem?_append_left (by rw [hlen]; omega)]
      have hUP : ∀ j < 6, (csvRow ',' (line r))[6 + j]? =
          ((r.features .UP).columns.map (Nat.toDigits 10))[j]? := by
        intro j hj
        rw [hline, List.map_append, List.append_assoc,
          List.getElem?_append_right (by rw [hlen]; omega), hlen, Nat.add_sub_cancel_left,
          List.getElem?_append_left (by rw [hlen]; omega)]
      have hstep : graphsStep (graphsOf seen) (csvRow ',' (line r)) =
          some (graphsOf (seen ++ [r])) := by
        simp only [graphsStep, graphsOf, append_columnsOf _ _ hDW, append_columnsOf _ _ hUP]
        simp
      rw [List.map_cons, List.map_cons, List.foldlM_cons, hstep]
      simpa using ih (seen ++ [r])

/-- **The decoder on a log that is cut off.**  Of the windows written in full those of the
identifier are read as ever.  A window of the identifier of which only the verdict is missing is
read too: its features are plotted, and it is counted as not gaming.  Nothing else of a cut window
is read. -/
theorem csv_of_cut_log {grep : List Char → List Char → Bool} (hgrep : GrepSpec grep) (cfg : Config)
    (regs : Registers) (ps : List Packet) (n : ℕ) {log : List Char}
    (hlog : LogsWrites log ((runLog cfg regs ps).take n)) (i : ℕ) :
    let idf := Nat.toDigits 10 i
    let rs := reports (trace (switchStep cfg) regs ps)
    let whole := ofIdf idf (rs.take (n / 14))
    let cut := ofIdf idf (cutAt n rs)
    let kept := filOutTemp grep idf (filOut grep log)
    kept = csvOf whole ++ terminated '\n' (cut.map Report.cutLine) ∧
      (∀ awk, percentAwk awk kept = if whole ++ cut = [] then percentEnd awk 0 0 else
        some ⟨some (nbCG whole / (whole ++ cut).length), (whole ++ cut).length, nbCG whole⟩) ∧
      getGraphs kept = some (graphsOf (whole ++ cut)) := by
  intro idf rs whole cut kept
  have hdigits : ∀ c ∈ idf, c.isDigit :=
    fun c hc => Nat.isDigit_of_mem_toDigits (by decide) (by decide) hc
  rw [runLog_eq] at hlog
  have hkept : kept = csvOf whole ++ terminated '\n' (cut.map Report.cutLine) :=
    filOutTemp_cut hgrep Nat.toDigits_ne_nil hdigits hlog
  have hnewline : ∀ l ∈ whole.map Report.csvLine ++ cut.map Report.cutLine, '\n' ∉ l := by
    intro l hl
    rcases List.mem_append.1 hl with hl | hl
    · obtain ⟨r, -, rfl⟩ := List.mem_map.1 hl
      exact newline_notMem_csvLine r
    · obtain ⟨r, -, rfl⟩ := List.mem_map.1 hl
      exact newline_notMem_cutLine r
  have hlines : fileLines kept = whole.map Report.csvLine ++ cut.map Report.cutLine := by
    rw [hkept, csvOf, ← terminated_append, fileLines_terminated hnewline]
  refine ⟨hkept, ?_, ?_⟩
  · intro awk
    have hpercent : percentAwk awk kept = percentEnd awk (whole ++ cut).length (nbCG whole) := by
      rw [percentAwk, hlines, List.foldl_append, foldl_percentLine, foldl_percentLine_cut]
      simp only [Nat.zero_add, List.length_append]
    rw [hpercent]
    by_cases hnone : whole ++ cut = []
    · rw [if_pos hnone, hnone, (List.append_eq_nil_iff.1 hnone).1]
      rfl
    · rw [if_neg hnone]
      exact if_neg (mt List.length_eq_zero_iff.1 hnone)
  · rw [getGraphs, hlines, List.map_append, List.foldlM_append]
    have hrow : ∀ r : Report, csvRow ',' r.csvLine =
        ((r.features .DW).columns ++ (r.features .UP).columns).map (Nat.toDigits 10) ++
          [r.isCG.toNat, r.index.val].map (Nat.toDigits 10) := by
      intro r
      rw [csvRow_csvLine, Report.columns, List.map_append]
    have hwhole := foldlM_graphsStep hrow whole []
    have hcut := foldlM_graphsStep csvRow_cutLine cut whole
    exact (congrArg (· >>= _) hwhole).trans hcut

/-- Two packets to a client, 39 ms apart, and a log that lacks the last line: the window is counted,
and not as gaming. -/
theorem csv_of_cut_log_no_verdict :
    let cfg : Config :=
      { hash := fun a _ => Fin.ofNat 1024 (a.toNat % 1024)
        tables := { Tables.empty with direc := [0xC0A8] } }
    let ps := [udpPacket 0x0A000002 0xC0A80001 1400 1000,
      udpPacket 0x0A000002 0xC0A80001 1400 40000]
    percentAwk .notNumber (filOutTemp plainGrep ['1'] (filOut plainGrep
      (logText ((runLog cfg Registers.zero ps).take 13)))) = some ⟨some 0, 1, 0⟩ := by
  intro cfg ps
  obtain ⟨-, hpercent, -⟩ := csv_of_cut_log grepSpec_plainGrep cfg Registers.zero ps 13
    (logsWrites_logText _) 1
  let p := udpPacket 0x0A000002 0xC0A80001 1400 1000
  let q := udpPacket 0x0A000002 0xC0A80001 1400 40000
  have hfirst : (process cfg Registers.zero p).report = none := by
    rw [Option.eq_none_iff_forall_ne_some]
    intro r hr
    obtain ⟨hw, -⟩ := report_eq_windowReport (isUdp_udpPacket ..) hr
    revert hw
    decide
  have hidx : flowIndex cfg q = 1 := by decide
  have hover : ((process cfg Registers.zero p).regs.cell (flowIndex cfg q)).WindowOver q.time := by
    have hcell := cell_switchRun cfg [p] 1
    rw [switchRun] at hcell
    rw [hidx]
    exact hcell ▸ (by decide)
  have hsecond : (process cfg (process cfg Registers.zero p).regs q).report = some _ :=
    report_of_windowOver (isUdp_udpPacket ..) hover
  set r := windowReport cfg.tables 1 ((process cfg Registers.zero p).regs.cell 1).half
  have hreports : reports (trace (switchStep cfg) Registers.zero ps) = [r] := by
    rw [trace_cons, reports_cons, trace_cons, reports_cons]
    simp only [switchStep]
    rw [hfirst, hsecond, hidx]
    rfl
  have hwhole : ofIdf ['1'] ([r].take (13 / 14)) = [] := rfl
  have hcut : ofIdf ['1'] (cutAt 13 [r]) = [r] := List.filter_cons_of_pos (by decide)
  have hone : Nat.toDigits 10 1 = ['1'] := rfl
  rw [hreports, hone, hwhole, hcut] at hpercent
  rw [hpercent .notNumber]
  simp [nbCG]

end FlowClassifier
