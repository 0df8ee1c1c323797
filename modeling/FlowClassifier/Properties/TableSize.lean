import FlowClassifier.Properties.Classifier

/-!
# A division file that is too short

`expo.c` asks for the largest count a window can have and writes the file up to that number; the
controller expects 4095, the largest count there is.  With a smaller number the counts above it miss
both division tables.  What the switch then reports depends on the direction: the quotients of the
downlink stay zero, those of the uplink stay what the downlink division has left behind
(`reports_short_file`).
-/

namespace FlowClassifier

open Mealy Expo Interrupted

/-! ## What the controller installs -/

/-- The division tables hold what the controller loads from the file for the counts up to `nb`. -/
def DivideFromFile (nb : ℕ) (t : Tables) : Prop :=
  ∃ fuel text t₀ t₁, 6 ≤ fuel ∧ outCsv fuel nb = some text ∧ (∀ d, t₀.divide d = []) ∧
    writeApprRule text t₀ = .ok t₁ ∧ t.divide = t₁.divide

lemma fst_le_of_outCsv {fuel nb : ℕ} (hfuel : 6 ≤ fuel) (hnb : 1 ≤ nb) {text : List Char}
    (htext : outCsv fuel nb = some text) {row : List (List Char)}
    (hrow : row ∈ (Text.fileLines text).map (Text.csvRow ' ')) {num : ℕ × List ℕ}
    (hread : readApprRow row = some num) : num.1 ≤ nb := by
  obtain ⟨m, rfl⟩ : ∃ m, nb = m + 1 := ⟨nb - 1, by omega⟩
  obtain ⟨tab, hrun, hlen, -⟩ := handleAll_spec hfuel (m + 1)
  rw [outCsv, hrun, Option.map_some] at htext
  obtain rfl := Option.some.inj htext
  have hmem : some num ∈
      ((Text.fileLines (exportCSV tab)).map (Text.csvRow ' ')).map readApprRow := by
    rw [← hread]
    exact List.mem_map_of_mem hrow
  rw [readApprRow_exportCSV hlen] at hmem
  obtain ⟨num', hnum, hsome⟩ := List.mem_map.1 hmem
  obtain rfl := Option.some.inj hsome
  rcases List.mem_cons.1 hnum with rfl | hnum
  · exact hnb
  · obtain ⟨n, hn, rfl⟩ := List.mem_map.1 hnum
    have hrange := List.mem_range'_1.1 hn
    show n ≤ m + 1
    omega

/-- Tables for the counts up to `nb`: these are divided, the others miss. -/
structure CountsUpTo (nb : ℕ) (t : Tables) : Prop where
  divides : DivisionTables t nb
  misses : ∀ d n, nb < n → rangeLookup (t.divide d) n = none

lemma DivideFromFile.countsUpTo {nb : ℕ} {t : Tables} (h : DivideFromFile nb t) (hnb : 1 ≤ nb)
    (hmax : nb ≤ 4095) : CountsUpTo nb t := by
  obtain ⟨fuel, text, t₀, t₁, hfuel, htext, hempty, hload, hdiv⟩ := h
  obtain ⟨text', t', htext', hload', -, htables⟩ :=
    divisionTables_of_outCsv hnb hmax hfuel hempty
  rw [htext] at htext'
  obtain rfl := Option.some.inj htext'
  have hupto := (divideUpTo_of_forall_nil hempty nb).writeApprRule hnb
    fun row hrow num hread _ => fst_le_of_outCsv hfuel hnb htext hrow hread
  rw [hload, left_ok] at hupto
  rw [hload] at hload'
  obtain rfl := Except.ok.inj hload'
  refine ⟨?_, fun d n hn => ?_⟩
  · unfold DivisionTables
    rw [hdiv]
    exact htables
  · have hmiss : ∀ e ∈ t.divide d, RangeEntry.hits n e = false := by
      intro e he
      rw [hdiv] at he
      have hhi : ¬ n ≤ e.hi := by
        have := hupto d e he
        omega
      rw [RangeEntry.hits, decide_eq_false hhi, Bool.and_false]
    rw [rangeLookup, Table.winner_eq_none_iff.2 hmiss, Option.map_none]

/-! ## What the switch reports -/

/-- The four quotients among the features of a direction. -/
def Features.division (ft : Features) : Division := ⟨ft.meanSZ, ft.stdSZ, ft.meanIAT, ft.stdIAT⟩

/-- The features of a direction are sound up to the number the tables were made for.  Above it the
downlink has no quotients, and the uplink has those of the downlink. -/
structure ShortFile (nb : ℕ) (ft : Direction → Features) : Prop where
  sound : ∀ d, (ft d).nb.toNat ≤ nb → (ft d).Sound
  downlink : nb < (ft .DW).nb.toNat → (ft .DW).division = .zero
  uplink : nb < (ft .UP).nb.toNat → (ft .UP).division = (ft .DW).division

section Features

variable {nb : ℕ} {t : Tables}

lemma division_halfFeatures (q : Division) (h : Half) :
    (halfFeatures q h).division = if h.nbelem > 0 then q else .zero := by
  unfold halfFeatures
  split <;> rfl

/-- A count above the tables leaves the scratch quotients. -/
lemma CountsUpTo.divideHalf_of_lt (ht : CountsUpTo nb t) (d : Direction) (scratch : Division)
    {h : Half} (hlt : nb < h.nbelem.toNat) : divideHalf t d scratch h = scratch := by
  unfold divideHalf
  rw [ht.misses d _ hlt]
  simp

lemma CountsUpTo.shortFile (ht : CountsUpTo nb t) (h : Direction → Half) :
    ShortFile nb (windowFeatures t h) := by
  have hnb : ∀ d, (windowFeatures t h d).nb = (h d).nbelem := fun d => (nb_windowFeatures t h d).1
  refine ⟨fun d hle => ?_, fun hlt => ?_, fun hlt => ?_⟩
  · rw [hnb] at hle
    cases d <;> exact sound_halfFeatures ht.divides _ _ hle
  · rw [hnb] at hlt
    rw [windowFeatures, division_halfFeatures, ht.divideHalf_of_lt .DW .zero hlt]
    exact ite_self _
  · rw [hnb] at hlt
    have hpos : (h .UP).nbelem > 0 := lt_of_le_of_lt (Nat.zero_le _) hlt
    rw [windowFeatures, windowFeatures, division_halfFeatures, division_halfFeatures, if_pos hpos,
      ht.divideHalf_of_lt .UP _ hlt]
    -- what the downlink division leaves is zero when the downlink was silent
    split
    · rfl
    · rename_i hdw
      rw [divideHalf, if_neg hdw]

end Features

/-- **Reports with a division file that is too short**, from any registers and for every sequence of
packets. -/
theorem reports_short_file {nb : ℕ} (hnb : 1 ≤ nb) (hmax : nb ≤ 4095) {cfg : Config}
    (hdiv : DivideFromFile nb cfg.tables) (regs : Registers) (ps : List Packet) :
    ∀ r ∈ reports (trace (switchStep cfg) regs ps), ShortFile nb r.features := by
  intro r hr
  obtain ⟨⟨p, out⟩, hx, rfl⟩ := List.mem_filterMap.1 hr
  obtain ⟨pre, post, -, hout⟩ := (mem_trace_iff _).1 hx
  have hreport : (process cfg (runState (switchStep cfg) regs pre) p).report = some r := hout
  by_cases hp : p.IsUdp
  · obtain ⟨-, rfl⟩ := report_eq_windowReport hp hreport
    exact (hdiv.countsUpTo hnb hmax).shortFile _
  · rw [(process_of_not_isUdp cfg _ hp).2] at hreport
    exact absurd hreport (by simp)

/-- Three packets in a window, with a file for the counts one and two. -/
theorem reports_short_file_three_packets :
    ∃ t, DivideFromFile 2 t ∧ ∀ r ∈ reports (trace (switchStep ⟨fun _ _ => 0, t⟩) Registers.zero
      [download 1000, download 2000, download 3000, download 40000]), ShortFile 2 r.features := by
  have hone : 1 ≤ 2 := by decide
  obtain ⟨text, t, htext, hload, -⟩ := divisionTables_of_outCsv hone (by decide)
    (le_refl 6) (t := Tables.empty) fun _ => rfl
  have hdiv : DivideFromFile 2 t :=
    ⟨6, text, Tables.empty, t, le_rfl, htext, fun _ => rfl, hload, rfl⟩
  exact ⟨t, hdiv, reports_short_file (by decide) (by decide) hdiv _ _⟩

end FlowClassifier
