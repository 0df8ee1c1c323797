import FlowClassifier.Properties.Classifier
import FlowClassifier.Properties.LogDecoder
import FlowClassifier.Properties.OnTheWire
import FlowClassifier.Properties.WindowedFold

/-!
# The system, end to end

The switch as `main.py` starts it, between the frames that come in and the two things that come out.

The frames go on: one with a living IPv4 header leaves on one of the three ports, towards the host
it is for or else clockwise, with the Ethernet address of that host (`sent_started`).

The verdicts go through the log into the file that `FtsFromLog.sh` leaves.  For every index, that
file has one line for each closed window of the packets there, in order, with the features of the
window and with the class that the trained tree gives these features; the percentage is the share of
these windows that the tree takes for cloud gaming, and the graphs are those of their features
(`csv_of_frames`).
-/

namespace FlowClassifier

open Mealy Windows Bits

variable {tree : Tree} {t : Tables} {hash : BitVec 32 → BitVec 32 → Fin 1024}

/-! ## The frames -/

/-- Where the topology sends a destination: the Ethernet address and the port. -/
def route (dst : BitVec 32) : BitVec 48 × BitVec 9 :=
  if dst = ply then (1, 1) else if dst = srv then (2, 2) else if dst = oth then (3, 3) else (0, 2)

lemma ipv4LpmLookup_installed (ht : Installed tree t) (dst : BitVec 32) :
    ipv4LpmLookup t dst = .ipv4Forward (route dst).1 (route dst).2 := by
  rw [ipv4LpmLookup, ht.ipv4Lpm, ht.ipv4LpmDefault, route]
  by_cases h1 : dst = ply
  · simp [h1]
  · by_cases h2 : dst = srv
    · simp [h2, ply, srv]
    · by_cases h3 : dst = oth
      · simp [h3, ply, srv, oth]
      · simp [Ne.symm h1, Ne.symm h2, Ne.symm h3, h1, h2, h3]

lemma route_port (dst : BitVec 32) :
    (route dst).2 = 1 ∨ (route dst).2 = 2 ∨ (route dst).2 = 3 := by
  unfold route
  split
  · exact .inl rfl
  · split
    · exact .inr (.inl rfl)
    · split
      · exact .inr (.inr rfl)
      · exact .inr (.inl rfl)

/-- **What the started switch sends.**  A frame from a host with an IPv4 header and some `ttl` left
leaves once, on the port of the host it is for, addressed to that host, with a `ttl` one less and a
new checksum; any other frame leaves on port 0. -/
theorem sent_started (h : tree.InRange) (ht : Started tree t) (target : Target) (regs : Registers)
    {f : Frame} (hport : f.ingressPort ≠ cpuPort) :
    let ip := f.parse.hdr.ipv4
    let dest := route ip.dstAddr
    Pipeline.sent target ⟨hash, t⟩ regs f =
      if ip.isValid = true ∧ ip.ttl > 0 then
        [(dest.2, checksummed
          (splice 22 [ip.ttl - 1] (splice 0 (octets dest.1 ++ f.bytes.take 6) f.bytes)))]
      else [(0, if ip.isValid then checksummed f.bytes else f.bytes)] := by
  intro ip dest
  have hlookup : ipv4LpmLookup t f.parse.hdr.ipv4.dstAddr = .ipv4Forward dest.1 dest.2 :=
    ipv4LpmLookup_installed (ht.installed h) _
  have hbody : f.body = f.bytes := if_neg fun hcpu => hport hcpu.1
  have hcopies : Pipeline.sent target ⟨hash, t⟩ regs f =
      (f.ports target t).map fun port => (port, f.copy target t port) := by
    rw [Pipeline.sent, egressPorts_ingressState]
    exact List.map_congr_left fun port _ =>
      congrArg (Prod.mk port) (out_eq target ⟨hash, t⟩ regs f port)
  rw [hcopies]
  by_cases hip : ip.isValid = true ∧ ip.ttl > 0
  · -- the lookup always finds a port, and never the one that drops or the controller's
    have hdest : dest.2 ≠ dropPort ∧ dest.2 ≠ cpuPort := by
      have hcases : dest.2 = 1 ∨ dest.2 = 2 ∨ dest.2 = 3 := route_port _
      rcases hcases with h1 | h1 | h1 <;>
      · rw [h1]
        decide
    have hports : f.ports target t = [dest.2] := by
      rw [Frame.ports, if_pos hip, if_neg hport, hlookup]
      exact if_neg hdest.1
    have hforwarded : f.forwarded t =
        splice 22 [ip.ttl - 1] (splice 0 (octets dest.1 ++ f.bytes.take 6) f.bytes) := by
      rw [Frame.forwarded, if_pos ⟨hport, hip.2⟩, hlookup, hbody]
    rw [if_pos hip, hports, List.map_singleton, Frame.copy, if_neg hdest.2, List.nil_append,
      if_pos hip.1, hforwarded]
  · have hports : f.ports target t = [0] := by rw [Frame.ports, if_neg hip]
    have hzero : (0 : BitVec 9) ≠ cpuPort := by decide
    have hforwarded : ip.isValid = true → f.forwarded t = f.bytes := by
      intro hvalid
      rw [Frame.forwarded, if_neg fun hlive => hip ⟨hvalid, hlive.2⟩, hbody]
    rw [if_neg hip, hports, List.map_singleton, Frame.copy, if_neg hzero, List.nil_append, hbody]
    by_cases hvalid : ip.isValid = true
    · rw [if_pos hvalid, if_pos hvalid, hforwarded hvalid]
    · rw [if_neg hvalid, if_neg hvalid]

/-- A datagram from port 1 for another network. -/
theorem sent_started_clockwise :
    ∃ t, Started (oneTestTree 0) t ∧
      let f := udpFrame 5 32 [0x0F, 0xA0, 0x13, 0x88, 0, 12, 0, 0, 1, 2, 3, 4]
      let ip := f.parse.hdr.ipv4
      let dest := route ip.dstAddr
      Pipeline.sent Target.zero ⟨fun _ _ => 0, t⟩ Registers.zero f =
        if ip.isValid = true ∧ ip.ttl > 0 then
          [(dest.2, checksummed
            (splice 22 [ip.ttl - 1] (splice 0 (octets dest.1 ++ f.bytes.take 6) f.bytes)))]
        else [(0, if ip.isValid then checksummed f.bytes else f.bytes)] := by
  obtain ⟨t, ht⟩ := exists_started trained_oneTestTree.inRange (by decide)
  have hport : (udpFrame 5 32
      [0x0F, 0xA0, 0x13, 0x88, 0, 12, 0, 0, 1, 2, 3, 4]).ingressPort ≠ cpuPort := by decide
  exact ⟨t, ht, sent_started trained_oneTestTree.inRange ht Target.zero Registers.zero hport⟩

/-! ## The verdicts -/

/-- The closed windows of the packets that some frames bring to an index. -/
def windowsOf (cfg : Config) (fs : List Frame) (i : Fin 1024) : List (List Packet) :=
  (cut sameWindow (packetsAt cfg i (accounted (fs.map Frame.parse)))).closed.map Prod.fst

lemma idf_eq_iff (r : Report) (i : Fin 1024) : r.idf = Nat.toDigits 10 i ↔ r.index = i := by
  constructor
  · intro heq
    have hread := congrArg Text.readNat heq
    rw [Report.idf, Text.readNat_toDigits, Text.readNat_toDigits] at hread
    exact Fin.ext (Option.some.inj hread)
  · rintro rfl
    rfl

lemma reportsAt_frames (cfg : Config) {fs : List Frame} (i : Fin 1024)
    (hpos : ∀ p ∈ accounted (fs.map Frame.parse), p.time ≠ 0)
    (hmono : (accounted (fs.map Frame.parse)).Pairwise fun p q => p.time ≤ q.time) :
    ofIdf (Nat.toDigits 10 i) (reports (switchTrace cfg (fs.map Frame.parse))) =
      windowReports cfg.tables i (windowsOf cfg fs i) := by
  have hudp : ∀ p ∈ accounted (fs.map Frame.parse), p.IsUdp := fun p hp => (mem_accounted.1 hp).2
  have hfilter : ofIdf (Nat.toDigits 10 i)
      (reports (switchTrace cfg (accounted (fs.map Frame.parse)))) =
        reportsAt i (switchTrace cfg (accounted (fs.map Frame.parse))) :=
    List.filter_congr fun r _ => decide_eq_decide.2 (idf_eq_iff r i)
  rw [← reports_accounted, hfilter, switchTrace, reportsAt_trace]
  exact reports_eq_windowReports (index_refines_windows cfg i hudp hpos hmono).2

/-- What the scripts make of the windows of one identifier. -/
structure Decoded (tree : Tree) (rs : List Report) (csv : List Char) : Prop where
  lines : csv = csvOf rs
  sound : ∀ r ∈ rs, r.Sound tree
  percentage : ∀ awk, percentAwk awk csv =
    let games := rs.countP fun r => tree.predict (featSeen (featKey r.features))
    if rs = [] then percentEnd awk 0 0 else some ⟨some (games / rs.length), rs.length, games⟩
  graphs : getGraphs csv = some (graphsOf rs)

lemma nbCG_of_sound {rs : List Report} (h : ∀ r ∈ rs, r.Sound tree) :
    nbCG rs = rs.countP fun r => tree.predict (featSeen (featKey r.features)) := by
  refine List.countP_congr fun r hr => ?_
  rw [(h r hr).verdict]
  cases tree.predict (featSeen (featKey r.features)) <;> decide

/-- **From the frames to the file.**  A switch is started with the files of a trained tree, takes in
frames with increasing non-zero arrival times, whatever else passes, and logs its debug writes.  For
every index, the scripts find in that log the closed windows of the packets there, with what the
tree says about each. -/
theorem csv_of_frames (h : tree.Trained) (ht : Started tree t) {fs : List Frame}
    (hpos : ∀ p ∈ accounted (fs.map Frame.parse), p.time ≠ 0)
    (hmono : (accounted (fs.map Frame.parse)).Pairwise fun p q => p.time ≤ q.time)
    {grep : List Char → List Char → Bool} (hgrep : Grep.GrepSpec grep) {log : List Char}
    (hlog : LogsWrites log (runLog ⟨hash, t⟩ Registers.zero (fs.map Frame.parse)))
    (i : Fin 1024) :
    Decoded tree (windowReports t i (windowsOf ⟨hash, t⟩ fs i))
      (filOutTemp grep (Nat.toDigits 10 i) (filOut grep log)) := by
  rw [runLog_eq] at hlog
  have hdigits : ∀ c ∈ Nat.toDigits 10 i, c.isDigit := fun c hc =>
    Nat.isDigit_of_mem_toDigits (by decide) (by decide) hc
  have hreports := reportsAt_frames ⟨hash, t⟩ i hpos hmono
  have hlines : filOutTemp grep (Nat.toDigits 10 i) (filOut grep log) =
      csvOf (windowReports t i (windowsOf ⟨hash, t⟩ fs i)) := by
    rw [filOut_of_logsWrites hgrep hlog, filOutTemp_csvOf hgrep hdigits]
    exact congrArg csvOf hreports
  have hsound : ∀ r ∈ windowReports t i (windowsOf ⟨hash, t⟩ fs i), r.Sound tree := by
    intro r hr
    rw [← hreports] at hr
    exact sound_of_mem_reports h (ht.installed h.inRange) (List.mem_of_mem_filter hr)
  rw [hlines]
  refine ⟨rfl, hsound, ?_, getGraphs_csvOf _⟩
  intro awk
  rw [percentAwk_csvOf, percentageOf, nbCG_of_sound hsound]

/-- Two datagrams, 39 ms apart. -/
theorem csv_of_frames_one_window :
    ∃ t, Started (oneTestTree 0) t ∧
      let f := udpFrame 5 32 [0x0F, 0xA0, 0x13, 0x88, 0, 12, 0, 0, 1, 2, 3, 4]
      let fs := [{ f with timestamp := 1000 }, { f with timestamp := 40000 }]
      let cfg : Config := ⟨fun _ _ => 7, t⟩
      Decoded (oneTestTree 0) (windowReports t 7 (windowsOf cfg fs 7))
        (filOutTemp Grep.plainGrep (Nat.toDigits 10 7) (filOut Grep.plainGrep
          (logText (runLog cfg Registers.zero (fs.map Frame.parse))))) := by
  obtain ⟨t, ht⟩ := exists_started trained_oneTestTree.inRange (by decide)
  refine ⟨t, ht, ?_⟩
  intro f fs cfg
  have hpos : ∀ p ∈ accounted (fs.map Frame.parse), p.time ≠ 0 := by decide +kernel
  have hmono : (accounted (fs.map Frame.parse)).Pairwise fun p q => p.time ≤ q.time := by
    decide +kernel
  exact csv_of_frames trained_oneTestTree ht hpos hmono Grep.grepSpec_plainGrep
    (logsWrites_logText _) 7

end FlowClassifier
