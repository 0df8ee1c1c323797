import FlowClassifier.Properties.OnTheWire
import FlowClassifier.Properties.TimeShift
import FlowClassifier.Properties.View

/-!
# Anywhere on the path

What a switch sends, another switch of the same program can take in.  A copy is parsed to the
headers that were written (`parse_out`): those of the frame, except for the Ethernet addresses, the
`ttl` and the checksum, none of which the classifier sees.  So a classifier behind any number of
switches, on links of constant delay, reports the same windows as one in front of them on the
frames that come all the way, as long as their `ttl` lasts (`reports_path`).  It does not last for
ever: nothing comes to the end of a path that is longer than every `ttl` (`path_eq_nil`).
-/

namespace FlowClassifier

open Mealy Bits

/-! ## A copy is parsed -/

/-- Another Ethernet and another IPv4 header that lead the parser the same way. -/
lemma Parsed.rewrite {base hdr : AllHeaders} {payload : List Bool} (h : Parsed base hdr payload)
    (hbase : base.ipv4.isValid = false) (hvalid : hdr.ipv4.isValid = true) (e : Ethernet)
    (he : e.isValid = true) (htype : e.etherType = hdr.ethernet.etherType) (ip : Ipv4)
    (hip : ip.isValid = true) (hproto : ip.protocol = hdr.ipv4.protocol) :
    Parsed base { hdr with ethernet := e, ipv4 := ip } payload := by
  cases h with
  | tooShort hlen => simp [hbase] at hvalid
  | notIpv4 he' htype' => simp [hbase] at hvalid
  | tooShortIpv4 he' htype' hlen => simp [hbase] at hvalid
  | ipv4 he' htype' hip' htcp hudp =>
      exact .ipv4 he (htype.trans htype') hip (hproto ▸ htcp) (hproto ▸ hudp)
  | tooShortTcp he' htype' hip' htcp hlen =>
      exact .tooShortTcp he (htype.trans htype') hip (hproto.trans htcp) hlen
  | tcp he' htype' hip' htcp hv =>
      exact .tcp he (htype.trans htype') hip (hproto.trans htcp) hv
  | tooShortUdp he' htype' hip' hudp hlen =>
      exact .tooShortUdp he (htype.trans htype') hip (hproto.trans hudp) hlen
  | udp he' htype' hip' hudp hv =>
      exact .udp he (htype.trans htype') hip (hproto.trans hudp) hv

lemma length_deparse (hdr : AllHeaders) : ∃ n, (Pipeline.deparse hdr).length = 8 * n := by
  have hethernet : ∃ n, hdr.ethernet.emit.length = 8 * n := by
    unfold Ethernet.emit
    split
    · exact ⟨14, by simp⟩
    · exact ⟨0, rfl⟩
  have hipv4 : ∃ n, hdr.ipv4.emit.length = 8 * n := by
    unfold Ipv4.emit
    split
    · exact ⟨20, by simp⟩
    · exact ⟨0, rfl⟩
  have htcp : ∃ n, hdr.tcp.emit.length = 8 * n := by
    unfold Tcp.emit
    split
    · exact ⟨20, by simp⟩
    · exact ⟨0, rfl⟩
  have hudp : ∃ n, hdr.udp.emit.length = 8 * n := by
    unfold Udp.emit
    split
    · exact ⟨8, by simp⟩
    · exact ⟨0, rfl⟩
  have hpacketIn : ∃ n, hdr.packetIn.emit.length = 8 * n := by
    unfold PacketIn.emit
    split
    · exact ⟨33, by simp⟩
    · exact ⟨0, rfl⟩
  obtain ⟨a, ha⟩ := hpacketIn
  obtain ⟨b, hb⟩ := hethernet
  obtain ⟨c, hc⟩ := hipv4
  obtain ⟨d, hd⟩ := htcp
  obtain ⟨e, he⟩ := hudp
  refine ⟨a + b + c + d + e, ?_⟩
  simp only [Pipeline.deparse, List.length_append, ha, hb, hc, hd, he]
  omega

section Copy

variable (target : Target) (cfg : Config) (regs : Registers) {f g : Frame}

/-- The headers that are written into a copy for a host. -/
def Frame.written (f : Frame) : AllHeaders :=
  Pipeline.computeCk { (Pipeline.parse target f).hdr with
    toHeaders := (Pipeline.ingressState target cfg regs f).hdr }

lemma parsed_written (hport : f.ingressPort ≠ cpuPort) :
    Parsed target.headers (f.written target cfg regs) (Pipeline.parse target f).packet := by
  have hparsed := parsed_parse target hport
  have hold := Pipeline.toHeaders_parse target f
  have hbase : target.headers.ipv4.isValid = false := (blank_headers target).ipv4
  obtain ⟨hudp, hpacketOut, hcases⟩ := hdr_ingressState_cases target cfg regs f
  unfold Frame.written
  generalize (Pipeline.ingressState target cfg regs f).hdr = new at hudp hpacketOut hcases
  generalize Pipeline.parse target f = s at hparsed hold
  obtain ⟨⟨hdr, packetIn, tcp⟩, metadata, payload⟩ := s
  rw [← hold] at hudp hpacketOut hcases
  obtain ⟨npo, ne, nip, nudp⟩ := new
  have hpo := hpacketOut hport
  dsimp only at hpo hudp hcases hparsed ⊢
  subst hpo hudp
  by_cases hvalid : hdr.ipv4.isValid = true
  · have he := hparsed.ethernet_of_ipv4 hbase hvalid
    rcases hcases with ⟨rfl, rfl, -⟩ | ⟨dst, -, -, rfl, rfl, -⟩
    · rw [Pipeline.computeCk, if_pos hvalid]
      exact hparsed.rewrite hbase hvalid hdr.ethernet he rfl { hdr.ipv4 with hdrChecksum := _ }
        hvalid rfl
    · rw [Pipeline.computeCk, if_pos hvalid]
      exact hparsed.rewrite hbase hvalid
        { hdr.ethernet with srcAddr := hdr.ethernet.dstAddr, dstAddr := dst } he rfl
        { hdr.ipv4 with ttl := hdr.ipv4.ttl - 1, hdrChecksum := _ } hvalid rfl
  · rcases hcases with ⟨rfl, rfl, -⟩ | ⟨dst, hv, -⟩
    · rw [Pipeline.computeCk, if_neg hvalid]
      exact hparsed
    · exact absurd hv hvalid

/-- **A copy is parsed as it was written**, and the payload is left. -/
theorem parse_out (hport : f.ingressPort ≠ cpuPort) {port : BitVec 9} (hout : port ≠ cpuPort)
    (hg : g.bytes = Pipeline.out target cfg regs f port) (hgport : g.ingressPort ≠ cpuPort) :
    (Pipeline.parse target g).hdr = f.written target cfg regs ∧
      (Pipeline.parse target g).packet = (Pipeline.parse target f).packet := by
  have hparsed := parsed_written target cfg regs hport
  obtain ⟨n, hn⟩ : ∃ n, (Pipeline.deparse (f.written target cfg regs) ++
      (Pipeline.parse target f).packet).length = 8 * n := by
    obtain ⟨-, -, -, -, hbits⟩ := exists_parsed_parse target f
    have hlen := congrArg List.length hbits
    obtain ⟨a, ha⟩ := length_deparse (Pipeline.parse target f).hdr
    obtain ⟨b, hb⟩ := length_deparse (f.written target cfg regs)
    rw [List.length_append, length_ofBytes, ha] at hlen
    refine ⟨b + (f.body.length - a), ?_⟩
    rw [List.length_append, hb]
    omega
  have hegress : Pipeline.out target cfg regs f port =
      toBytes (Pipeline.deparse (f.written target cfg regs) ++
        (Pipeline.parse target f).packet) := by
    simp only [Pipeline.out, Pipeline.packetioEgress, if_neg hout]
    rfl
  have hbits : g.bits = Pipeline.deparse (f.written target cfg regs) ++
      (Pipeline.parse target f).packet := by
    have hbytes : g.bits = ofBytes g.bytes := rfl
    rw [hbytes, hg, hegress, ofBytes_toBytes hn]
  have hgbytes : ofBytes g.bytes = g.bits := rfl
  rw [parse_of_ne_cpuPort target hgport, hgbytes, hbits]
  exact parseEthernet_deparse (blank_headers target) .zero hparsed

/-- The IPv4 header of a copy is that after the ingress control, with another checksum. -/
lemma ipv4_copy (hport : f.ingressPort ≠ cpuPort) {port : BitVec 9} (hout : port ≠ cpuPort)
    (hg : g.bytes = Pipeline.out target cfg regs f port) (hgport : g.ingressPort ≠ cpuPort) :
    ∃ ck, g.parse.hdr.ipv4 =
      { (Pipeline.ingressState target cfg regs f).hdr.ipv4 with hdrChecksum := ck } := by
  have hparse := (parse_out target cfg regs hport hout hg hgport).1
  rw [← Pipeline.toHeaders_parse target g, hparse]
  unfold Frame.written Pipeline.computeCk
  split
  · exact ⟨_, rfl⟩
  · exact ⟨_, rfl⟩

/-- Of what the classifier sees, a copy keeps all but the `ttl`, which is at most one less. -/
lemma parse_copy (hport : f.ingressPort ≠ cpuPort) {port : BitVec 9} (hout : port ≠ cpuPort)
    (hg : g.bytes = Pipeline.out target cfg regs f port) (hgport : g.ingressPort ≠ cpuPort) :
    g.parse.hdr.udp = f.parse.hdr.udp ∧
      ∃ ttl ck, g.parse.hdr.ipv4 = { f.parse.hdr.ipv4 with ttl := ttl, hdrChecksum := ck } ∧
        (ttl = f.parse.hdr.ipv4.ttl ∨
          f.parse.hdr.ipv4.ttl > 0 ∧ ttl = f.parse.hdr.ipv4.ttl - 1) := by
  obtain ⟨ck, hip⟩ := ipv4_copy target cfg regs hport hout hg hgport
  obtain ⟨hudp, -, hcases⟩ := hdr_ingressState_cases target cfg regs f
  have hparse := (parse_out target cfg regs hport hout hg hgport).1
  have hwritten : g.parse.hdr.udp = (Pipeline.ingressState target cfg regs f).hdr.udp := by
    rw [← Pipeline.toHeaders_parse target g, hparse]
    unfold Frame.written Pipeline.computeCk
    split <;> rfl
  refine ⟨hwritten.trans hudp, ?_⟩
  rcases hcases with ⟨-, hi, -⟩ | ⟨dst, -, httl, -, hi, -⟩
  · exact ⟨f.parse.hdr.ipv4.ttl, ck, by rw [hip, hi], .inl rfl⟩
  · exact ⟨f.parse.hdr.ipv4.ttl - 1, ck, by rw [hip, hi], .inr ⟨httl, rfl⟩⟩

end Copy

/-! ## Hops -/

/-- A switch on the path, and the link behind one of its ports to the next switch. -/
structure Hop where
  target : Target
  cfg : Config
  out : BitVec 9
  inPort : BitVec 9
  delay : BitVec 48
  out_ne : out ≠ 0 ∧ out ≠ cpuPort ∧ out ≠ dropPort
  inPort_ne : inPort ≠ cpuPort

namespace Hop

/-- The copies of a frame on the link. -/
def copies (h : Hop) (regs : Registers) (f : Frame) : List Frame :=
  ((Pipeline.sent h.target h.cfg regs f).filter fun x => x.1 = h.out).map fun x =>
    ⟨x.2, h.inPort, f.timestamp + h.delay⟩

/-- What arrives at the next switch when some frames come in. -/
def link (h : Hop) : Registers → List Frame → List Frame
  | _, [] => []
  | regs, f :: fs =>
      h.copies regs f ++ h.link (Pipeline.ingressState h.target h.cfg regs f).regs fs

/-- Does the switch send a destination to the link? -/
def routes (h : Hop) (dst : BitVec 32) : Bool :=
  match ipv4LpmLookup h.cfg.tables dst with
  | .ipv4Forward _ port => port = h.out
  | .drop => false
  | .noAction => false

end Hop

/-- What arrives at the end of a path whose switches have just been started. -/
def path : List Hop → List Frame → List Frame
  | [], fs => fs
  | h :: hs, fs => path hs (h.link Registers.zero fs)

/-- The delay of a path. -/
def pathDelay (hs : List Hop) : BitVec 48 := (hs.map Hop.delay).sum

/-- Does every switch on the path send a destination on? -/
def pathRoutes (hs : List Hop) (dst : BitVec 32) : Bool := hs.all fun h => h.routes dst

/-- The same view, later. -/
def View.later (δ : BitVec 48) (v : View) : View := { v with time := v.time + δ }

/-- The views of the frames. -/
def viewsOf (fs : List Frame) : List View := (fs.map Frame.parse).filterMap Packet.view

section Views

lemma viewsOf_cons (f : Frame) (fs : List Frame) :
    viewsOf (f :: fs) = f.parse.view.toList ++ viewsOf fs := by
  unfold viewsOf
  rw [List.map_cons]
  cases hv : f.parse.view with
  | none => rw [List.filterMap_cons_none hv]; rfl
  | some v => rw [List.filterMap_cons_some hv]; rfl

lemma viewsOf_append (fs gs : List Frame) : viewsOf (fs ++ gs) = viewsOf fs ++ viewsOf gs := by
  rw [viewsOf, viewsOf, viewsOf, List.map_append, List.filterMap_append]

variable (h : Hop) (regs : Registers) {f : Frame}

/-- A frame is copied to the link once, or not at all. -/
lemma copies_eq (hport : f.ingressPort ≠ cpuPort) :
    h.copies regs f =
      if (f.parse.hdr.ipv4.isValid = true ∧ f.parse.hdr.ipv4.ttl > 0) ∧
          h.routes f.parse.hdr.ipv4.dstAddr = true then
        [⟨Pipeline.out h.target h.cfg regs f h.out, h.inPort, f.timestamp + h.delay⟩]
      else [] := by
  obtain ⟨hzero, -, hdrop⟩ := h.out_ne
  have hnone : ∀ port : BitVec 9, port ≠ h.out → ([port].filter fun p => p = h.out) = [] :=
    fun port hne => List.filter_eq_nil_iff.2 (by simpa using hne)
  have hcopies : h.copies regs f =
      ((f.ports h.target h.cfg.tables).filter fun port => port = h.out).map fun port =>
        ⟨Pipeline.out h.target h.cfg regs f port, h.inPort, f.timestamp + h.delay⟩ := by
    rw [Hop.copies, Pipeline.sent, egressPorts_ingressState, List.filter_map, List.map_map]
    rfl
  rw [hcopies]
  by_cases hip : f.parse.hdr.ipv4.isValid = true ∧ f.parse.hdr.ipv4.ttl > 0
  · rw [Frame.ports, if_pos hip, if_neg hport, Hop.routes]
    cases ipv4LpmLookup h.cfg.tables f.parse.hdr.ipv4.dstAddr with
    | ipv4Forward mac port =>
        dsimp only
        by_cases hout : port = h.out
        · have hkeep : ([h.out].filter fun p => p = h.out) = [h.out] := by simp
          rw [hout, if_neg hdrop, if_pos ⟨hip, decide_eq_true rfl⟩, hkeep]
          rfl
        · have hnot : ¬ ((f.parse.hdr.ipv4.isValid = true ∧ f.parse.hdr.ipv4.ttl > 0) ∧
              decide (port = h.out) = true) := fun hc => hout (of_decide_eq_true hc.2)
          rw [if_neg hnot]
          split
          · rfl
          · rw [hnone port hout]
            rfl
    | drop => rw [hnone 0 hzero.symm, if_neg fun hc => Bool.false_ne_true hc.2]; rfl
    | noAction => rw [hnone 0 hzero.symm, if_neg fun hc => Bool.false_ne_true hc.2]; rfl
  · rw [Frame.ports, if_neg hip, if_neg (fun hc => hip hc.1), hnone 0 hzero.symm]
    rfl

lemma view_copy {n : ℕ} (hport : f.ingressPort ≠ cpuPort)
    (httl : f.parse.IsUdp → n + 1 < f.parse.hdr.ipv4.ttl.toNat) :
    let g : Frame := ⟨Pipeline.out h.target h.cfg regs f h.out, h.inPort, f.timestamp + h.delay⟩
    g.parse.view = f.parse.view.map (View.later h.delay) ∧
      (g.parse.IsUdp → n < g.parse.hdr.ipv4.ttl.toNat) := by
  intro g
  obtain ⟨hudp, ttl, ck, hip, httl'⟩ :=
    parse_copy h.target h.cfg regs (g := g) hport h.out_ne.2.1 rfl h.inPort_ne
  by_cases hp : f.parse.IsUdp
  · have hlarge : n < ttl.toNat := by
      have hn := httl hp
      rcases httl' with rfl | ⟨-, rfl⟩
      · omega
      · have hone : (1 : BitVec 8).toNat ≤ f.parse.hdr.ipv4.ttl.toNat := hp.2.1
        rw [BitVec.toNat_sub_of_le hone]
        have h1 : (1 : BitVec 8).toNat = 1 := rfl
        omega
    have hg : g.parse.IsUdp := by
      refine ⟨by rw [hip]; exact hp.1, ?_, by rw [hudp]; exact hp.2.2⟩
      rw [hip]
      show (0 : BitVec 8) < ttl
      rw [BitVec.lt_def]
      exact Nat.lt_of_le_of_lt (Nat.zero_le n) hlarge
    refine ⟨?_, fun _ => by rw [hip]; exact hlarge⟩
    rw [view_of_isUdp hg, view_of_isUdp hp, Option.map_some]
    simp only [View.of, Packet.src, Packet.dst, hip]
    rfl
  · -- A packet that is not accounted does not become one.
    have hg : ¬ g.parse.IsUdp := by
      rintro ⟨hvalid, hpos, hv⟩
      rw [hip] at hvalid hpos
      rw [hudp] at hv
      refine hp ⟨hvalid, ?_, hv⟩
      rcases httl' with rfl | ⟨hfpos, -⟩
      · exact hpos
      · exact hfpos
    rw [view_of_not_isUdp hp, view_of_not_isUdp hg]
    exact ⟨rfl, fun hc => absurd hc hg⟩

lemma views_copies {n : ℕ} (hport : f.ingressPort ≠ cpuPort)
    (httl : f.parse.IsUdp → n + 1 < f.parse.hdr.ipv4.ttl.toNat) :
    (∀ g ∈ h.copies regs f, g.ingressPort ≠ cpuPort ∧
        (g.parse.IsUdp → n < g.parse.hdr.ipv4.ttl.toNat)) ∧
      viewsOf (h.copies regs f) =
        (f.parse.view.toList.filter fun v => h.routes v.dst).map (View.later h.delay) := by
  obtain ⟨hview, hlarge⟩ := view_copy h regs hport httl
  rw [copies_eq h regs hport]
  constructor
  · intro g hg
    split at hg
    · obtain rfl := List.mem_singleton.1 hg
      exact ⟨h.inPort_ne, hlarge⟩
    · exact absurd hg List.not_mem_nil
  · by_cases hp : f.parse.IsUdp
    · rw [view_of_isUdp hp] at hview ⊢
      by_cases hr : h.routes f.parse.hdr.ipv4.dstAddr = true
      · have hkeep : h.routes (View.of f.parse).dst = true := hr
        rw [if_pos ⟨⟨hp.1, hp.2.1⟩, hr⟩, viewsOf_cons, hview, Option.map_some, Option.toList_some,
          Option.toList_some, List.filter_cons_of_pos (by simpa using hkeep)]
        rfl
      · have hkeep : ¬ h.routes (View.of f.parse).dst = true := hr
        rw [if_neg fun hc => hr hc.2, Option.toList_some,
          List.filter_cons_of_neg (by simpa using hkeep)]
        rfl
    · rw [view_of_not_isUdp hp] at hview ⊢
      split
      · rw [viewsOf_cons, hview]
        rfl
      · rfl

lemma views_link {n : ℕ} {fs : List Frame} (hport : ∀ f ∈ fs, f.ingressPort ≠ cpuPort)
    (httl : ∀ f ∈ fs, f.parse.IsUdp → n + 1 < f.parse.hdr.ipv4.ttl.toNat) :
    (∀ g ∈ h.link regs fs, g.ingressPort ≠ cpuPort ∧
        (g.parse.IsUdp → n < g.parse.hdr.ipv4.ttl.toNat)) ∧
      viewsOf (h.link regs fs) =
        ((viewsOf fs).filter fun v => h.routes v.dst).map (View.later h.delay) := by
  induction fs generalizing regs with
  | nil => exact ⟨fun g hg => absurd hg List.not_mem_nil, rfl⟩
  | cons f fs ih =>
      obtain ⟨hone, hview⟩ := views_copies h regs (hport f (List.mem_cons_self ..))
        (httl f (List.mem_cons_self ..))
      obtain ⟨hrest, hviews⟩ := ih (Pipeline.ingressState h.target h.cfg regs f).regs
        (fun g hg => hport g (List.mem_cons_of_mem _ hg))
        fun g hg => httl g (List.mem_cons_of_mem _ hg)
      rw [Hop.link]
      refine ⟨fun g hg => ?_, ?_⟩
      · rcases List.mem_append.1 hg with hg | hg
        · exact hone g hg
        · exact hrest g hg
      · rw [viewsOf_append, hview, hviews, viewsOf_cons, List.filter_append, List.map_append]

end Views

/-- What a classifier at the end of a path sees. -/
lemma views_path (hs : List Hop) {fs : List Frame} (hport : ∀ f ∈ fs, f.ingressPort ≠ cpuPort)
    (httl : ∀ f ∈ fs, f.parse.IsUdp → hs.length < f.parse.hdr.ipv4.ttl.toNat) :
    viewsOf (path hs fs) =
      ((viewsOf fs).filter fun v => pathRoutes hs v.dst).map (View.later (pathDelay hs)) := by
  induction hs generalizing fs with
  | nil =>
      have hlater : View.later (pathDelay []) = id := by
        funext v
        simp [View.later, pathDelay]
      rw [hlater, List.map_id, path]
      exact (List.filter_eq_self.2 fun _ _ => rfl).symm
  | cons h hs ih =>
      obtain ⟨hnext, hviews⟩ := views_link h Registers.zero hport httl
      have hrest := ih (fun g hg => (hnext g hg).1) fun g hg => (hnext g hg).2
      have hlater : View.later (pathDelay hs) ∘ View.later h.delay =
          View.later (pathDelay (h :: hs)) := by
        funext v
        simp [View.later, pathDelay, BitVec.add_assoc]
      rw [path, hrest, hviews, List.filter_map, List.map_map, List.filter_filter, hlater]
      congr 1
      refine List.filter_congr fun v _ => ?_
      rw [Bool.and_comm]
      rfl

lemma filterMap_view_filter (q : BitVec 32 → Bool) (ps : List Packet) :
    (ps.filter fun p => q p.dst).filterMap Packet.view =
      (ps.filterMap Packet.view).filter fun v => q v.dst := by
  rw [filterMap_view, filterMap_view, List.filter_map, accounted, accounted, List.filter_filter,
    List.filter_filter]
  congr 1
  refine List.filter_congr fun p _ => ?_
  exact Bool.and_comm ..

/-- **Anywhere on the path.**  A classifier behind some switches reports the windows that it would
report in front of them, on the frames whose destination they send on, when the links have constant
delays, no `ttl` runs out and no datagram arrives at time zero, in front of them or behind. -/
theorem reports_path (cfg : Config) (hs : List Hop) {fs : List Frame}
    (hport : ∀ f ∈ fs, f.ingressPort ≠ cpuPort)
    (httl : ∀ f ∈ fs, f.parse.IsUdp → hs.length < f.parse.hdr.ipv4.ttl.toNat)
    (htimes : ∀ f ∈ fs, f.parse.IsUdp → OnBothClocks (pathDelay hs) f.timestamp) :
    reports (switchTrace cfg ((path hs fs).map Frame.parse)) =
      reports (switchTrace cfg
        ((fs.map Frame.parse).filter fun p => pathRoutes hs p.dst)) := by
  set ps := (fs.map Frame.parse).filter fun p => pathRoutes hs p.dst with hps
  set vs := ps.filterMap Packet.view with hvs
  have hviews : ((path hs fs).map Frame.parse).filterMap Packet.view =
      vs.map (View.later (pathDelay hs)) := by
    rw [hvs, hps, filterMap_view_filter]
    exact views_path hs hport httl
  have hshift : (vs.map (View.later (pathDelay hs))).map View.packet =
      (vs.map View.packet).map (Packet.shift (pathDelay hs)) := by
    rw [List.map_map, List.map_map]
    rfl
  have hclocks : ∀ p ∈ vs.map View.packet, p.IsUdp → OnBothClocks (pathDelay hs) p.time := by
    intro p hp _
    rw [hvs, filterMap_view, List.map_map] at hp
    obtain ⟨q, hq, rfl⟩ := List.mem_map.1 hp
    obtain ⟨hqps, hqudp⟩ := mem_accounted.1 hq
    obtain ⟨f, hf, rfl⟩ := List.mem_map.1 (List.mem_of_mem_filter hqps)
    exact htimes f hf hqudp
  calc reports (switchTrace cfg ((path hs fs).map Frame.parse))
      = reports (switchTrace cfg ((vs.map View.packet).map (Packet.shift (pathDelay hs)))) := by
        rw [← (run_views cfg _).2, hviews, hshift]
    _ = reports (switchTrace cfg (vs.map View.packet)) := by
        rw [(switchTrace_shift cfg _ hclocks).2, reports_map_shift]
    _ = reports (switchTrace cfg ps) := (run_views cfg ps).2

/-- Two datagrams behind two switches, 39 ms apart. -/
theorem reports_path_two_hops :
    let cfg : Config := ⟨fun _ _ => 0, { Tables.empty with
      direc := [0xC0A8], ipv4Lpm := [(0xC0A80001, .ipv4Forward 2 2)] }⟩
    let hop : Hop := ⟨Target.zero, cfg, 2, 1, 40, by decide, by decide⟩
    let f := udpFrame 5 32 [0x0F, 0xA0, 0x13, 0x88, 0, 12, 0, 0, 1, 2, 3, 4]
    let fs := [{ f with timestamp := 1000 }, { f with timestamp := 40000 }]
    reports (switchTrace cfg ((path [hop, hop] fs).map Frame.parse)) =
      reports (switchTrace cfg
        ((fs.map Frame.parse).filter fun p => pathRoutes [hop, hop] p.dst)) := by
  intro cfg hop f fs
  have hport : ∀ f ∈ fs, f.ingressPort ≠ cpuPort := by decide
  have httl : ∀ f ∈ fs, f.parse.IsUdp → [hop, hop].length < f.parse.hdr.ipv4.ttl.toNat := by
    decide +kernel
  have htimes : ∀ f ∈ fs, f.parse.IsUdp → OnBothClocks (pathDelay [hop, hop]) f.timestamp := by
    decide +kernel
  exact reports_path cfg [hop, hop] hport httl htimes

/-! ## No frame circulates -/

lemma ttl_copies (h : Hop) (regs : Registers) {f g : Frame} (hport : f.ingressPort ≠ cpuPort)
    (hg : g ∈ h.copies regs f) :
    g.ingressPort ≠ cpuPort ∧ f.parse.hdr.ipv4.isValid = true ∧
      g.parse.hdr.ipv4.ttl.toNat + 1 = f.parse.hdr.ipv4.ttl.toNat := by
  rw [copies_eq h regs hport] at hg
  split at hg
  · rename_i hsent
    obtain ⟨⟨hvalid, hpos⟩, hrouted⟩ := hsent
    obtain rfl := List.mem_singleton.1 hg
    obtain ⟨mac, port, hlookup⟩ : ∃ mac port, ipv4LpmLookup h.cfg.tables
        f.parse.hdr.ipv4.dstAddr = .ipv4Forward mac port := by
      rw [Hop.routes] at hrouted
      cases hl : ipv4LpmLookup h.cfg.tables f.parse.hdr.ipv4.dstAddr with
      | ipv4Forward mac port => exact ⟨mac, port, rfl⟩
      | drop => simp [hl] at hrouted
      | noAction => simp [hl] at hrouted
    obtain ⟨-, httl⟩ := process_of_selects regs hport hvalid hpos hlookup
    obtain ⟨ck, hip⟩ := ipv4_copy h.target h.cfg regs hport h.out_ne.2.1
      (g := ⟨Pipeline.out h.target h.cfg regs f h.out, h.inPort, f.timestamp + h.delay⟩) rfl
      h.inPort_ne
    refine ⟨h.inPort_ne, hvalid, ?_⟩
    rw [hip, Pipeline.ingressState_eq]
    dsimp only
    have hone : (1 : BitVec 8).toNat ≤ f.parse.hdr.ipv4.ttl.toNat := hpos
    have h1 : (1 : BitVec 8).toNat = 1 := rfl
    rw [httl, BitVec.toNat_sub_of_le hone]
    omega
  · exact absurd hg List.not_mem_nil

lemma exists_of_mem_link (h : Hop) {regs : Registers} {fs : List Frame} {g : Frame}
    (hg : g ∈ h.link regs fs) : ∃ f ∈ fs, ∃ regs', g ∈ h.copies regs' f := by
  induction fs generalizing regs with
  | nil => exact absurd hg List.not_mem_nil
  | cons f fs ih =>
      rcases List.mem_append.1 hg with hg | hg
      · exact ⟨f, List.mem_cons_self .., regs, hg⟩
      · obtain ⟨f', hf', hrest⟩ := ih hg
        exact ⟨f', List.mem_cons_of_mem _ hf', hrest⟩

private lemma path_of_ttl_lt (hs : List Hop) {fs : List Frame}
    (hport : ∀ f ∈ fs, f.ingressPort ≠ cpuPort)
    (httl : ∀ f ∈ fs, f.parse.hdr.ipv4.isValid = true →
      f.parse.hdr.ipv4.ttl.toNat < hs.length) (hne : hs ≠ []) : path hs fs = [] := by
  induction hs generalizing fs with
  | nil => exact absurd rfl hne
  | cons h hs ih =>
      have hnext : ∀ g ∈ h.link Registers.zero fs, g.ingressPort ≠ cpuPort ∧
          g.parse.hdr.ipv4.ttl.toNat < hs.length := by
        intro g hg
        obtain ⟨f, hf, regs, hcopy⟩ := exists_of_mem_link h hg
        obtain ⟨hgport, hvalid, hless⟩ := ttl_copies h regs (hport f hf) hcopy
        have hlen := httl f hf hvalid
        rw [List.length_cons] at hlen
        exact ⟨hgport, by omega⟩
      rw [path]
      by_cases hlast : hs = []
      · -- nothing can have fewer than no hops to live
        rw [hlast] at hnext ⊢
        refine List.eq_nil_iff_forall_not_mem.2 fun g hg => ?_
        exact absurd (hnext g hg).2 (Nat.not_lt_zero _)
      · exact ih (fun g hg => (hnext g hg).1) (fun g hg _ => (hnext g hg).2) hlast

/-- **No frame circulates.**  Whatever the tables of a switch on a path and its registers, what it
sends on has a `ttl` one less, and a frame with `ttl` zero it does not send on.  So, also when the
path leads in circles, nothing arrives at the end of it when it is longer than every `ttl`. -/
theorem path_eq_nil (hs : List Hop) {fs : List Frame} (hport : ∀ f ∈ fs, f.ingressPort ≠ cpuPort)
    (httl : ∀ f ∈ fs, f.parse.hdr.ipv4.isValid = true →
      f.parse.hdr.ipv4.ttl.toNat < hs.length) (hne : hs ≠ []) :
    (∀ h ∈ hs, ∀ regs f, f.ingressPort ≠ cpuPort →
      (∀ g ∈ h.copies regs f, f.parse.hdr.ipv4.isValid = true ∧
        g.parse.hdr.ipv4.ttl.toNat + 1 = f.parse.hdr.ipv4.ttl.toNat) ∧
      (f.parse.hdr.ipv4.ttl = 0 → h.copies regs f = [])) ∧
    path hs fs = [] := by
  refine ⟨fun h _ regs f hf => ⟨fun g hg => (ttl_copies h regs hf hg).2, fun hzero => ?_⟩,
    path_of_ttl_lt hs hport httl hne⟩
  refine List.eq_nil_iff_forall_not_mem.2 fun g hg => ?_
  obtain ⟨-, -, hless⟩ := ttl_copies h regs hf hg
  rw [hzero] at hless
  exact absurd hless (Nat.succ_ne_zero _)

/-- A ring of one switch and a datagram with `ttl` 64. -/
theorem path_eq_nil_ring :
    let cfg : Config := ⟨fun _ _ => 0, { Tables.empty with ipv4LpmDefault := .ipv4Forward 0 2 }⟩
    let hop : Hop := ⟨Target.zero, cfg, 2, 1, 40, by decide, by decide⟩
    let f := udpFrame 5 32 [0x0F, 0xA0, 0x13, 0x88, 0, 12, 0, 0, 1, 2, 3, 4]
    (∀ h ∈ List.replicate 65 hop, ∀ regs f, f.ingressPort ≠ cpuPort →
      (∀ g ∈ h.copies regs f, f.parse.hdr.ipv4.isValid = true ∧
        g.parse.hdr.ipv4.ttl.toNat + 1 = f.parse.hdr.ipv4.ttl.toNat) ∧
      (f.parse.hdr.ipv4.ttl = 0 → h.copies regs f = [])) ∧
    path (List.replicate 65 hop) [f] = [] := by
  intro cfg hop f
  have hport : ∀ g ∈ [f], g.ingressPort ≠ cpuPort := by decide
  have httl : ∀ g ∈ [f], g.parse.hdr.ipv4.isValid = true → g.parse.hdr.ipv4.ttl.toNat <
      (List.replicate 65 hop).length := by
    rw [List.length_replicate]
    decide +kernel
  exact path_eq_nil (List.replicate 65 hop) hport httl (by simp)

end FlowClassifier
