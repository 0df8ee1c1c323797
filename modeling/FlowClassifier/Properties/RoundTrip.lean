import FlowClassifier.Switch.Pipeline

/-!
# Parsing and deparsing

The deparser writes the headers back and appends what the parser left.  `Parsed` says which headers
the parser can come to, one constructor for each way through it, the ways that end in a packet that
is too short included.  Parser and deparser are inverse to each other between frames and these
(`deparse_parseEthernet`, `parseEthernet_deparse`): a frame that passes unchanged leaves as it came,
and what a switch sends, the next one parses as it was meant.
-/

namespace FlowClassifier

open Bits

/-! ## One header -/

section Codec

variable {h : List Bool}

lemma ofVec_field {w start : ℕ} (hlen : start + w ≤ h.length) :
    ofVec (field w start h) = slice start w h :=
  ofVec_ofNat_value (length_slice hlen)

private lemma slice_all {n : ℕ} (hlen : h.length = n) : slice 0 n h = h := by
  rw [← hlen, slice_zero_length]

lemma emit_ethernetOf (hlen : h.length = 112) : (ethernetOf h).emit = h := by
  simp only [Ethernet.emit, ethernetOf, if_true]
  rw [ofVec_field (by omega), ofVec_field (by omega), ofVec_field (by omega),
    slice_append_slice 0, slice_append_slice 0]
  exact slice_all hlen

lemma emit_ipv4Of (hlen : h.length = 160) : (ipv4Of h).emit = h := by
  simp only [Ipv4.emit, ipv4Of, if_true]
  rw [ofVec_field (by omega), ofVec_field (by omega), ofVec_field (by omega),
    ofVec_field (by omega), ofVec_field (by omega), ofVec_field (by omega),
    ofVec_field (by omega), ofVec_field (by omega), ofVec_field (by omega),
    ofVec_field (by omega), ofVec_field (by omega), ofVec_field (by omega)]
  simp only [slice_append_slice 0]
  exact slice_all hlen

lemma emit_tcpOf (hlen : h.length = 160) : (tcpOf h).emit = h := by
  simp only [Tcp.emit, tcpOf, if_true]
  rw [ofVec_field (by omega), ofVec_field (by omega), ofVec_field (by omega),
    ofVec_field (by omega), ofVec_field (by omega), ofVec_field (by omega),
    ofVec_field (by omega), ofVec_field (by omega), ofVec_field (by omega),
    ofVec_field (by omega)]
  simp only [slice_append_slice 0]
  exact slice_all hlen

lemma emit_udpOf (hlen : h.length = 64) : (udpOf h).emit = h := by
  simp only [Udp.emit, udpOf, if_true]
  rw [ofVec_field (by omega), ofVec_field (by omega), ofVec_field (by omega),
    ofVec_field (by omega)]
  simp only [slice_append_slice 0]
  exact slice_all hlen

end Codec

section Emit

lemma length_emit_ethernet {h : Ethernet} (hv : h.isValid = true) : h.emit.length = 112 := by
  simp [Ethernet.emit, hv]

lemma length_emit_ipv4 {h : Ipv4} (hv : h.isValid = true) : h.emit.length = 160 := by
  simp [Ipv4.emit, hv]

lemma length_emit_tcp {h : Tcp} (hv : h.isValid = true) : h.emit.length = 160 := by
  simp [Tcp.emit, hv]

lemma length_emit_udp {h : Udp} (hv : h.isValid = true) : h.emit.length = 64 := by
  simp [Udp.emit, hv]

/-- Valid headers that are written alike are alike. -/
lemma ethernetOf_emit {h : Ethernet} (hv : h.isValid = true) : ethernetOf h.emit = h := by
  have hemit := emit_ethernetOf (length_emit_ethernet hv)
  obtain ⟨valid, dst, src, type⟩ := h
  obtain rfl : valid = true := hv
  simp only [Ethernet.emit, ethernetOf, if_true, append_ofVec_inj, ofVec_inj] at hemit ⊢
  obtain ⟨⟨h0, h1⟩, h2⟩ := hemit
  rw [h0, h1, h2]

lemma ipv4Of_emit {h : Ipv4} (hv : h.isValid = true) : ipv4Of h.emit = h := by
  have hemit := emit_ipv4Of (length_emit_ipv4 hv)
  obtain ⟨valid, version, ihl, diffserv, totalLen, identification, flags, fragOffset, ttl, protocol,
    hdrChecksum, srcAddr, dstAddr⟩ := h
  obtain rfl : valid = true := hv
  simp only [Ipv4.emit, ipv4Of, if_true, append_ofVec_inj, ofVec_inj] at hemit ⊢
  obtain ⟨⟨⟨⟨⟨⟨⟨⟨⟨⟨⟨h0, h1⟩, h2⟩, h3⟩, h4⟩, h5⟩, h6⟩, h7⟩, h8⟩, h9⟩, h10⟩, h11⟩ := hemit
  rw [h0, h1, h2, h3, h4, h5, h6, h7, h8, h9, h10, h11]

lemma tcpOf_emit {h : Tcp} (hv : h.isValid = true) : tcpOf h.emit = h := by
  have hemit := emit_tcpOf (length_emit_tcp hv)
  obtain ⟨valid, srcPort, dstPort, seqNo, ackNo, dataOffset, res, flags, window, checksum,
    urgentPtr⟩ := h
  obtain rfl : valid = true := hv
  simp only [Tcp.emit, tcpOf, if_true, append_ofVec_inj, ofVec_inj] at hemit ⊢
  obtain ⟨⟨⟨⟨⟨⟨⟨⟨⟨h0, h1⟩, h2⟩, h3⟩, h4⟩, h5⟩, h6⟩, h7⟩, h8⟩, h9⟩ := hemit
  rw [h0, h1, h2, h3, h4, h5, h6, h7, h8, h9]

lemma udpOf_emit {h : Udp} (hv : h.isValid = true) : udpOf h.emit = h := by
  have hemit := emit_udpOf (length_emit_udp hv)
  obtain ⟨valid, srcPort, dstPort, length, checksum⟩ := h
  obtain rfl : valid = true := hv
  simp only [Udp.emit, udpOf, if_true, append_ofVec_inj, ofVec_inj] at hemit ⊢
  obtain ⟨⟨⟨h0, h1⟩, h2⟩, h3⟩ := hemit
  rw [h0, h1, h2, h3]

end Emit

/-! ## What the parser comes to -/

/-- The headers the parser can come to from the Ethernet header on, with what it leaves of the
packet. -/
inductive Parsed (base : AllHeaders) : AllHeaders → List Bool → Prop
  | tooShort {payload : List Bool} (hlen : payload.length < 112) : Parsed base base payload
  | notIpv4 {e : Ethernet} {payload : List Bool} (he : e.isValid = true)
      (htype : e.etherType ≠ typeIpv4) :
      Parsed base { base with ethernet := e } payload
  | tooShortIpv4 {e : Ethernet} {payload : List Bool} (he : e.isValid = true)
      (htype : e.etherType = typeIpv4) (hlen : payload.length < 160) :
      Parsed base { base with ethernet := e } payload
  | ipv4 {e : Ethernet} {ip : Ipv4} {payload : List Bool} (he : e.isValid = true)
      (htype : e.etherType = typeIpv4) (hip : ip.isValid = true) (htcp : ip.protocol ≠ protoTcp)
      (hudp : ip.protocol ≠ protoUdp) :
      Parsed base { base with ethernet := e, ipv4 := ip } payload
  | tooShortTcp {e : Ethernet} {ip : Ipv4} {payload : List Bool} (he : e.isValid = true)
      (htype : e.etherType = typeIpv4) (hip : ip.isValid = true) (htcp : ip.protocol = protoTcp)
      (hlen : payload.length < 160) :
      Parsed base { base with ethernet := e, ipv4 := ip } payload
  | tcp {e : Ethernet} {ip : Ipv4} {tcp : Tcp} {payload : List Bool} (he : e.isValid = true)
      (htype : e.etherType = typeIpv4) (hip : ip.isValid = true) (htcp : ip.protocol = protoTcp)
      (hv : tcp.isValid = true) :
      Parsed base { base with ethernet := e, ipv4 := ip, tcp := tcp } payload
  | tooShortUdp {e : Ethernet} {ip : Ipv4} {payload : List Bool} (he : e.isValid = true)
      (htype : e.etherType = typeIpv4) (hip : ip.isValid = true) (hudp : ip.protocol = protoUdp)
      (hlen : payload.length < 64) :
      Parsed base { base with ethernet := e, ipv4 := ip } payload
  | udp {e : Ethernet} {ip : Ipv4} {udp : Udp} {payload : List Bool} (he : e.isValid = true)
      (htype : e.etherType = typeIpv4) (hip : ip.isValid = true) (hudp : ip.protocol = protoUdp)
      (hv : udp.isValid = true) :
      Parsed base { base with ethernet := e, ipv4 := ip, udp := udp } payload

lemma Parsed.ethernet_of_ipv4 {base hdr : AllHeaders} {payload : List Bool}
    (h : Parsed base hdr payload) (hbase : base.ipv4.isValid = false)
    (hip : hdr.ipv4.isValid = true) : hdr.ethernet.isValid = true := by
  cases h with
  | tooShort hlen => simp [hbase] at hip
  | notIpv4 he htype => exact he
  | tooShortIpv4 he htype hlen => exact he
  | ipv4 he htype hip htcp hudp => exact he
  | tooShortTcp he htype hip htcp hlen => exact he
  | tcp he htype hip htcp hv => exact he
  | tooShortUdp he htype hip hudp hlen => exact he
  | udp he htype hip hudp hv => exact he

lemma Parsed.packetIn {base hdr : AllHeaders} {payload : List Bool} (h : Parsed base hdr payload) :
    hdr.packetIn = base.packetIn := by
  cases h <;> rfl

lemma extract_cases (n : ℕ) (packet : List Bool) :
    (extract n packet = none ∧ packet.length < n) ∨
      ∃ h rest, extract n packet = some (h, rest) ∧ packet = h ++ rest ∧ h.length = n := by
  unfold extract
  split
  · rename_i hle
    exact .inr ⟨_, _, rfl, (List.take_append_drop n packet).symm,
      List.length_take_of_le hle⟩
  · exact .inl ⟨rfl, by omega⟩

lemma extract_append {n : ℕ} {h : List Bool} (hlen : h.length = n) (rest : List Bool) :
    extract n (h ++ rest) = some (h, rest) := by
  rw [extract, if_pos (by rw [List.length_append]; omega), List.take_left' hlen,
    List.drop_left' hlen]

lemma extract_of_lt {n : ℕ} {packet : List Bool} (hlen : packet.length < n) :
    extract n packet = none := if_neg (by omega)

/-- No header that the deparser writes is valid. -/
structure AllHeaders.Blank (hdr : AllHeaders) : Prop where
  packetIn : hdr.packetIn.isValid = false
  ethernet : hdr.ethernet.isValid = false
  ipv4 : hdr.ipv4.isValid = false
  tcp : hdr.tcp.isValid = false
  udp : hdr.udp.isValid = false

lemma blank_headers (target : Target) : target.headers.Blank := ⟨rfl, rfl, rfl, rfl, rfl⟩

lemma AllHeaders.Blank.emit {hdr : AllHeaders} (hb : hdr.Blank) :
    hdr.packetIn.emit = [] ∧ hdr.ethernet.emit = [] ∧ hdr.ipv4.emit = [] ∧ hdr.tcp.emit = [] ∧
      hdr.udp.emit = [] := by
  simp [PacketIn.emit, Ethernet.emit, Ipv4.emit, Tcp.emit, Udp.emit, hb.packetIn, hb.ethernet,
    hb.ipv4, hb.tcp, hb.udp]

section Layers

variable {base : AllHeaders} (hb : base.Blank) (metadata : Metadata)

include hb

private lemma parsed_parseIpv4 {e : Ethernet} (he : e.isValid = true)
    (htype : e.etherType = typeIpv4) (packet : List Bool) :
    let s := Pipeline.parseIpv4 ⟨{ base with ethernet := e }, metadata, packet⟩
    Parsed base s.hdr s.packet ∧ Pipeline.deparse s.hdr ++ s.packet = e.emit ++ packet := by
  intro s
  rcases extract_cases 160 packet with ⟨hnone, hlt⟩ | ⟨h, rest, hsome, rfl, hlen⟩
  · have hs : s = ⟨{ base with ethernet := e }, metadata, packet⟩ := by
      simp only [s, Pipeline.parseIpv4, hnone]
    rw [hs]
    exact ⟨.tooShortIpv4 he htype hlt, by simp [Pipeline.deparse, hb.emit]⟩
  · have hip := emit_ipv4Of hlen
    have hwrite : Pipeline.deparse { base with ethernet := e, ipv4 := ipv4Of h } ++ rest =
        e.emit ++ (h ++ rest) := by
      simp [Pipeline.deparse, hb.emit, hip]
    by_cases htcp : (ipv4Of h).protocol = protoTcp
    · rcases extract_cases 160 rest with ⟨hnone, hlt⟩ | ⟨l4, payload, hl4, rfl, hlen4⟩
      · have hs : s = ⟨{ base with ethernet := e, ipv4 := ipv4Of h }, metadata, rest⟩ := by
          simp only [s, Pipeline.parseIpv4, hsome, if_pos htcp, Pipeline.parseTcp, hnone]
        rw [hs]
        exact ⟨.tooShortTcp he htype rfl htcp hlt, hwrite⟩
      · simp only [s, Pipeline.parseIpv4, hsome, if_pos htcp, Pipeline.parseTcp, hl4]
        refine ⟨.tcp he htype rfl htcp rfl, ?_⟩
        simp [Pipeline.deparse, hb.emit, hip, emit_tcpOf hlen4]
    · by_cases hudp : (ipv4Of h).protocol = protoUdp
      · rcases extract_cases 64 rest with ⟨hnone, hlt⟩ | ⟨l4, payload, hl4, rfl, hlen4⟩
        · have hs : s =
              ⟨{ base with ethernet := e, ipv4 := ipv4Of h }, metadata, rest⟩ := by
            simp only [s, Pipeline.parseIpv4, hsome, if_neg htcp, if_pos hudp, Pipeline.parseUdp,
              hnone]
          rw [hs]
          exact ⟨.tooShortUdp he htype rfl hudp hlt, hwrite⟩
        · simp only [s, Pipeline.parseIpv4, hsome, if_neg htcp, if_pos hudp, Pipeline.parseUdp, hl4]
          refine ⟨.udp he htype rfl hudp rfl, ?_⟩
          simp [Pipeline.deparse, hb.emit, hip, emit_udpOf hlen4]
      · simp only [s, Pipeline.parseIpv4, hsome, if_neg htcp, if_neg hudp]
        exact ⟨.ipv4 he htype rfl htcp hudp, hwrite⟩

/-- **Every way through the parser**: the headers it comes to are as `Parsed` says, and written back
in front of what it left they are the packet. -/
lemma parsed_parseEthernet (packet : List Bool) :
    let s := Pipeline.parseEthernet ⟨base, metadata, packet⟩
    Parsed base s.hdr s.packet ∧ Pipeline.deparse s.hdr ++ s.packet = packet := by
  intro s
  rcases extract_cases 112 packet with ⟨hnone, hlt⟩ | ⟨h, rest, hsome, rfl, hlen⟩
  · have hs : s = ⟨base, metadata, packet⟩ := by
      simp only [s, Pipeline.parseEthernet, hnone]
    rw [hs]
    exact ⟨.tooShort hlt, by simp [Pipeline.deparse, hb.emit]⟩
  · have he := emit_ethernetOf hlen
    by_cases htype : (ethernetOf h).etherType = typeIpv4
    · have hip := parsed_parseIpv4 hb metadata (e := ethernetOf h) rfl htype rest
      rw [he] at hip
      simp only [s, Pipeline.parseEthernet, hsome, if_pos htype]
      exact hip
    · have hs : s = ⟨{ base with ethernet := ethernetOf h }, metadata, rest⟩ := by
        simp only [s, Pipeline.parseEthernet, hsome, if_neg htype]
      rw [hs]
      exact ⟨.notIpv4 rfl htype, by simp [Pipeline.deparse, hb.emit, he]⟩

omit hb in
private lemma parseEthernet_emit {e : Ethernet} (he : e.isValid = true) (rest : List Bool) :
    Pipeline.parseEthernet ⟨base, metadata, e.emit ++ rest⟩ =
      if e.etherType = typeIpv4 then
        Pipeline.parseIpv4 ⟨{ base with ethernet := e }, metadata, rest⟩
      else ⟨{ base with ethernet := e }, metadata, rest⟩ := by
  simp only [Pipeline.parseEthernet, extract_append (length_emit_ethernet he), ethernetOf_emit he]

omit hb in
private lemma parseIpv4_emit (hdr : AllHeaders) {ip : Ipv4} (hip : ip.isValid = true)
    (rest : List Bool) :
    Pipeline.parseIpv4 ⟨hdr, metadata, ip.emit ++ rest⟩ =
      if ip.protocol = protoTcp then Pipeline.parseTcp ⟨{ hdr with ipv4 := ip }, metadata, rest⟩
      else if ip.protocol = protoUdp then
        Pipeline.parseUdp ⟨{ hdr with ipv4 := ip }, metadata, rest⟩
      else ⟨{ hdr with ipv4 := ip }, metadata, rest⟩ := by
  simp only [Pipeline.parseIpv4, extract_append (length_emit_ipv4 hip), ipv4Of_emit hip]

/-- **Headers that were written are parsed as they were**, and the payload is left. -/
lemma parseEthernet_deparse {hdr : AllHeaders} {payload : List Bool}
    (h : Parsed base hdr payload) :
    (Pipeline.parseEthernet ⟨base, metadata, Pipeline.deparse hdr ++ payload⟩).hdr = hdr ∧
      (Pipeline.parseEthernet
        ⟨base, metadata, Pipeline.deparse hdr ++ payload⟩).packet = payload := by
  have hne : protoUdp ≠ protoTcp := by decide
  cases h with
  | tooShort hlen =>
      have hbits : Pipeline.deparse base ++ payload = payload := by
        simp [Pipeline.deparse, hb.emit]
      simp only [hbits, Pipeline.parseEthernet, extract_of_lt hlen, and_self]
  | notIpv4 he htype =>
      rename_i e
      have hbits : Pipeline.deparse { base with ethernet := e } ++ payload =
          e.emit ++ payload := by
        simp [Pipeline.deparse, hb.emit]
      rw [hbits, parseEthernet_emit metadata he, if_neg htype]
      exact ⟨rfl, rfl⟩
  | tooShortIpv4 he htype hlen =>
      rename_i e
      have hbits : Pipeline.deparse { base with ethernet := e } ++ payload =
          e.emit ++ payload := by
        simp [Pipeline.deparse, hb.emit]
      rw [hbits, parseEthernet_emit metadata he, if_pos htype, Pipeline.parseIpv4,
        extract_of_lt hlen]
      exact ⟨rfl, rfl⟩
  | ipv4 he htype hip htcp hudp =>
      rename_i e ip
      have hbits : Pipeline.deparse { base with ethernet := e, ipv4 := ip } ++ payload =
          e.emit ++ (ip.emit ++ payload) := by
        simp [Pipeline.deparse, hb.emit]
      rw [hbits, parseEthernet_emit metadata he, if_pos htype, parseIpv4_emit metadata _ hip,
        if_neg htcp, if_neg hudp]
      exact ⟨rfl, rfl⟩
  | tooShortTcp he htype hip htcp hlen =>
      rename_i e ip
      have hbits : Pipeline.deparse { base with ethernet := e, ipv4 := ip } ++ payload =
          e.emit ++ (ip.emit ++ payload) := by
        simp [Pipeline.deparse, hb.emit]
      rw [hbits, parseEthernet_emit metadata he, if_pos htype, parseIpv4_emit metadata _ hip,
        if_pos htcp, Pipeline.parseTcp, extract_of_lt hlen]
      exact ⟨rfl, rfl⟩
  | tcp he htype hip htcp hv =>
      rename_i e ip tcp
      have hbits : Pipeline.deparse { base with ethernet := e, ipv4 := ip, tcp := tcp } ++
          payload = e.emit ++ (ip.emit ++ (tcp.emit ++ payload)) := by
        simp [Pipeline.deparse, hb.emit]
      rw [hbits, parseEthernet_emit metadata he, if_pos htype, parseIpv4_emit metadata _ hip,
        if_pos htcp, Pipeline.parseTcp]
      simp only [extract_append (length_emit_tcp hv), tcpOf_emit hv, and_self]
  | tooShortUdp he htype hip hudp hlen =>
      rename_i e ip
      have hbits : Pipeline.deparse { base with ethernet := e, ipv4 := ip } ++ payload =
          e.emit ++ (ip.emit ++ payload) := by
        simp [Pipeline.deparse, hb.emit]
      rw [hbits, parseEthernet_emit metadata he, if_pos htype, parseIpv4_emit metadata _ hip,
        if_neg (hudp ▸ hne), if_pos hudp, Pipeline.parseUdp, extract_of_lt hlen]
      exact ⟨rfl, rfl⟩
  | udp he htype hip hudp hv =>
      rename_i e ip udp
      have hbits : Pipeline.deparse { base with ethernet := e, ipv4 := ip, udp := udp } ++
          payload = e.emit ++ (ip.emit ++ (udp.emit ++ payload)) := by
        simp [Pipeline.deparse, hb.emit]
      rw [hbits, parseEthernet_emit metadata he, if_pos htype, parseIpv4_emit metadata _ hip,
        if_neg (hudp ▸ hne), if_pos hudp, Pipeline.parseUdp]
      simp only [extract_append (length_emit_udp hv), udpOf_emit hv, and_self]

end Layers

/-! ## Frames -/

/-- The bytes of a frame behind its `packet_out` header, which only a frame from the controller
has. -/
def Frame.body (f : Frame) : List (BitVec 8) :=
  if f.ingressPort = cpuPort ∧ 4 ≤ f.bytes.length then f.bytes.drop 4 else f.bytes

section Frames

variable (target : Target) {f : Frame}

lemma parse_of_ne_cpuPort (hport : f.ingressPort ≠ cpuPort) :
    Pipeline.parse target f =
      Pipeline.parseEthernet ⟨target.headers, .zero, ofBytes f.bytes⟩ :=
  if_neg hport

lemma parse_of_cpuPort (hport : f.ingressPort = cpuPort) :
    Pipeline.parse target f =
      if 4 ≤ f.bytes.length then
        Pipeline.parseEthernet ⟨{ target.headers with
          packetOut := packetOutOf (ofBytes (f.bytes.take 4)) }, .zero, ofBytes (f.bytes.drop 4)⟩
      else ⟨target.headers, .zero, ofBytes f.bytes⟩ := by
  have hstart : Pipeline.parse target f =
      Pipeline.parsePacketOut ⟨target.headers, .zero, ofBytes f.bytes⟩ := if_pos hport
  rw [hstart, Pipeline.parsePacketOut]
  by_cases hlen : 4 ≤ f.bytes.length
  · have hsplit : ofBytes f.bytes = ofBytes (f.bytes.take 4) ++ ofBytes (f.bytes.drop 4) := by
      rw [← ofBytes_append, List.take_append_drop]
    have hfour : (ofBytes (f.bytes.take 4)).length = 32 := by
      rw [length_ofBytes, List.length_take_of_le hlen]
    rw [if_pos hlen, hsplit]
    simp only [extract_append hfour]
  · have hshort : (ofBytes f.bytes).length < 32 := by
      rw [length_ofBytes]
      omega
    rw [if_neg hlen]
    simp only [extract_of_lt hshort]

/-- Any frame: the headers the parser comes to hold the bits of the body. -/
lemma exists_parsed_parse (f : Frame) :
    ∃ base : AllHeaders, base.Blank ∧ base.packetIn = target.headers.packetIn ∧
      Parsed base (Pipeline.parse target f).hdr (Pipeline.parse target f).packet ∧
      Pipeline.deparse (Pipeline.parse target f).hdr ++ (Pipeline.parse target f).packet =
        ofBytes f.body := by
  have hb := blank_headers target
  by_cases hport : f.ingressPort = cpuPort
  · rw [parse_of_cpuPort target hport]
    by_cases hlen : 4 ≤ f.bytes.length
    · have hbody : f.body = f.bytes.drop 4 := if_pos ⟨hport, hlen⟩
      have hpacketOut : ({ target.headers with
          packetOut := packetOutOf (ofBytes (f.bytes.take 4)) } : AllHeaders).Blank :=
        ⟨rfl, rfl, rfl, rfl, rfl⟩
      rw [if_pos hlen, hbody]
      exact ⟨_, hpacketOut, rfl, parsed_parseEthernet hpacketOut .zero _⟩
    · have hbody : f.body = f.bytes := if_neg fun h => hlen h.2
      have hshort : (ofBytes f.bytes).length < 112 := by
        rw [length_ofBytes]
        omega
      rw [if_neg hlen, hbody]
      exact ⟨_, hb, rfl, .tooShort hshort, rfl⟩
  · have hbody : f.body = f.bytes := if_neg fun h => hport h.1
    rw [parse_of_ne_cpuPort target hport, hbody]
    exact ⟨_, hb, rfl, parsed_parseEthernet hb .zero _⟩

/-- **What the parser takes apart, the deparser puts together again**, whatever the frame: only the
`packet_out` header of a frame from the controller is gone. -/
theorem deparse_parse (f : Frame) :
    toBytes (Pipeline.deparse (Pipeline.parse target f).hdr ++ (Pipeline.parse target f).packet) =
      f.body := by
  obtain ⟨-, -, -, -, hbits⟩ := exists_parsed_parse target f
  rw [hbits, toBytes_ofBytes]

lemma parsed_parse (hport : f.ingressPort ≠ cpuPort) :
    Parsed target.headers (Pipeline.parse target f).hdr (Pipeline.parse target f).packet := by
  rw [parse_of_ne_cpuPort target hport]
  exact (parsed_parseEthernet (blank_headers target) .zero _).1

/-- **What a deparser wrote is parsed as it was meant**: the headers and the payload of any state
the parser can come to are read back from a frame that holds them. -/
theorem parse_deparse {hdr : AllHeaders} {payload : List Bool}
    (h : Parsed target.headers hdr payload) (hport : f.ingressPort ≠ cpuPort)
    (hbits : f.bits = Pipeline.deparse hdr ++ payload) :
    (Pipeline.parse target f).hdr = hdr ∧ (Pipeline.parse target f).packet = payload := by
  have hbytes : ofBytes f.bytes = Pipeline.deparse hdr ++ payload := hbits
  rw [parse_of_ne_cpuPort target hport, hbytes]
  exact parseEthernet_deparse (blank_headers target) .zero h

end Frames

/-- A datagram with four bytes of payload. -/
theorem parse_deparse_udp :
    let target := Target.zero
    let hdr : AllHeaders := { target.headers with
      ethernet := ⟨true, 2, 1, 0x0800⟩
      ipv4 := ⟨true, 4, 5, 0, 32, 0, 2, 0, 64, 17, 0, 0x0A000002, 0xC0A80001⟩
      udp := ⟨true, 4000, 5000, 12, 0⟩ }
    let f := udpFrame 5 32 [0x0F, 0xA0, 0x13, 0x88, 0, 12, 0, 0, 1, 2, 3, 4]
    (Pipeline.parse target f).hdr = hdr ∧
      (Pipeline.parse target f).packet = ofBytes [1, 2, 3, 4] := by
  intro target hdr f
  have hport : f.ingressPort ≠ cpuPort := by decide
  have hparsed : Parsed target.headers hdr (ofBytes [1, 2, 3, 4]) := .udp rfl rfl rfl rfl rfl
  have hbits : f.bits = Pipeline.deparse hdr ++ ofBytes [1, 2, 3, 4] := by decide +kernel
  exact parse_deparse target hparsed hport hbits

end FlowClassifier
