import FlowClassifier.Framework.Bits
import FlowClassifier.Switch.Ingress

/-!
# The parser

`basic_tutor_switch_parser` of `includes/parser.p4`: from the bytes of a frame to the headers.
Every header is extracted with the fixed size of its type, whatever its length fields say, so that
the bits after an IPv4 header are those after its first 20 bytes.

A frame that ends inside a header stops the parser; the control still runs, on the headers
extracted so far, and the one that did not fit stays invalid.  The ingress control of
`Switch/Ingress.lean` never looks at `tcp` and `packet_in`, so a `Packet` has only the other headers
(`Frame.parse`).

What a header holds before it is assigned is left to the target, and so are the ports of the
multicast groups.  `Target` has both as fields; the headers the ingress control sees do not depend
on it (`toHeaders_parse`).
-/

namespace FlowClassifier

open Bits

/-! ## All headers -/

/-- `tcp_t`. -/
structure Tcp where
  isValid : Bool
  srcPort : BitVec 16
  dstPort : BitVec 16
  seqNo : BitVec 32
  ackNo : BitVec 32
  dataOffset : BitVec 4
  res : BitVec 4
  flags : BitVec 8
  window : BitVec 16
  checksum : BitVec 16
  urgentPtr : BitVec 16
  deriving DecidableEq

/-- `packet_in_header_t`. -/
structure PacketIn where
  isValid : Bool
  algoIndicator : BitVec 16
  srcIp : BitVec 32
  dstIp : BitVec 32
  srcPort : BitVec 16
  dstPort : BitVec 16
  proto : BitVec 8
  siz : BitVec 32
  count : BitVec 32
  iat : BitVec 48
  cls : BitVec 16
  ingressPort : BitVec 16
  deriving DecidableEq

/-- `headers_t`. -/
@[ext] structure AllHeaders extends Headers where
  packetIn : PacketIn
  tcp : Tcp
  deriving DecidableEq

/-- The fields of `metadata_t` that are read or written. -/
structure Metadata where
  l4SrcPort : BitVec 16
  l4DstPort : BitVec 16
  overflowFlag : BitVec 1
  siz : BitVec 32
  count : BitVec 32
  iat : BitVec 48
  cls : BitVec 16
  deriving DecidableEq

/-- The target zeroes the metadata before every packet. -/
def Metadata.zero : Metadata := ⟨0, 0, 0, 0, 0, 0, 0⟩

/-- What the program leaves to the switch it runs on: the contents of a `packet_in` header nobody
assigned, and the ports of the multicast groups. -/
structure Target where
  packetIn : PacketIn
  groups : BitVec 16 → List (BitVec 9)

/-- A target that zeroes what nobody assigned, without multicast groups. -/
def Target.zero : Target := ⟨⟨false, 0, 0, 0, 0, 0, 0, 0, 0, 0, 0, 0⟩, fun _ => []⟩

/-- Nothing is valid before the parser starts. -/
def Headers.none : Headers where
  packetOut := ⟨false, 0, 0⟩
  ethernet := ⟨false, 0, 0, 0⟩
  ipv4 := ⟨false, 0, 0, 0, 0, 0, 0, 0, 0, 0, 0, 0, 0⟩
  udp := ⟨false, 0, 0, 0, 0⟩

/-- No header is valid before the parser starts. -/
def Target.headers (target : Target) : AllHeaders where
  toHeaders := .none
  packetIn := { target.packetIn with isValid := false }
  tcp := ⟨false, 0, 0, 0, 0, 0, 0, 0, 0, 0, 0⟩

/-- What the target hands to the parser. -/
structure Frame where
  bytes : List (BitVec 8)
  ingressPort : BitVec 9
  timestamp : BitVec 48

/-- `TYPE_IPV4`. -/
def typeIpv4 : BitVec 16 := 0x0800

/-- `PROTO_TCP`. -/
def protoTcp : BitVec 8 := 6

/-- `PROTO_UDP`. -/
def protoUdp : BitVec 8 := 17

/-! ## Extraction -/

/-- The bits of a frame, the most significant of every byte first. -/
def Frame.bits (f : Frame) : List Bool := ofBytes f.bytes

/-- The field of `w` bits that starts at a bit of a header. -/
def field (w start : ℕ) (header : List Bool) : BitVec w :=
  BitVec.ofNat w (value (slice start w header))

/-- `packet.extract` of a header of `n` bits: the header and the rest of the packet, or an error
when the packet is too short. -/
def extract (n : ℕ) (packet : List Bool) : Option (List Bool × List Bool) :=
  if n ≤ packet.length then some (packet.take n, packet.drop n) else none

/-- `packet_out_header_t`. -/
def packetOutOf (h : List Bool) : PacketOut := ⟨true, field 16 0 h, field 16 16 h⟩

/-- `ethernet_t`. -/
def ethernetOf (h : List Bool) : Ethernet := ⟨true, field 48 0 h, field 48 48 h, field 16 96 h⟩

/-- `ipv4_t`. -/
def ipv4Of (h : List Bool) : Ipv4 where
  isValid := true
  version := field 4 0 h
  ihl := field 4 4 h
  diffserv := field 8 8 h
  totalLen := field 16 16 h
  identification := field 16 32 h
  flags := field 3 48 h
  fragOffset := field 13 51 h
  ttl := field 8 64 h
  protocol := field 8 72 h
  hdrChecksum := field 16 80 h
  srcAddr := field 32 96 h
  dstAddr := field 32 128 h

/-- `udp_t`. -/
def udpOf (h : List Bool) : Udp :=
  ⟨true, field 16 0 h, field 16 16 h, field 16 32 h, field 16 48 h⟩

/-- `tcp_t`. -/
def tcpOf (h : List Bool) : Tcp where
  isValid := true
  srcPort := field 16 0 h
  dstPort := field 16 16 h
  seqNo := field 32 32 h
  ackNo := field 32 64 h
  dataOffset := field 4 96 h
  res := field 4 100 h
  flags := field 8 104 h
  window := field 16 112 h
  checksum := field 16 128 h
  urgentPtr := field 16 144 h

/-! ## The states -/

/-- The parser's outputs, and the part of the packet it has not extracted. -/
@[ext] structure ParserState where
  hdr : AllHeaders
  metadata : Metadata
  packet : List Bool

namespace Pipeline

/-- `parse_tcp`. -/
def parseTcp (s : ParserState) : ParserState :=
  match extract 160 s.packet with
  | some (h, packet) =>
      let tcp := tcpOf h
      { hdr := { s.hdr with tcp := tcp }
        metadata := { s.metadata with l4SrcPort := tcp.srcPort, l4DstPort := tcp.dstPort }
        packet := packet }
  | none => s

/-- `parse_udp`. -/
def parseUdp (s : ParserState) : ParserState :=
  match extract 64 s.packet with
  | some (h, packet) =>
      let udp := udpOf h
      { hdr := { s.hdr with udp := udp }
        metadata := { s.metadata with l4SrcPort := udp.srcPort, l4DstPort := udp.dstPort }
        packet := packet }
  | none => s

/-- `parse_ipv4`. -/
def parseIpv4 (s : ParserState) : ParserState :=
  match extract 160 s.packet with
  | some (h, packet) =>
      let s := { s with hdr := { s.hdr with ipv4 := ipv4Of h }, packet := packet }
      if s.hdr.ipv4.protocol = protoTcp then parseTcp s
      else if s.hdr.ipv4.protocol = protoUdp then parseUdp s
      else s
  | none => s

/-- `parse_ethernet`. -/
def parseEthernet (s : ParserState) : ParserState :=
  match extract 112 s.packet with
  | some (h, packet) =>
      let s := { s with hdr := { s.hdr with ethernet := ethernetOf h }, packet := packet }
      if s.hdr.ethernet.etherType = typeIpv4 then parseIpv4 s else s
  | none => s

/-- `parse_packet_out`. -/
def parsePacketOut (s : ParserState) : ParserState :=
  match extract 32 s.packet with
  | some (h, packet) =>
      parseEthernet { s with hdr := { s.hdr with packetOut := packetOutOf h }, packet := packet }
  | none => s

/-- `start`. -/
def parseStart (ingressPort : BitVec 9) (s : ParserState) : ParserState :=
  if ingressPort = cpuPort then parsePacketOut s else parseEthernet s

/-- `basic_tutor_switch_parser`. -/
def parse (target : Target) (f : Frame) : ParserState :=
  parseStart f.ingressPort ⟨target.headers, .zero, f.bits⟩

end Pipeline

/-- A frame as the ingress control sees it: `egress_spec` and `mcast_grp` start at zero. -/
def Frame.parse (f : Frame) : Packet where
  hdr := (Pipeline.parse .zero f).hdr.toHeaders
  std := ⟨f.ingressPort, 0, 0, f.timestamp⟩

namespace Pipeline

variable (s : ParserState)

/-! ## What the parser leaves to the target -/

/-- Other contents of `packet_in`. -/
def withPacketIn (h : PacketIn) : ParserState := { s with hdr := { s.hdr with packetIn := h } }

variable (h : PacketIn)

lemma parseTcp_withPacketIn : parseTcp (withPacketIn s h) = withPacketIn (parseTcp s) h := by
  simp only [parseTcp, withPacketIn]
  cases extract 160 s.packet <;> rfl

lemma parseUdp_withPacketIn : parseUdp (withPacketIn s h) = withPacketIn (parseUdp s) h := by
  simp only [parseUdp, withPacketIn]
  cases extract 64 s.packet <;> rfl

lemma parseIpv4_withPacketIn : parseIpv4 (withPacketIn s h) = withPacketIn (parseIpv4 s) h := by
  have hpacket : (withPacketIn s h).packet = s.packet := rfl
  rw [parseIpv4, parseIpv4, hpacket]
  cases extract 160 s.packet with
  | none => rfl
  | some r =>
      dsimp only
      split
      · exact parseTcp_withPacketIn ⟨{ s.hdr with ipv4 := ipv4Of r.1 }, s.metadata, r.2⟩ h
      · split
        · exact parseUdp_withPacketIn ⟨{ s.hdr with ipv4 := ipv4Of r.1 }, s.metadata, r.2⟩ h
        · rfl

lemma parseEthernet_withPacketIn :
    parseEthernet (withPacketIn s h) = withPacketIn (parseEthernet s) h := by
  have hpacket : (withPacketIn s h).packet = s.packet := rfl
  rw [parseEthernet, parseEthernet, hpacket]
  cases extract 112 s.packet with
  | none => rfl
  | some r =>
      dsimp only
      split
      · exact parseIpv4_withPacketIn ⟨{ s.hdr with ethernet := ethernetOf r.1 }, s.metadata, r.2⟩ h
      · rfl

lemma parseStart_withPacketIn (port : BitVec 9) :
    parseStart port (withPacketIn s h) = withPacketIn (parseStart port s) h := by
  have hpacket : (withPacketIn s h).packet = s.packet := rfl
  unfold parseStart
  split
  · rw [parsePacketOut, parsePacketOut, hpacket]
    cases extract 32 s.packet with
    | none => rfl
    | some r =>
        exact parseEthernet_withPacketIn
          ⟨{ s.hdr with packetOut := packetOutOf r.1 }, s.metadata, r.2⟩ h
  · exact parseEthernet_withPacketIn s h

/-- Two targets differ only in `packet_in`. -/
lemma parse_eq_withPacketIn (target : Target) (f : Frame) :
    parse target f = withPacketIn (parse .zero f) target.headers.packetIn :=
  parseStart_withPacketIn ⟨Target.zero.headers, .zero, f.bits⟩ _ f.ingressPort

lemma toHeaders_parse (target : Target) (f : Frame) :
    (parse target f).hdr.toHeaders = f.parse.hdr := by
  rw [parse_eq_withPacketIn]
  rfl

/-! ## What the parser accepts -/

/-- A UDP header is only ever extracted after an IPv4 header that announces it. -/
def UdpBehindIpv4 (hdr : AllHeaders) : Prop :=
  hdr.udp.isValid = true → hdr.ipv4.isValid = true ∧ hdr.ipv4.protocol = protoUdp

lemma udpBehindIpv4_of_not_isValid {hdr : AllHeaders} (hnone : hdr.udp.isValid = false) :
    UdpBehindIpv4 hdr := by
  intro hvalid
  rw [hnone] at hvalid
  exact absurd hvalid Bool.false_ne_true

variable {s}

lemma udpBehindIpv4_parseIpv4 (hnone : s.hdr.udp.isValid = false) :
    UdpBehindIpv4 (parseIpv4 s).hdr := by
  unfold parseIpv4
  cases extract 160 s.packet with
  | none => exact udpBehindIpv4_of_not_isValid hnone
  | some r =>
      dsimp only
      split
      · unfold parseTcp
        cases extract 160 r.2 <;> exact udpBehindIpv4_of_not_isValid hnone
      · split
        · rename_i hudp
          unfold parseUdp
          cases extract 64 r.2 <;> exact fun _ => ⟨rfl, hudp⟩
        · exact udpBehindIpv4_of_not_isValid hnone

lemma udpBehindIpv4_parseEthernet (hnone : s.hdr.udp.isValid = false) :
    UdpBehindIpv4 (parseEthernet s).hdr := by
  unfold parseEthernet
  cases extract 112 s.packet with
  | none => exact udpBehindIpv4_of_not_isValid hnone
  | some r =>
      dsimp only
      split
      · exact udpBehindIpv4_parseIpv4 hnone
      · exact udpBehindIpv4_of_not_isValid hnone

lemma udpBehindIpv4_parse (target : Target) (f : Frame) : UdpBehindIpv4 (parse target f).hdr := by
  unfold parse parseStart
  split
  · unfold parsePacketOut
    dsimp only
    cases extract 32 f.bits with
    | none => exact udpBehindIpv4_of_not_isValid rfl
    | some r => exact udpBehindIpv4_parseEthernet rfl
  · exact udpBehindIpv4_parseEthernet rfl

end Pipeline

lemma isValid_udp_parse {f : Frame} (h : f.parse.hdr.udp.isValid = true) :
    f.parse.hdr.ipv4.isValid = true ∧ f.parse.hdr.ipv4.protocol = protoUdp :=
  Pipeline.udpBehindIpv4_parse .zero f h

/-- A UDP frame from 10.0.0.2 to 192.168.0.1 on port 1, not fragmented, with `ttl` 64, the given
length fields and the given bytes after the first 20 of the IPv4 header. -/
def udpFrame (ihl : BitVec 4) (totalLen : BitVec 16) (rest : List (BitVec 8)) : Frame where
  bytes :=
    [0, 0, 0, 0, 0, 2, 0, 0, 0, 0, 0, 1, 0x08, 0x00,
      (4 : BitVec 4) ++ ihl, 0, totalLen.extractLsb' 8 8, totalLen.extractLsb' 0 8, 0, 0, 0x40, 0,
      64, 17, 0, 0, 10, 0, 0, 2, 192, 168, 0, 1] ++ rest
  ingressPort := 1
  timestamp := 1000

end FlowClassifier
