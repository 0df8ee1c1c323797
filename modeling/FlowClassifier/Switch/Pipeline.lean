import FlowClassifier.Framework.OnesComplement
import FlowClassifier.Switch.Parser

/-!
# The whole pipeline

`V1Switch(...)` of `My.p4`: parser, ingress, egress, checksum and deparser, from the bytes of a
frame to the bytes of what is sent.  The ingress control is that of `Switch/Ingress.lean`; what
comes before and after it also has the headers that control never looks at, and `metadata_t`.

No result depends on what is left to the `Target`, except where it says so.
-/

namespace FlowClassifier

open Bits

/-! ## Egress and checksum -/

namespace Pipeline

/-- `packetio_egress`. -/
def packetioEgress (egressPort ingressPort : BitVec 9) (metadata : Metadata) (hdr : AllHeaders) :
    AllHeaders :=
  if egressPort = cpuPort then
    let packetIn := { hdr.packetIn with isValid := true }
    let packetIn :=
      if metadata.overflowFlag = 1 then
        { packetIn with
          algoIndicator := 3
          srcIp := hdr.ipv4.srcAddr
          dstIp := hdr.ipv4.dstAddr
          proto := hdr.ipv4.protocol
          srcPort := metadata.l4SrcPort
          dstPort := metadata.l4DstPort
          siz := metadata.siz
          count := metadata.count
          iat := metadata.iat
          cls := metadata.cls }
      else packetIn
    { hdr with packetIn := { packetIn with ingressPort := ingressPort.setWidth 16 } }
  else hdr

/-- The 16-bit words of some bytes; a last odd byte is filled up with zeros. -/
def words : List (BitVec 8) → List (BitVec 16)
  | a :: b :: bytes => (a ++ b) :: words bytes
  | [a] => [a ++ (0 : BitVec 8)]
  | [] => []

/-- `HashAlgorithm.csum16`. -/
def csum16 (data : List Bool) : BitVec 16 := OnesComplement.checksum (words (toBytes data))

/-- The fields the checksum of an IPv4 header is computed from. -/
def ckFields (h : Ipv4) : List Bool :=
  ofVec h.version ++ ofVec h.ihl ++ ofVec h.diffserv ++ ofVec h.totalLen ++
    ofVec h.identification ++ ofVec h.flags ++ ofVec h.fragOffset ++ ofVec h.ttl ++
    ofVec h.protocol ++ ofVec h.srcAddr ++ ofVec h.dstAddr

/-- `basic_tutor_computeCk`. -/
def computeCk (hdr : AllHeaders) : AllHeaders :=
  if hdr.ipv4.isValid then
    { hdr with ipv4 := { hdr.ipv4 with hdrChecksum := csum16 (ckFields hdr.ipv4) } }
  else hdr

end Pipeline

/-! ## The deparser -/

/-- `packet.emit`: a header that is not valid is left out. -/
def Ethernet.emit (h : Ethernet) : List Bool :=
  if h.isValid then ofVec h.dstAddr ++ ofVec h.srcAddr ++ ofVec h.etherType else []

def Ipv4.emit (h : Ipv4) : List Bool :=
  if h.isValid then
    ofVec h.version ++ ofVec h.ihl ++ ofVec h.diffserv ++ ofVec h.totalLen ++
      ofVec h.identification ++ ofVec h.flags ++ ofVec h.fragOffset ++ ofVec h.ttl ++
      ofVec h.protocol ++ ofVec h.hdrChecksum ++ ofVec h.srcAddr ++ ofVec h.dstAddr
  else []

def Tcp.emit (h : Tcp) : List Bool :=
  if h.isValid then
    ofVec h.srcPort ++ ofVec h.dstPort ++ ofVec h.seqNo ++ ofVec h.ackNo ++ ofVec h.dataOffset ++
      ofVec h.res ++ ofVec h.flags ++ ofVec h.window ++ ofVec h.checksum ++ ofVec h.urgentPtr
  else []

def Udp.emit (h : Udp) : List Bool :=
  if h.isValid then
    ofVec h.srcPort ++ ofVec h.dstPort ++ ofVec h.length ++ ofVec h.checksum
  else []

def PacketIn.emit (h : PacketIn) : List Bool :=
  if h.isValid then
    ofVec h.algoIndicator ++ ofVec h.srcIp ++ ofVec h.dstIp ++ ofVec h.srcPort ++
      ofVec h.dstPort ++ ofVec h.proto ++ ofVec h.siz ++ ofVec h.count ++ ofVec h.iat ++
      ofVec h.cls ++ ofVec h.ingressPort
  else []

namespace Pipeline

/-- `basic_tutor_switch_deparser`. -/
def deparse (hdr : AllHeaders) : List Bool :=
  hdr.packetIn.emit ++ hdr.ethernet.emit ++ hdr.ipv4.emit ++ hdr.tcp.emit ++ hdr.udp.emit

/-! ## The switch -/

/-- The ports a packet is replicated to after ingress: those of its multicast group, or the one
`egress_spec` names unless that marks it to drop. -/
def egressPorts (target : Target) (std : StandardMetadata) : List (BitVec 9) :=
  if std.mcastGrp ≠ 0 then target.groups std.mcastGrp
  else if std.egressSpec = 511 then [] else [std.egressSpec]

/-- The ingress control on a parsed frame. -/
def ingressState (target : Target) (cfg : Config) (regs : Registers) (f : Frame) : State :=
  process cfg regs ⟨(parse target f).hdr.toHeaders, ⟨f.ingressPort, 0, 0, f.timestamp⟩⟩

/-- The bytes of the copy for one port. -/
def out (target : Target) (cfg : Config) (regs : Registers) (f : Frame) (port : BitVec 9) :
    List (BitVec 8) :=
  let parsed := parse target f
  let hdr := { parsed.hdr with toHeaders := (ingressState target cfg regs f).hdr }
  let hdr := packetioEgress port f.ingressPort parsed.metadata hdr
  let hdr := computeCk hdr
  toBytes (deparse hdr ++ parsed.packet)

/-- What the switch sends for a frame: ports with bytes. -/
def sent (target : Target) (cfg : Config) (regs : Registers) (f : Frame) :
    List (BitVec 9 × List (BitVec 8)) :=
  (egressPorts target (ingressState target cfg regs f).std).map fun port =>
    (port, out target cfg regs f port)

/-- The ingress control runs on the packet that `Frame.parse` describes. -/
lemma ingressState_eq (target : Target) (cfg : Config) (regs : Registers) (f : Frame) :
    ingressState target cfg regs f = process cfg regs f.parse := by
  rw [ingressState, toHeaders_parse]
  rfl

/-! ## The overflow flag -/

section Overflow

variable (s : ParserState)

lemma overflowFlag_parseTcp :
    (parseTcp s).metadata.overflowFlag = s.metadata.overflowFlag := by
  unfold parseTcp
  cases extract 160 s.packet <;> rfl

lemma overflowFlag_parseUdp :
    (parseUdp s).metadata.overflowFlag = s.metadata.overflowFlag := by
  unfold parseUdp
  cases extract 64 s.packet <;> rfl

lemma overflowFlag_parseIpv4 :
    (parseIpv4 s).metadata.overflowFlag = s.metadata.overflowFlag := by
  unfold parseIpv4
  cases extract 160 s.packet with
  | none => rfl
  | some r =>
      dsimp only
      split
      · exact overflowFlag_parseTcp _
      · split
        · exact overflowFlag_parseUdp _
        · rfl

lemma overflowFlag_parseEthernet :
    (parseEthernet s).metadata.overflowFlag = s.metadata.overflowFlag := by
  unfold parseEthernet
  cases extract 112 s.packet with
  | none => rfl
  | some r =>
      dsimp only
      split
      · exact overflowFlag_parseIpv4 _
      · rfl

/-- Nothing sets the flag that `packetio_egress` tests. -/
lemma overflowFlag_parse (target : Target) (f : Frame) :
    (parse target f).metadata.overflowFlag = 0 := by
  unfold parse parseStart
  split
  · unfold parsePacketOut
    dsimp only
    cases extract 32 f.bits with
    | none => rfl
    | some r => exact overflowFlag_parseEthernet _
  · exact overflowFlag_parseEthernet _

end Overflow
end Pipeline
end FlowClassifier
