import FlowClassifier.Properties.Forwarding
import FlowClassifier.Properties.RoundTrip

/-!
# What leaves the switch

The ports and the bytes of every copy that is sent, as bytes of the frame that came in (`sent_eq`).
Forwarding overwrites the two Ethernet addresses and the `ttl`, the checksum control the checksum of
every IPv4 header, and the controller's port gets 33 bytes in front; the rest passes as it came,
options and payload included.

The checksum is computed from the fixed part of the header and never checked on arrival.  So the 20
bytes always verify, whatever the frame said before (`verifies_out`), and a receiver that also adds
up the options, as it has to, accepts the header only where these add up to nothing
(`verifies_options_iff`).
-/

namespace FlowClassifier

open Bits

/-! ## One field of a header -/

section Fields

lemma slice_fst {α : Type*} {l m : List α} {n : ℕ} (h : l.length = n) : slice 0 n (l ++ m) = l := by
  rw [slice_append_left (by omega), ← h, slice_zero_length]

lemma slice_snd {α : Type*} {l m : List α} {k n : ℕ} (hl : l.length = k) (hm : m.length = n) :
    slice k n (l ++ m) = m := by
  have h := slice_append_right 0 n l m
  rw [Nat.add_zero, hl] at h
  rw [h, ← hm, slice_zero_length]

lemma emit_addresses {e : Ethernet} (he : e.isValid = true) (dst : BitVec 48) :
    ({ e with srcAddr := e.dstAddr, dstAddr := dst } : Ethernet).emit =
      splice 0 (ofVec dst ++ slice 0 48 e.emit) e.emit := by
  have hemit : e.emit = ofVec e.dstAddr ++ ofVec e.srcAddr ++ ofVec e.etherType := by
    rw [Ethernet.emit, if_pos he]
  have hdst : slice 0 48 e.emit = ofVec e.dstAddr := by
    rw [hemit, List.append_assoc, slice_fst (length_ofVec _)]
  have hmid := splice_middle [] (ofVec dst ++ ofVec e.dstAddr)
    (ofVec e.dstAddr ++ ofVec e.srcAddr) (ofVec e.etherType) (by simp)
  rw [hdst, hemit]
  simp only [Ethernet.emit, he, if_true]
  exact hmid.symm

/-- The fields of an IPv4 header before its `ttl`. -/
def Ipv4.beforeTtl (ip : Ipv4) : List Bool :=
  ofVec ip.version ++ ofVec ip.ihl ++ ofVec ip.diffserv ++ ofVec ip.totalLen ++
    ofVec ip.identification ++ ofVec ip.flags ++ ofVec ip.fragOffset

/-- The two addresses of an IPv4 header. -/
def Ipv4.addresses (ip : Ipv4) : List Bool := ofVec ip.srcAddr ++ ofVec ip.dstAddr

lemma length_beforeTtl (ip : Ipv4) : ip.beforeTtl.length = 64 := by simp [Ipv4.beforeTtl]

lemma length_addresses (ip : Ipv4) : ip.addresses.length = 64 := by simp [Ipv4.addresses]

lemma emit_ipv4_eq (ip : Ipv4) (hip : ip.isValid = true) :
    ip.emit = ip.beforeTtl ++ ofVec ip.ttl ++
      (ofVec ip.protocol ++ ofVec ip.hdrChecksum ++ ip.addresses) := by
  simp [Ipv4.emit, hip, Ipv4.beforeTtl, Ipv4.addresses]

lemma emit_ttl {ip : Ipv4} (hip : ip.isValid = true) (ttl : BitVec 8) :
    ({ ip with ttl := ttl } : Ipv4).emit = splice 64 (ofVec ttl) ip.emit := by
  have hmid := splice_middle ip.beforeTtl (ofVec ttl) (ofVec ip.ttl)
    (ofVec ip.protocol ++ ofVec ip.hdrChecksum ++ ip.addresses) (by simp)
  rw [length_beforeTtl, ← emit_ipv4_eq ip hip] at hmid
  rw [hmid]
  exact emit_ipv4_eq { ip with ttl := ttl } hip

lemma emit_hdrChecksum {ip : Ipv4} (hip : ip.isValid = true) (ck : BitVec 16) :
    ({ ip with hdrChecksum := ck } : Ipv4).emit = splice 80 (ofVec ck) ip.emit := by
  have hpre : (ip.beforeTtl ++ ofVec ip.ttl ++ ofVec ip.protocol).length = 80 := by
    simp [length_beforeTtl]
  have hmid := splice_middle (ip.beforeTtl ++ ofVec ip.ttl ++ ofVec ip.protocol) (ofVec ck)
    (ofVec ip.hdrChecksum) ip.addresses (by simp)
  have hemit : ∀ u : BitVec 16, ({ ip with hdrChecksum := u } : Ipv4).emit =
      ip.beforeTtl ++ ofVec ip.ttl ++ ofVec ip.protocol ++ ofVec u ++ ip.addresses := by
    intro u
    rw [emit_ipv4_eq { ip with hdrChecksum := u } hip]
    simp only [List.append_assoc]
    rfl
  rw [hpre, ← hemit, ← hemit] at hmid
  exact hmid.symm

/-- The checksum is computed from the header without the checksum. -/
lemma ckFields_eq {ip : Ipv4} (hip : ip.isValid = true) :
    Pipeline.ckFields ip = slice 0 80 ip.emit ++ slice 96 64 ip.emit := by
  have hemit : ip.emit = ip.beforeTtl ++ ofVec ip.ttl ++ ofVec ip.protocol ++
      (ofVec ip.hdrChecksum ++ ip.addresses) := by
    rw [emit_ipv4_eq ip hip]
    simp only [List.append_assoc]
  have hpre : (ip.beforeTtl ++ ofVec ip.ttl ++ ofVec ip.protocol).length = 80 := by
    simp [length_beforeTtl]
  have hfront : slice 0 80 ip.emit = ip.beforeTtl ++ ofVec ip.ttl ++ ofVec ip.protocol := by
    rw [hemit, slice_fst hpre]
  have hback : slice 96 64 ip.emit = ip.addresses := by
    rw [hemit, ← List.append_assoc]
    exact slice_snd (by simp [length_beforeTtl]) (length_addresses ip)
  rw [hfront, hback]
  simp [Pipeline.ckFields, Ipv4.beforeTtl, Ipv4.addresses]

end Fields

/-! ## The bytes of a frame -/

/-- The bytes of a frame with the addresses and the `ttl` that forwarding gives it. -/
def Frame.forwarded (t : Tables) (f : Frame) : List (BitVec 8) :=
  if f.ingressPort ≠ cpuPort ∧ f.parse.hdr.ipv4.ttl > 0 then
    match ipv4LpmLookup t f.parse.hdr.ipv4.dstAddr with
    | .ipv4Forward dstAddr _ =>
        splice 22 [f.parse.hdr.ipv4.ttl - 1] (splice 0 (octets dstAddr ++ f.body.take 6) f.body)
    | .drop => f.body
    | .noAction => f.body
  else f.body

/-- The bytes of an IPv4 frame with the checksum of the fixed part of the header, which is computed
from the other 18 bytes of it. -/
def checksummed (bytes : List (BitVec 8)) : List (BitVec 8) :=
  splice 24 (octets (OnesComplement.checksum
    (Pipeline.words (slice 14 10 bytes ++ slice 26 8 bytes)))) bytes

/-- The bytes of a `packet_in` header of which only the ingress port was assigned. -/
def Target.packetInBytes (target : Target) (ingressPort : BitVec 9) : List (BitVec 8) :=
  toBytes ({ target.packetIn with
    isValid := true, ingressPort := ingressPort.setWidth 16 } : PacketIn).emit

section Bytes

variable {e : Ethernet} {ip : Ipv4} {tail : List Bool} {bytes : List (BitVec 8)}

lemma slice_ipv4 (he : e.isValid = true) (hip : ip.isValid = true) (start : ℕ) {n : ℕ}
    (hn : start + n ≤ 160) :
    slice (112 + start) n (e.emit ++ (ip.emit ++ tail)) = slice start n ip.emit := by
  have h := slice_append_right start n e.emit (ip.emit ++ tail)
  rw [length_emit_ethernet he] at h
  rw [h, slice_append_left (by rw [length_emit_ipv4 hip]; exact hn)]

lemma splice_ipv4 (he : e.isValid = true) (hip : ip.isValid = true) (start : ℕ) {new : List Bool}
    (hn : start + new.length ≤ 160) :
    splice (112 + start) new (e.emit ++ (ip.emit ++ tail)) =
      e.emit ++ (splice start new ip.emit ++ tail) := by
  have h := splice_append_left start new (ip.emit ++ tail) e.emit
  rw [length_emit_ethernet he] at h
  rw [h, splice_append_right tail (by rw [length_emit_ipv4 hip]; exact hn)]

/-- The new checksum in the bytes of the frame is the one in its header. -/
lemma ofBytes_checksummed (he : e.isValid = true) (hip : ip.isValid = true)
    (hbits : ofBytes bytes = e.emit ++ (ip.emit ++ tail)) :
    ofBytes (checksummed bytes) =
      e.emit ++ (({ ip with hdrChecksum := Pipeline.csum16 (Pipeline.ckFields ip) } : Ipv4).emit ++
        tail) := by
  have hfields : toBytes (Pipeline.ckFields ip) = slice 14 10 bytes ++ slice 26 8 bytes := by
    have hofBytes : ofBytes (slice 14 10 bytes ++ slice 26 8 bytes) = Pipeline.ckFields ip := by
      rw [ofBytes_append, ofBytes_slice, ofBytes_slice, hbits, ckFields_eq hip]
      exact congrArg₂ (· ++ ·) (slice_ipv4 he hip 0 (by decide))
        (slice_ipv4 he hip 96 (by decide))
    rw [← hofBytes, toBytes_ofBytes]
  rw [checksummed, ofBytes_splice, ofBytes_octets (n := 2) rfl, hbits, ← hfields,
    emit_hdrChecksum hip (Pipeline.csum16 (Pipeline.ckFields ip))]
  refine splice_ipv4 he hip 80 ?_
  rw [length_ofVec]
  decide

lemma ofBytes_rewritten (he : e.isValid = true) (hip : ip.isValid = true)
    (hbits : ofBytes bytes = e.emit ++ (ip.emit ++ tail)) (dst : BitVec 48) (ttl : BitVec 8) :
    ofBytes (splice 22 [ttl] (splice 0 (octets dst ++ bytes.take 6) bytes)) =
      ({ e with srcAddr := e.dstAddr, dstAddr := dst } : Ethernet).emit ++
        (({ ip with ttl := ttl } : Ipv4).emit ++ tail) := by
  have hold : ofBytes (bytes.take 6) = slice 0 48 e.emit := by
    rw [← take_ofBytes, hbits, slice, List.drop_zero,
      List.take_append_of_le_length (by rw [length_emit_ethernet he]; decide)]
  have hnew : (ofVec dst ++ slice 0 48 e.emit).length = 96 := by
    rw [List.length_append, length_ofVec, length_slice (by rw [length_emit_ethernet he]; decide)]
  have heth : splice 0 (ofVec dst ++ slice 0 48 e.emit) (e.emit ++ (ip.emit ++ tail)) =
      ({ e with srcAddr := e.dstAddr, dstAddr := dst } : Ethernet).emit ++ (ip.emit ++ tail) := by
    rw [splice_append_right _ (by rw [hnew, length_emit_ethernet he]; decide),
      emit_addresses he dst]
  have hone : ofBytes [ttl] = ofVec ttl := List.append_nil _
  rw [ofBytes_splice, ofBytes_splice, ofBytes_append, ofBytes_octets (n := 6) rfl, hold, hbits,
    hone, heth, emit_ttl hip ttl]
  refine splice_ipv4 (e := { e with srcAddr := e.dstAddr, dstAddr := dst }) he hip 64 ?_
  rw [length_ofVec]
  decide

end Bytes

/-! ## What is sent -/

section Sent

variable (target : Target) (cfg : Config) (regs : Registers) (f : Frame) (port : BitVec 9)

/-- The headers after the ingress control: those that came in, or those forwarding rewrote. -/
lemma hdr_ingressState_cases :
    let old := f.parse.hdr
    let new := (Pipeline.ingressState target cfg regs f).hdr
    new.udp = old.udp ∧ (f.ingressPort ≠ cpuPort → new.packetOut = old.packetOut) ∧
      ((new.ethernet = old.ethernet ∧ new.ipv4 = old.ipv4 ∧
        (old.ipv4.isValid = true → f.forwarded cfg.tables = f.body)) ∨
      ∃ dst, old.ipv4.isValid = true ∧ old.ipv4.ttl > 0 ∧
        new.ethernet = { old.ethernet with srcAddr := old.ethernet.dstAddr, dstAddr := dst } ∧
        new.ipv4 = { old.ipv4 with ttl := old.ipv4.ttl - 1 } ∧
        f.forwarded cfg.tables =
          splice 22 [old.ipv4.ttl - 1] (splice 0 (octets dst ++ f.body.take 6) f.body)) := by
  intro old new
  have hnew : new = _ := (congrArg State.hdr (Pipeline.ingressState_eq target cfg regs f)).trans
    (process_eq_forwarding cfg regs f.parse).1
  by_cases hip : f.parse.hdr.ipv4.isValid = true ∧ f.parse.hdr.ipv4.ttl > 0
  · rw [if_pos hip] at hnew
    have hvalid : (State.start regs f.parse).hdr.ipv4.isValid = true := hip.1
    rw [ipv4Forwarding, if_pos hvalid] at hnew
    by_cases hport : f.ingressPort = cpuPort
    · have hport' : (State.start regs f.parse).std.ingressPort = cpuPort := hport
      rw [if_pos hport'] at hnew
      rw [hnew]
      exact ⟨rfl, fun hne => absurd hport hne, .inl ⟨rfl, rfl, fun _ => if_neg fun h => h.1 hport⟩⟩
    · have hport' : ¬ (State.start regs f.parse).std.ingressPort = cpuPort := hport
      rw [if_neg hport', ipv4Lpm] at hnew
      unfold Frame.forwarded
      rw [if_pos ⟨hport, hip.2⟩]
      have hdst : (State.start regs f.parse).hdr.ipv4.dstAddr = f.parse.hdr.ipv4.dstAddr := rfl
      rw [hdst] at hnew
      cases hlookup : ipv4LpmLookup cfg.tables f.parse.hdr.ipv4.dstAddr with
      | ipv4Forward dst out =>
          rw [hlookup] at hnew
          rw [hnew]
          exact ⟨rfl, fun _ => rfl, .inr ⟨dst, hip.1, hip.2, rfl, rfl, rfl⟩⟩
      | drop =>
          rw [hlookup] at hnew
          rw [hnew]
          exact ⟨rfl, fun _ => rfl, .inl ⟨rfl, rfl, fun _ => rfl⟩⟩
      | noAction =>
          rw [hlookup] at hnew
          rw [hnew]
          exact ⟨rfl, fun _ => rfl, .inl ⟨rfl, rfl, fun _ => rfl⟩⟩
  · rw [if_neg hip] at hnew
    rw [hnew]
    exact ⟨rfl, fun _ => rfl, .inl ⟨rfl, rfl, fun hvalid =>
      if_neg fun h => hip ⟨hvalid, h.2⟩⟩⟩

/-- The egress control writes `packet_in` for the controller's port, and nothing else. -/
private lemma packetioEgress_spec {metadata : Metadata} (hflag : metadata.overflowFlag = 0)
    (hdr : AllHeaders) (hpi : hdr.packetIn = target.headers.packetIn) :
    let new := Pipeline.packetioEgress port f.ingressPort metadata hdr
    new.toHeaders = hdr.toHeaders ∧ new.tcp = hdr.tcp ∧
      toBytes new.packetIn.emit =
        if port = cpuPort then target.packetInBytes f.ingressPort else [] := by
  have hne : ¬ metadata.overflowFlag = 1 := by
    rw [hflag]
    decide
  intro new
  by_cases hport : port = cpuPort
  · simp only [new, Pipeline.packetioEgress, if_pos hport, if_neg hne, hpi, true_and]
    rfl
  · simp only [new, Pipeline.packetioEgress, if_neg hport, hpi, true_and]
    rfl

private lemma length_emit_packetIn (h : PacketIn) :
    h.emit.length = 8 * if h.isValid then 33 else 0 := by
  unfold PacketIn.emit
  split <;> simp

/-- The bytes of the copy for a port, as bytes of the frame. -/
def Frame.copy (target : Target) (t : Tables) (f : Frame) (port : BitVec 9) : List (BitVec 8) :=
  (if port = cpuPort then target.packetInBytes f.ingressPort else []) ++
    if f.parse.hdr.ipv4.isValid then checksummed (f.forwarded t) else f.body

private lemma deparse_computeCk (hdr : AllHeaders) :
    Pipeline.deparse (Pipeline.computeCk hdr) =
      hdr.packetIn.emit ++ (hdr.ethernet.emit ++ ((Pipeline.computeCk hdr).ipv4.emit ++
        (hdr.tcp.emit ++ hdr.udp.emit))) := by
  have hkeep : (Pipeline.computeCk hdr).packetIn = hdr.packetIn ∧
      (Pipeline.computeCk hdr).ethernet = hdr.ethernet ∧
      (Pipeline.computeCk hdr).tcp = hdr.tcp ∧ (Pipeline.computeCk hdr).udp = hdr.udp := by
    unfold Pipeline.computeCk
    split <;> exact ⟨rfl, rfl, rfl, rfl⟩
  obtain ⟨h1, h2, h3, h4⟩ := hkeep
  rw [Pipeline.deparse, h1, h2, h3, h4]
  simp only [List.append_assoc]

/-- From the Ethernet header on: the bytes forwarding gives the frame, with a new checksum. -/
private lemma toBytes_computeCk {hdr : AllHeaders} {tail : List Bool}
    (hip : hdr.ipv4 = (Pipeline.ingressState target cfg regs f).hdr.ipv4)
    (hethernet : f.parse.hdr.ipv4.isValid = true → f.parse.hdr.ethernet.isValid = true)
    (hbody : ofBytes f.body = f.parse.hdr.ethernet.emit ++ (f.parse.hdr.ipv4.emit ++ tail)) :
    toBytes ((Pipeline.ingressState target cfg regs f).hdr.ethernet.emit ++
        ((Pipeline.computeCk hdr).ipv4.emit ++ tail)) =
      if f.parse.hdr.ipv4.isValid then checksummed (f.forwarded cfg.tables) else f.body := by
  obtain ⟨-, -, hcases⟩ := hdr_ingressState_cases target cfg regs f
  set new := (Pipeline.ingressState target cfg regs f).hdr with hnew
  have hcompute : new.ipv4.isValid = true → (Pipeline.computeCk hdr).ipv4 =
      { new.ipv4 with hdrChecksum := Pipeline.csum16 (Pipeline.ckFields new.ipv4) } := by
    intro hvalid
    rw [Pipeline.computeCk, if_pos (by rw [hip]; exact hvalid), hip]
  rcases hcases with ⟨he, hi, hforwarded⟩ | ⟨dst, hvalid, -, he, hi, hforwarded⟩
  · by_cases hvalid : f.parse.hdr.ipv4.isValid = true
    · rw [if_pos hvalid, hforwarded hvalid, hcompute (by rw [hi]; exact hvalid), he, hi,
        ← ofBytes_checksummed (hethernet hvalid) hvalid hbody, toBytes_ofBytes]
    · have hck : (Pipeline.computeCk hdr).ipv4 = f.parse.hdr.ipv4 := by
        rw [Pipeline.computeCk, if_neg (by rw [hip, hi]; exact hvalid), hip, hi]
      rw [if_neg hvalid, hck, he, ← hbody, toBytes_ofBytes]
  · have hrewritten := ofBytes_rewritten (hethernet hvalid) hvalid hbody dst
      (f.parse.hdr.ipv4.ttl - 1)
    rw [← hforwarded, ← he, ← hi] at hrewritten
    have heNew : new.ethernet.isValid = true := by
      rw [he]
      exact hethernet hvalid
    have hiNew : new.ipv4.isValid = true := by
      rw [hi]
      exact hvalid
    rw [if_pos hvalid, hcompute hiNew, ← ofBytes_checksummed heNew hiNew hrewritten,
      toBytes_ofBytes]

lemma out_eq : Pipeline.out target cfg regs f port = f.copy target cfg.tables port := by
  obtain ⟨base, hb, hbase, hparsed, hbits⟩ := exists_parsed_parse target f
  have hold : (Pipeline.parse target f).hdr.toHeaders = f.parse.hdr :=
    Pipeline.toHeaders_parse target f
  have hpi : (Pipeline.parse target f).hdr.packetIn = target.headers.packetIn :=
    hparsed.packetIn.trans hbase
  have hpiEmit : (Pipeline.parse target f).hdr.packetIn.emit = [] := by rw [hpi]; rfl
  obtain ⟨hudp, -, -⟩ := hdr_ingressState_cases target cfg regs f
  obtain ⟨heg, htcp, hin⟩ := packetioEgress_spec target f port
    (Pipeline.overflowFlag_parse target f)
    { (Pipeline.parse target f).hdr with
      toHeaders := (Pipeline.ingressState target cfg regs f).hdr } hpi
  set parsed := Pipeline.parse target f with hparsedDef
  set new := (Pipeline.ingressState target cfg regs f).hdr with hnew
  set hdr := Pipeline.packetioEgress port f.ingressPort parsed.metadata
    { parsed.hdr with toHeaders := new } with hhdr
  have he : hdr.ethernet = new.ethernet := congrArg Headers.ethernet heg
  have hip : hdr.ipv4 = new.ipv4 := congrArg Headers.ipv4 heg
  have hu : hdr.udp = f.parse.hdr.udp := (congrArg Headers.udp heg).trans hudp
  -- the bits of the body and the bits that are sent, header by header
  have hbody : ofBytes f.body = f.parse.hdr.ethernet.emit ++ (f.parse.hdr.ipv4.emit ++
      (parsed.hdr.tcp.emit ++ (f.parse.hdr.udp.emit ++ parsed.packet))) := by
    rw [← hbits, Pipeline.deparse, hpiEmit, ← hold]
    simp only [List.nil_append, List.append_assoc]
  have hsent : Pipeline.deparse (Pipeline.computeCk hdr) ++ parsed.packet =
      hdr.packetIn.emit ++ (new.ethernet.emit ++ ((Pipeline.computeCk hdr).ipv4.emit ++
        (parsed.hdr.tcp.emit ++ (f.parse.hdr.udp.emit ++ parsed.packet)))) := by
    rw [deparse_computeCk, he, hu, htcp]
    simp only [List.append_assoc]
  have hethernet : f.parse.hdr.ipv4.isValid = true → f.parse.hdr.ethernet.isValid = true := by
    rw [← hold]
    exact hparsed.ethernet_of_ipv4 hb.ipv4
  have hout : Pipeline.out target cfg regs f port =
      toBytes (Pipeline.deparse (Pipeline.computeCk hdr) ++ parsed.packet) := rfl
  rw [hout, hsent, toBytes_append (length_emit_packetIn hdr.packetIn), hin,
    toBytes_computeCk target cfg regs f hip hethernet hbody, Frame.copy]

/-- The ports a frame is copied to: those the controller's header names, the one its lookup selects,
or port 0. -/
def Frame.ports (target : Target) (t : Tables) (f : Frame) : List (BitVec 9) :=
  let hdr := f.parse.hdr
  if hdr.ipv4.isValid = true ∧ hdr.ipv4.ttl > 0 then
    if f.ingressPort = cpuPort then
      if hdr.packetOut.mcastGrp ≠ 0 then target.groups hdr.packetOut.mcastGrp
      else if hdr.packetOut.egressPort.setWidth 9 = dropPort then []
      else [hdr.packetOut.egressPort.setWidth 9]
    else
      match ipv4LpmLookup t hdr.ipv4.dstAddr with
      | .ipv4Forward _ port => if port = dropPort then [] else [port]
      | .drop => [0]
      | .noAction => [0]
  else [0]

/-- The accounting moves no packet to another port. -/
lemma egressPorts_ingressState :
    Pipeline.egressPorts target (Pipeline.ingressState target cfg regs f).std =
      f.ports target cfg.tables := by
  have hstd := (process_eq_forwarding cfg regs f.parse).2
  rw [Pipeline.ingressState_eq, hstd]
  unfold Frame.ports
  by_cases hip : f.parse.hdr.ipv4.isValid = true ∧ f.parse.hdr.ipv4.ttl > 0
  · have hvalid : (State.start regs f.parse).hdr.ipv4.isValid = true := hip.1
    rw [if_pos hip, if_pos hip, ipv4Forwarding, if_pos hvalid]
    by_cases hport : f.ingressPort = cpuPort
    · have hport' : (State.start regs f.parse).std.ingressPort = cpuPort := hport
      rw [if_pos hport, if_pos hport']
      rfl
    · have hport' : ¬ (State.start regs f.parse).std.ingressPort = cpuPort := hport
      have hdst : (State.start regs f.parse).hdr.ipv4.dstAddr = f.parse.hdr.ipv4.dstAddr := rfl
      rw [if_neg hport, if_neg hport', ipv4Lpm, hdst]
      cases ipv4LpmLookup cfg.tables f.parse.hdr.ipv4.dstAddr with
      | ipv4Forward dst out => rfl
      | drop => rfl
      | noAction => rfl
  · rw [if_neg hip, if_neg hip]
    rfl

/-- **What the switch sends.**  The ports are decided by the frame and the forwarding table alone.
In front of the controller's copy stands a `packet_in` header of which only the ingress port is
assigned.  An IPv4 frame leaves with the addresses and the `ttl` that forwarding gives it and with a
new checksum; any other frame leaves as it came. -/
theorem sent_eq :
    Pipeline.sent target cfg regs f =
      (f.ports target cfg.tables).map fun port => (port, f.copy target cfg.tables port) := by
  rw [Pipeline.sent, egressPorts_ingressState]
  exact List.map_congr_left fun port _ => congrArg (Prod.mk port) (out_eq target cfg regs f port)

end Sent

/-! ## The checksum -/

section Checksum

lemma words_append {n : ℕ} {l : List (BitVec 8)} (h : l.length = 2 * n) (m : List (BitVec 8)) :
    Pipeline.words (l ++ m) = Pipeline.words l ++ Pipeline.words m := by
  induction n generalizing l with
  | zero =>
      rw [List.length_eq_zero_iff.1 h]
      rfl
  | succ n ih =>
      match l, h with
      | a :: b :: l, h =>
          rw [List.cons_append, List.cons_append, Pipeline.words, Pipeline.words,
            ih (by simp only [List.length_cons] at h; omega), List.cons_append]

lemma words_octets_append (v : BitVec 16) (bytes : List (BitVec 8)) :
    Pipeline.words (octets v ++ bytes) = v :: Pipeline.words bytes := by
  obtain ⟨a, b, hab⟩ := List.length_eq_two.1 (length_octets (n := 2) rfl v)
  have hbits := ofBytes_octets (n := 2) rfl v
  have hvec : a ++ b = v := by
    rw [hab, ofBytes_cons, ofBytes_cons, ofBytes_nil, List.append_nil, ← ofVec_append] at hbits
    exact ofVec_inj.1 hbits
  rw [hab, List.cons_append, List.cons_append, List.nil_append, Pipeline.words, hvec]

variable {bytes : List (BitVec 8)}

lemma slice_checksummed (hlen : 34 ≤ bytes.length) :
    slice 14 20 (checksummed bytes) =
      slice 14 10 bytes ++ (octets (OnesComplement.checksum
        (Pipeline.words (slice 14 10 bytes) ++ Pipeline.words (slice 26 8 bytes))) ++
          slice 26 8 bytes) := by
  have hten : (slice 14 10 bytes).length = 2 * 5 := length_slice (by omega)
  set ck := OnesComplement.checksum
    (Pipeline.words (slice 14 10 bytes) ++ Pipeline.words (slice 26 8 bytes)) with hck
  have hsplice : checksummed bytes = splice 24 (octets ck) bytes := by
    rw [checksummed, words_append hten, hck]
  have htwo : (octets ck).length = 2 := length_octets (n := 2) rfl ck
  have hfit : 24 + (octets ck).length ≤ bytes.length := by omega
  have hfront : slice 14 10 (splice 24 (octets ck) bytes) = slice 14 10 bytes := by
    rw [slice, slice, List.take_drop, take_splice (by omega) hfit, ← List.take_drop]
  have hmid : slice 24 2 (splice 24 (octets ck) bytes) = octets ck := by
    have hpre : (bytes.take 24).length = 24 := by
      rw [List.length_take]
      omega
    rw [splice, slice_append_left (by rw [List.length_append, hpre, htwo])]
    exact slice_snd hpre htwo
  have hback : slice 26 8 (splice 24 (octets ck) bytes) = slice 26 8 bytes := by
    rw [slice, slice, drop_splice (by omega) hfit]
  rw [hsplice, ← slice_append_slice 14 10 10, ← slice_append_slice 24 2 8, hfront, hmid, hback]

lemma verifies_checksummed (hlen : 34 ≤ bytes.length) :
    OnesComplement.Verifies (Pipeline.words (slice 14 20 (checksummed bytes))) := by
  have hten : (slice 14 10 bytes).length = 2 * 5 := length_slice (by omega)
  rw [slice_checksummed hlen, words_append hten, words_octets_append]
  exact OnesComplement.verifies_checksum (by decide) _ _

variable {target : Target} {cfg : Config} {regs : Registers} {f : Frame} {port : BitVec 9}

lemma le_length_body (target : Target) (hvalid : f.parse.hdr.ipv4.isValid = true) :
    34 ≤ f.body.length := by
  obtain ⟨base, hb, -, hparsed, hbits⟩ := exists_parsed_parse target f
  rw [← Pipeline.toHeaders_parse target f] at hvalid
  have he := length_emit_ethernet (hparsed.ethernet_of_ipv4 hb.ipv4 hvalid)
  have hi := length_emit_ipv4 hvalid
  have hlen := congrArg List.length hbits
  simp only [Pipeline.deparse, List.length_append, length_ofBytes] at hlen
  omega

/-- Forwarding changes no length, and nothing behind the first 34 bytes. -/
lemma forwarded_spec (t : Tables) (hlen : 34 ≤ f.body.length) :
    (f.forwarded t).length = f.body.length ∧ (f.forwarded t).drop 34 = f.body.drop 34 := by
  unfold Frame.forwarded
  split
  · split
    · rename_i dst _ _
      have hnew : (octets dst ++ f.body.take 6).length = 12 := by
        rw [List.length_append, length_octets (n := 6) rfl, List.length_take_of_le (by omega)]
      have hinner : (splice 0 (octets dst ++ f.body.take 6) f.body).length = f.body.length :=
        length_splice (by omega)
      have hfit : 22 + [f.parse.hdr.ipv4.ttl - 1].length ≤
          (splice 0 (octets dst ++ f.body.take 6) f.body).length := by
        rw [hinner, List.length_singleton]
        omega
      refine ⟨(length_splice hfit).trans hinner, ?_⟩
      rw [drop_splice (by rw [List.length_singleton]; omega) hfit,
        drop_splice (by omega) (by omega)]
    · exact ⟨rfl, rfl⟩
    · exact ⟨rfl, rfl⟩
  · exact ⟨rfl, rfl⟩

lemma length_packetInBytes (ingressPort : BitVec 9) :
    (target.packetInBytes ingressPort).length = 33 := by
  have hbits := ofBytes_toBytes (length_emit_packetIn ({ target.packetIn with
    isValid := true, ingressPort := ingressPort.setWidth 16 } : PacketIn))
  have hlen := congrArg List.length hbits
  rw [length_ofBytes, length_emit_packetIn] at hlen
  simp only [if_true] at hlen
  exact Nat.eq_of_mul_eq_mul_left (by decide) hlen

/-- The part of a copy behind the `packet_in` header that the controller's copy has in front. -/
lemma drop_out (target : Target) (cfg : Config) (regs : Registers) (f : Frame) (port : BitVec 9) :
    (Pipeline.out target cfg regs f port).drop (if port = cpuPort then 33 else 0) =
      if f.parse.hdr.ipv4.isValid then checksummed (f.forwarded cfg.tables) else f.body := by
  rw [out_eq, Frame.copy]
  by_cases hport : port = cpuPort
  · rw [if_pos hport, if_pos hport, List.drop_left' (length_packetInBytes _)]
  · rw [if_neg hport, if_neg hport, List.nil_append, List.drop_zero]

/-- **Every IPv4 header that is sent verifies**, whatever checksum the frame came with: the fixed 20
bytes add up to all ones. -/
theorem verifies_out (target : Target) (cfg : Config) (regs : Registers) (port : BitVec 9)
    (hvalid : f.parse.hdr.ipv4.isValid = true) :
    OnesComplement.Verifies (Pipeline.words (slice 14 20
      ((Pipeline.out target cfg regs f port).drop (if port = cpuPort then 33 else 0)))) := by
  have hlen := le_length_body target hvalid
  obtain ⟨hsame, -⟩ := forwarded_spec cfg.tables hlen
  rw [drop_out, if_pos hvalid]
  exact verifies_checksummed (by omega)

/-- **A header with options verifies only by accident.**  A receiver adds up all `4 * ihl` bytes of
the header; it accepts exactly when the options, which the switch does not count, add up to
nothing. -/
theorem verifies_options_iff (target : Target) (cfg : Config) (regs : Registers) (port : BitVec 9)
    (hvalid : f.parse.hdr.ipv4.isValid = true) {ihl : ℕ} (hihl : 5 ≤ ihl) :
    OnesComplement.Verifies (Pipeline.words (slice 14 (4 * ihl)
        ((Pipeline.out target cfg regs f port).drop (if port = cpuPort then 33 else 0)))) ↔
      OnesComplement.sum (Pipeline.words (slice 34 (4 * ihl - 20) f.body)) = 0 ∨
        OnesComplement.sum (Pipeline.words (slice 34 (4 * ihl - 20) f.body)) =
          BitVec.allOnes 16 := by
  have hlen := le_length_body target hvalid
  obtain ⟨hsame, hrest⟩ := forwarded_spec cfg.tables hlen
  have hsplit : slice 14 (4 * ihl) (checksummed (f.forwarded cfg.tables)) =
      slice 14 20 (checksummed (f.forwarded cfg.tables)) ++ slice 34 (4 * ihl - 20) f.body := by
    have hoptions : slice 34 (4 * ihl - 20) (checksummed (f.forwarded cfg.tables)) =
        slice 34 (4 * ihl - 20) f.body := by
      rw [slice, slice, ← hrest, checksummed, drop_splice _ _]
      · rw [length_octets (n := 2) rfl]
        decide
      · rw [length_octets (n := 2) rfl]
        omega
    rw [← hoptions, slice_append_slice 14 20]
    congr 1
    omega
  have htwenty : (slice 14 20 (checksummed (f.forwarded cfg.tables))).length = 2 * 10 := by
    rw [slice_checksummed (by omega), List.length_append, List.length_append,
      length_octets (n := 2) rfl, length_slice (by omega), length_slice (by omega)]
  rw [drop_out, if_pos hvalid, hsplit, words_append htwenty]
  exact OnesComplement.verifies_append_iff (by decide) (verifies_checksummed (by omega)) _

end Checksum

/-- A datagram to a host behind port 2 leaves with a header that verifies, although it came with the
checksum zero. -/
theorem verifies_out_udp :
    let cfg : Config :=
      ⟨fun _ _ => 0, { Tables.empty with ipv4Lpm := [(0xC0A80001, .ipv4Forward 2 2)] }⟩
    let f := udpFrame 5 32 [0x0F, 0xA0, 0x13, 0x88, 0, 12, 0, 0, 1, 2, 3, 4]
    OnesComplement.Verifies (Pipeline.words (slice 14 20
      ((Pipeline.out Target.zero cfg Registers.zero f 2).drop
        (if (2 : BitVec 9) = cpuPort then 33 else 0)))) := by
  intro cfg f
  exact verifies_out Target.zero cfg Registers.zero 2 (by decide +kernel)

/-- With four bytes of options, all "no operation", no receiver accepts it. -/
theorem not_verifies_options_nop :
    let cfg : Config :=
      ⟨fun _ _ => 0, { Tables.empty with ipv4Lpm := [(0xC0A80001, .ipv4Forward 2 2)] }⟩
    let f := udpFrame 6 36 [1, 1, 1, 1, 0x0F, 0xA0, 0x13, 0x88, 0, 12, 0, 0, 1, 2, 3, 4]
    ¬ OnesComplement.Verifies (Pipeline.words (slice 14 (4 * 6)
      ((Pipeline.out Target.zero cfg Registers.zero f 2).drop
        (if (2 : BitVec 9) = cpuPort then 33 else 0)))) := by
  intro cfg f hverifies
  have hsum := (verifies_options_iff Target.zero cfg Registers.zero 2 (f := f)
    (by decide +kernel) (by decide)).1 hverifies
  exact absurd hsum (by decide +kernel)

end FlowClassifier
