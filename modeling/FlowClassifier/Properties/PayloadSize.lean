import FlowClassifier.Properties.CollisionTest
import FlowClassifier.Switch.Parser

/-!
# The size a datagram is charged with

The size is the total length less the smallest IPv4 and UDP headers, in 16 bits.  The header length
field plays no part in it: a datagram with IPv4 options is charged with its options too, and one
whose total length is below 28 with a size close to `2 ^ 16`.

`chargesPayload_iff` says that these are the only frames, among those the parser takes for UDP,
that are not charged with their payload.
-/

namespace FlowClassifier

/-- The bytes of an IPv4 header as its length field has them, and of the UDP header. -/
def Ipv4.headerBytes (ip : Ipv4) : ℕ := 4 * ip.ihl.toNat + 8

/-- The flow registers agree; the debug arrays may differ. -/
structure SameFlows (r r' : Registers) : Prop where
  flowTracker : r.flowTracker = r'.flowTracker
  flowFrstTime : r.flowFrstTime = r'.flowFrstTime
  bank : r.bank = r'.bank

/-- A packet is charged with the payload its lengths announce, and with nothing when they do not
fit each other. -/
structure ChargesPayload (cfg : Config) (regs : Registers) (p : Packet) : Prop where
  charged : p.hdr.ipv4.headerBytes ≤ p.hdr.ipv4.totalLen.toNat → p.IsUdp →
    (process cfg regs p).siz.toNat = p.hdr.ipv4.totalLen.toNat - p.hdr.ipv4.headerBytes
  ignored : p.hdr.ipv4.totalLen.toNat < p.hdr.ipv4.headerBytes →
    SameFlows (process cfg regs p).regs regs

lemma not_sameFlows_zero (cfg : Config) {p : Packet} (h : p.IsUdp) :
    ¬ SameFlows (process cfg Registers.zero p).regs Registers.zero := by
  intro hsame
  have hopens : (Registers.zero.cell (flowIndex cfg p)).Opens p := Or.inr (Or.inr rfl)
  have hown := (restarts_of_opens h hopens).own
  have hzero : (Registers.zero.bank (flowDir cfg.tables p)).nbelem.read (flowIndex cfg p) = 0 := rfl
  rw [hsame.bank, hzero] at hown
  exact absurd hown (by decide)

/-- **A frame is charged with its payload**, whatever the registers and tables, precisely when its
`ttl` keeps it from being accounted, or it has no IPv4 options and room for both headers. -/
theorem chargesPayload_iff (f : Frame) (hudp : f.parse.hdr.udp.isValid = true) :
    (∀ cfg regs, ChargesPayload cfg regs f.parse) ↔
      f.parse.hdr.ipv4.ttl = 0 ∨
        (f.parse.hdr.ipv4.ihl = 5 ∧ 28 ≤ f.parse.hdr.ipv4.totalLen.toNat) := by
  have hvalid := (isValid_udp_parse hudp).1
  generalize f.parse = p at hudp hvalid ⊢
  have hsiz := toNat_siz_eq p
  have hihl := p.hdr.ipv4.ihl.isLt
  have hlen := p.hdr.ipv4.totalLen.isLt
  by_cases httl : p.hdr.ipv4.ttl = 0
  · -- The control does not account the packet.
    have hnot : ¬ p.IsUdp := fun h => absurd h.2.1 (by simp [httl])
    refine iff_of_true (fun cfg regs => ⟨fun _ h => absurd h hnot, fun _ => ?_⟩) (Or.inl httl)
    rw [(process_of_not_isUdp cfg regs hnot).1]
    exact ⟨rfl, rfl, rfl⟩
  · have hpos : p.hdr.ipv4.ttl > 0 := by
      rw [gt_iff_lt, BitVec.lt_def]
      exact Nat.pos_of_ne_zero (toNat_ne_zero httl)
    have hp : p.IsUdp := ⟨hvalid, hpos, hudp⟩
    simp only [httl, false_or]
    constructor
    · intro hcharges
      obtain ⟨hcharged, hignored⟩ := hcharges ⟨fun _ _ => 0, Tables.empty⟩ Registers.zero
      have hfits : p.hdr.ipv4.headerBytes ≤ p.hdr.ipv4.totalLen.toNat := by
        by_contra hgt
        exact not_sameFlows_zero _ hp (hignored (by omega))
      have heq := hcharged hfits hp
      rw [siz_process _ _ hp, hsiz] at heq
      unfold Ipv4.headerBytes at hfits heq
      have hfive : p.hdr.ipv4.ihl.toNat = 5 := by omega
      exact ⟨BitVec.eq_of_toNat_eq hfive, by omega⟩
    · rintro ⟨hfive, hroom⟩ cfg regs
      have hbytes : p.hdr.ipv4.headerBytes = 28 := by
        rw [Ipv4.headerBytes, hfive]
        rfl
      refine ⟨fun _ _ => ?_, fun hlt => absurd hroom (by omega)⟩
      rw [siz_process cfg regs hp, hsiz, hbytes]
      omega

/-- A datagram with four bytes of payload and no options. -/
theorem chargesPayload_iff_four_bytes :
    let f := udpFrame 5 32 [0x0F, 0xA0, 0x13, 0x88, 0, 12, 0, 0, 1, 2, 3, 4]
    f.parse.hdr.udp.isValid = true ∧ ∀ cfg regs, ChargesPayload cfg regs f.parse := by
  intro f
  have hudp : f.parse.hdr.udp.isValid = true := by decide +kernel
  exact ⟨hudp, (chargesPayload_iff f hudp).2 (Or.inr (by decide +kernel))⟩

/-- With four bytes of options and no payload the size is four, and with a total length of 20 it is
65528. -/
theorem not_chargesPayload_options :
    let options := udpFrame 6 32 [1, 1, 1, 0, 0x0F, 0xA0, 0x13, 0x88, 0, 8, 0, 0]
    let short := udpFrame 5 20 [0x0F, 0xA0, 0x13, 0x88, 0, 8, 0, 0]
    let cfg : Config := ⟨fun _ _ => 0, Tables.empty⟩
    (options.parse.hdr.udp.isValid = true ∧ options.parse.hdr.ipv4.ihl = 6 ∧
        options.parse.hdr.ipv4.totalLen = 32 ∧ options.parse.hdr.ipv4.fragOffset = 0 ∧
        (process cfg Registers.zero options.parse).siz = 4 ∧
        ¬ ∀ cfg regs, ChargesPayload cfg regs options.parse) ∧
      short.parse.hdr.udp.isValid = true ∧ short.parse.hdr.ipv4.ihl = 5 ∧
        short.parse.hdr.ipv4.totalLen = 20 ∧ short.parse.hdr.ipv4.fragOffset = 0 ∧
        (process cfg Registers.zero short.parse).siz = 65528 ∧
        ¬ ∀ cfg regs, ChargesPayload cfg regs short.parse := by
  intro options short cfg
  have hoptions : options.parse.hdr.ipv4.ihl = 6 ∧ options.parse.hdr.ipv4.totalLen = 32 ∧
      options.parse.IsUdp ∧ (process cfg Registers.zero options.parse).siz = 4 := by
    decide +kernel
  have hshort : short.parse.hdr.ipv4.ihl = 5 ∧ short.parse.hdr.ipv4.totalLen = 20 ∧
      short.parse.IsUdp ∧ (process cfg Registers.zero short.parse).siz = 65528 := by
    decide +kernel
  obtain ⟨hihl, hlen, hp, hsiz⟩ := hoptions
  obtain ⟨hihl', hlen', hp', hsiz'⟩ := hshort
  refine ⟨⟨hp.2.2, hihl, hlen, by decide +kernel, hsiz, fun hcharges => ?_⟩,
    hp'.2.2, hihl', hlen', by decide +kernel, hsiz', fun hcharges => ?_⟩
  · have hroom : options.parse.hdr.ipv4.headerBytes ≤ options.parse.hdr.ipv4.totalLen.toNat := by
      rw [Ipv4.headerBytes, hihl, hlen]
      decide
    have heq := (hcharges cfg Registers.zero).charged hroom hp
    rw [hsiz, hlen, Ipv4.headerBytes, hihl] at heq
    exact absurd heq (by decide)
  · have hsame := (hcharges cfg Registers.zero).ignored
      (by rw [Ipv4.headerBytes, hihl', hlen']; decide)
    exact not_sameFlows_zero cfg hp' hsame

end FlowClassifier
