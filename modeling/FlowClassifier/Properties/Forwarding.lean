import FlowClassifier.Switch.Cell
import FlowClassifier.Switch.Parser

/-!
# Forwarding drops nothing

A packet is to leave only when its lookup selects a port for it.  The port it leaves on is
`egress_spec`, which starts at zero, and nothing ever marks a packet to drop: the body of `drop` is
commented out, and a packet the control does not look up keeps its zero.  So a packet whose `ttl`
has run out, one whose lookup selects `drop` or nothing, and one without an IPv4 header leave on
port 0.

`forwardingSound_iff` says that forwarding is right exactly for the packets it looks up and finds a
port for.  These leave with a `ttl` one less, which never wraps.
-/

namespace FlowClassifier

/-- The value of `egress_spec` that marks a packet to drop. -/
def dropPort : BitVec 9 := 511

/-- The port a packet is transmitted on, after the control. -/
def State.transmitted (s : State) : Option (BitVec 9) :=
  if s.std.egressSpec = dropPort then none else some s.std.egressSpec

/-- A frame is transmitted only where the lookup of its destination sends it, with a `ttl` one less,
and not at all when its `ttl` has run out or the lookup drops it. -/
structure ForwardingSound (cfg : Config) (regs : Registers) (f : Frame) : Prop where
  forwarded : ∀ port, (process cfg regs f.parse).transmitted = some port →
    f.parse.hdr.ipv4.isValid = true ∧ f.parse.hdr.ipv4.ttl > 0 ∧
      (∃ dstAddr, ipv4LpmLookup cfg.tables f.parse.hdr.ipv4.dstAddr = .ipv4Forward dstAddr port) ∧
      (process cfg regs f.parse).hdr.ipv4.ttl.toNat + 1 = f.parse.hdr.ipv4.ttl.toNat
  expired : f.parse.hdr.ipv4.isValid = true → f.parse.hdr.ipv4.ttl = 0 →
    (process cfg regs f.parse).transmitted = none
  dropped : f.parse.hdr.ipv4.isValid = true →
    ipv4LpmLookup cfg.tables f.parse.hdr.ipv4.dstAddr = .drop →
      (process cfg regs f.parse).transmitted = none

/-- The lookup of a packet's destination finds a port, and is made. -/
def SelectsPort (t : Tables) (p : Packet) : Prop :=
  p.hdr.ipv4.isValid = true ∧ p.hdr.ipv4.ttl > 0 ∧
    ∃ dstAddr port, ipv4LpmLookup t p.hdr.ipv4.dstAddr = .ipv4Forward dstAddr port

/-! ## After forwarding -/

/-- A part of the control that leaves the headers and the standard metadata alone. -/
def KeepsPacket (g : State → State) : Prop := ∀ s, (g s).hdr = s.hdr ∧ (g s).std = s.std

section Keeps

variable (t : Tables) (d : Direction)

lemma KeepsPacket.comp {g h : State → State} (hg : KeepsPacket g) (hh : KeepsPacket h) :
    KeepsPacket fun s => g (h s) :=
  fun s => ⟨(hg (h s)).1.trans (hh s).1, (hg (h s)).2.trans (hh s).2⟩

lemma KeepsPacket.ite {c : State → Prop} [DecidablePred c] {g h : State → State}
    (hg : KeepsPacket g) (hh : KeepsPacket h) : KeepsPacket fun s => if c s then g s else h s := by
  intro s
  by_cases hc : c s
  · simp only [if_pos hc]
    exact hg s
  · simp only [if_neg hc]
    exact hh s

lemma keepsPacket_direc : KeepsPacket (direc t) := by
  intro s
  unfold direc
  split <;> exact ⟨rfl, rfl⟩

lemma keepsPacket_genHash (cfg : Config) (a b : BitVec 32) : KeepsPacket (genHash cfg a b) :=
  fun _ => ⟨rfl, rfl⟩

lemma keepsPacket_init : KeepsPacket (init d) := fun _ => ⟨rfl, rfl⟩

lemma keepsPacket_update : KeepsPacket (update d) := fun _ => ⟨rfl, rfl⟩

lemma keepsPacket_closeHalf :
    KeepsPacket fun s => writeLastMeans d (writeFeatures d (computeFeatures t d s)) := by
  have hcompute : KeepsPacket (computeFeatures t d) := by
    intro s
    rw [computeFeatures_eq]
    exact ⟨rfl, rfl⟩
  have hwrite : KeepsPacket (writeFeatures d) := by
    intro s
    simp only [writeFeatures, write12Bits, write32Bits, write48Bits, and_self]
  have hmeans : KeepsPacket (writeLastMeans d) := fun _ => ⟨rfl, rfl⟩
  exact hmeans.comp (hwrite.comp hcompute)

lemma keepsPacket_classify : KeepsPacket (classify t) := by
  intro s
  rw [classify_eq_actRules, actRules]
  split <;> exact ⟨rfl, rfl⟩

lemma keepsPacket_endWindow : KeepsPacket (endWindow t) := by
  have hindex : KeepsPacket fun s => write32Bits (BitVec.ofNat 32 s.trackMeta.mIndex) s :=
    fun _ => ⟨rfl, rfl⟩
  have hverdict : KeepsPacket fun s => write1Bit s.trackMeta.isCG s := fun _ => ⟨rfl, rfl⟩
  exact hverdict.comp ((keepsPacket_classify t).comp
    (hindex.comp ((keepsPacket_closeHalf t .UP).comp (keepsPacket_closeHalf t .DW))))

end Keeps

/-- What a packet leaves with is decided by forwarding alone. -/
lemma process_eq_forwarding (cfg : Config) (regs : Registers) (p : Packet) :
    let s := if p.hdr.ipv4.isValid = true ∧ p.hdr.ipv4.ttl > 0 then
      ipv4Forwarding cfg.tables (State.start regs p) else State.start regs p
    (process cfg regs p).hdr = s.hdr ∧ (process cfg regs p).std = s.std := by
  intro s
  unfold process ingress
  by_cases hip : p.hdr.ipv4.isValid = true ∧ p.hdr.ipv4.ttl > 0
  · have hs : s = ipv4Forwarding cfg.tables (State.start regs p) := if_pos hip
    have hip' : (State.start regs p).hdr.ipv4.isValid = true ∧
        (State.start regs p).hdr.ipv4.ttl > 0 := hip
    rw [if_pos hip', hs]
    simp only []
    split
    · -- the accounting of a UDP packet
      have hhash : KeepsPacket fun s =>
          if s.up then genHash cfg s.hdr.ipv4.srcAddr s.hdr.ipv4.dstAddr s
          else genHash cfg s.hdr.ipv4.dstAddr s.hdr.ipv4.srcAddr s := by
        intro s
        dsimp only
        split <;> exact keepsPacket_genHash cfg _ _ s
      have hclose : KeepsPacket fun s =>
          if s.trackMeta.mEndWin = 1 then endWindow cfg.tables s else s :=
        (keepsPacket_endWindow cfg.tables).ite fun _ => ⟨rfl, rfl⟩
      have hopen : KeepsPacket fun s => if s.up then initUP s else initDOWN s :=
        (keepsPacket_init .UP).ite (keepsPacket_init .DW)
      have hjoin : KeepsPacket fun s => if s.up then updateUP s else updateDOWN s :=
        (keepsPacket_update .UP).ite (keepsPacket_update .DW)
      have hbranch : KeepsPacket fun s =>
          if s.trackMeta.mEndWin = 1 ∨ s.trackMeta.mSwapSpace ≠ 0 ∨
              s.trackMeta.mFrstTimeInTable = 0 then
            (fun s => if s.up then initUP s else initDOWN s)
              (if s.trackMeta.mEndWin = 1 then endWindow cfg.tables s else s)
          else if s.up then updateUP s else updateDOWN s :=
        (hopen.comp hclose).ite hjoin
      exact (hbranch.comp (hhash.comp (keepsPacket_direc cfg.tables))) _
    · exact ⟨rfl, rfl⟩
  · have hs : s = State.start regs p := if_neg hip
    have hip' : ¬ ((State.start regs p).hdr.ipv4.isValid = true ∧
        (State.start regs p).hdr.ipv4.ttl > 0) := hip
    rw [if_neg hip', hs]
    exact ⟨rfl, rfl⟩

/-! ## Forwarding a frame -/

section Frames

variable {cfg : Config} {f : Frame}

lemma process_of_selects (regs : Registers) (hport : f.ingressPort ≠ cpuPort)
    (hvalid : f.parse.hdr.ipv4.isValid = true) (httl : f.parse.hdr.ipv4.ttl > 0)
    {dstAddr : BitVec 48} {port : BitVec 9}
    (hlookup : ipv4LpmLookup cfg.tables f.parse.hdr.ipv4.dstAddr = .ipv4Forward dstAddr port) :
    (process cfg regs f.parse).std.egressSpec = port ∧
      (process cfg regs f.parse).hdr.ipv4.ttl = f.parse.hdr.ipv4.ttl - 1 := by
  obtain ⟨hhdr, hstd⟩ := process_eq_forwarding cfg regs f.parse
  rw [if_pos ⟨hvalid, httl⟩] at hhdr hstd
  have hlpm : ipv4Forwarding cfg.tables (State.start regs f.parse) =
      ipv4Forward dstAddr port (State.start regs f.parse) := by
    have hvalid' : (State.start regs f.parse).hdr.ipv4.isValid = true := hvalid
    have hport' : ¬ (State.start regs f.parse).std.ingressPort = cpuPort := hport
    have hlookup' : ipv4LpmLookup cfg.tables (State.start regs f.parse).hdr.ipv4.dstAddr =
      .ipv4Forward dstAddr port := hlookup
    rw [ipv4Forwarding, if_pos hvalid', if_neg hport', ipv4Lpm, hlookup']
  rw [hhdr, hstd, hlpm]
  exact ⟨rfl, rfl⟩

/-- Any other packet leaves on port 0. -/
lemma transmitted_of_not_selectsPort (regs : Registers) (hport : f.ingressPort ≠ cpuPort)
    (hnot : ¬ SelectsPort cfg.tables f.parse) :
    (process cfg regs f.parse).transmitted = some 0 := by
  obtain ⟨-, hstd⟩ := process_eq_forwarding cfg regs f.parse
  have hstart : (State.start regs f.parse).std.egressSpec = 0 := rfl
  have hspec : (process cfg regs f.parse).std.egressSpec = 0 := by
    rw [hstd]
    split
    · rename_i hip
      have hvalid' : (State.start regs f.parse).hdr.ipv4.isValid = true := hip.1
      have hport' : ¬ (State.start regs f.parse).std.ingressPort = cpuPort := hport
      rw [ipv4Forwarding, if_pos hvalid', if_neg hport', ipv4Lpm]
      cases hlookup : ipv4LpmLookup cfg.tables (State.start regs f.parse).hdr.ipv4.dstAddr with
      | ipv4Forward dstAddr port => exact absurd ⟨hip.1, hip.2, dstAddr, port, hlookup⟩ hnot
      | drop => exact hstart
      | noAction => exact hstart
    · exact hstart
  rw [State.transmitted, hspec]
  decide

end Frames

/-- **Forwarding is sound for a frame precisely when its lookup selects a port.** -/
theorem forwardingSound_iff (cfg : Config) (regs : Registers) (f : Frame)
    (hport : f.ingressPort ≠ cpuPort) :
    ForwardingSound cfg regs f ↔ SelectsPort cfg.tables f.parse := by
  constructor
  · intro hsound
    by_contra hnot
    obtain ⟨hvalid, httl, ⟨dstAddr, hlookup⟩, -⟩ :=
      hsound.forwarded 0 (transmitted_of_not_selectsPort regs hport hnot)
    exact hnot ⟨hvalid, httl, dstAddr, 0, hlookup⟩
  · rintro ⟨hvalid, httl, dstAddr, port, hlookup⟩
    obtain ⟨hspec, hout⟩ := process_of_selects regs hport hvalid httl hlookup
    have hpos : 0 < f.parse.hdr.ipv4.ttl.toNat := httl
    refine ⟨fun port' hsent => ?_, fun _ hzero => ?_, fun _ hdrop => ?_⟩
    · rw [State.transmitted, hspec] at hsent
      split at hsent
      · exact absurd hsent (by simp)
      · refine ⟨hvalid, httl, ⟨dstAddr, by rw [hlookup, Option.some.inj hsent]⟩, ?_⟩
        have hone : (1 : BitVec 8).toNat ≤ f.parse.hdr.ipv4.ttl.toNat := hpos
        rw [hout, BitVec.toNat_sub_of_le hone]
        exact Nat.sub_add_cancel hpos
    · rw [hzero] at httl
      exact absurd httl (by decide)
    · rw [hlookup] at hdrop
      exact absurd hdrop (by simp)

/-- The datagram is for a host behind port 2. -/
theorem forwardingSound_iff_host :
    let cfg : Config :=
      ⟨fun _ _ => 0, { Tables.empty with ipv4Lpm := [(0xC0A80001, .ipv4Forward 2 2)] }⟩
    let f := udpFrame 5 32 [0x0F, 0xA0, 0x13, 0x88, 0, 12, 0, 0, 1, 2, 3, 4]
    ForwardingSound cfg Registers.zero f := by
  intro cfg f
  have hport : f.ingressPort ≠ cpuPort := by decide
  exact (forwardingSound_iff cfg Registers.zero f hport).2
    ⟨by decide +kernel, by decide +kernel, 2, 2, by decide +kernel⟩

/-- With an empty table the default action `drop` is selected, and the datagram leaves on port 0. -/
theorem not_forwardingSound_default :
    let cfg : Config := ⟨fun _ _ => 0, Tables.empty⟩
    let f := udpFrame 5 32 [0x0F, 0xA0, 0x13, 0x88, 0, 12, 0, 0, 1, 2, 3, 4]
    f.ingressPort ≠ cpuPort ∧ f.parse.hdr.ipv4.isValid = true ∧ f.parse.hdr.ipv4.ttl = 64 ∧
      ipv4LpmLookup cfg.tables f.parse.hdr.ipv4.dstAddr = .drop ∧
      (process cfg Registers.zero f.parse).transmitted = some 0 ∧
      ¬ ForwardingSound cfg Registers.zero f := by
  intro cfg f
  have hport : f.ingressPort ≠ cpuPort := by decide
  have hvalid : f.parse.hdr.ipv4.isValid = true := by decide +kernel
  have hdrop : ipv4LpmLookup cfg.tables f.parse.hdr.ipv4.dstAddr = .drop := rfl
  have hnot : ¬ SelectsPort cfg.tables f.parse := by
    rintro ⟨-, -, dstAddr, port, hlookup⟩
    rw [hdrop] at hlookup
    exact absurd hlookup (by simp)
  have hsent := transmitted_of_not_selectsPort Registers.zero hport hnot
  refine ⟨hport, hvalid, by decide +kernel, hdrop, hsent, fun hsound => ?_⟩
  have hnone := hsound.dropped hvalid hdrop
  rw [hsent] at hnone
  exact absurd hnone (by simp)

end FlowClassifier
