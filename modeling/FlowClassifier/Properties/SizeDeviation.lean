import Mathlib.Algebra.Order.BigOperators.Group.List
import Mathlib.Algebra.Order.Ring.Int
import Mathlib.Algebra.Order.Ring.Nat
import FlowClassifier.Properties.WindowedFold

/-!
# The size statistics can wrap

The sum of the sizes and the sum of their squared distances from the mean of the window before are
kept in 32 bits.  The first fits whatever arrives, because a window has at most 4095 packets of at
most 65507 bytes.  The second does not: two packets of 65507 bytes after a window with a mean of
one byte already exceed it.

`sizeStatisticsExact_iff` says that this is the only way in which the registers of a run differ
from the integers they stand for.
-/

namespace FlowClassifier

open Windows

/-- The bytes of a datagram after an IPv4 header without options and the UDP header. -/
def Packet.payloadLen (p : Packet) : ℕ := p.hdr.ipv4.totalLen.toNat - 28

/-- The sum of the squared distances of payload lengths from a mean. -/
def payloadDev (mu : ℕ) (ps : List Packet) : ℤ :=
  (ps.map fun p => ((p.payloadLen : ℤ) - mu) ^ 2).sum

/-- In every state of a run the size registers are the integers they stand for: the sum of the
payload lengths in the open window, and the sum of their squared distances from the stored mean,
if there is one. -/
structure SizeStatisticsExact (cfg : Config) (ps : List Packet) : Prop where
  sum : ∀ pre post, ps = pre ++ post → ∀ i d,
    (((switchRun cfg pre).cell i).half d).sumSZE.toNat =
      ((openIn cfg i d pre).map Packet.payloadLen).sum
  deviation : ∀ pre post, ps = pre ++ post → ∀ i d,
    let h := ((switchRun cfg pre).cell i).half d
    h.lstMuSZE ≠ 0 → (h.dltSZE.toNat : ℤ) = payloadDev h.lstMuSZE.toNat (openIn cfg i d pre)

/-- In every state of a run the squared distances from the stored mean add up to less than
`2 ^ 32`. -/
def DeviationFits (cfg : Config) (ps : List Packet) : Prop :=
  ∀ pre post, ps = pre ++ post → ∀ i d,
    let h := ((switchRun cfg pre).cell i).half d
    h.lstMuSZE ≠ 0 → payloadDev h.lstMuSZE.toNat (openIn cfg i d pre) < 2 ^ 32

/-! ## Sizes as integers -/

lemma toNat_siz {p : Packet} (h : 28 ≤ p.hdr.ipv4.totalLen.toNat) :
    p.siz.toNat = p.payloadLen := by
  have hlt := p.hdr.ipv4.totalLen.isLt
  rw [toNat_siz_eq, Packet.payloadLen]
  omega

lemma payloadLen_lt (p : Packet) : p.payloadLen < 65536 := by
  have hlt := p.hdr.ipv4.totalLen.isLt
  unfold Packet.payloadLen
  omega

lemma sizes_eq {ps : List Packet} (h : ∀ p ∈ ps, 28 ≤ p.hdr.ipv4.totalLen.toNat) :
    sizes ps = (ps.map Packet.payloadLen).sum :=
  congrArg List.sum (List.map_congr_left fun p hp => toNat_siz (h p hp))

lemma sqDev_siz {ps : List Packet} (h : ∀ p ∈ ps, 28 ≤ p.hdr.ipv4.totalLen.toNat)
    (mu : BitVec 32) : sqDev mu (ps.map Packet.siz) = payloadDev mu.toNat ps := by
  unfold sqDev payloadDev
  rw [List.map_map]
  refine congrArg List.sum (List.map_congr_left fun p hp => ?_)
  rw [Function.comp_apply, toNat_siz (h p hp)]

lemma payloadDev_nonneg (mu : ℕ) (ps : List Packet) : 0 ≤ payloadDev mu ps := by
  refine List.sum_nonneg fun x hx => ?_
  obtain ⟨p, -, rfl⟩ := List.mem_map.1 hx
  exact sq_nonneg _

lemma sum_payloadLen_lt {ps : List Packet} (h : ps.length ≤ 4095) :
    (ps.map Packet.payloadLen).sum < 2 ^ 32 := by
  have hbound : (ps.map Packet.payloadLen).sum ≤ (ps.map Packet.payloadLen).length • 65535 := by
    refine List.sum_le_card_nsmul _ _ fun n hn => ?_
    obtain ⟨p, -, rfl⟩ := List.mem_map.1 hn
    exact Nat.le_of_lt_succ (payloadLen_lt p)
  rw [List.length_map, smul_eq_mul] at hbound
  omega

/-! ## The registers -/

section Run

variable {cfg : Config} {ps : List Packet}

/-- The size registers of one state, as integers reduced to 32 bits. -/
private lemma sizeRegisters_eq (hudp : ∀ p ∈ ps, p.IsUdp)
    (hlen : ∀ p ∈ ps, 28 ≤ p.hdr.ipv4.totalLen.toNat) (hpos : ∀ p ∈ ps, p.time ≠ 0)
    (hmono : ps.Pairwise fun p q => p.time ≤ q.time) (i : Fin 1024) (d : Direction) :
    let h := ((switchRun cfg ps).cell i).half d
    h.sumSZE = BitVec.ofNat 32 ((openIn cfg i d ps).map Packet.payloadLen).sum ∧
      (h.lstMuSZE ≠ 0 →
        h.dltSZE = BitVec.ofInt 32 (payloadDev h.lstMuSZE.toNat (openIn cfg i d ps))) := by
  intro h
  have hlen' : ∀ p ∈ openIn cfg i d ps, 28 ≤ p.hdr.ipv4.totalLen.toNat :=
    fun p hp => hlen p (mem_of_mem_openIn hp)
  have hfeed : h = h.clear.feed (openIn cfg i d ps) := half_switchRun cfg i d hudp hpos hmono
  have hsum := Half.sumSZE_feed_clear h (openIn cfg i d ps)
  have hdlt := Half.dltSZE_feed_clear h (openIn cfg i d ps)
  rw [← hfeed] at hsum hdlt
  rw [sizes_eq hlen'] at hsum
  refine ⟨hsum, fun hmu => ?_⟩
  rw [hdlt, if_neg hmu, sqDev_siz hlen']

/-- **The size statistics of a run are exact precisely when the deviation fits.** -/
theorem sizeStatisticsExact_iff (cfg : Config) (ps : List Packet) (hudp : ∀ p ∈ ps, p.IsUdp)
    (hlen : ∀ p ∈ ps, 28 ≤ p.hdr.ipv4.totalLen.toNat) (hpos : ∀ p ∈ ps, p.time ≠ 0)
    (hmono : ps.Pairwise fun p q => p.time ≤ q.time)
    (hcount : ∀ pre post, ps = pre ++ post → ∀ i d, (openIn cfg i d pre).length ≤ 4095) :
    SizeStatisticsExact cfg ps ↔ DeviationFits cfg ps := by
  have hregs : ∀ pre post, ps = pre ++ post → ∀ i d,
      let h := ((switchRun cfg pre).cell i).half d
      h.sumSZE = BitVec.ofNat 32 ((openIn cfg i d pre).map Packet.payloadLen).sum ∧
        (h.lstMuSZE ≠ 0 →
          h.dltSZE = BitVec.ofInt 32 (payloadDev h.lstMuSZE.toNat (openIn cfg i d pre))) := by
    intro pre post heq
    have hmem : ∀ p ∈ pre, p ∈ ps := fun p hp => heq ▸ List.mem_append_left post hp
    rw [heq] at hmono
    exact sizeRegisters_eq (fun p hp => hudp p (hmem p hp)) (fun p hp => hlen p (hmem p hp))
      (fun p hp => hpos p (hmem p hp)) (List.pairwise_append.1 hmono).1
  constructor
  · intro hexact pre post heq i d h hmu
    have hdlt := (hregs pre post heq i d).2 hmu
    have hval := hexact.deviation pre post heq i d hmu
    rw [hdlt] at hval
    exact (toNat_ofInt_eq_iff (payloadDev_nonneg _ _)).1 hval
  · intro hfits
    constructor
    · intro pre post heq i d
      have hlt := sum_payloadLen_lt (hcount pre post heq i d)
      rw [(hregs pre post heq i d).1, BitVec.toNat_ofNat, Nat.mod_eq_of_lt hlt]
    · intro pre post heq i d h hmu
      rw [(hregs pre post heq i d).2 hmu]
      exact (toNat_ofInt_eq_iff (payloadDev_nonneg _ _)).2 (hfits pre post heq i d hmu)

end Run

/-- A download with a small packet between two of the usual size. -/
theorem sizeStatisticsExact_iff_download :
    let cfg : Config :=
      { hash := fun a _ => Fin.ofNat 1024 (a.toNat % 1024)
        tables := { Tables.empty with
          direc := [0xC0A8]
          divide := fun _ => [⟨1, 1, 1, ⟨0, 255, 255⟩⟩] } }
    let ps := [udpPacket 0x0A000002 0xC0A80001 1400 1000,
      udpPacket 0x0A000002 0xC0A80001 40 40000,
      udpPacket 0x0A000002 0xC0A80001 1400 41000]
    SizeStatisticsExact cfg ps := by
  intro cfg ps
  have hindex : ∀ p ∈ ps, flowIndex cfg p = 1 := by decide
  refine (sizeStatisticsExact_iff cfg ps ?_ (by decide) (by decide) (by decide) ?_).2 ?_
  · intro p hp
    simp only [ps, List.mem_cons, List.not_mem_nil, or_false] at hp
    rcases hp with rfl | rfl | rfl <;> exact isUdp_udpPacket ..
  · intro pre post heq i d
    have hlen : pre.length ≤ ps.length := by simp [heq]
    exact le_trans (length_openIn_le cfg i d pre) (le_trans hlen (by decide))
  · intro pre post heq i d h hmu
    by_cases hi : i = 1
    · subst hi
      rcases pre with _ | ⟨a, _ | ⟨b, _ | ⟨c, _ | ⟨e, pre⟩⟩⟩⟩
      · exact absurd rfl hmu
      · obtain ⟨rfl, -⟩ := List.cons.inj heq
        cases d <;> decide +kernel
      · simp only [ps, List.cons_append, List.nil_append, List.cons.injEq] at heq
        obtain ⟨rfl, rfl, -⟩ := heq
        cases d <;> decide +kernel
      · simp only [ps, List.cons_append, List.nil_append, List.cons.injEq] at heq
        obtain ⟨rfl, rfl, rfl, -⟩ := heq
        cases d <;> decide +kernel
      · simp [ps] at heq
    · -- At the other indexes nothing arrives.
      have hnone : packetsAt cfg i pre = [] := by
        refine List.eq_nil_iff_forall_not_mem.2 fun p hp => hi ?_
        obtain ⟨hmem, rfl⟩ := mem_packetsAt.1 hp
        exact hindex p (heq ▸ List.mem_append_left _ hmem)
      have hzero : h = Half.zero := by
        show ((switchRun cfg pre).cell i).half d = _
        rw [cell_switchRun, hnone]
        rfl
      exact absurd (congrArg Half.lstMuSZE hzero) hmu

/-- After a window with one packet of one byte, two packets of the greatest size overflow the
register. -/
theorem not_sizeStatisticsExact :
    let cfg : Config :=
      { hash := fun a _ => Fin.ofNat 1024 (a.toNat % 1024)
        tables := { Tables.empty with
          direc := [0xC0A8]
          divide := fun _ => [⟨1, 1, 1, ⟨0, 255, 255⟩⟩] } }
    let ps := [udpPacket 0x0A000002 0xC0A80001 29 1000,
      udpPacket 0x0A000002 0xC0A80001 65535 40000,
      udpPacket 0x0A000002 0xC0A80001 65535 40001]
    (∀ p ∈ ps, p.IsUdp ∧ 28 ≤ p.hdr.ipv4.totalLen.toNat ∧ p.time ≠ 0) ∧
      (ps.Pairwise fun p q => p.time ≤ q.time) ∧
      (∀ pre post, ps = pre ++ post → ∀ i d, (openIn cfg i d pre).length ≤ 4095) ∧
      ¬ SizeStatisticsExact cfg ps := by
  intro cfg ps
  refine ⟨by decide +kernel, by decide, fun pre post heq i d => ?_, fun hexact => ?_⟩
  · have hlen : pre.length ≤ ps.length := by simp [heq]
    exact le_trans (length_openIn_le cfg i d pre) (le_trans hlen (by decide))
  · have hmu : (((switchRun cfg ps).cell 1).half .DW).lstMuSZE = 1 := by decide +kernel
    have hdlt : (((switchRun cfg ps).cell 1).half .DW).dltSZE = 4287104776 := by decide +kernel
    have hdev : payloadDev 1 (openIn cfg 1 .DW ps) = 8582072072 := by decide +kernel
    have hval := hexact.deviation ps [] (List.append_nil _).symm 1 .DW
    simp only [hmu, hdlt] at hval
    have hsum : payloadDev (1 : BitVec 32).toNat (openIn cfg 1 .DW ps) = 8582072072 := hdev
    rw [hsum] at hval
    exact absurd (hval (by decide)) (by decide)

end FlowClassifier
