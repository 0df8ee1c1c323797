import Mathlib.NumberTheory.Padics.PadicVal.Basic
import FlowClassifier.Switch.Accumulators

/-!
# The collision test has zero divisors

The control decides without a branch whether a packet collides with the conversation stored at its
index: the product of the stored key with its difference from the carried one is to be zero when
either factor is.  The product is taken modulo `2 ^ 64`, where it is also zero when the two factors
have 64 trailing zero bits between them, and then the packet is taken for a continuation.

`collisionTestExact_iff` says that this is the only way in which the test fails.
-/

namespace FlowClassifier

/-! ## Products modulo a power of two -/

section ZeroDivisors

variable {w : ℕ} {x y : BitVec w}

/-- The number of trailing zero bits of a word that is not zero. -/
def trailingZeros (x : BitVec w) : ℕ := padicValNat 2 x.toNat

lemma toNat_ne_zero (h : x ≠ 0) : x.toNat ≠ 0 :=
  fun h0 => h (BitVec.eq_of_toNat_eq (by simpa using h0))

/-- A product of words is zero when enough trailing zero bits come together. -/
lemma mul_eq_zero_iff_trailingZeros (hx : x ≠ 0) (hy : y ≠ 0) :
    x * y = 0 ↔ w ≤ trailingZeros x + trailingZeros y := by
  have hx' := toNat_ne_zero hx
  have hy' := toNat_ne_zero hy
  have hdvd : x * y = 0 ↔ 2 ^ w ∣ x.toNat * y.toNat := by
    rw [Nat.dvd_iff_mod_eq_zero, ← BitVec.toNat_mul]
    constructor
    · intro h
      rw [h]
      rfl
    · exact fun h => BitVec.eq_of_toNat_eq h
  rw [hdvd, padicValNat_dvd_iff_le (Nat.mul_ne_zero hx' hy'), padicValNat.mul hx' hy']
  rfl

end ZeroDivisors

/-! ## The test -/

/-- A stored key tells a carried one apart: it is empty, or the same, or the two have too few
trailing zero bits to cancel. -/
def Separates (stored carried : BitVec 64) : Prop :=
  stored = 0 ∨ stored = carried ∨ trailingZeros (stored - carried) + trailingZeros stored < 64

lemma swapSpace_ne_zero_iff (c : Cell) (key : BitVec 64) :
    (c.swapSpace key ≠ 0 ↔ c.flowTracker ≠ 0 ∧ c.flowTracker ≠ key) ↔
      Separates c.flowTracker key := by
  unfold Separates Cell.swapSpace
  by_cases h0 : c.flowTracker = 0
  · simp [h0]
  · by_cases hk : c.flowTracker = key
    · simp [hk]
    · have hsub : c.flowTracker - key ≠ 0 := sub_ne_zero.2 hk
      have hzero := mul_eq_zero_iff_trailingZeros hsub h0
      simp only [ne_eq, hzero, h0, hk, not_false_iff, and_self, iff_true, false_or, not_le]

/-- The index of a packet starts again with it. -/
structure Restarts (cfg : Config) (regs : Registers) (p : Packet) : Prop where
  flowFrstTime : (process cfg regs p).regs.flowFrstTime.read (flowIndex cfg p) = p.time
  own : ((process cfg regs p).regs.bank (flowDir cfg.tables p)).nbelem.read (flowIndex cfg p) = 1
  opposite : ((process cfg regs p).regs.bank (flowDir cfg.tables p).flip).nbelem.read
    (flowIndex cfg p) = 0

/-- The test of one packet is exact: it tells whether a key is stored and differs from the carried
one, and then the index starts again with the packet. -/
structure CollisionTestExact (cfg : Config) (regs : Registers) (p : Packet) : Prop where
  test : (process cfg regs p).trackMeta.mSwapSpace ≠ 0 ↔
    regs.flowTracker.read (flowIndex cfg p) ≠ 0 ∧
      regs.flowTracker.read (flowIndex cfg p) ≠ p.key
  restarts : regs.flowTracker.read (flowIndex cfg p) ≠ 0 →
    regs.flowTracker.read (flowIndex cfg p) ≠ p.key → Restarts cfg regs p

variable {cfg : Config} {regs : Registers} {p : Packet}

lemma restarts_of_opens (h : p.IsUdp) (ho : (regs.cell (flowIndex cfg p)).Opens p) :
    Restarts cfg regs p := by
  obtain ⟨-, -, -, hcell⟩ := process_spec cfg regs h
  obtain ⟨c, hc⟩ := cellStep_of_opens cfg ho
  have hinit : (process cfg regs p).regs.cell (flowIndex cfg p) =
      c.init (flowDir cfg.tables p) p.siz p.time := by
    rw [hcell, if_pos rfl, hc]
  have hhalf : ∀ d, ((process cfg regs p).regs.bank d).half (flowIndex cfg p) =
      (c.init (flowDir cfg.tables p) p.siz p.time).half d :=
    fun d => congrFun (congrArg Cell.half hinit) d
  refine ⟨congrArg Cell.flowFrstTime hinit, ?_, ?_⟩
  · have hown := hhalf (flowDir cfg.tables p)
    rw [half_init, if_pos rfl] at hown
    exact congrArg Half.nbelem hown
  · have hother := hhalf (flowDir cfg.tables p).flip
    rw [half_init, if_neg (Direction.flip_ne _)] at hother
    exact congrArg Half.nbelem hother

/-- **The collision test is exact** on a packet precisely when the key stored at its index tells
the carried one apart. -/
theorem collisionTestExact_iff (cfg : Config) (regs : Registers) (p : Packet) (h : p.IsUdp) :
    CollisionTestExact cfg regs p ↔
      Separates (regs.flowTracker.read (flowIndex cfg p)) p.key := by
  obtain ⟨-, hswap, -, -⟩ := process_spec cfg regs h
  have htest := swapSpace_ne_zero_iff (regs.cell (flowIndex cfg p)) p.key
  rw [← hswap] at htest
  constructor
  · exact fun hexact => htest.1 hexact.test
  · intro hsep
    refine ⟨htest.2 hsep, fun h0 hk => restarts_of_opens h (Or.inr (Or.inl ?_))⟩
    rw [← hswap]
    exact (htest.2 hsep).2 ⟨h0, hk⟩

/-- Registers in which one conversation owns every index, since a time. -/
def ownedBy (key : BitVec 64) (start : BitVec 48) : Registers :=
  { Registers.zero with flowTracker := fun _ => key, flowFrstTime := fun _ => start }

/-- An odd stored key is told from an even one. -/
theorem collisionTestExact_iff_odd :
    let cfg : Config := { hash := fun a _ => Fin.ofNat 1024 (a.toNat % 1024), tables := .empty }
    CollisionTestExact cfg (ownedBy 0x0A000002C0A80001 1000)
      (udpPacket 0x0A000002 0xC0A80002 128 2000) := by
  intro cfg
  have hodd : trailingZeros (0x0A000002C0A80001 : BitVec 64) = 0 :=
    padicValNat.eq_zero_of_not_dvd (by decide)
  have hdiff : trailingZeros ((0x0A000002C0A80001 : BitVec 64) - 0x0A000002C0A80002) = 0 :=
    padicValNat.eq_zero_of_not_dvd (by decide)
  have hkeys : Separates (0x0A000002C0A80001 : BitVec 64) 0x0A000002C0A80002 := by
    refine Or.inr (Or.inr ?_)
    rw [hodd, hdiff]
    decide
  exact (collisionTestExact_iff cfg _ _ (isUdp_udpPacket ..)).2 hkeys

/-- The key of 10.0.0.0 and 0.0.0.0 has 57 trailing zero bits, and its difference from a key that
ends in .128 has seven: a packet from 192.168.0.1 to 10.0.0.128 is taken for a continuation, and
the start of the window stays. -/
theorem not_collisionTestExact_network :
    let cfg : Config := { hash := fun a _ => Fin.ofNat 1024 (a.toNat % 1024), tables := .empty }
    let regs := ownedBy 0x0A00000000000000 1000
    let p := udpPacket 0xC0A80001 0x0A000080 128 2000
    p.IsUdp ∧ ¬ CollisionTestExact cfg regs p ∧
      (process cfg regs p).regs.flowFrstTime.read (flowIndex cfg p) = 1000 := by
  intro cfg regs p
  have hswap : (process cfg regs p).trackMeta.mSwapSpace = 0 := by decide +kernel
  refine ⟨isUdp_udpPacket .., fun hexact => ?_, by decide +kernel⟩
  exact hexact.test.2 ⟨by decide, by decide⟩ hswap

end FlowClassifier
