import Mathlib.Algebra.Order.BigOperators.Group.Finset
import FlowClassifier.Properties.WindowedFold
import FlowClassifier.Switch.DebugLog

/-!
# How often a switch reports

A window that closes opens the next one, so two reports of one index are more than 33 ms apart, from
whatever registers the switch starts (`closings_spaced`). The log of a stretch of time is then
bounded by its length alone, not by the traffic: 14 lines for each of the 1024 indexes and each 33
ms begun (`length_runLog_le`).
-/

namespace FlowClassifier

open Mealy

lemma length_le_of_spaced {g a b : ℕ} (hg : 0 < g) {ts : List ℕ}
    (hspaced : ts.Pairwise fun s t => s + g ≤ t) (hin : ∀ t ∈ ts, a ≤ t ∧ t ≤ b) :
    ts.length ≤ (b - a) / g + 1 := by
  induction ts generalizing a with
  | nil => exact Nat.zero_le _
  | cons t ts ih =>
      obtain ⟨hhead, htail⟩ := List.pairwise_cons.1 hspaced
      obtain ⟨hat, htb⟩ := hin t (List.mem_cons_self ..)
      have hrest : ts.length ≤ (b - (t + g)) / g + 1 :=
        ih htail fun u hu => ⟨hhead u hu, (hin u (List.mem_cons_of_mem _ hu)).2⟩
      rw [List.length_cons, Nat.add_le_add_iff_right]
      rcases Nat.lt_or_ge b (t + g) with hlt | hge
      · -- No later time fits.
        have hnil : ts = [] := by
          refine List.eq_nil_iff_forall_not_mem.2 fun u hu => ?_
          have hub := (hin u (List.mem_cons_of_mem _ hu)).2
          have hgu := hhead u hu
          omega
        rw [hnil]
        exact Nat.zero_le _
      · have hsum : b - (t + g) + g ≤ b - a := by omega
        calc ts.length ≤ (b - (t + g)) / g + 1 := hrest
          _ = (b - (t + g) + g) / g := (Nat.add_div_right _ hg).symm
          _ ≤ (b - a) / g := Nat.div_le_div_right hsum

section Index

variable (cfg : Config)

/-- A packet that reports closes a window and opens one; any other leaves the window's start or
sets it. -/
lemma packetStep_flowFrstTime (c : Cell) {p : Packet} (hp : p.IsUdp) :
    (c.WindowOver p.time ∧ (packetStep cfg c p).1.flowFrstTime = p.time) ∨
      ((packetStep cfg c p).2 = none ∧
        ((packetStep cfg c p).1.flowFrstTime = p.time ∨
          (packetStep cfg c p).1.flowFrstTime = c.flowFrstTime)) := by
  rw [packetStep_of_isUdp cfg c hp]
  unfold cellStep
  dsimp only
  split
  · rename_i hwin
    exact .inl ⟨hwin, rfl⟩
  · split
    · exact .inr ⟨rfl, .inl rfl⟩
    · exact .inr ⟨rfl, .inr rfl⟩

lemma closings_cons (p : Packet) (out : Option Report) (tr : List (Packet × Option Report)) :
    closings ((p, out) :: tr) = (out.map (Prod.mk p)).toList ++ closings tr :=
  produced_cons p out tr

lemma mem_closings_cell {c : Cell} {ps : List Packet} {x : Packet × Report}
    (h : x ∈ closings (trace (packetStep cfg) c ps)) : x.1 ∈ ps ∧ x.1.IsUdp := by
  obtain ⟨⟨p, out⟩, hx, heq⟩ := List.mem_filterMap.1 h
  obtain ⟨pre, post, hps, hout⟩ := (mem_trace_iff _).1 hx
  obtain ⟨r, hr, rfl⟩ := Option.map_eq_some_iff.1 heq
  refine ⟨by rw [hps]; simp, ?_⟩
  by_contra hp
  rw [packetStep_of_not_isUdp cfg _ hp] at hout
  have hnone : out = none := hout.symm
  rw [hnone] at hr
  exact absurd hr (by simp)

/-- Closings come more than 33 ms after the window that is open. -/
lemma lt_time_of_mem_closings {c : Cell} {ps : List Packet}
    (hmono : ps.Pairwise fun p q => p.time ≤ q.time)
    (hle : ∀ p ∈ ps, p.IsUdp → c.flowFrstTime ≤ p.time) :
    ∀ x ∈ closings (trace (packetStep cfg) c ps),
      c.flowFrstTime.toNat + 33001 ≤ x.1.time.toNat := by
  induction ps generalizing c with
  | nil => exact fun x hx => absurd hx List.not_mem_nil
  | cons p ps ih =>
      obtain ⟨hhead, htail⟩ := List.pairwise_cons.1 hmono
      have hle' : ∀ q ∈ ps, q.IsUdp → c.flowFrstTime ≤ q.time :=
        fun q hq => hle q (List.mem_cons_of_mem _ hq)
      intro x hx
      rw [trace_cons, closings_cons] at hx
      by_cases hp : p.IsUdp
      · have hcp : c.flowFrstTime ≤ p.time := hle p (List.mem_cons_self ..) hp
        have hcp' : c.flowFrstTime.toNat ≤ p.time.toNat := hcp
        rcases packetStep_flowFrstTime cfg c hp with ⟨hwin, hopen⟩ | ⟨hnone, hopen | hkept⟩
        · -- The packet closes the window; the later ones are measured from it.
          have hsub : (p.time - c.flowFrstTime).toNat = p.time.toNat - c.flowFrstTime.toNat :=
            BitVec.toNat_sub_of_le hcp
          have hover : 33000 < (p.time - c.flowFrstTime).toNat := hwin.2
          rcases List.mem_append.1 hx with hx | hx
          · have hxp : x.1 = p := by
              obtain ⟨r, -, rfl⟩ := Option.map_eq_some_iff.1 (Option.mem_toList.1 hx)
              rfl
            rw [hxp]
            omega
          · have hlater := ih htail (fun q hq _ => by rw [hopen]; exact hhead q hq) x hx
            rw [hopen] at hlater
            omega
        · rw [hnone] at hx
          have hlater := ih htail (fun q hq _ => by rw [hopen]; exact hhead q hq) x hx
          rw [hopen] at hlater
          omega
        · rw [hnone] at hx
          have hlater := ih htail (fun q hq hudp => by rw [hkept]; exact hle' q hq hudp) x hx
          rwa [hkept] at hlater
      · rw [packetStep_of_not_isUdp cfg c hp] at hx
        exact ih htail hle' x hx

/-- **The reports of one index are more than 33 ms apart**, whatever its registers hold first. -/
lemma closings_spaced (c : Cell) {ps : List Packet}
    (hmono : ps.Pairwise fun p q => p.time ≤ q.time) :
    (closings (trace (packetStep cfg) c ps)).Pairwise
      fun x y => x.1.time.toNat + 33001 ≤ y.1.time.toNat := by
  induction ps generalizing c with
  | nil => exact List.Pairwise.nil
  | cons p ps ih =>
      obtain ⟨hhead, htail⟩ := List.pairwise_cons.1 hmono
      rw [trace_cons, closings_cons]
      by_cases hp : p.IsUdp
      · rcases packetStep_flowFrstTime cfg c hp with ⟨-, hopen⟩ | ⟨hnone, -⟩
        · refine List.pairwise_append.2 ⟨?_, ih _ htail, ?_⟩
          · cases (packetStep cfg c p).2 <;> simp
          · intro x hx y hy
            have hlater := lt_time_of_mem_closings cfg htail
              (fun q hq _ => by rw [hopen]; exact hhead q hq) y hy
            obtain ⟨r, -, rfl⟩ := Option.map_eq_some_iff.1 (Option.mem_toList.1 hx)
            rwa [hopen] at hlater
        · rw [hnone]
          exact ih _ htail
      · rw [packetStep_of_not_isUdp cfg c hp]
        exact ih _ htail

lemma length_reportsAt_le (regs : Registers) {ps : List Packet} {a b : ℕ}
    (hmono : ps.Pairwise fun p q => p.time ≤ q.time)
    (hin : ∀ p ∈ ps, p.IsUdp → a ≤ p.time.toNat ∧ p.time.toNat ≤ b) (i : Fin 1024) :
    (reportsAt i (trace (switchStep cfg) regs ps)).length ≤ (b - a) / 33001 + 1 := by
  have hmono' : (packetsAt cfg i ps).Pairwise fun p q => p.time ≤ q.time := hmono.filter _
  have hspaced := closings_spaced cfg (regs.cell i) hmono'
  have hmem : ∀ x ∈ closings (trace (packetStep cfg) (regs.cell i) (packetsAt cfg i ps)),
      x.1 ∈ packetsAt cfg i ps ∧ x.1.IsUdp := fun x hx => mem_closings_cell cfg hx
  rw [reportsAt_trace, ← map_snd_closings, List.length_map]
  generalize closings (trace (packetStep cfg) (regs.cell i) (packetsAt cfg i ps)) = cl at *
  have htimes : (cl.map fun x => x.1.time.toNat).Pairwise fun s t => s + 33001 ≤ t :=
    List.pairwise_map.2 hspaced
  rw [← List.length_map (f := fun x : Packet × Report => x.1.time.toNat)]
  refine length_le_of_spaced (by omega) htimes fun t ht => ?_
  obtain ⟨x, hx, rfl⟩ := List.mem_map.1 ht
  obtain ⟨hps, hudp⟩ := hmem x hx
  exact hin x.1 (mem_packetsAt.1 hps).1 hudp

end Index

/-! ## The log -/

lemma length_reports_eq_sum (rs : List Report) :
    rs.length = ∑ i : Fin 1024, (rs.filter fun r => r.index = i).length := by
  have hcount : ∀ i, (rs.filter fun r => r.index = i).length = (rs.map Report.index).count i := by
    intro i
    rw [List.count, List.countP_map, List.countP_eq_length_filter]
    congr 1
  simp only [hcount]
  have hcard := Multiset.sum_count_eq_card (s := Finset.univ)
    (m := ((rs.map Report.index : List (Fin 1024)) : Multiset (Fin 1024)))
    fun i _ => Finset.mem_univ i
  simp only [Multiset.coe_count, Multiset.coe_card, List.length_map] at hcard
  exact hcard.symm

lemma length_writes (r : Report) : r.writes.length = 14 := rfl

/-- **The log grows with time, not with traffic.**  Whatever the registers hold at the start and
however many packets come in a stretch of time, every index reports at most once in each 33 ms begun
and once more, and the log grows by at most 14 lines for each of these. -/
theorem length_runLog_le (cfg : Config) (regs : Registers) {ps : List Packet} {a b : ℕ}
    (hmono : ps.Pairwise fun p q => p.time ≤ q.time)
    (hin : ∀ p ∈ ps, p.IsUdp → a ≤ p.time.toNat ∧ p.time.toNat ≤ b) :
    (∀ i, (reportsAt i (trace (switchStep cfg) regs ps)).length ≤ (b - a) / 33001 + 1) ∧
      (runLog cfg regs ps).length ≤ 14 * 1024 * ((b - a) / 33001 + 1) := by
  have hindex := length_reportsAt_le cfg regs hmono hin
  refine ⟨hindex, ?_⟩
  have hlog : (runLog cfg regs ps).length =
      (reports (trace (switchStep cfg) regs ps)).length * 14 := by
    rw [runLog_eq, List.length_flatMap]
    simp only [length_writes, List.map_const', List.sum_replicate, smul_eq_mul]
  have hsum : (reports (trace (switchStep cfg) regs ps)).length ≤
      1024 * ((b - a) / 33001 + 1) := by
    rw [length_reports_eq_sum]
    calc _ ≤ ∑ _i : Fin 1024, ((b - a) / 33001 + 1) := Finset.sum_le_sum fun i _ => hindex i
      _ = 1024 * ((b - a) / 33001 + 1) := by simp
  rw [hlog]
  omega

/-- A download of a second with two clients. -/
theorem length_runLog_le_two_clients :
    let cfg : Config := ⟨fun a _ => if a = 0xC0A80001 then 1 else 2,
      { Tables.empty with direc := [0xC0A8] }⟩
    let ps := [udpPacket 0x0A000002 0xC0A80001 1400 1000,
      udpPacket 0x0A000002 0xC0A80002 1400 1500, udpPacket 0x0A000002 0xC0A80001 1400 40000]
    (∀ i, (reportsAt i (trace (switchStep cfg) Registers.zero ps)).length ≤
        (1000000 - 0) / 33001 + 1) ∧
      (runLog cfg Registers.zero ps).length ≤ 14 * 1024 * ((1000000 - 0) / 33001 + 1) := by
  intro cfg ps
  exact length_runLog_le cfg Registers.zero (by decide) (by decide)

end FlowClassifier
