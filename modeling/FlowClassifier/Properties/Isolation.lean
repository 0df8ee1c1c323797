import FlowClassifier.Switch.Runs

/-!
# Conversations that share no index do not see each other

Register indexes are the only way one conversation can influence another: the scratch record starts
at zero for every packet, and every register access of a packet is at its own index
(`switchStep_routed`).  So in a run whose conversations are hashed to different indexes, each one
gets the reports and leaves the registers it would get and leave on its own, whatever the order in
which the packets are interleaved and whatever the tables contain.
-/

namespace FlowClassifier

open Mealy

/-- **Interleaving does not change reports.**  When packets of different conversations never share
an index, cutting a run down to one conversation's packets changes neither that conversation's
outcomes, packet by packet, nor the registers at its indexes. -/
theorem conversation_unaffected_by_interleaving (cfg : Config) (ps : List Packet)
    (hsep : ∀ p ∈ ps, ∀ q ∈ ps, flowIndex cfg p = flowIndex cfg q →
      p.conversation = q.conversation) (c : Sym2 (BitVec 32)) :
    (switchTrace cfg ps).filter (fun x => x.1.conversation = c) =
        switchTrace cfg (ps.filter fun p => p.conversation = c) ∧
      reports ((switchTrace cfg ps).filter fun x => x.1.conversation = c) =
        reports (switchTrace cfg (ps.filter fun p => p.conversation = c)) ∧
      ∀ p ∈ ps, p.conversation = c →
        (switchRun cfg ps).cell (flowIndex cfg p) =
          (switchRun cfg (ps.filter fun p => p.conversation = c)).cell (flowIndex cfg p) := by
  obtain ⟨htrace, hcell⟩ := (switchStep_routed cfg).filter_own
    (fun p => decide (p.conversation = c))
    (fun p hp q hq hidx => by rw [hsep p hp q hq hidx]) Registers.zero
  refine ⟨htrace, congrArg reports htrace, fun p hp hc => ?_⟩
  exact hcell p hp (by simpa using hc)

/-- Two clients of one server, hashed by their last address byte; the last packet closes the window
of the first client. -/
theorem conversation_unaffected_by_interleaving_two_clients :
    let cfg : Config :=
      { hash := fun a _ => Fin.ofNat 1024 (a.toNat % 256)
        tables := { Tables.empty with direc := [0xC0A8] } }
    let p := udpPacket 0xC0A80001 0x0A000002 128 1000
    let q := udpPacket 0xC0A80002 0x0A000002 228 2000
    let r := udpPacket 0x0A000002 0xC0A80001 328 40000
    (switchTrace cfg [p, q, r]).filter (fun x => x.1.conversation = p.conversation) =
        switchTrace cfg ([p, q, r].filter fun x => x.conversation = p.conversation) ∧
      reports ((switchTrace cfg [p, q, r]).filter
          fun x => x.1.conversation = p.conversation) =
        reports (switchTrace cfg ([p, q, r].filter fun x => x.conversation = p.conversation)) ∧
      ∀ x ∈ [p, q, r], x.conversation = p.conversation →
        (switchRun cfg [p, q, r]).cell (flowIndex cfg x) =
          (switchRun cfg ([p, q, r].filter fun x => x.conversation = p.conversation)).cell
            (flowIndex cfg x) := by
  intro cfg p q r
  exact conversation_unaffected_by_interleaving cfg [p, q, r] (by decide) p.conversation

example : (reports (switchTrace
    { hash := fun a _ => Fin.ofNat 1024 (a.toNat % 256)
      tables := { Tables.empty with direc := [0xC0A8] } }
    [udpPacket 0xC0A80001 0x0A000002 128 1000, udpPacket 0xC0A80002 0x0A000002 228 2000,
      udpPacket 0x0A000002 0xC0A80001 328 40000])).length = 1 := by decide +kernel

end FlowClassifier
