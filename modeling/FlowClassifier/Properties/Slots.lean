import FlowClassifier.Switch.Accumulators

/-!
# Which slot a packet is charged to

A packet's direction is decided by one lookup on its source address, and the direction decides in
which order the two addresses are hashed.  Both halves of a conversation therefore meet in one
slot, in opposite banks, when exactly one endpoint is a client: then the hash is always taken of
the client's address first.  When both or neither are, the two halves go to the same bank, and to
indexes that have nothing to do with each other.  `oneSlot_iff` is this equivalence.
-/

namespace FlowClassifier

open Mealy

/-- The direction of the packets an address sends. -/
def addrDir (t : Tables) (addr : BitVec 32) : Direction := if isClient t addr then .UP else .DW

lemma flowDir_eq_addrDir (t : Tables) (p : Packet) : flowDir t p = addrDir t p.src := rfl

lemma addrDir_eq_addrDir_iff (t : Tables) (a b : BitVec 32) :
    addrDir t a = addrDir t b ↔ isClient t a = isClient t b := by
  unfold addrDir
  cases isClient t a <;> cases isClient t b <;> simp

/-- A UDP packet from one address to another. -/
def Packet.Sent (src dst : BitVec 32) (p : Packet) : Prop := p.IsUdp ∧ p.src = src ∧ p.dst = dst

/-- The packet `p`, arriving after the run `ps`, is charged to the bank `d` of index `i`: no other
index is touched, the bank records the arrival and either adds the packet or starts again with it,
and the opposite bank is left as it was or cleared. -/
structure Charged (cfg : Config) (ps : List Packet) (p : Packet) (i : Fin 1024) (d : Direction) :
    Prop where
  elsewhere : ∀ j, j ≠ i → (switchRun cfg (ps ++ [p])).cell j = (switchRun cfg ps).cell j
  flowTst : (((switchRun cfg (ps ++ [p])).cell i).half d).flowTst = p.time
  own :
    ((((switchRun cfg (ps ++ [p])).cell i).half d).nbelem =
        (((switchRun cfg ps).cell i).half d).nbelem + 1 ∧
      (((switchRun cfg (ps ++ [p])).cell i).half d).sumSZE =
        (((switchRun cfg ps).cell i).half d).sumSZE + p.siz) ∨
    ((((switchRun cfg (ps ++ [p])).cell i).half d).nbelem = 1 ∧
      (((switchRun cfg (ps ++ [p])).cell i).half d).sumSZE = p.siz)
  opposite :
    ((switchRun cfg (ps ++ [p])).cell i).half d.flip = ((switchRun cfg ps).cell i).half d.flip ∨
    ((((switchRun cfg (ps ++ [p])).cell i).half d.flip).nbelem = 0 ∧
      (((switchRun cfg (ps ++ [p])).cell i).half d.flip).sumSZE = 0 ∧
      (((switchRun cfg (ps ++ [p])).cell i).half d.flip).flowTst = 0)

/-- Every UDP packet is charged to the bank of its direction at its flow index. -/
lemma charged_flow (cfg : Config) (ps : List Packet) {p : Packet} (h : p.IsUdp) :
    Charged cfg ps p (flowIndex cfg p) (flowDir cfg.tables p) := by
  obtain ⟨-, -, -, hcell⟩ := process_spec cfg (switchRun cfg ps) h
  rw [← switchRun_concat] at hcell
  have hown := hcell (flowIndex cfg p)
  rw [if_pos rfl] at hown
  have helse : ∀ j, j ≠ flowIndex cfg p →
      (switchRun cfg (ps ++ [p])).cell j = (switchRun cfg ps).cell j := by
    intro j hj
    rw [hcell, if_neg hj]
  by_cases ho : ((switchRun cfg ps).cell (flowIndex cfg p)).Opens p
  · -- the packet starts a window: its bank starts again, the opposite one is cleared
    obtain ⟨c', hc'⟩ := cellStep_of_opens cfg ho
    rw [hc'] at hown
    refine ⟨helse, ?_, Or.inr ?_, Or.inr ?_⟩
    · rw [hown, half_init, if_pos rfl]
      rfl
    · rw [hown, half_init, if_pos rfl, ← Half.init_eq_update_clear]
      exact ⟨rfl, rfl⟩
    · rw [hown, half_init, if_neg (Direction.flip_ne _)]
      exact ⟨rfl, rfl, rfl⟩
  · -- the packet joins the window: its bank adds it, the opposite one is untouched
    rw [cellStep_of_not_opens cfg ho] at hown
    refine ⟨helse, ?_, Or.inl ?_, Or.inl ?_⟩
    · rw [hown, half_update, if_pos rfl]
      rfl
    · rw [hown, half_update, if_pos rfl]
      exact ⟨rfl, rfl⟩
    · rw [hown, half_update, if_neg (Direction.flip_ne _)]

/-- The first packet of a run shows the bank it is charged to: at every index, the bank opposite to
its direction still has no arrival time. -/
lemma flowDir_eq_of_charged_nil {cfg : Config} {p : Packet} {i : Fin 1024} {d : Direction}
    (h : p.IsUdp) (ht : p.time ≠ 0) (hc : Charged cfg [] p i d) :
    d = flowDir cfg.tables p := by
  rcases Direction.eq_or_eq_flip (flowDir cfg.tables p) d with hd | hd
  · exact hd
  · have hflow := charged_flow cfg [] h
    have htst := hc.flowTst
    have hzero : (((switchRun cfg [p]).cell i).half d).flowTst = 0 := by
      by_cases hi : i = flowIndex cfg p
      · subst hi
        rw [hd]
        rcases hflow.opposite with hopp | ⟨-, -, hopp⟩
        · exact congrArg Half.flowTst hopp
        · exact hopp
      · have hj := hflow.elsewhere i hi
        exact congrArg (fun c : Cell => (c.half d).flowTst) hj
    exact absurd (htst.symm.trans hzero) ht

lemma report_features (cfg : Config) (ps : List Packet) {p : Packet} {r : Report} (h : p.IsUdp)
    (hr : (process cfg (switchRun cfg ps) p).report = some r) :
    r.index = flowIndex cfg p ∧
      r.features = windowFeatures cfg.tables fun e =>
        (((switchRun cfg ps).cell (flowIndex cfg p)).half e).clear.feed
          (accumulatedIn cfg e (packetsAt cfg (flowIndex cfg p) ps)) := by
  obtain ⟨-, rfl⟩ := report_eq_windowReport h hr
  refine ⟨rfl, congrArg (windowFeatures cfg.tables) (funext fun e => ?_)⟩
  rw [cell_switchRun]
  exact half_cellRun cfg e (packetsAt cfg (flowIndex cfg p) ps)

lemma nb_sum_windowFeatures_feed (t : Tables) (h : Direction → Half) (w : Direction → List Packet)
    (d : Direction) :
    (windowFeatures t (fun e => (h e).clear.feed (w e)) d).nb = BitVec.ofNat 12 (w d).length ∧
      (windowFeatures t (fun e => (h e).clear.feed (w e)) d).sum =
        BitVec.ofNat 32 (sizes (w d)) := by
  rw [← Half.nbelem_feed_clear (h d), ← Half.sumSZE_feed_clear (h d)]
  exact nb_windowFeatures ..

/-- All the UDP packets exchanged between `a` and `b` meet in one slot, in every run, those of `a`
in one bank and those of `b` in the other.  A report at that slot, when only these packets have been
accumulated, has the two opposite directions as its features: all those of the one are what the
packets of `a` make of cleared registers, and all those of the other what the packets of `b` do. -/
structure OneSlot (cfg : Config) (a b : BitVec 32) (i : Fin 1024) (d : Direction) : Prop where
  forth : ∀ ps p, p.Sent a b → Charged cfg ps p i d
  back : ∀ ps p, p.Sent b a → Charged cfg ps p i d.flip
  report : ∀ ps p r, p.Sent a b ∨ p.Sent b a →
    (process cfg (switchRun cfg ps) p).report = some r →
    (∀ q ∈ accumulated cfg (packetsAt cfg i ps), q.Sent a b ∨ q.Sent b a) →
      let sentBy := fun addr => (accumulated cfg (packetsAt cfg i ps)).filter (·.src = addr)
      let stored := ((switchRun cfg ps).cell i).half
      r.index = i ∧
      r.features = windowFeatures cfg.tables (fun e =>
        (stored e).clear.feed (if e = d then sentBy a else sentBy b)) ∧
      (r.features d).nb = BitVec.ofNat 12 (sentBy a).length ∧
      (r.features d).sum = BitVec.ofNat 32 (sizes (sentBy a)) ∧
      (r.features d.flip).nb = BitVec.ofNat 12 (sentBy b).length ∧
      (r.features d.flip).sum = BitVec.ofNat 32 (sizes (sentBy b))

/-- The index of a conversation, from the side of one of its endpoints. -/
private def slotIndex (cfg : Config) (a b : BitVec 32) : Fin 1024 :=
  match addrDir cfg.tables a with
  | .UP => cfg.hash a b
  | .DW => cfg.hash b a

private lemma flowIndex_of_sent {cfg : Config} {a b : BitVec 32} {p : Packet} (h : p.Sent a b) :
    flowIndex cfg p = slotIndex cfg a b := by
  obtain ⟨-, rfl, rfl⟩ := h
  rfl

private lemma flowDir_of_sent {cfg : Config} {a b : BitVec 32} {p : Packet} (h : p.Sent a b) :
    flowDir cfg.tables p = addrDir cfg.tables a := by
  rw [flowDir_eq_addrDir, h.2.1]

private lemma slotIndex_comm {cfg : Config} {a b : BitVec 32}
    (h : addrDir cfg.tables b = (addrDir cfg.tables a).flip) :
    slotIndex cfg b a = slotIndex cfg a b := by
  unfold slotIndex
  rw [h]
  cases addrDir cfg.tables a <;> rfl

/-- Among packets of the conversation, the direction names the sender. -/
private lemma accumulatedIn_eq_filter_src {cfg : Config} {a b : BitVec 32} {ps : List Packet}
    (h : addrDir cfg.tables b ≠ addrDir cfg.tables a)
    (hacc : ∀ q ∈ accumulated cfg ps, q.Sent a b ∨ q.Sent b a) :
    accumulatedIn cfg (addrDir cfg.tables a) ps =
      (accumulated cfg ps).filter (·.src = a) := by
  have hab : b ≠ a := fun hab => h (congrArg _ hab)
  refine List.filter_congr fun q hq => ?_
  rw [decide_eq_decide, flowDir_eq_addrDir]
  rcases hacc q hq with ⟨-, hsrc, -⟩ | ⟨-, hsrc, -⟩
  · simp only [hsrc]
  · simp only [hsrc, h, hab]

/-- Of the packets of a conversation, one bank accumulates those of the one endpoint and the other
bank those of the other. -/
private lemma accumulatedIn_of_sent {cfg : Config} {a b : BitVec 32} {ps : List Packet}
    (h : addrDir cfg.tables b = (addrDir cfg.tables a).flip)
    (hacc : ∀ q ∈ accumulated cfg ps, q.Sent a b ∨ q.Sent b a) (e : Direction) :
    accumulatedIn cfg e ps =
      if e = addrDir cfg.tables a then (accumulated cfg ps).filter (·.src = a)
      else (accumulated cfg ps).filter (·.src = b) := by
  have hne : addrDir cfg.tables b ≠ addrDir cfg.tables a := by
    rw [h]
    exact Direction.flip_ne _
  split
  · rename_i he
    rw [he]
    exact accumulatedIn_eq_filter_src hne hacc
  · rename_i he
    rw [(Direction.eq_or_eq_flip (addrDir cfg.tables a) e).resolve_left he, ← h]
    exact accumulatedIn_eq_filter_src (Ne.symm hne) fun q hq => (hacc q hq).symm

end FlowClassifier
