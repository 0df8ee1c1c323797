import FlowClassifier.Switch.Accumulators

/-!
# Collisions are never detected

The control tests for a collision by comparing the key a packet carries with the key stored at its
index, and re-initialises the registers when they differ.  But nothing ever stores a key, and the
test multiplies by the stored one, so it answers zero for every packet of every run
(`swapSpace_switchRun`).  Windows have a single owner in exactly those runs in which conversations
do not meet at an index (`singleOwner_iff`): the hash has to provide what the test was written for.
-/

namespace FlowClassifier

open Mealy

/-- The packet processed last at the index of `p`. -/
def predecessor (cfg : Config) (pre : List Packet) (p : Packet) : Option Packet :=
  (packetsAt cfg (flowIndex cfg p) pre).getLast?

/-- The packet `p`, arriving after the run `pre`, is treated as a collision. -/
def TreatedAsCollision (cfg : Config) (pre : List Packet) (p : Packet) : Prop :=
  (process cfg (switchRun cfg pre) p).trackMeta.mSwapSpace ≠ 0

/-- The registers at the index of `p`, arriving after the run `pre`, start again with it. -/
structure Reinitialised (cfg : Config) (pre : List Packet) (p : Packet) : Prop where
  flowFrstTime :
    ((switchRun cfg (pre ++ [p])).cell (flowIndex cfg p)).flowFrstTime = p.time
  own :
    (((switchRun cfg (pre ++ [p])).cell (flowIndex cfg p)).half (flowDir cfg.tables p)).nbelem =
        1 ∧
      (((switchRun cfg (pre ++ [p])).cell (flowIndex cfg p)).half (flowDir cfg.tables p)).sumSZE =
        p.siz
  opposite :
    (((switchRun cfg (pre ++ [p])).cell (flowIndex cfg p)).half
        (flowDir cfg.tables p).flip).nbelem = 0 ∧
      (((switchRun cfg (pre ++ [p])).cell (flowIndex cfg p)).half
        (flowDir cfg.tables p).flip).sumSZE = 0

/-- Every window of a run has a single owner: a packet of another conversation than its
predecessor's is a collision and starts the registers again, a packet of the same conversation is
no collision, and in every state reached the packets accumulated at an index belong to one
conversation. -/
structure SingleOwner (cfg : Config) (ps : List Packet) : Prop where
  foreign : ∀ pre p post q, ps = pre ++ p :: post → predecessor cfg pre p = some q →
    q.conversation ≠ p.conversation → TreatedAsCollision cfg pre p ∧ Reinitialised cfg pre p
  same : ∀ pre p post q, ps = pre ++ p :: post → predecessor cfg pre p = some q →
    q.conversation = p.conversation → ¬ TreatedAsCollision cfg pre p
  owner : ∀ pre post, ps = pre ++ post → ∀ i, ∀ q ∈ accumulated cfg (packetsAt cfg i pre),
    ∀ r ∈ accumulated cfg (packetsAt cfg i pre), q.conversation = r.conversation

lemma not_treatedAsCollision (cfg : Config) (pre : List Packet) {p : Packet} (h : p.IsUdp) :
    ¬ TreatedAsCollision cfg pre p := by
  obtain ⟨-, hswap, -, -⟩ := process_spec cfg (switchRun cfg pre) h
  unfold TreatedAsCollision
  rw [hswap, swapSpace_switchRun]
  exact not_not.2 rfl

/-- Elements that agree go on agreeing when one is added that agrees with the last of them. -/
private lemma agree_concat {α β : Type*} {f : α → β} {l : List α} {x : α}
    (hl : ∀ a ∈ l, ∀ b ∈ l, f a = f b) (hx : ∀ q, l.getLast? = some q → f q = f x) :
    ∀ a ∈ l ++ [x], ∀ b ∈ l ++ [x], f a = f b := by
  have hall : ∀ a ∈ l ++ [x], f a = f x := by
    intro a ha
    rcases List.mem_append.1 ha with ha | ha
    · have hne : l ≠ [] := List.ne_nil_of_mem ha
      have hlast := hx (l.getLast hne) (List.getLast?_eq_some_getLast hne)
      exact (hl a ha _ (List.getLast_mem hne)).trans hlast
    · rw [List.mem_singleton.1 ha]
  intro a ha b hb
  exact (hall a ha).trans (hall b hb).symm

/-- When every element agrees with the last one before it, all elements agree. -/
private lemma eq_of_forall_getLast? {α β : Type*} (f : α → β) (l : List α)
    (h : ∀ pre a post q, l = pre ++ a :: post → pre.getLast? = some q → f q = f a) :
    ∀ a ∈ l, ∀ b ∈ l, f a = f b := by
  induction l using List.reverseRecOn with
  | nil =>
      intro a ha
      exact absurd ha (by simp)
  | append_singleton l x ih =>
      have ih' := ih fun pre a post q heq hq => h pre a (post ++ [x]) q (by simp [heq]) hq
      exact agree_concat ih' fun q hq => h l x [] q rfl hq

/-- **Windows have a single owner exactly when no two conversations of the run share an index.** -/
theorem singleOwner_iff (cfg : Config) (ps : List Packet) (hudp : ∀ p ∈ ps, p.IsUdp) :
    SingleOwner cfg ps ↔ ∀ p ∈ ps, ∀ q ∈ ps, flowIndex cfg p = flowIndex cfg q →
      p.conversation = q.conversation := by
  constructor
  · intro hown p hp q hq hidx
    -- No packet is a collision, so none may follow a packet of another conversation.
    have hchain : ∀ pre a post b, ps = pre ++ a :: post → predecessor cfg pre a = some b →
        b.conversation = a.conversation := by
      intro pre a post b heq hb
      by_contra hne
      have ha : a.IsUdp := hudp a (by simp [heq])
      exact not_treatedAsCollision cfg pre ha (hown.foreign pre a post b heq hb hne).1
    have hall := eq_of_forall_getLast? Packet.conversation (packetsAt cfg (flowIndex cfg p) ps)
      fun pre' a post' b heq hb => by
        obtain ⟨pre, post, hps, hpre⟩ := exists_split_of_packetsAt heq
        have ha : flowIndex cfg a = flowIndex cfg p :=
          (mem_packetsAt.1 (by rw [heq]; simp)).2
        refine hchain pre a post b hps ?_
        rw [predecessor, ha, hpre]
        exact hb
    exact hall p (mem_packetsAt.2 ⟨hp, rfl⟩) q (mem_packetsAt.2 ⟨hq, hidx.symm⟩)
  · intro hsep
    refine ⟨?_, ?_, ?_⟩
    · intro pre p post q heq hq hne
      have hmem := mem_packetsAt.1 (List.mem_of_getLast? hq)
      have hq' : q ∈ ps := by
        rw [heq]
        exact List.mem_append_left _ hmem.1
      exact absurd (hsep q hq' p (by simp [heq]) hmem.2) hne
    · intro pre p post q heq _ _
      exact not_treatedAsCollision cfg pre (hudp p (by simp [heq]))
    · intro pre post heq i q hq r hr
      have hmem : ∀ x ∈ accumulated cfg (packetsAt cfg i pre), x ∈ ps ∧ flowIndex cfg x = i := by
        intro x hx
        obtain ⟨hx', hxi⟩ := mem_packetsAt.1 (mem_of_mem_accumulated hx)
        refine ⟨?_, hxi⟩
        rw [heq]
        exact List.mem_append_left _ hx'
      obtain ⟨hqp, hqi⟩ := hmem q hq
      obtain ⟨hrp, hri⟩ := hmem r hr
      exact hsep q hqp r hrp (hqi.trans hri.symm)

/-- The two directions of one conversation and a conversation at another index. -/
theorem singleOwner_iff_two_indexes :
    let cfg : Config :=
      { hash := fun a _ => Fin.ofNat 1024 (a.toNat % 256)
        tables := { Tables.empty with direc := [0xC0A8] } }
    let ps := [udpPacket 0xC0A80001 0x0A000002 128 1000, udpPacket 0x0A000002 0xC0A80001 228 2000,
      udpPacket 0xC0A80003 0x0A000002 328 3000]
    SingleOwner cfg ps := by
  intro cfg ps
  refine (singleOwner_iff cfg ps fun p hp => ?_).2 (by decide)
  simp only [ps, List.mem_cons, List.not_mem_nil, or_false] at hp
  rcases hp with rfl | rfl | rfl <;> exact isUdp_udpPacket ..

/-- Two clients of one server, hashed to one index, one millisecond apart: the second packet is not
treated as a collision. -/
theorem not_singleOwner_shared_index :
    let cfg : Config :=
      { hash := fun _ _ => 7, tables := { Tables.empty with direc := [0xC0A8] } }
    ¬ SingleOwner cfg
      [udpPacket 0xC0A80001 0x0A000002 128 1000, udpPacket 0xC0A80002 0x0A000002 228 2000] := by
  intro cfg hown
  have hforeign := hown.foreign [udpPacket 0xC0A80001 0x0A000002 128 1000]
    (udpPacket 0xC0A80002 0x0A000002 228 2000) [] (udpPacket 0xC0A80001 0x0A000002 128 1000) rfl
    rfl (by decide)
  exact not_treatedAsCollision cfg _ (isUdp_udpPacket ..) hforeign.1

private lemma getLast?_accumulated_packetsAt (cfg : Config) (i : Fin 1024) {ps : List Packet}
    (hudp : ∀ p ∈ ps, p.IsUdp) :
    (accumulated cfg (packetsAt cfg i ps)).getLast? = (packetsAt cfg i ps).getLast? := by
  have hall : (packetsAt cfg i ps).filter (fun p => p.IsUdp) = packetsAt cfg i ps := by
    refine List.filter_eq_self.2 fun x hx => ?_
    simpa using hudp x (mem_packetsAt.1 hx).1
  rw [getLast?_accumulated, hall]

/-- What is left without the collision test: the accumulators of every state reached belong to one
conversation exactly when each packet of another conversation than its predecessor's happens to
arrive after the window is over. -/
theorem accumulators_single_owner_iff (cfg : Config) (ps : List Packet)
    (hudp : ∀ p ∈ ps, p.IsUdp) :
    (∀ pre post, ps = pre ++ post → ∀ i, ∀ q ∈ accumulated cfg (packetsAt cfg i pre),
      ∀ r ∈ accumulated cfg (packetsAt cfg i pre), q.conversation = r.conversation) ↔
    ∀ pre p post q, ps = pre ++ p :: post → predecessor cfg pre p = some q →
      q.conversation ≠ p.conversation →
        ((switchRun cfg pre).cell (flowIndex cfg p)).Opens p := by
  have hlast : ∀ pre post, ps = pre ++ post → ∀ i,
      (accumulated cfg (packetsAt cfg i pre)).getLast? = (packetsAt cfg i pre).getLast? := by
    intro pre post heq i
    exact getLast?_accumulated_packetsAt cfg i fun x hx =>
      hudp x (by rw [heq]; exact List.mem_append_left _ hx)
  constructor
  · intro hown pre p post q heq hq hne
    by_contra hjoin
    have hp : p.IsUdp := hudp p (by simp [heq])
    rw [cell_switchRun] at hjoin
    have hacc : accumulated cfg (packetsAt cfg (flowIndex cfg p) (pre ++ [p])) =
        accumulated cfg (packetsAt cfg (flowIndex cfg p) pre) ++ [p] := by
      rw [packetsAt_append, packetsAt_singleton, accumulated_concat, accumulate, if_pos hp,
        if_neg hjoin]
    have hqm : q ∈ accumulated cfg (packetsAt cfg (flowIndex cfg p) pre) :=
      List.mem_of_getLast? ((hlast pre (p :: post) heq _).trans hq)
    have hboth := hown (pre ++ [p]) post (by simp [heq]) (flowIndex cfg p)
    rw [hacc] at hboth
    exact hne (hboth q (List.mem_append_left _ hqm) p (by simp))
  · intro hopen pre
    induction pre using List.reverseRecOn with
    | nil =>
        intro post _ i q hq
        exact absurd hq (by simp [packetsAt])
    | append_singleton pre p ih =>
        intro post heq i
        have heq' : ps = pre ++ p :: post := by simpa using heq
        have hp : p.IsUdp := hudp p (by simp [heq'])
        have ih' := ih (p :: post) heq' i
        by_cases hi : flowIndex cfg p = i
        · subst hi
          rw [packetsAt_append, packetsAt_singleton, accumulated_concat, accumulate, if_pos hp]
          by_cases ho : (cellRun cfg (packetsAt cfg (flowIndex cfg p) pre)).Opens p
          · rw [if_pos ho]
            intro q hq r hr
            rw [List.mem_singleton.1 hq, List.mem_singleton.1 hr]
          · rw [if_neg ho]
            -- `p` joined the window, so it agrees with its predecessor, which is accumulated.
            refine agree_concat ih' fun q hq => ?_
            by_contra hqp
            refine ho ?_
            rw [← cell_switchRun]
            exact hopen pre p post q heq' ((hlast pre _ heq' _).symm.trans hq) hqp
        · have hnone : packetsAt cfg i [p] = [] := by simp [packetsAt, hi]
          rw [packetsAt_append, hnone, List.append_nil]
          exact ih'

end FlowClassifier
