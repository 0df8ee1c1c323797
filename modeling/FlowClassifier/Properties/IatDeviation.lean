import FlowClassifier.Properties.WindowedFold

/-!
# The inter-arrival deviation can be lost

The deviation of the inter-arrival times is accumulated by one conditional that stands for three
situations: no mean of a previous window yet, no previous packet of the direction, and a genuine
inter-arrival time.  The first two are recognised by a zero, and a genuine inter-arrival time can
be zero as well: then the sum is set back to zero, while the sum of the sizes, guarded by the mean
alone, goes on.

`iatDeviationCovers_iff` says when a run is free of this: no packet may share its arrival time with
its predecessor in the window and direction once a deviation has been accumulated.
-/

namespace FlowClassifier

open Mealy Windows

/-- The deviation over all inter-arrival times that are not zero. -/
def fullIatDev (mu : BitVec 48) (xs : List (BitVec 48)) : BitVec 48 :=
  if mu = 0 then 0 else BitVec.ofInt 48 (sqDev mu (xs.filter (· ≠ 0)))

lemma fullIatDev_concat_zero (mu : BitVec 48) (xs : List (BitVec 48)) :
    fullIatDev mu (xs ++ [0]) = fullIatDev mu xs := by
  simp [fullIatDev]

lemma fullIatDev_concat_of_ne_zero {mu x : BitVec 48} (xs : List (BitVec 48)) (hmu : mu ≠ 0)
    (hx : x ≠ 0) :
    fullIatDev mu (xs ++ [x]) = fullIatDev mu xs + (x - mu) * (x - mu) := by
  have hone : [x].filter (· ≠ 0) = [x] := by simpa using hx
  unfold fullIatDev
  rw [if_neg hmu, if_neg hmu, List.filter_append, hone, sqDev_concat, BitVec.ofInt_add,
    sq_sub_eq_ofInt]

/-- The deviation of one direction's inter-arrival times over the open window of an index. -/
def openIatDev (cfg : Config) (i : Fin 1024) (d : Direction) (ps : List Packet) : BitVec 48 :=
  fullIatDev (((switchRun cfg ps).cell i).half d).lstMuIAT
    (iats ((openIn cfg i d ps).map Packet.time))

/-- In every state of a run the deviation registers cover the whole open window, and so does the
deviation in every report. -/
structure IatDeviationCovers (cfg : Config) (ps : List Packet) : Prop where
  state : ∀ pre post, ps = pre ++ post → ∀ i d,
    (((switchRun cfg pre).cell i).half d).dltIAT = openIatDev cfg i d pre
  report : ∀ pre p post r, ps = pre ++ p :: post →
    (process cfg (switchRun cfg pre) p).report = some r → ∀ d,
      (r.features d).stdIAT =
        (windowFeatures cfg.tables (fun e =>
          { ((switchRun cfg pre).cell (flowIndex cfg p)).half e with
            dltIAT := openIatDev cfg (flowIndex cfg p) e pre }) d).stdIAT

/-- A packet joins the open window of its cell at the arrival time of its predecessor there, with
a mean to measure against and a deviation already accumulated. -/
def Discards (cfg : Config) (c : Cell) (p : Packet) : Prop :=
  p.IsUdp ∧ ¬ c.Opens p ∧ (c.half (flowDir cfg.tables p)).flowTst = p.time ∧
    (c.half (flowDir cfg.tables p)).lstMuIAT ≠ 0 ∧ (c.half (flowDir cfg.tables p)).dltIAT ≠ 0

/-! ## One cell -/

/-- The register of a cell covers the packets it accumulated. -/
def CellCovers (cfg : Config) (qs : List Packet) (d : Direction) : Prop :=
  ((cellRun cfg qs).half d).dltIAT =
    fullIatDev ((cellRun cfg qs).half d).lstMuIAT
      (iats ((accumulatedIn cfg d qs).map Packet.time))

variable {cfg : Config} {qs : List Packet} {p : Packet}

private lemma cellCovers_of_opens (hp : p.IsUdp) (ho : (cellRun cfg qs).Opens p) (d : Direction) :
    CellCovers cfg (qs ++ [p]) d := by
  obtain ⟨c', hc'⟩ := cellStep_of_opens cfg ho
  have hnone : iats ((accumulatedIn cfg d (qs ++ [p])).map Packet.time) = [] := by
    rw [accumulatedIn, accumulated_concat, accumulate, if_pos hp, if_pos ho]
    by_cases hd : flowDir cfg.tables p = d <;> simp [hd, iats]
  unfold CellCovers
  rw [hnone, cellRun_concat, packetStep_of_isUdp cfg _ hp, hc', half_init]
  split <;> simp [fullIatDev, sqDev, Half.clear, Half.update]

/-- A packet that joins the open window: its inter-arrival time is the only thing that changes. -/
private lemma step_of_joins (hpos : ∀ q ∈ qs, q.time ≠ 0) (hp : p.IsUdp)
    (hj : ¬ (cellRun cfg qs).Opens p) :
    accumulatedIn cfg (flowDir cfg.tables p) (qs ++ [p]) =
        accumulatedIn cfg (flowDir cfg.tables p) qs ++ [p] ∧
      ((cellRun cfg (qs ++ [p])).half (flowDir cfg.tables p)).lstMuIAT =
        ((cellRun cfg qs).half (flowDir cfg.tables p)).lstMuIAT ∧
      ((cellRun cfg qs).half (flowDir cfg.tables p)).flowTst =
        lastTime (accumulatedIn cfg (flowDir cfg.tables p) qs) ∧
      ∀ q ∈ accumulatedIn cfg (flowDir cfg.tables p) qs, q.time ≠ 0 := by
  refine ⟨?_, ?_, ?_, ?_⟩
  · rw [accumulatedIn, accumulatedIn, accumulated_concat, accumulate, if_pos hp, if_neg hj,
      List.filter_append]
    simp
  · rw [cellRun_concat, packetStep_of_isUdp cfg _ hp, cellStep_of_not_opens cfg hj, half_update,
      if_pos rfl]
    rfl
  · rw [half_cellRun cfg _ qs, Half.flowTst_feed_clear]
  · exact fun q hq => hpos q (mem_of_mem_accumulatedIn hq)

private lemma dltIAT_of_joins (hp : p.IsUdp) (hj : ¬ (cellRun cfg qs).Opens p) :
    ((cellRun cfg (qs ++ [p])).half (flowDir cfg.tables p)).dltIAT =
      (((cellRun cfg qs).half (flowDir cfg.tables p)).update p.siz p.time).dltIAT := by
  rw [cellRun_concat, packetStep_of_isUdp cfg _ hp, cellStep_of_not_opens cfg hj, half_update,
    if_pos rfl]

private lemma cellCovers_of_not_isUdp (hp : ¬ p.IsUdp) {d : Direction}
    (hcov : CellCovers cfg qs d) : CellCovers cfg (qs ++ [p]) d := by
  unfold CellCovers at hcov ⊢
  rw [accumulatedIn, accumulated_concat, accumulate, if_neg hp, cellRun_concat,
    packetStep_of_not_isUdp cfg _ hp]
  exact hcov

private lemma cellCovers_of_ne_flowDir (hp : p.IsUdp) (hj : ¬ (cellRun cfg qs).Opens p)
    {d : Direction} (hd : d ≠ flowDir cfg.tables p) (hcov : CellCovers cfg qs d) :
    CellCovers cfg (qs ++ [p]) d := by
  have hsame : accumulatedIn cfg d (qs ++ [p]) = accumulatedIn cfg d qs := by
    rw [accumulatedIn, accumulatedIn, accumulated_concat, accumulate, if_pos hp, if_neg hj,
      List.filter_append]
    simp [Ne.symm hd]
  unfold CellCovers at hcov ⊢
  rw [hsame, cellRun_concat, packetStep_of_isUdp cfg _ hp, cellStep_of_not_opens cfg hj,
    half_update, if_neg hd]
  exact hcov

private lemma cellCovers_of_joins (hpos : ∀ q ∈ qs, q.time ≠ 0) (hp : p.IsUdp)
    (hj : ¬ (cellRun cfg qs).Opens p) (hcov : CellCovers cfg qs (flowDir cfg.tables p))
    (hkeep : ¬ Discards cfg (cellRun cfg qs) p) :
    CellCovers cfg (qs ++ [p]) (flowDir cfg.tables p) := by
  obtain ⟨hacc, hmu, htst, htime⟩ := step_of_joins hpos hp hj
  have hdlt := dltIAT_of_joins hp hj
  unfold CellCovers at hcov ⊢
  unfold Discards at hkeep
  rw [hacc, hmu, hdlt, List.map_append, List.map_singleton, iats_concat, List.getLast?_map]
  generalize (cellRun cfg qs).half (flowDir cfg.tables p) = h at *
  generalize accumulatedIn cfg (flowDir cfg.tables p) qs = acc at *
  cases hlast : acc.getLast? with
  | none =>
      have hnil := List.getLast?_eq_none_iff.1 hlast
      subst hnil
      simp [Half.update, htst, lastTime, iats, fullIatDev]
  | some q =>
      have hq : lastTime acc = q.time := by simp [lastTime, hlast]
      have hne : q.time ≠ 0 := htime q (List.mem_of_getLast? hlast)
      have hupd : (h.update p.siz p.time).dltIAT =
          if h.lstMuIAT ≠ 0 ∧ p.time - q.time ≠ 0 then
            h.dltIAT + (p.time - q.time - h.lstMuIAT) * (p.time - q.time - h.lstMuIAT)
          else 0 := by
        simp only [Half.update, htst, hq, if_pos hne]
      rw [hupd]
      simp only [Option.map_some, Option.toList_some]
      by_cases hmu0 : h.lstMuIAT = 0
      · simp [hmu0, fullIatDev]
      · by_cases hz : p.time - q.time = 0
        · -- Same arrival time: the register is reset, so it must have been zero.
          have hsame : h.flowTst = p.time := by
            rw [htst, hq]
            exact (sub_eq_zero.1 hz).symm
          have hzero : h.dltIAT = 0 := by
            by_contra hd
            exact hkeep ⟨hp, hj, hsame, hmu0, hd⟩
          rw [if_neg (by simp [hz]), hz, fullIatDev_concat_zero, ← hcov, hzero]
        · rw [if_pos ⟨hmu0, hz⟩, fullIatDev_concat_of_ne_zero _ hmu0 hz, ← hcov]

/-- **The step.** A packet that discards nothing keeps the registers of its cell covering. -/
private lemma cellCovers_concat (hpos : ∀ q ∈ qs, q.time ≠ 0)
    (hcov : ∀ d, CellCovers cfg qs d) (hkeep : ¬ Discards cfg (cellRun cfg qs) p) (d : Direction) :
    CellCovers cfg (qs ++ [p]) d := by
  by_cases hp : p.IsUdp
  · by_cases ho : (cellRun cfg qs).Opens p
    · exact cellCovers_of_opens hp ho d
    · by_cases hd : d = flowDir cfg.tables p
      · rw [hd]
        exact cellCovers_of_joins hpos hp ho (hcov _) hkeep
      · exact cellCovers_of_ne_flowDir hp ho hd (hcov d)
  · exact cellCovers_of_not_isUdp hp (hcov d)

private lemma cellCovers_of_forall (hpos : ∀ q ∈ qs, q.time ≠ 0)
    (hkeep : ∀ pre p post, qs = pre ++ p :: post → ¬ Discards cfg (cellRun cfg pre) p)
    (d : Direction) : CellCovers cfg qs d := by
  induction qs using List.reverseRecOn generalizing d with
  | nil => simp [CellCovers, fullIatDev, cellRun, Cell.zero, Half.zero]
  | append_singleton qs p ih =>
      have hpos' : ∀ q ∈ qs, q.time ≠ 0 := fun q hq => hpos q (List.mem_append_left _ hq)
      have ih' := ih hpos' fun pre q post heq => hkeep pre q (post ++ [p]) (by simp [heq])
      exact cellCovers_concat hpos' ih' (hkeep qs p [] rfl) d

/-- A packet that discards leaves its register at zero, short of what was accumulated. -/
private lemma not_cellCovers_of_discards (hpos : ∀ q ∈ qs, q.time ≠ 0)
    (hcov : CellCovers cfg qs (flowDir cfg.tables p)) (hdis : Discards cfg (cellRun cfg qs) p) :
    ¬ CellCovers cfg (qs ++ [p]) (flowDir cfg.tables p) := by
  obtain ⟨hp, ho, hsame, hmu0, hne0⟩ := hdis
  obtain ⟨hacc, hmu, htst, htime⟩ := step_of_joins hpos hp ho
  have hdlt := dltIAT_of_joins hp ho
  unfold CellCovers at hcov ⊢
  rw [hacc, hmu, hdlt, List.map_append, List.map_singleton, iats_concat, List.getLast?_map]
  generalize (cellRun cfg qs).half (flowDir cfg.tables p) = h at *
  generalize accumulatedIn cfg (flowDir cfg.tables p) qs = acc at *
  have hreset : (h.update p.siz p.time).dltIAT = 0 := by
    simp [Half.update, hsame]
  rw [hreset]
  cases hlast : acc.getLast? with
  | none =>
      -- Without a predecessor nothing was accumulated.
      have hnil := List.getLast?_eq_none_iff.1 hlast
      subst hnil
      simp [iats, fullIatDev] at hcov
      exact absurd hcov hne0
  | some q =>
      have hq : lastTime acc = q.time := by simp [lastTime, hlast]
      have hz : p.time - q.time = 0 := by
        rw [← hsame, htst, hq]
        exact BitVec.sub_self q.time
      simp only [Option.map_some, Option.toList_some, hz]
      rw [fullIatDev_concat_zero, ← hcov]
      exact Ne.symm hne0

/-! ## The switch -/

/-- **The deviation registers of a run cover their windows exactly when no packet discards.** -/
theorem iatDeviationCovers_iff (cfg : Config) (ps : List Packet) (hudp : ∀ p ∈ ps, p.IsUdp)
    (hpos : ∀ p ∈ ps, p.time ≠ 0) (hmono : ps.Pairwise fun p q => p.time ≤ q.time) :
    IatDeviationCovers cfg ps ↔ ∀ pre p post, ps = pre ++ p :: post →
      ¬ Discards cfg ((switchRun cfg pre).cell (flowIndex cfg p)) p := by
  -- In every state, the register covers the open window iff the cell covers what it accumulated.
  have hcell : ∀ pre post, ps = pre ++ post → ∀ i d,
      (((switchRun cfg pre).cell i).half d).dltIAT = openIatDev cfg i d pre ↔
        CellCovers cfg (packetsAt cfg i pre) d := by
    intro pre post heq i d
    rw [heq] at hudp hpos hmono
    have hopen := accumulatedIn_packetsAt cfg i d (fun p hp => hudp p (List.mem_append_left _ hp))
      (fun p hp => hpos p (List.mem_append_left _ hp)) (List.pairwise_append.1 hmono).1
    unfold openIatDev CellCovers
    rw [cell_switchRun, hopen]
  have hposAt : ∀ pre post, ps = pre ++ post → ∀ i, ∀ p ∈ packetsAt cfg i pre, p.time ≠ 0 := by
    intro pre post heq i p hp
    refine hpos p ?_
    rw [heq]
    exact List.mem_append_left _ (mem_packetsAt.1 hp).1
  constructor
  · intro hcov pre p post heq hdis
    have heq' : ps = (pre ++ [p]) ++ post := by simp [heq]
    have hbefore := (hcell pre _ heq (flowIndex cfg p) (flowDir cfg.tables p)).1
      (hcov.state pre _ heq _ _)
    have hafter := (hcell _ post heq' (flowIndex cfg p) (flowDir cfg.tables p)).1
      (hcov.state _ post heq' _ _)
    rw [packetsAt_append, packetsAt_singleton] at hafter
    rw [cell_switchRun] at hdis
    exact not_cellCovers_of_discards (hposAt pre _ heq _) hbefore hdis hafter
  · intro hkeep
    have hstate : ∀ pre post, ps = pre ++ post → ∀ i d,
        (((switchRun cfg pre).cell i).half d).dltIAT = openIatDev cfg i d pre := by
      intro pre post heq i d
      refine (hcell pre post heq i d).2 (cellCovers_of_forall (hposAt pre post heq i) ?_ d)
      intro pre' p post' hsplit
      obtain ⟨pre₂, post₂, hpre, hat⟩ := exists_split_of_packetsAt hsplit
      have hi : flowIndex cfg p = i := (mem_packetsAt.1 (by rw [hsplit]; simp)).2
      have hno := hkeep pre₂ p (post₂ ++ post) (by rw [heq, hpre]; simp)
      rw [hi, cell_switchRun, hat] at hno
      exact hno
    refine ⟨hstate, ?_⟩
    intro pre p post r heq hr d
    have hp : p.IsUdp := hudp p (by simp [heq])
    obtain ⟨-, hreport⟩ := report_eq_windowReport hp hr
    have hhalf : (fun e => { ((switchRun cfg pre).cell (flowIndex cfg p)).half e with
          dltIAT := openIatDev cfg (flowIndex cfg p) e pre }) =
        ((switchRun cfg pre).cell (flowIndex cfg p)).half := by
      funext e
      rw [← hstate pre _ heq (flowIndex cfg p) e]
    rw [hhalf, hreport]
    rfl

/-- A run of which no packet shares its arrival time with its predecessor. -/
theorem iatDeviationCovers_iff_download :
    let cfg : Config :=
      { hash := fun a _ => Fin.ofNat 1024 (a.toNat % 1024)
        tables := { Tables.empty with
          direc := [0xC0A8]
          divide := fun _ => [⟨1, 1, 1, ⟨0, 255, 255⟩⟩] } }
    let ps := [udpPacket 0x0A000002 0xC0A80001 1400 1000,
      udpPacket 0x0A000002 0xC0A80001 1400 40000,
      udpPacket 0x0A000002 0xC0A80001 1400 41000,
      udpPacket 0x0A000002 0xC0A80001 1400 42000]
    IatDeviationCovers cfg ps := by
  intro cfg ps
  refine (iatDeviationCovers_iff cfg ps ?_ (by decide) (by decide)).2 ?_
  · intro p hp
    simp only [ps, List.mem_cons, List.not_mem_nil, or_false] at hp
    rcases hp with rfl | rfl | rfl | rfl <;> exact isUdp_udpPacket ..
  · rintro pre p post heq ⟨-, -, htst, -, -⟩
    rcases pre with _ | ⟨a, _ | ⟨b, _ | ⟨c, _ | ⟨d, pre⟩⟩⟩⟩
    · obtain ⟨rfl, -⟩ := List.cons.inj heq
      exact absurd htst (by decide +kernel)
    · simp only [ps, List.cons_append, List.nil_append, List.cons.injEq] at heq
      obtain ⟨rfl, rfl, -⟩ := heq
      exact absurd htst (by decide +kernel)
    · simp only [ps, List.cons_append, List.nil_append, List.cons.injEq] at heq
      obtain ⟨rfl, rfl, rfl, -⟩ := heq
      exact absurd htst (by decide +kernel)
    · simp only [ps, List.cons_append, List.nil_append, List.cons.injEq] at heq
      obtain ⟨rfl, rfl, rfl, rfl, -⟩ := heq
      exact absurd htst (by decide +kernel)
    · simp [ps] at heq

/-- In the second window of a download, the deviation accumulated by the packet at 41 ms is lost to
the next one, which arrives in the same microsecond. -/
theorem not_iatDeviationCovers_burst :
    let cfg : Config :=
      { hash := fun a _ => Fin.ofNat 1024 (a.toNat % 1024)
        tables := { Tables.empty with
          direc := [0xC0A8]
          divide := fun _ => [⟨1, 1, 1, ⟨0, 255, 255⟩⟩] } }
    ¬ IatDeviationCovers cfg
      [udpPacket 0x0A000002 0xC0A80001 1400 1000,
        udpPacket 0x0A000002 0xC0A80001 1400 40000,
        udpPacket 0x0A000002 0xC0A80001 1400 41000,
        udpPacket 0x0A000002 0xC0A80001 1400 41000] := by
  intro cfg hcov
  have hstate := hcov.state _ [] (List.append_nil _).symm 1 .DW
  have hregister : (((switchRun cfg
      [udpPacket 0x0A000002 0xC0A80001 1400 1000, udpPacket 0x0A000002 0xC0A80001 1400 40000,
        udpPacket 0x0A000002 0xC0A80001 1400 41000,
        udpPacket 0x0A000002 0xC0A80001 1400 41000]).cell 1).half .DW).dltIAT = 0 := by
    decide +kernel
  have hfull : openIatDev cfg 1 .DW
      [udpPacket 0x0A000002 0xC0A80001 1400 1000, udpPacket 0x0A000002 0xC0A80001 1400 40000,
        udpPacket 0x0A000002 0xC0A80001 1400 41000,
        udpPacket 0x0A000002 0xC0A80001 1400 41000] = 1024000000 := by
    decide +kernel
  rw [hregister, hfull] at hstate
  exact absurd hstate (by decide)

end FlowClassifier
