import Mathlib.Algebra.BigOperators.Group.List.Basic
import Mathlib.Data.BitVec
import Mathlib.Data.List.DropRight
import FlowClassifier.Switch.Runs

/-!
# What the accumulators hold

Counts, sums and deviations are folds over the packets since the last one that opened a window at
the cell.  `accumulated` is that list, kept beside the cell as a history variable, and
`half_cellRun` says that both directions' registers are the fold `Half.feed` of the packets of
their direction from cleared registers.  The rest of the file reads the fold off field by field:
a length, a sum, a last time, a sum of squared deviations.

The theorem has no hypotheses: whether the list is what one would like it to be, packets of one
conversation in one window, is a separate question that later files ask about `accumulated`.
-/

namespace FlowClassifier

open Mealy

/-! ## Folding packets into one direction's registers -/

namespace Half

/-- Packets of one direction, accounted one after the other. -/
def feed (h : Half) (ps : List Packet) : Half := ps.foldl (fun h p => h.update p.siz p.time) h

lemma feed_concat (h : Half) (ps : List Packet) (p : Packet) :
    h.feed (ps ++ [p]) = (h.feed ps).update p.siz p.time := by
  simp [feed]

/-- Opening a window is accounting a packet to cleared registers. -/
lemma init_eq_update_clear (h : Half) (siz : BitVec 32) (t : BitVec 48) :
    h.init siz t = h.clear.update siz t := by
  simp [init, update, clear]

@[simp] lemma clear_update (h : Half) (siz : BitVec 32) (t : BitVec 48) :
    (h.update siz t).clear = h.clear := rfl

@[simp] lemma lstMuSZE_feed (h : Half) (ps : List Packet) :
    (h.feed ps).lstMuSZE = h.lstMuSZE := by
  induction ps using List.reverseRecOn with
  | nil => rfl
  | append_singleton ps p ih => rw [feed_concat]; exact ih

@[simp] lemma lstMuIAT_feed (h : Half) (ps : List Packet) :
    (h.feed ps).lstMuIAT = h.lstMuIAT := by
  induction ps using List.reverseRecOn with
  | nil => rfl
  | append_singleton ps p ih => rw [feed_concat]; exact ih

end Half

/-! ## Reading the fold -/

/-- The sum of the sizes of some packets. -/
def sizes (ps : List Packet) : ℕ := (ps.map fun p => p.siz.toNat).sum

/-- The arrival time of the last of some packets, zero if there is none. -/
def lastTime (ps : List Packet) : BitVec 48 := (ps.getLast?.map Packet.time).getD 0

/-- The last time is no later than what all packets come before. -/
lemma lastTime_le {ps : List Packet} {t : BitVec 48} (h : ∀ q ∈ ps, q.time ≤ t) :
    lastTime ps ≤ t := by
  unfold lastTime
  cases hq : ps.getLast? with
  | none => exact Nat.zero_le _
  | some q => exact h q (List.mem_of_getLast? hq)

/-- The arrival time of the first of some packets, zero if there is none. -/
def firstTime (ps : List Packet) : BitVec 48 := (ps.head?.map Packet.time).getD 0

/-- The times between consecutive arrivals. -/
def iats (ts : List (BitVec 48)) : List (BitVec 48) := ts.zipWith (fun s t => t - s) ts.tail

lemma iats_concat (ts : List (BitVec 48)) (t : BitVec 48) :
    iats (ts ++ [t]) = iats ts ++ (ts.getLast?.map fun s => t - s).toList := by
  induction ts with
  | nil => rfl
  | cons s ts ih =>
      cases ts with
      | nil => rfl
      | cons r ts =>
          have hcons : ∀ us, iats (s :: r :: us) = (r - s) :: iats (r :: us) := fun _ => rfl
          rw [List.cons_append, List.cons_append, hcons, hcons, List.cons_append,
            List.getLast?_cons_cons, ← List.cons_append, ih]

/-- The deviation of inter-arrival times as the program accumulates it: an inter-arrival time of
zero starts the sum again. -/
def iatDev (mu : BitVec 48) (xs : List (BitVec 48)) : BitVec 48 :=
  xs.foldl (fun acc x => if mu ≠ 0 ∧ x ≠ 0 then acc + (x - mu) * (x - mu) else 0) 0

lemma iatDev_concat (mu : BitVec 48) (xs : List (BitVec 48)) (x : BitVec 48) :
    iatDev mu (xs ++ [x]) =
      if mu ≠ 0 ∧ x ≠ 0 then iatDev mu xs + (x - mu) * (x - mu) else 0 := by
  simp [iatDev]

/-- The sum of squared distances from a value. -/
def sqDev {w : ℕ} (mu : BitVec w) (xs : List (BitVec w)) : ℤ :=
  (xs.map fun x => ((x.toNat : ℤ) - mu.toNat) ^ 2).sum

@[simp] lemma sqDev_nil {w : ℕ} (mu : BitVec w) : sqDev mu [] = 0 := rfl

lemma sqDev_concat {w : ℕ} (mu : BitVec w) (xs : List (BitVec w)) (x : BitVec w) :
    sqDev mu (xs ++ [x]) = sqDev mu xs + ((x.toNat : ℤ) - mu.toNat) ^ 2 := by
  simp [sqDev]

/-- The modular square of a difference is the square of the integer difference, reduced. -/
lemma sq_sub_eq_ofInt {w : ℕ} (x mu : BitVec w) :
    (x - mu) * (x - mu) = BitVec.ofInt w (((x.toNat : ℤ) - mu.toNat) ^ 2) := by
  have hsub : x - mu = BitVec.ofInt w ((x.toNat : ℤ) - mu.toNat) := by
    rw [sub_eq_add_neg, sub_eq_add_neg, BitVec.ofInt_add, BitVec.ofInt_neg, BitVec.ofInt_natCast,
      BitVec.ofInt_natCast, BitVec.ofNat_toNat, BitVec.ofNat_toNat, BitVec.setWidth_eq,
      BitVec.setWidth_eq]
  rw [hsub, ← BitVec.ofInt_mul, sq]

/-- The program's sum is that of the squared distances since the last time of zero, reduced, unless
there is no mean yet. -/
lemma iatDev_eq (mu : BitVec 48) (xs : List (BitVec 48)) :
    iatDev mu xs =
      if mu = 0 then 0 else BitVec.ofInt 48 (sqDev mu (xs.rtakeWhile fun x => x ≠ 0)) := by
  induction xs using List.reverseRecOn with
  | nil => split <;> rfl
  | append_singleton xs x ih =>
      rw [iatDev_concat, ih, List.rtakeWhile_concat]
      by_cases hmu : mu = 0
      · simp [hmu]
      · by_cases hx : x = 0
        · simp [hx]
        · rw [if_pos ⟨hmu, hx⟩, if_neg hmu, if_neg hmu, if_pos (by simpa using hx), sqDev_concat,
            BitVec.ofInt_add, sq_sub_eq_ofInt]

/-- An integer that is not negative is its own residue when it is small enough, and only then. -/
lemma toNat_ofInt_eq_iff {w : ℕ} {z : ℤ} (hz : 0 ≤ z) :
    ((BitVec.ofInt w z).toNat : ℤ) = z ↔ z < 2 ^ w := by
  have hpos : (0 : ℤ) < ((2 ^ w : ℕ) : ℤ) := by exact_mod_cast Nat.two_pow_pos w
  have hmod : ((BitVec.ofInt w z).toNat : ℤ) = z % ((2 ^ w : ℕ) : ℤ) := by
    rw [BitVec.toNat_ofInt, Int.toNat_of_nonneg (Int.emod_nonneg _ (ne_of_gt hpos))]
  rw [hmod, ← Nat.cast_ofNat, ← Nat.cast_pow]
  constructor
  · intro h
    rw [← h]
    exact Int.emod_lt_of_pos _ hpos
  · exact Int.emod_eq_of_lt hz

namespace Half

lemma nbelem_feed_clear (h : Half) (ps : List Packet) :
    (h.clear.feed ps).nbelem = BitVec.ofNat 12 ps.length := by
  induction ps using List.reverseRecOn with
  | nil => rfl
  | append_singleton ps p ih =>
      rw [feed_concat, List.length_append, BitVec.ofNat_add, ← ih]
      rfl

lemma sumSZE_feed_clear (h : Half) (ps : List Packet) :
    (h.clear.feed ps).sumSZE = BitVec.ofNat 32 (sizes ps) := by
  induction ps using List.reverseRecOn with
  | nil => rfl
  | append_singleton ps p ih =>
      have hsizes : sizes (ps ++ [p]) = sizes ps + p.siz.toNat := by simp [sizes]
      rw [feed_concat, hsizes, BitVec.ofNat_add, ← ih, BitVec.ofNat_toNat, BitVec.setWidth_eq]
      rfl

lemma flowTst_feed_clear (h : Half) (ps : List Packet) :
    (h.clear.feed ps).flowTst = lastTime ps := by
  cases ps using List.reverseRecOn with
  | nil => rfl
  | append_singleton ps p =>
      rw [feed_concat]
      simp [lastTime, update]

lemma dltSZE_feed_clear (h : Half) (ps : List Packet) :
    (h.clear.feed ps).dltSZE =
      if h.lstMuSZE = 0 then 0
      else BitVec.ofInt 32 (sqDev h.lstMuSZE (ps.map Packet.siz)) := by
  induction ps using List.reverseRecOn with
  | nil => split <;> rfl
  | append_singleton ps p ih =>
      have hmu : (h.clear.feed ps).lstMuSZE = h.lstMuSZE := lstMuSZE_feed h.clear ps
      have hstep : (h.clear.feed (ps ++ [p])).dltSZE =
          if h.lstMuSZE ≠ 0 then
            (h.clear.feed ps).dltSZE + (p.siz - h.lstMuSZE) * (p.siz - h.lstMuSZE)
          else 0 := by
        rw [feed_concat, ← hmu]
        rfl
      rw [hstep, ih]
      by_cases h0 : h.lstMuSZE = 0
      · simp only [h0, ne_eq, not_true, if_false, if_true]
      · simp only [h0, ne_eq, not_false_iff, if_true, if_false]
        rw [List.map_append, List.map_singleton, sqDev_concat, BitVec.ofInt_add, sq_sub_eq_ofInt]

/-- An arrival time of zero would be taken for no arrival at all. -/
lemma dltIAT_feed_clear (h : Half) {ps : List Packet} (hpos : ∀ p ∈ ps, p.time ≠ 0) :
    (h.clear.feed ps).dltIAT = iatDev h.lstMuIAT (iats (ps.map Packet.time)) := by
  induction ps using List.reverseRecOn with
  | nil => rfl
  | append_singleton ps p ih =>
      have ih' := ih fun q hq => hpos q (List.mem_append_left _ hq)
      have hmu : (h.clear.feed ps).lstMuIAT = h.lstMuIAT := lstMuIAT_feed h.clear ps
      have htst : (h.clear.feed ps).flowTst = lastTime ps := flowTst_feed_clear h ps
      have hstep : (h.clear.feed (ps ++ [p])).dltIAT =
          (let iat := if lastTime ps ≠ 0 then p.time - lastTime ps else 0
          if h.lstMuIAT ≠ 0 ∧ iat ≠ 0 then
            (h.clear.feed ps).dltIAT + (iat - h.lstMuIAT) * (iat - h.lstMuIAT)
          else 0) := by
        rw [feed_concat, ← hmu, ← htst]
        rfl
      rw [hstep, ih', List.map_append, List.map_singleton, iats_concat, List.getLast?_map]
      cases hlast : ps.getLast? with
      | none =>
          -- The first packet of the direction: there is no inter-arrival time yet.
          have hnil := List.getLast?_eq_none_iff.1 hlast
          subst hnil
          simp [lastTime, iatDev, iats]
      | some q =>
          have hq : lastTime ps = q.time := by simp [lastTime, hlast]
          have hne : q.time ≠ 0 := hpos q (List.mem_append_left _ (List.mem_of_getLast? hlast))
          simp only [hq, if_pos hne]
          exact (iatDev_concat _ _ _).symm

end Half

/-! ## The accumulated packets -/

/-- Does a packet open a window at a cell, rather than join the open one? -/
def Cell.Opens (c : Cell) (p : Packet) : Prop :=
  c.WindowOver p.time ∨ c.swapSpace p.key ≠ 0 ∨ c.flowFrstTime = 0

instance (c : Cell) (p : Packet) : Decidable (c.Opens p) := by
  unfold Cell.Opens
  infer_instance

/-- The packets a cell accumulates, after one more packet. -/
def accumulate (c : Cell) (acc : List Packet) (p : Packet) : List Packet :=
  if p.IsUdp then if c.Opens p then [p] else acc ++ [p] else acc

/-- The cell machine with the accumulated packets beside the cell. -/
def accStep (cfg : Config) (x : Cell × List Packet) (p : Packet) :
    (Cell × List Packet) × Option Report :=
  (((packetStep cfg x.1 p).1, accumulate x.1 x.2 p), (packetStep cfg x.1 p).2)

/-- The packets accumulated in a cell after a list of packets. -/
def accumulated (cfg : Config) (ps : List Packet) : List Packet :=
  (runState (accStep cfg) (Cell.zero, []) ps).2

private lemma fst_runState_accStep (cfg : Config) (ps : List Packet) :
    (runState (accStep cfg) (Cell.zero, []) ps).1 = cellRun cfg ps := by
  induction ps using List.reverseRecOn with
  | nil => rfl
  | append_singleton ps p ih =>
      rw [runState_concat, cellRun_concat, ← ih]
      rfl

@[simp] lemma accumulated_nil (cfg : Config) : accumulated cfg [] = [] := rfl

lemma accumulated_concat (cfg : Config) (ps : List Packet) (p : Packet) :
    accumulated cfg (ps ++ [p]) = accumulate (cellRun cfg ps) (accumulated cfg ps) p := by
  rw [accumulated, runState_concat, ← fst_runState_accStep]
  rfl

/-- The accumulated packets are the last UDP packets of the cell. -/
lemma accumulated_suffix (cfg : Config) (ps : List Packet) :
    accumulated cfg ps <:+ ps.filter (fun p => p.IsUdp) := by
  induction ps using List.reverseRecOn with
  | nil => exact List.suffix_rfl
  | append_singleton ps p ih =>
      rw [accumulated_concat, accumulate, List.filter_append]
      by_cases hp : p.IsUdp
      · rw [if_pos hp, List.filter_cons_of_pos (by simpa using hp), List.filter_nil]
        split
        · exact List.suffix_append _ _
        · obtain ⟨front, hfront⟩ := ih
          exact ⟨front, by rw [← List.append_assoc, hfront]⟩
      · rw [if_neg hp, List.filter_cons_of_neg (by simpa using hp), List.filter_nil,
          List.append_nil]
        exact ih

lemma mem_of_mem_accumulated {cfg : Config} {ps : List Packet} {p : Packet}
    (hp : p ∈ accumulated cfg ps) : p ∈ ps :=
  List.mem_of_mem_filter ((accumulated_suffix cfg ps).subset hp)

/-- The last UDP packet of a cell is always accumulated. -/
lemma getLast?_accumulated (cfg : Config) (ps : List Packet) :
    (accumulated cfg ps).getLast? = (ps.filter fun p => p.IsUdp).getLast? := by
  induction ps using List.reverseRecOn with
  | nil => rfl
  | append_singleton ps p ih =>
      rw [accumulated_concat, accumulate, List.filter_append]
      by_cases hp : p.IsUdp
      · rw [if_pos hp, List.filter_cons_of_pos (by simpa using hp), List.filter_nil]
        split <;> simp
      · rw [if_neg hp, List.filter_cons_of_neg (by simpa using hp), List.filter_nil,
          List.append_nil]
        exact ih

/-- The accumulated packets of one direction. -/
def accumulatedIn (cfg : Config) (d : Direction) (ps : List Packet) : List Packet :=
  (accumulated cfg ps).filter fun p => flowDir cfg.tables p = d

lemma mem_of_mem_accumulatedIn {cfg : Config} {d : Direction} {ps : List Packet} {p : Packet}
    (hp : p ∈ accumulatedIn cfg d ps) : p ∈ ps :=
  mem_of_mem_accumulated (List.mem_of_mem_filter hp)

/-! ## One step of the cell machine -/

lemma half_update (c : Cell) (d e : Direction) (siz : BitVec 32) (t : BitVec 48) :
    (c.update d siz t).half e = if e = d then (c.half e).update siz t else c.half e := by
  by_cases he : e = d
  · subst he
    simp [Cell.update]
  · simp [Cell.update, he]

lemma half_init (c : Cell) (d e : Direction) (siz : BitVec 32) (t : BitVec 48) :
    (c.init d siz t).half e =
      if e = d then (c.half e).clear.update siz t else (c.half e).clear := by
  by_cases he : e = d
  · subst he
    simp [Cell.init, Half.init_eq_update_clear]
  · simp [Cell.init, he]

/-- A packet that opens a window clears the registers first. The cell it leaves is that of an
`init`, of the closed cell or of the cell itself. -/
lemma cellStep_of_opens (cfg : Config) {c : Cell} {p : Packet} (h : c.Opens p) :
    ∃ c' : Cell, (cellStep cfg c p).1 = c'.init (flowDir cfg.tables p) p.siz p.time := by
  unfold cellStep
  by_cases hw : c.WindowOver p.time
  · simp only [hw, if_true]
    exact ⟨_, rfl⟩
  · have hi : c.swapSpace p.key ≠ 0 ∨ c.flowFrstTime = 0 := h.resolve_left hw
    simp only [hw, if_false, if_pos hi]
    exact ⟨_, rfl⟩

/-- A packet that joins the open window emits nothing and updates its own direction. -/
lemma cellStep_of_not_opens (cfg : Config) {c : Cell} {p : Packet} (h : ¬ c.Opens p) :
    cellStep cfg c p = (c.update (flowDir cfg.tables p) p.siz p.time, none) := by
  unfold Cell.Opens at h
  rw [not_or] at h
  unfold cellStep
  simp only [h.1, if_false, if_neg h.2]

/-- **The accumulators are a fold of the accumulated packets**, direction by direction, from
cleared registers. -/
theorem half_cellRun (cfg : Config) (d : Direction) (ps : List Packet) :
    (cellRun cfg ps).half d =
      ((cellRun cfg ps).half d).clear.feed (accumulatedIn cfg d ps) := by
  induction ps using List.reverseRecOn with
  | nil => rfl
  | append_singleton ps p ih =>
      rw [accumulatedIn, accumulated_concat, cellRun_concat, accumulate]
      by_cases hp : p.IsUdp
      · rw [packetStep_of_isUdp cfg _ hp, if_pos hp]
        by_cases ho : (cellRun cfg ps).Opens p
        · obtain ⟨c', hc'⟩ := cellStep_of_opens cfg ho
          rw [if_pos ho, hc', half_init]
          by_cases hd : d = flowDir cfg.tables p
          · have hone : [p].filter (fun p => flowDir cfg.tables p = d) = [p] := by simp [hd]
            rw [if_pos hd, hone]
            rfl
          · have hnone : [p].filter (fun p => flowDir cfg.tables p = d) = [] := by
              simp [Ne.symm hd]
            rw [if_neg hd, hnone]
            rfl
        · rw [if_neg ho, cellStep_of_not_opens cfg ho, half_update, List.filter_append]
          by_cases hd : d = flowDir cfg.tables p
          · have hone : [p].filter (fun p => flowDir cfg.tables p = d) = [p] := by simp [hd]
            rw [if_pos hd, hone, Half.clear_update, Half.feed_concat]
            exact congrArg (fun h : Half => h.update p.siz p.time) ih
          · have hnone : [p].filter (fun p => flowDir cfg.tables p = d) = [] := by
              simp [Ne.symm hd]
            rw [if_neg hd, hnone, List.append_nil]
            exact ih
      · rw [packetStep_of_not_isUdp cfg _ hp, if_neg hp]
        exact ih

/-- The start of the window is the arrival of the first accumulated packet. -/
theorem flowFrstTime_cellRun (cfg : Config) (ps : List Packet) :
    (cellRun cfg ps).flowFrstTime = firstTime (accumulated cfg ps) := by
  induction ps using List.reverseRecOn with
  | nil => rfl
  | append_singleton ps p ih =>
      rw [accumulated_concat, cellRun_concat, accumulate]
      by_cases hp : p.IsUdp
      · rw [packetStep_of_isUdp cfg _ hp, if_pos hp]
        by_cases ho : (cellRun cfg ps).Opens p
        · obtain ⟨c', hc'⟩ := cellStep_of_opens cfg ho
          rw [if_pos ho, hc']
          rfl
        · rw [if_neg ho, cellStep_of_not_opens cfg ho]
          have hne : accumulated cfg ps ≠ [] := by
            intro hnil
            rw [hnil] at ih
            exact ho (Or.inr (Or.inr ih))
          have hfirst : firstTime (accumulated cfg ps ++ [p]) = firstTime (accumulated cfg ps) := by
            unfold firstTime
            rw [List.head?_append_of_ne_nil _ hne]
          rw [hfirst]
          exact ih
      · rw [packetStep_of_not_isUdp cfg _ hp, if_neg hp]
        exact ih

end FlowClassifier
