import Mathlib.Data.List.Basic
import Mathlib.Data.List.Forall2

/-!
# Mealy machines and their routed composition

A machine reads a list of inputs and emits one output per input.  `runState` is the state after
the list, `trace` the list of inputs each paired with the output it produced; keeping the input
beside the output is what lets a run be cut down to some of its inputs without losing track of
who emitted what.  Inputs that change nothing and produce nothing can be deleted from a run
(`filter_silent`).  What a machine remembers can be read off its outputs: what they overwrite is
what the last one made it (`remembers`), and states that differ only until the next output run alike
from there on (`agree_after_output`).

A *routed* machine keeps its state in cells, sends every input to one cell, and touches only that
cell.  `Routed` states this for a machine `step` and the machine `cstep` that works on one cell,
and the results about it are the ones used on interleaved runs: a cell evolves as its own
machine does on the inputs routed to it (`Routed.cell_runState`), the outputs those inputs produce
are that machine's (`Routed.trace_filter`), and inputs that share no cell with a family of inputs
can be deleted without the family noticing (`Routed.filter_own`).  A simulation between two routed
machines is one between their cells (`Routed.simulation`).
-/

namespace FlowClassifier
namespace Mealy

variable {σ ι ο : Type*}

/-! ## Runs -/

/-- The state after reading the inputs from left to right. -/
def runState (step : σ → ι → σ × ο) (s : σ) (is : List ι) : σ :=
  is.foldl (fun s i => (step s i).1) s

/-- Every input with the output it produces. -/
def trace (step : σ → ι → σ × ο) : σ → List ι → List (ι × ο)
  | _, [] => []
  | s, i :: is => (i, (step s i).2) :: trace step (step s i).1 is

section Runs

variable (step : σ → ι → σ × ο)

@[simp] lemma runState_nil (s : σ) : runState step s [] = s := rfl

@[simp] lemma runState_cons (s : σ) (i : ι) (is : List ι) :
    runState step s (i :: is) = runState step (step s i).1 is := rfl

lemma runState_concat (s : σ) (is : List ι) (i : ι) :
    runState step s (is ++ [i]) = (step (runState step s is) i).1 := by
  simp [runState]

@[simp] lemma trace_nil (s : σ) : trace step s [] = [] := rfl

@[simp] lemma trace_cons (s : σ) (i : ι) (is : List ι) :
    trace step s (i :: is) = (i, (step s i).2) :: trace step (step s i).1 is := rfl

lemma trace_append (s : σ) (is js : List ι) :
    trace step s (is ++ js) = trace step s is ++ trace step (runState step s is) js := by
  induction is generalizing s with
  | nil => rfl
  | cons i is ih => simp [ih]

lemma trace_concat (s : σ) (is : List ι) (i : ι) :
    trace step s (is ++ [i]) = trace step s is ++ [(i, (step (runState step s is) i).2)] := by
  rw [trace_append]
  rfl

/-- What a trace holds: an input of the run, with what it produces in the state before it. -/
lemma mem_trace_iff {s : σ} {is : List ι} {x : ι × ο} :
    x ∈ trace step s is ↔
      ∃ pre post, is = pre ++ x.1 :: post ∧ (step (runState step s pre) x.1).2 = x.2 := by
  constructor
  · intro hx
    induction is generalizing s with
    | nil => exact absurd hx List.not_mem_nil
    | cons i is ih =>
        rcases List.mem_cons.1 hx with rfl | hx
        · exact ⟨[], is, rfl, rfl⟩
        · obtain ⟨pre, post, rfl, hout⟩ := ih hx
          exact ⟨i :: pre, post, rfl, hout⟩
  · rintro ⟨pre, post, rfl, hout⟩
    rw [trace_append, trace_cons, hout]
    exact List.mem_append_right _ (List.mem_cons_self ..)

end Runs

/-! ## Silent inputs -/

/-- The outputs of a trace that are there, each with its input. -/
def produced {π : Type*} (tr : List (ι × Option π)) : List (ι × π) :=
  tr.filterMap fun x => x.2.map (Prod.mk x.1)

lemma produced_cons {π : Type*} (i : ι) (o : Option π) (tr : List (ι × Option π)) :
    produced ((i, o) :: tr) = (o.map (Prod.mk i)).toList ++ produced tr := by
  cases o <;> rfl

/-- Inputs that change nothing and produce nothing can be deleted. -/
theorem filter_silent {π : Type*} {step : σ → ι → σ × Option π} (keep : ι → Bool)
    (h : ∀ s i, keep i = false → step s i = (s, none)) (s : σ) (is : List ι) :
    runState step s (is.filter keep) = runState step s is ∧
      produced (trace step s (is.filter keep)) = produced (trace step s is) := by
  induction is generalizing s with
  | nil => exact ⟨rfl, rfl⟩
  | cons i is ih =>
      cases hi : keep i with
      | true =>
          obtain ⟨hrun, hout⟩ := ih (step s i).1
          rw [List.filter_cons_of_pos hi, runState_cons, runState_cons, trace_cons, trace_cons,
            produced_cons, produced_cons, hout]
          exact ⟨hrun, rfl⟩
      | false =>
          rw [List.filter_cons_of_neg (by simp [hi]), runState_cons, trace_cons, produced_cons,
            h s i hi]
          exact ih s

/-! ## Simulation -/

/-- A step-by-step simulation between two machines, with the inputs renamed by `f` and the
outputs by `g`, carries over to runs and traces. -/
theorem simulation {σ' ι' ο' : Type*} {step : σ → ι → σ × ο} {step' : σ' → ι' → σ' × ο'}
    (R : σ → σ' → Prop) (f : ι → ι') (g : ο → ο') {is : List ι}
    (hstep : ∀ s s', ∀ i ∈ is, R s s' →
      R (step s i).1 (step' s' (f i)).1 ∧ (step' s' (f i)).2 = g (step s i).2) :
    ∀ s s', R s s' →
      R (runState step s is) (runState step' s' (is.map f)) ∧
        trace step' s' (is.map f) = (trace step s is).map (fun x => (f x.1, g x.2)) := by
  induction is with
  | nil =>
      intro s s' hR
      exact ⟨hR, rfl⟩
  | cons i is ih =>
      intro s s' hR
      obtain ⟨hR', hout⟩ := hstep s s' i (List.mem_cons_self ..) hR
      have ih' := ih (fun s s' j hj => hstep s s' j (List.mem_cons_of_mem _ hj)) _ _ hR'
      refine ⟨ih'.1, ?_⟩
      simp only [List.map_cons, trace_cons, hout, ih'.2]

/-! ## Memory -/

/-- The outputs of a trace that are there. -/
def outputs {π : Type*} (tr : List (ι × Option π)) : List π := tr.filterMap Prod.snd

lemma outputs_cons {π : Type*} (i : ι) (o : Option π) (tr : List (ι × Option π)) :
    outputs ((i, o) :: tr) = o.toList ++ outputs tr := by
  cases o <;> rfl

/-- What every output overwrites is what the last output made it. -/
theorem remembers {π β : Type*} {step : σ → ι → σ × Option π} (g : σ → β) (f : π → β)
    (h : ∀ s i, g (step s i).1 = ((step s i).2.map f).getD (g s)) (s : σ) (is : List ι) :
    g (runState step s is) = ((outputs (trace step s is)).map f).getLastD (g s) := by
  induction is generalizing s with
  | nil => rfl
  | cons i is ih =>
      rw [runState_cons, ih, trace_cons, outputs_cons, h]
      cases (step s i).2 with
      | none => rfl
      | some o => exact (List.getLastD_cons ..).symm

/-- **An output settles the difference.**  Two states of a machine may differ as `R` allows until
something is produced; the first outputs may differ as `W` allows, and leave states that are `S`
alike, which produce the same ever after. -/
theorem agree_after_output {π : Type*} {step : σ → ι → σ × Option π} (R S : σ → σ → Prop)
    (W : π → π → Prop) (hW : ∀ o, W o o)
    (hS : ∀ s s' i, S s s' → S (step s i).1 (step s' i).1 ∧ (step s i).2 = (step s' i).2)
    (hR : ∀ s s' i, R s s' →
      ((step s i).2 = none ∧ (step s' i).2 = none ∧ R (step s i).1 (step s' i).1) ∨
      ∃ o o', (step s i).2 = some o ∧ (step s' i).2 = some o' ∧ W o o' ∧
        S (step s i).1 (step s' i).1)
    (is : List ι) {s s' : σ} (h : R s s') :
    List.Forall₂ W (outputs (trace step s is)) (outputs (trace step s' is)) ∧
      (outputs (trace step s is)).tail = (outputs (trace step s' is)).tail ∧
      (outputs (trace step s is) ≠ [] → S (runState step s is) (runState step s' is)) := by
  have hsame : ∀ (is : List ι) (s s' : σ), S s s' →
      outputs (trace step s is) = outputs (trace step s' is) ∧
        S (runState step s is) (runState step s' is) := by
    intro is
    induction is with
    | nil => exact fun s s' hss => ⟨rfl, hss⟩
    | cons i is ih =>
        intro s s' hss
        obtain ⟨hnext, hout⟩ := hS s s' i hss
        obtain ⟨htrace, hrun⟩ := ih _ _ hnext
        rw [trace_cons, trace_cons, outputs_cons, outputs_cons, hout, htrace]
        exact ⟨rfl, hrun⟩
  induction is generalizing s s' with
  | nil => exact ⟨.nil, rfl, fun hne => absurd rfl hne⟩
  | cons i is ih =>
      rw [trace_cons, trace_cons, outputs_cons, outputs_cons]
      rcases hR s s' i h with ⟨hnone, hnone', hnext⟩ | ⟨o, o', hsome, hsome', hw, hnext⟩
      · rw [hnone, hnone']
        exact ih hnext
      · obtain ⟨htrace, hrun⟩ := hsame is _ _ hnext
        rw [hsome, hsome', htrace]
        exact ⟨.cons hw (List.forall₂_same.2 fun x _ => hW x), rfl, fun _ => hrun⟩

/-! ## Routed machines -/

/-- A machine that keeps its state in cells: an input works on the cell it is routed to, as
`cstep` does, and leaves every other cell alone. -/
structure Routed {κ γ : Type*} [DecidableEq κ] (step : σ → ι → σ × ο) (cell : σ → κ → γ)
    (route : ι → κ) (cstep : γ → ι → γ × ο) : Prop where
  own : ∀ s i, cell (step s i).1 (route i) = (cstep (cell s (route i)) i).1
  other : ∀ s i k, k ≠ route i → cell (step s i).1 k = cell s k
  out : ∀ s i, (step s i).2 = (cstep (cell s (route i)) i).2

namespace Routed

variable {κ γ : Type*} [DecidableEq κ] {step : σ → ι → σ × ο} {cell : σ → κ → γ}
  {route : ι → κ} {cstep : γ → ι → γ × ο}

/-- A cell evolves as its own machine does on the inputs routed to it. -/
theorem cell_runState (h : Routed step cell route cstep) (is : List ι) (s : σ) (k : κ) :
    cell (runState step s is) k =
      runState cstep (cell s k) (is.filter (fun i => route i = k)) := by
  induction is generalizing s with
  | nil => rfl
  | cons i is ih =>
      rw [runState_cons, ih]
      by_cases hk : route i = k
      · subst hk
        rw [List.filter_cons_of_pos (by simp), runState_cons, h.own s i]
      · rw [List.filter_cons_of_neg (by simpa using hk), h.other s i k (Ne.symm hk)]

/-- The outputs produced at a cell are those of its own machine. -/
theorem trace_filter (h : Routed step cell route cstep) (is : List ι) (s : σ) (k : κ) :
    (trace step s is).filter (fun x => route x.1 = k) =
      trace cstep (cell s k) (is.filter (fun i => route i = k)) := by
  induction is generalizing s with
  | nil => rfl
  | cons i is ih =>
      by_cases hk : route i = k
      · subst hk
        rw [trace_cons, List.filter_cons_of_pos (by simp), List.filter_cons_of_pos (by simp),
          trace_cons, ih, h.own s i, h.out s i]
      · rw [trace_cons, List.filter_cons_of_neg (by simpa using hk),
          List.filter_cons_of_neg (by simpa using hk), ih, h.other s i k (Ne.symm hk)]

/-- Two runs whose own inputs agree and whose own cells start out alike: the second run contains
the own inputs only. The invariant is that the cells `K` of the own inputs agree. -/
private lemma filter_own_aux (h : Routed step cell route cstep) (K : κ → Prop)
    (own : ι → Bool) {is : List ι}
    (hin : ∀ i ∈ is, own i = true → K (route i))
    (hout : ∀ i ∈ is, own i = false → ¬ K (route i))
    (s s' : σ) (hs : ∀ k, K k → cell s k = cell s' k) :
    (trace step s is).filter (fun x => own x.1) = trace step s' (is.filter own) ∧
      ∀ k, K k → cell (runState step s is) k = cell (runState step s' (is.filter own)) k := by
  induction is generalizing s s' with
  | nil => exact ⟨rfl, hs⟩
  | cons i is ih =>
      have hin' : ∀ j ∈ is, own j = true → K (route j) :=
        fun j hj => hin j (List.mem_cons_of_mem _ hj)
      have hout' : ∀ j ∈ is, own j = false → ¬ K (route j) :=
        fun j hj => hout j (List.mem_cons_of_mem _ hj)
      cases hown : own i with
      | true =>
          have hK := hin i (List.mem_cons_self ..) hown
          -- Both runs read `i`, in cells that agree.
          have hs' : ∀ k, K k → cell (step s i).1 k = cell (step s' i).1 k := by
            intro k hk
            by_cases hr : k = route i
            · rw [hr, h.own s i, h.own s' i, hs _ hK]
            · rw [h.other s i k hr, h.other s' i k hr, hs k hk]
          obtain ⟨htr, hst⟩ := ih hin' hout' _ _ hs'
          rw [trace_cons, List.filter_cons_of_pos (by simpa using hown),
            List.filter_cons_of_pos (by simpa using hown), trace_cons, runState_cons,
            runState_cons, htr, h.out s i, h.out s' i, hs _ hK]
          exact ⟨rfl, hst⟩
      | false =>
          have hK := hout i (List.mem_cons_self ..) hown
          -- Only the first run reads `i`, and it touches none of the cells `K`.
          have hs' : ∀ k, K k → cell (step s i).1 k = cell s' k := by
            intro k hk
            rw [h.other s i k (fun hr => hK (hr ▸ hk)), hs k hk]
          obtain ⟨htr, hst⟩ := ih hin' hout' _ _ hs'
          rw [trace_cons, List.filter_cons_of_neg (by simp [hown]),
            List.filter_cons_of_neg (by simp [hown]), runState_cons, htr]
          exact ⟨rfl, hst⟩

/-- A family of inputs that shares no cell with the others: its outputs and its cells are those of
the run without the others. -/
theorem filter_own (h : Routed step cell route cstep) (own : ι → Bool) {is : List ι}
    (hsep : ∀ i ∈ is, ∀ j ∈ is, route i = route j → own i = own j) (s : σ) :
    (trace step s is).filter (fun x => own x.1) = trace step s (is.filter own) ∧
      ∀ i ∈ is, own i = true →
        cell (runState step s is) (route i) =
          cell (runState step s (is.filter own)) (route i) := by
  have key := filter_own_aux h (fun k => ∃ i ∈ is, own i = true ∧ route i = k) own
    (fun i hi ho => ⟨i, hi, ho, rfl⟩) ?_ s s (fun _ _ => rfl)
  · exact ⟨key.1, fun i hi ho => key.2 _ ⟨i, hi, ho, rfl⟩⟩
  · rintro i hi ho ⟨j, hj, hoj, hr⟩
    rw [hsep j hj i hi hr, ho] at hoj
    exact Bool.false_ne_true hoj

/-- **Two routed machines, cell by cell.**  Inputs are renamed by `f` and outputs by `g`; `L` links
the cells of the two machines, and an input is routed to both of two linked cells or to neither.
What every step keeps between linked cells, `R`, holds of them after a run, and the traces agree. -/
theorem simulation {σ' ι' ο' κ' γ' : Type*} [DecidableEq κ'] {step' : σ' → ι' → σ' × ο'}
    {cell' : σ' → κ' → γ'} {route' : ι' → κ'} {cstep' : γ' → ι' → γ' × ο'}
    (h : Routed step cell route cstep) (h' : Routed step' cell' route' cstep')
    (L : κ → κ' → Prop) (R : γ → γ' → Prop) (f : ι → ι') (g : ι → ο → ο') (is : List ι)
    (hlink : ∀ i ∈ is, L (route i) (route' (f i)))
    (hroute : ∀ i ∈ is, ∀ k k', L k k' → (k = route i ↔ k' = route' (f i)))
    (hstep : ∀ c c', ∀ i ∈ is, R c c' →
      R (cstep c i).1 (cstep' c' (f i)).1 ∧ (cstep' c' (f i)).2 = g i (cstep c i).2)
    (s : σ) (s' : σ') (hs : ∀ k k', L k k' → R (cell s k) (cell' s' k')) :
    (∀ k k', L k k' →
      R (cell (runState step s is) k) (cell' (runState step' s' (is.map f)) k')) ∧
      trace step' s' (is.map f) = (trace step s is).map fun x => (f x.1, g x.1 x.2) := by
  induction is generalizing s s' with
  | nil => exact ⟨hs, rfl⟩
  | cons i is ih =>
      have hmem : i ∈ i :: is := List.mem_cons_self ..
      obtain ⟨hown, hout⟩ := hstep _ _ i hmem (hs _ _ (hlink i hmem))
      have hs' : ∀ k k', L k k' → R (cell (step s i).1 k) (cell' (step' s' (f i)).1 k') := by
        intro k k' hk
        by_cases hr : k = route i
        · have hr' := (hroute i hmem k k' hk).1 hr
          rw [hr, hr', h.own s i, h'.own s' (f i)]
          exact hown
        · have hr' : k' ≠ route' (f i) := fun hr' => hr ((hroute i hmem k k' hk).2 hr')
          rw [h.other s i k hr, h'.other s' (f i) k' hr']
          exact hs k k' hk
      obtain ⟨hrun, htrace⟩ := ih (fun j hj => hlink j (List.mem_cons_of_mem _ hj))
        (fun j hj => hroute j (List.mem_cons_of_mem _ hj))
        (fun c c' j hj => hstep c c' j (List.mem_cons_of_mem _ hj)) _ _ hs'
      refine ⟨hrun, ?_⟩
      rw [List.map_cons, trace_cons, trace_cons, List.map_cons, htrace, h.out s i,
        h'.out s' (f i), hout]

end Routed
end Mealy
end FlowClassifier
