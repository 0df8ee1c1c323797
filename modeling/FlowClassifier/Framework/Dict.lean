import Mathlib.Data.List.Nodup

/-!
# Insertion-ordered dictionaries

The dictionary of a scripting language as an association list in insertion order: assigning to a
present key keeps its position, assigning to a new key appends, deleting closes the gap.  The
laws proved here are the ones a recursive traversal uses that assigns to a key on the way down
and restores it on the way up (`del_set_of_get_none`, `set_set`, `set_get`), together with
`forall_set_*`, which say what an assignment does to a statement about every entry.
-/

namespace FlowClassifier

/-- An association list in insertion order. -/
abbrev Dict (κ α : Type*) := List (κ × α)

namespace Dict

variable {κ α : Type*} [DecidableEq κ]

/-- `d[k]`, or nothing when the key is absent. -/
def get (d : Dict κ α) (k : κ) : Option α :=
  match d with
  | [] => none
  | (j, a) :: d => if j = k then some a else get d k

/-- `d[k] = a`. -/
def set (d : Dict κ α) (k : κ) (a : α) : Dict κ α :=
  match d with
  | [] => [(k, a)]
  | (j, b) :: d => if j = k then (j, a) :: d else (j, b) :: set d k a

/-- `del d[k]`. -/
def del (d : Dict κ α) (k : κ) : Dict κ α :=
  match d with
  | [] => []
  | (j, b) :: d => if j = k then d else (j, b) :: del d k

@[simp] lemma get_nil (k : κ) : get ([] : Dict κ α) k = none := rfl

@[simp] lemma get_set_self (d : Dict κ α) (k : κ) (a : α) : (set d k a).get k = some a := by
  induction d with
  | nil => simp [set, get]
  | cons e d ih =>
      obtain ⟨j, b⟩ := e
      by_cases h : j = k
      · simp [set, get, h]
      · simp [set, get, h, ih]

lemma get_set_of_ne (d : Dict κ α) {k j : κ} (a : α) (h : j ≠ k) :
    (set d k a).get j = d.get j := by
  induction d with
  | nil => simp [set, get, Ne.symm h]
  | cons e d ih =>
      obtain ⟨i, b⟩ := e
      by_cases hk : i = k
      · subst hk
        simp [set, get, Ne.symm h]
      · by_cases hj : i = j
        · subst hj
          simp [set, get, hk]
        · simp [set, get, hk, hj, ih]

/-- Deleting a key that was just added restores the dictionary. -/
lemma del_set_of_get_none {d : Dict κ α} {k : κ} (a : α) (h : d.get k = none) :
    (set d k a).del k = d := by
  induction d with
  | nil => simp [set, del]
  | cons e d ih =>
      obtain ⟨j, b⟩ := e
      by_cases hk : j = k
      · simp [get, hk] at h
      · simp only [get, hk, if_false] at h
        simp [set, del, hk, ih h]

@[simp] lemma set_set (d : Dict κ α) (k : κ) (a b : α) : (set d k a).set k b = set d k b := by
  induction d with
  | nil => simp [set]
  | cons e d ih =>
      obtain ⟨j, c⟩ := e
      by_cases hk : j = k
      · simp [set, hk]
      · simp [set, hk, ih]

/-- Assigning the saved value back restores the dictionary. -/
lemma set_get {d : Dict κ α} {k : κ} {a : α} (h : d.get k = some a) : set d k a = d := by
  induction d with
  | nil => simp at h
  | cons e d ih =>
      obtain ⟨j, c⟩ := e
      by_cases hk : j = k
      · simp only [get, hk, if_true, Option.some.injEq] at h
        simp [set, hk, h]
      · simp only [get, hk, if_false] at h
        simp [set, hk, ih h]

lemma mem_of_get {d : Dict κ α} {k : κ} {a : α} (h : d.get k = some a) : (k, a) ∈ d := by
  induction d with
  | nil => simp at h
  | cons e d ih =>
      obtain ⟨j, c⟩ := e
      by_cases hk : j = k
      · simp only [get, hk, if_true, Option.some.injEq] at h
        simp [hk, h]
      · simp only [get, hk, if_false] at h
        exact List.mem_cons_of_mem _ (ih h)

/-- With distinct keys every entry is the value of its key. -/
lemma get_of_mem {d : Dict κ α} (hd : (d.map Prod.fst).Nodup) {k : κ} {a : α} (h : (k, a) ∈ d) :
    d.get k = some a := by
  induction d with
  | nil => exact absurd h List.not_mem_nil
  | cons e d ih =>
      obtain ⟨j, b⟩ := e
      rw [List.map_cons, List.nodup_cons] at hd
      rcases List.mem_cons.1 h with heq | hmem
      · obtain ⟨rfl, rfl⟩ := Prod.mk.inj heq
        simp [get]
      · have hne : j ≠ k := by
          rintro rfl
          exact hd.1 (List.mem_map.2 ⟨_, hmem, rfl⟩)
        simp only [get, hne, if_false]
        exact ih hd.2 hmem

lemma get_isSome_iff {d : Dict κ α} {k : κ} : (d.get k).isSome ↔ k ∈ d.map Prod.fst := by
  induction d with
  | nil => simp
  | cons e d ih =>
      obtain ⟨j, c⟩ := e
      by_cases hk : j = k
      · simp [get, hk]
      · simp [get, hk, ih, Ne.symm hk]

lemma get_eq_none_iff {d : Dict κ α} {k : κ} : d.get k = none ↔ k ∉ d.map Prod.fst := by
  rw [← get_isSome_iff, Option.not_isSome_iff_eq_none]

/-- The keys after an assignment: the old ones, with a new one at the end. -/
lemma map_fst_set (d : Dict κ α) (k : κ) (a : α) :
    (set d k a).map Prod.fst =
      if k ∈ d.map Prod.fst then d.map Prod.fst else d.map Prod.fst ++ [k] := by
  induction d with
  | nil => simp [set]
  | cons e d ih =>
      obtain ⟨j, c⟩ := e
      by_cases hk : j = k
      · simp [set, hk]
      · simp only [set, hk, if_false, List.map_cons, ih, List.mem_cons, Ne.symm hk, false_or]
        split <;> rfl

lemma nodup_set {d : Dict κ α} (h : (d.map Prod.fst).Nodup) (k : κ) (a : α) :
    ((set d k a).map Prod.fst).Nodup := by
  rw [map_fst_set]
  split
  · exact h
  · rename_i hk
    rw [List.nodup_append]
    refine ⟨h, List.nodup_singleton k, ?_⟩
    rintro j hj _ hk' rfl
    exact hk (List.mem_singleton.1 hk' ▸ hj)

lemma mem_set {d : Dict κ α} {k : κ} {a : α} {e : κ × α} (h : e ∈ set d k a) :
    e = (k, a) ∨ e ∈ d := by
  induction d with
  | nil => exact Or.inl (List.mem_singleton.1 h)
  | cons b d ih =>
      obtain ⟨j, b⟩ := b
      by_cases hk : j = k
      · simp only [set, hk, if_true, List.mem_cons] at h
        rcases h with rfl | h
        · exact Or.inl rfl
        · exact Or.inr (List.mem_cons_of_mem _ h)
      · simp only [set, hk, if_false, List.mem_cons] at h
        rcases h with rfl | h
        · exact Or.inr (List.mem_cons_self ..)
        · exact (ih h).imp_right (List.mem_cons_of_mem _)

/-- A new key is added at the end. -/
lemma set_of_get_none {d : Dict κ α} {k : κ} (a : α) (h : d.get k = none) :
    set d k a = d ++ [(k, a)] := by
  induction d with
  | nil => rfl
  | cons e d ih =>
      obtain ⟨j, b⟩ := e
      by_cases hk : j = k
      · simp [get, hk] at h
      · simp only [get, hk, if_false] at h
        simp [set, hk, ih h]

/-- Assigning in order the entries of a dictionary with distinct keys copies it. -/
lemma foldl_set {d l : Dict κ α} (h : ((d ++ l).map Prod.fst).Nodup) :
    l.foldl (fun d e => d.set e.1 e.2) d = d ++ l := by
  induction l generalizing d with
  | nil => simp
  | cons e l ih =>
      have hnew : d.get e.1 = none := by
        rw [get_eq_none_iff]
        rw [List.map_append, List.map_cons] at h
        exact fun hmem => (List.nodup_append.1 h).2.2 _ hmem _ (List.mem_cons_self ..) rfl
      have hrest : (((d ++ [e]) ++ l).map Prod.fst).Nodup := by
        rwa [List.append_assoc, List.singleton_append]
      rw [List.foldl_cons, set_of_get_none _ hnew, ih hrest, List.append_assoc,
        List.singleton_append]

/-- The values are changed one by one. -/
lemma get_map_val {β : Type*} (g : κ → α → β) (d : Dict κ α) (k : κ) :
    get (d.map fun e => (e.1, g e.1 e.2)) k = (d.get k).map (g k) := by
  induction d with
  | nil => rfl
  | cons e d ih =>
      obtain ⟨j, b⟩ := e
      by_cases hk : j = k
      · subst hk
        simp [get]
      · simp only [List.map_cons, get, hk, if_false, ih]

/-- A statement about every entry, after a new key is added. -/
lemma forall_set_of_get_none {d : Dict κ α} {k : κ} {a : α} (h : d.get k = none)
    (p : κ × α → Prop) : (∀ e ∈ set d k a, p e) ↔ (∀ e ∈ d, p e) ∧ p (k, a) := by
  induction d with
  | nil => simp [set]
  | cons e d ih =>
      obtain ⟨j, b⟩ := e
      by_cases hk : j = k
      · simp [get, hk] at h
      · simp only [get, hk, if_false] at h
        simp only [set, hk, if_false, List.forall_mem_cons, ih h]
        tauto

/-- A statement about every entry, after a present key is assigned a value that strengthens the
statement by `q`. -/
lemma forall_set_of_get_some {d : Dict κ α} {k : κ} {a b : α} (h : d.get k = some a)
    (p : κ × α → Prop) {q : Prop} (hq : p (k, b) ↔ p (k, a) ∧ q) :
    (∀ e ∈ set d k b, p e) ↔ (∀ e ∈ d, p e) ∧ q := by
  induction d with
  | nil => simp at h
  | cons e d ih =>
      obtain ⟨j, c⟩ := e
      by_cases hk : j = k
      · subst hk
        simp only [get, if_true, Option.some.injEq] at h
        subst h
        simp only [set, if_true, List.forall_mem_cons, hq]
        tauto
      · simp only [get, hk, if_false] at h
        simp only [set, hk, if_false, List.forall_mem_cons, ih h]
        tauto

end Dict
end FlowClassifier
