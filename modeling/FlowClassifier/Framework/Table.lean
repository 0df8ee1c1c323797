import Mathlib.Data.List.Basic

/-!
# Match-action tables with priorities

A table is the list of its entries in installation order.  `winner` is the entry a key selects:
of the entries that match, one with the highest priority wins, and among equal priorities the one
installed first.  Two ways of knowing the winner are used later: exactly one entry matches
(`winner_eq_of_filter`), in which case priorities and order play no part, or all priorities are
equal, in which case the first match wins (`winner_eq_find?`).  The order of installation plays no
part either when no two entries tie (`winner_perm`).
-/

namespace FlowClassifier
namespace Table

variable {ε : Type*} (priority : ε → ℕ) (hits : ε → Bool)

/-- The entry selected among those that hit. -/
def winner : List ε → Option ε
  | [] => none
  | e :: es =>
      if hits e then
        match winner es with
        | some e' => if priority e < priority e' then some e' else some e
        | none => some e
      else winner es

@[simp] lemma winner_nil : winner priority hits [] = none := rfl

lemma winner_cons_of_not_hits {e : ε} {es : List ε} (h : hits e = false) :
    winner priority hits (e :: es) = winner priority hits es := by
  simp [winner, h]

variable {priority hits}

lemma mem_of_winner {es : List ε} {e : ε} (h : winner priority hits es = some e) :
    e ∈ es ∧ hits e = true := by
  induction es with
  | nil => simp at h
  | cons a es ih =>
      cases ha : hits a with
      | false =>
          rw [winner_cons_of_not_hits priority hits ha] at h
          exact ⟨List.mem_cons_of_mem _ (ih h).1, (ih h).2⟩
      | true =>
          simp only [winner, ha, if_true] at h
          cases hw : winner priority hits es with
          | none =>
              simp only [hw, Option.some.injEq] at h
              exact h ▸ ⟨List.mem_cons_self .., ha⟩
          | some b =>
              simp only [hw] at h
              split at h
              · rw [← hw] at h
                exact ⟨List.mem_cons_of_mem _ (ih h).1, (ih h).2⟩
              · simp only [Option.some.injEq] at h
                exact h ▸ ⟨List.mem_cons_self .., ha⟩

/-- A table misses exactly when no entry matches. -/
lemma winner_eq_none_iff {es : List ε} :
    winner priority hits es = none ↔ ∀ e ∈ es, hits e = false := by
  induction es with
  | nil => simp
  | cons a es ih =>
      cases ha : hits a with
      | false => simp [winner, ha, ih]
      | true =>
          simp only [winner, ha, if_true, List.forall_mem_cons, Bool.true_eq_false, false_and,
            iff_false]
          cases winner priority hits es with
          | none => simp
          | some b => simp only []; split <;> simp

lemma winner_isSome_iff {es : List ε} :
    (winner priority hits es).isSome ↔ ∃ e ∈ es, hits e = true := by
  rw [← Option.ne_none_iff_isSome, ne_eq, winner_eq_none_iff]
  simp

/-- No entry that matches has a higher priority than the winner. -/
lemma priority_le_of_winner {es : List ε} {e : ε} (h : winner priority hits es = some e) :
    ∀ e' ∈ es, hits e' = true → priority e' ≤ priority e := by
  induction es generalizing e with
  | nil => simp
  | cons a es ih =>
      intro e' he' hhit
      cases ha : hits a with
      | false =>
          rw [winner_cons_of_not_hits priority hits ha] at h
          rcases List.mem_cons.1 he' with rfl | he'
          · exact absurd hhit (by simp [ha])
          · exact ih h e' he' hhit
      | true =>
          simp only [winner, ha, if_true] at h
          cases hw : winner priority hits es with
          | none =>
              simp only [hw, Option.some.injEq] at h
              rcases List.mem_cons.1 he' with rfl | he'
              · exact h ▸ Nat.le_refl _
              · exact absurd hhit (by simp [winner_eq_none_iff.1 hw e' he'])
          | some b =>
              simp only [hw] at h
              have hb := ih hw
              split at h
              · rename_i hlt
                obtain rfl := Option.some.inj h
                rcases List.mem_cons.1 he' with rfl | he'
                · exact Nat.le_of_lt hlt
                · exact hb e' he' hhit
              · rename_i hle
                obtain rfl := Option.some.inj h
                rcases List.mem_cons.1 he' with rfl | he'
                · exact Nat.le_refl _
                · exact Nat.le_trans (hb e' he' hhit) (Nat.not_lt.1 hle)

/-- **Without ties the order does not matter.**  When no two different entries of one priority
match, the winner is the same in whatever order the entries were installed. -/
theorem winner_perm {es es' : List ε} (hperm : es.Perm es')
    (hties : ∀ e ∈ es, ∀ e' ∈ es, hits e = true → hits e' = true → priority e = priority e' →
      e = e') : winner priority hits es' = winner priority hits es := by
  cases hw : winner priority hits es with
  | none =>
      rw [winner_eq_none_iff] at hw ⊢
      exact fun e he => hw e (hperm.mem_iff.2 he)
  | some e =>
      obtain ⟨he, hhit⟩ := mem_of_winner hw
      obtain ⟨e', hw'⟩ := Option.isSome_iff_exists.1
        (winner_isSome_iff.2 ⟨e, hperm.mem_iff.1 he, hhit⟩ : (winner priority hits es').isSome)
      obtain ⟨he', hhit'⟩ := mem_of_winner hw'
      have hle := priority_le_of_winner hw e' (hperm.mem_iff.2 he') hhit'
      have hge := priority_le_of_winner hw' e (hperm.mem_iff.1 he) hhit
      rw [hw', hties e' (hperm.mem_iff.2 he') e he hhit' hhit (Nat.le_antisymm hle hge)]

/-- The winner depends on the matching entries only. -/
lemma winner_filter (es : List ε) :
    winner priority hits (es.filter hits) = winner priority hits es := by
  induction es with
  | nil => rfl
  | cons a es ih =>
      cases ha : hits a with
      | false => rw [List.filter_cons_of_neg (by simp [ha]), ih, winner_cons_of_not_hits _ _ ha]
      | true =>
          rw [List.filter_cons_of_pos ha]
          simp only [winner, ih]

/-- When exactly one entry matches it wins, whatever the priorities. -/
lemma winner_eq_of_filter {es : List ε} {e : ε} (h : es.filter hits = [e]) :
    winner priority hits es = some e := by
  have he : hits e = true := by
    have : e ∈ es.filter hits := by simp [h]
    exact (List.mem_filter.1 this).2
  rw [← winner_filter, h]
  simp [winner, he]

/-- With equal priorities the entry installed first wins. -/
lemma winner_eq_find? {es : List ε} {p : ℕ} (h : ∀ e ∈ es, priority e = p) :
    winner priority hits es = es.find? hits := by
  induction es with
  | nil => rfl
  | cons a es ih =>
      have ih' := ih (fun e he => h e (List.mem_cons_of_mem _ he))
      cases ha : hits a with
      | false => rw [winner_cons_of_not_hits _ _ ha, List.find?_cons_of_neg (by simp [ha]), ih']
      | true =>
          rw [List.find?_cons_of_pos ha]
          simp only [winner, ha, if_true]
          cases hw : winner priority hits es with
          | none => rfl
          | some b =>
              have hb : priority b = p := h b (List.mem_cons_of_mem _ (mem_of_winner hw).1)
              simp [h a (List.mem_cons_self ..), hb]

/-- Lists with the same keys have the same single match. -/
lemma exists_filter_eq_singleton {ρ γ : Type*} {key : ε → γ} {key' : ρ → γ} {es : List ε}
    {rs : List ρ} (p : γ → Bool) (h : es.map key = rs.map key') {r : ρ}
    (hr : rs.filter (fun r => p (key' r)) = [r]) :
    ∃ e, es.filter (fun e => p (key e)) = [e] ∧ key e = key' r := by
  have hkeys : (es.filter fun e => p (key e)).map key = [key' r] :=
    calc (es.filter fun e => p (key e)).map key = (es.map key).filter p := by
          rw [List.filter_map]
          rfl
      _ = (rs.map key').filter p := by rw [h]
      _ = (rs.filter fun r => p (key' r)).map key' := by
          rw [List.filter_map]
          rfl
      _ = [key' r] := by rw [hr, List.map_singleton]
  exact List.map_eq_singleton_iff.1 hkeys

/-- The entries of the highest priority among those that match. -/
def finalists (priority : ε → ℕ) (hits : ε → Bool) (es : List ε) : List ε :=
  es.filter fun e => hits e && es.all fun e' => !hits e' || decide (priority e' ≤ priority e)

end Table
end FlowClassifier
