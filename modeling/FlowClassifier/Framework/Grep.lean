import Mathlib.Data.List.Basic
import Mathlib.Data.List.Infix

/-!
# Searching a line for a pattern

Basic regular expressions without repetition: every character of the pattern stands for itself, but
a dot stands for any character, and a dollar at the end of the pattern ties the match to the end of
the line.  `found` and `foundAtEnd` are the two searches.  `GrepSpec` is what they say about a
program that searches for all regular expressions, which is left open otherwise;
`GrepSpec.atEnd_iff` is the case of a pattern that is a plain text.
-/

namespace FlowClassifier
namespace Grep

/-- The pattern matches the beginning of the text. -/
def matchesStart : List Char → List Char → Bool
  | [], _ => true
  | _ :: _, [] => false
  | c :: pat, d :: text => (c = '.' || c = d) && matchesStart pat text

/-- The pattern matches somewhere in the line. -/
def found (pat line : List Char) : Bool := line.tails.any (matchesStart pat)

/-- The pattern matches at the end of the line. -/
def foundAtEnd (pat line : List Char) : Bool :=
  line.tails.any fun text => text.length = pat.length && matchesStart pat text

/-- A character without a meaning of its own in a basic regular expression. -/
def IsOrdinary (c : Char) : Prop := c ∉ ".*[\\^$".toList

instance (c : Char) : Decidable (IsOrdinary c) := by
  unfold IsOrdinary
  infer_instance

lemma isOrdinary_of_isDigit {c : Char} (h : c.isDigit = true) : IsOrdinary c := by
  intro hspecial
  have hcases : c = '.' ∨ c = '*' ∨ c = '[' ∨ c = '\\' ∨ c = '^' ∨ c = '$' := by
    simpa using hspecial
  rcases hcases with rfl | rfl | rfl | rfl | rfl | rfl <;> exact absurd h (by decide)

/-- A search for regular expressions, given as pattern and line, on the patterns above. -/
structure GrepSpec (grep : List Char → List Char → Bool) : Prop where
  anywhere : ∀ pat, (∀ c ∈ pat, c = '.' ∨ IsOrdinary c) → ∀ line, grep pat line = found pat line
  atEnd : ∀ pat, (∀ c ∈ pat, c = '.' ∨ IsOrdinary c) → ∀ line,
    grep (pat ++ ['$']) line = foundAtEnd pat line

lemma matchesStart_append {pat text : List Char} (h : matchesStart pat text = true)
    (rest : List Char) : matchesStart pat (text ++ rest) = true := by
  induction pat generalizing text with
  | nil => rfl
  | cons c pat ih =>
      cases text with
      | nil => exact absurd h (by simp [matchesStart])
      | cons d text =>
          simp only [matchesStart, List.cons_append, Bool.and_eq_true] at h ⊢
          exact ⟨h.1, ih h.2⟩

/-- What is found in a part of a line is found in the line. -/
lemma found_of_infix {pat part line : List Char} (hpart : part <:+: line)
    (h : found pat part = true) : found pat line = true := by
  obtain ⟨pre, post, rfl⟩ := hpart
  obtain ⟨text, htext, hmatch⟩ := List.any_eq_true.1 h
  obtain ⟨before, rfl⟩ := (List.mem_tails _ _).1 htext
  refine List.any_eq_true.2 ⟨text ++ post, (List.mem_tails _ _).2 ⟨pre ++ before, ?_⟩,
    matchesStart_append hmatch post⟩
  simp

/-- A text matches itself and what begins with it. -/
lemma matchesStart_iff {pat : List Char} (h : ∀ c ∈ pat, IsOrdinary c) (text : List Char) :
    matchesStart pat text = true ↔ pat <+: text := by
  induction pat generalizing text with
  | nil => simp [matchesStart]
  | cons c pat ih =>
      have hc : c ≠ '.' := by
        rintro rfl
        exact h '.' (List.mem_cons_self ..) (by decide)
      have hpat := ih fun d hd => h d (List.mem_cons_of_mem _ hd)
      cases text with
      | nil => simp [matchesStart]
      | cons d text => simp [matchesStart, hc, hpat, List.cons_prefix_cons]

/-- A text found at the end of a line. -/
lemma foundAtEnd_iff {pat : List Char} (h : ∀ c ∈ pat, IsOrdinary c) (line : List Char) :
    foundAtEnd pat line = true ↔ pat <:+ line := by
  simp only [foundAtEnd, List.any_eq_true, List.mem_tails, Bool.and_eq_true, decide_eq_true_eq,
    matchesStart_iff h]
  constructor
  · rintro ⟨text, hsuffix, hlen, hstart⟩
    rwa [hstart.eq_of_length hlen.symm]
  · intro hsuffix
    exact ⟨pat, hsuffix, rfl, List.prefix_rfl⟩

lemma GrepSpec.atEnd_iff {grep : List Char → List Char → Bool} (hgrep : GrepSpec grep)
    {pat : List Char} (h : ∀ c ∈ pat, IsOrdinary c) (line : List Char) :
    grep (pat ++ ['$']) line = true ↔ pat <:+ line := by
  rw [hgrep.atEnd pat (fun c hc => .inr (h c hc)), foundAtEnd_iff h]

/-- A search that knows no more than these patterns. -/
def plainGrep (pat line : List Char) : Bool :=
  if pat.getLast? = some '$' then foundAtEnd pat.dropLast line else found pat line

lemma grepSpec_plainGrep : GrepSpec plainGrep where
  anywhere pat h line := by
    have hlast : ¬ pat.getLast? = some '$' := by
      intro hlast
      rcases h '$' (List.mem_of_getLast? hlast) with hdot | hord
      · exact absurd hdot (by decide)
      · exact hord (by decide)
    rw [plainGrep, if_neg hlast]
  atEnd pat _ line := by
    rw [plainGrep, List.getLast?_concat, if_pos rfl, List.dropLast_concat]

end Grep
end FlowClassifier
