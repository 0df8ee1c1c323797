import Mathlib.Data.List.Basic

/-!
# Numbers and separated fields in text

Decimal numerals, the lines of a file, and the fields of a line: what is needed to read back a file
of numbers that another program printed.  Text is a list of characters.  The three round trips are
`readNat_toDigits`, `fileLines_terminated` for a file whose lines all end in a newline (and
`fileLines_intercalate` for one whose last line does not), and `csvRow_intercalate` for a line
(and `csvRow_terminated` for one that ends in a separator).  `csvRow_numRow` puts the last together
with numerals.

The last section is what the usual text tools do: a numbered field of a line
(`cutField_intercalate`), the words of a text (`words_terminated`), and the lines that end in a
given last field (`cons_suffix_append_cons_iff`).
-/

namespace FlowClassifier
namespace Text

/-- The value of a decimal numeral. -/
def readNat (cs : List Char) : Option ℕ :=
  if cs ≠ [] ∧ cs.all Char.isDigit then some (Nat.ofDigitChars 10 cs 0) else none

lemma readNat_toDigits (n : ℕ) : readNat (Nat.toDigits 10 n) = some n := by
  have hne : Nat.toDigits 10 n ≠ [] := Nat.toDigits_ne_nil
  have hall : (Nat.toDigits 10 n).all Char.isDigit = true := by
    rw [List.all_eq_true]
    intro c hc
    exact Nat.isDigit_of_mem_toDigits (by decide) (by decide) hc
  rw [readNat, if_pos ⟨hne, hall⟩, Nat.ofDigitChars_ten_toDigits]

/-- A numeral contains no character that is not a digit. -/
lemma not_mem_toDigits {c : Char} (hc : c.isDigit = false) (n : ℕ) : c ∉ Nat.toDigits 10 n := by
  intro hmem
  have hdigit := Nat.isDigit_of_mem_toDigits (by decide) (by decide) hmem
  rw [hc] at hdigit
  exact Bool.false_ne_true hdigit

/-- Numerals are read back field by field. -/
lemma mapM_readNat (ns : List ℕ) : (ns.map (Nat.toDigits 10)).mapM readNat = some ns := by
  induction ns with
  | nil => rfl
  | cons n ns ih => simp [List.mapM_cons, readNat_toDigits, ih]

/-- The lines of a file; a newline at the end opens no further line. -/
def fileLines (text : List Char) : List (List Char) :=
  if (text.splitOn '\n').getLast? = some [] then (text.splitOn '\n').dropLast
  else text.splitOn '\n'

/-- Pieces of text, each followed by a separator. -/
def terminated (sep : Char) (ls : List (List Char)) : List Char := ls.flatMap fun l => l ++ [sep]

lemma terminated_append (sep : Char) (ls ms : List (List Char)) :
    terminated sep (ls ++ ms) = terminated sep ls ++ terminated sep ms := List.flatMap_append

lemma intercalate_eq_terminated (sep : Char) (ls : List (List Char)) :
    [sep].intercalate (ls ++ [[]]) = terminated sep ls := by
  induction ls with
  | nil => rfl
  | cons l ls ih =>
      have hne : ls ++ [[]] ≠ [] := by simp
      rw [List.cons_append, List.intercalate_cons_of_ne_nil hne, ih]
      simp [terminated]

lemma splitOn_terminated {sep : Char} {ls : List (List Char)} (h : ∀ l ∈ ls, sep ∉ l) :
    (terminated sep ls).splitOn sep = ls ++ [[]] := by
  rw [← intercalate_eq_terminated]
  refine List.splitOn_intercalate sep ?_ (by simp)
  intro l hl
  rcases List.mem_append.1 hl with hl | hl
  · exact h l hl
  · rw [List.mem_singleton.1 hl]
    exact List.not_mem_nil

lemma fileLines_terminated {ls : List (List Char)} (h : ∀ l ∈ ls, '\n' ∉ l) :
    fileLines (terminated '\n' ls) = ls := by
  rw [fileLines, splitOn_terminated h, List.getLast?_concat, if_pos rfl, List.dropLast_concat]

lemma fileLines_intercalate {ls : List (List Char)} (h : ∀ l ∈ ls, '\n' ∉ l)
    (hne : ∀ l ∈ ls, l ≠ []) (hls : ls ≠ []) : fileLines (['\n'].intercalate ls) = ls := by
  have hlast : ¬ ls.getLast? = some [] := by
    intro hlast
    exact hne [] (List.mem_of_getLast? hlast) rfl
  rw [fileLines, List.splitOn_intercalate '\n' h hls, if_neg hlast]

/-- Lines printed with a newline before each but the first. -/
lemma intercalate_cons_eq (sep : Char) (l : List Char) (ls : List (List Char)) :
    [sep].intercalate (l :: ls) = l ++ ls.flatMap fun l => sep :: l := by
  induction ls generalizing l with
  | nil => simp
  | cons l' ls ih =>
      rw [List.intercalate_cons_cons, ih]
      simp

/-- Separated pieces hold no other characters than the pieces and the separator. -/
lemma notMem_intercalate {sep c : Char} (hne : c ≠ sep) {ls : List (List Char)}
    (h : ∀ l ∈ ls, c ∉ l) : c ∉ [sep].intercalate ls := by
  cases ls with
  | nil => exact List.not_mem_nil
  | cons l ls =>
      rw [intercalate_cons_eq, List.mem_append, List.mem_flatMap]
      rintro (hmem | ⟨l', hl', hmem⟩)
      · exact h l (List.mem_cons_self ..) hmem
      · rcases List.mem_cons.1 hmem with heq | hmem
        · exact hne heq
        · exact h l' (List.mem_cons_of_mem _ hl') hmem

/-- A piece is a part of the pieces put together. -/
lemma infix_intercalate (sep : Char) {ls : List (List Char)} {l : List Char} (hl : l ∈ ls) :
    l <:+: [sep].intercalate ls := by
  cases ls with
  | nil => exact absurd hl List.not_mem_nil
  | cons l' ls =>
      rw [intercalate_cons_eq]
      rcases List.mem_cons.1 hl with rfl | hl
      · exact (List.prefix_append l _).isInfix
      · have hpiece : sep :: l <:+: ls.flatMap fun l => sep :: l :=
          List.infix_of_mem_flatten (List.mem_map_of_mem hl)
        exact (List.suffix_cons sep l).isInfix.trans
          (hpiece.trans (List.suffix_append l' _).isInfix)

/-- The fields of a line without quotes; an empty line has none. -/
def csvRow (sep : Char) (line : List Char) : List (List Char) :=
  if line = [] then [] else line.splitOn sep

lemma csvRow_intercalate {sep : Char} {fs : List (List Char)} (h : ∀ f ∈ fs, sep ∉ f)
    (hfs : fs ≠ []) (hne : [sep].intercalate fs ≠ []) :
    csvRow sep ([sep].intercalate fs) = fs := by
  rw [csvRow, if_neg hne, List.splitOn_intercalate sep h hfs]

/-- A line of separated fields that also ends in a separator has an empty last field. -/
lemma csvRow_terminated {sep : Char} {fs : List (List Char)} (h : ∀ f ∈ fs, sep ∉ f)
    (hfs : fs ≠ []) : csvRow sep (terminated sep fs) = fs ++ [[]] := by
  have hne : terminated sep fs ≠ [] := by
    obtain ⟨f, fs, rfl⟩ := List.exists_cons_of_ne_nil hfs
    simp [terminated]
  rw [csvRow, if_neg hne, splitOn_terminated h]

/-- Dropping the last separator leaves the pieces separated. -/
lemma dropLast_terminated {sep : Char} {ls : List (List Char)} (hls : ls ≠ []) :
    (terminated sep ls).dropLast = [sep].intercalate ls := by
  induction ls with
  | nil => exact absurd rfl hls
  | cons l ls ih =>
      cases ls with
      | nil => simp [terminated]
      | cons l' ls =>
          have hne : terminated sep (l' :: ls) ≠ [] := by simp [terminated]
          have hcons : terminated sep (l :: l' :: ls) = l ++ [sep] ++ terminated sep (l' :: ls) :=
            rfl
          rw [hcons, List.dropLast_append_of_ne_nil hne, ih (by simp), List.intercalate_cons_cons]

/-- Numbers between separators. -/
def numRow (sep : Char) (ns : List ℕ) : List Char := [sep].intercalate (ns.map (Nat.toDigits 10))

lemma notMem_numRow {sep c : Char} (hc : c.isDigit = false) (hne : c ≠ sep) (ns : List ℕ) :
    c ∉ numRow sep ns := by
  refine notMem_intercalate hne fun l hl => ?_
  obtain ⟨m, -, rfl⟩ := List.mem_map.1 hl
  exact not_mem_toDigits hc m

/-- The last number of a row stands behind the last separator. -/
lemma numRow_concat (sep : Char) {ns : List ℕ} (hns : ns ≠ []) (m : ℕ) :
    numRow sep (ns ++ [m]) = numRow sep ns ++ sep :: Nat.toDigits 10 m := by
  obtain ⟨n, ns, rfl⟩ := List.exists_cons_of_ne_nil hns
  rw [numRow, numRow, List.cons_append, List.map_cons, List.map_cons, intercalate_cons_eq,
    intercalate_cons_eq, List.map_append, List.flatMap_append, List.append_assoc]
  simp

/-- The fields of a row of numbers are the numerals. -/
lemma csvRow_numRow {sep : Char} (hsep : sep.isDigit = false) {ns : List ℕ} (hns : ns ≠ []) :
    csvRow sep (numRow sep ns) = ns.map (Nat.toDigits 10) := by
  refine csvRow_intercalate ?_ (by simpa using hns) ?_
  · intro f hf
    obtain ⟨n, -, rfl⟩ := List.mem_map.1 hf
    exact not_mem_toDigits hsep n
  · obtain ⟨n, ns, rfl⟩ := List.exists_cons_of_ne_nil hns
    rw [List.map_cons, intercalate_cons_eq]
    intro hnil
    exact Nat.toDigits_ne_nil (List.append_eq_nil_iff.1 hnil).1

/-! ## Fields and words -/

/-- Field `n` of a line, counted from one.  A line without a separator is taken whole; a line with
too few fields gives nothing. -/
def cutField (sep : Char) (n : ℕ) (line : List Char) : List Char :=
  if sep ∈ line then ((line.splitOn sep)[n - 1]?).getD [] else line

lemma cutField_intercalate {sep : Char} {fs : List (List Char)} (h : ∀ f ∈ fs, sep ∉ f)
    (hlen : 1 < fs.length) {n : ℕ} {f : List Char} (hf : fs[n]? = some f) :
    cutField sep (n + 1) ([sep].intercalate fs) = f := by
  have hne : fs ≠ [] := by
    rintro rfl
    exact absurd hlen (by simp)
  have hmem : sep ∈ [sep].intercalate fs := by
    match fs, hlen with
    | f :: g :: fs, _ => simp [intercalate_cons_eq]
  rw [cutField, if_pos hmem, List.splitOn_intercalate sep h hne, Nat.add_sub_cancel, hf]
  rfl

/-- The blanks between words. -/
def isBlank (c : Char) : Bool := c = ' ' ∨ c = '\t' ∨ c = '\n'

/-- The words of a text. -/
def words (text : List Char) : List (List Char) := (text.splitOnP isBlank).filter (· ≠ [])

/-- Lines of one word each. -/
lemma words_terminated {ls : List (List Char)} (hne : ∀ l ∈ ls, l ≠ [])
    (h : ∀ l ∈ ls, ∀ c ∈ l, isBlank c = false) : words (terminated '\n' ls) = ls := by
  induction ls with
  | nil => rfl
  | cons l ls ih =>
      have hrest : words (terminated '\n' ls) = ls :=
        ih (fun l hl => hne l (List.mem_cons_of_mem _ hl))
          (fun l hl => h l (List.mem_cons_of_mem _ hl))
      have hl : l ≠ [] := hne l (List.mem_cons_self ..)
      have hcons : terminated '\n' (l :: ls) = l ++ '\n' :: terminated '\n' ls := by
        simp [terminated]
      unfold words at hrest ⊢
      rw [hcons, List.splitOnP_append_cons_of_forall_mem (h l (List.mem_cons_self ..)) '\n' rfl,
        List.filter_cons_of_pos (by simpa using hl), hrest]

/-- A line ends in a separator and a last field exactly when that is its last field. -/
lemma cons_suffix_append_cons_iff {sep : Char} {d n : List Char} (hn : sep ∉ n)
    (l : List Char) (hd : sep ∉ d) : sep :: d <:+ l ++ sep :: n ↔ d = n := by
  constructor
  · intro h
    rcases List.suffix_or_suffix_of_suffix h (List.suffix_append l (sep :: n)) with hs | hs
    · rcases List.suffix_cons_iff.1 hs with heq | hs
      · exact (List.cons.inj heq).2
      · exact absurd (hs.subset (List.mem_cons_self ..)) hn
    · rcases List.suffix_cons_iff.1 hs with heq | hs
      · exact (List.cons.inj heq).2.symm
      · exact absurd (hs.subset (List.mem_cons_self ..)) hd
  · rintro rfl
    exact List.suffix_append l (sep :: d)

end Text
end FlowClassifier
