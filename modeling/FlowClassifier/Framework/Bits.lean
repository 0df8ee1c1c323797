import Mathlib.Data.List.Induction
import Mathlib.Data.Nat.Bitwise
import Mathlib.Tactic.Ring

/-!
# Bit strings

What a wire carries: lists of bits with the most significant bit first.  `ofVec` writes a vector of
any width as a string and `value` reads a string as a number; between strings of one length they
are inverse to each other (`value_ofVec`, `ofVec_ofNat_value`).  `ofBytes` and `toBytes` are the
same for strings of whole bytes, and `splice` overwrites a part of a list, bits or bytes alike
(`ofBytes_splice`).
-/

namespace FlowClassifier
namespace Bits

/-! ## Vectors -/

/-- The bits of a vector. -/
def ofVec {w : ℕ} (v : BitVec w) : List Bool := (List.range w).map v.getMsbD

/-- The number a string stands for. -/
def value (bits : List Bool) : ℕ := bits.foldl (fun n b => 2 * n + b.toNat) 0

@[simp] lemma length_ofVec {w : ℕ} (v : BitVec w) : (ofVec v).length = w := by
  simp [ofVec]

@[simp] lemma value_nil : value [] = 0 := rfl

lemma value_concat (bits : List Bool) (b : Bool) :
    value (bits ++ [b]) = 2 * value bits + b.toNat := by
  simp [value]

lemma value_append (l m : List Bool) : value (l ++ m) = value l * 2 ^ m.length + value m := by
  induction m using List.reverseRecOn with
  | nil => simp
  | append_singleton m b ih =>
      rw [← List.append_assoc, value_concat, value_concat, ih, List.length_append,
        List.length_singleton, pow_succ]
      ring

lemma value_lt (bits : List Bool) : value bits < 2 ^ bits.length := by
  induction bits using List.reverseRecOn with
  | nil => simp
  | append_singleton bits b ih =>
      have hb : b.toNat ≤ 1 := Bool.toNat_le b
      rw [value_concat, List.length_append, List.length_singleton, pow_succ]
      omega

/-- A string is determined by its length and its number. -/
lemma eq_of_value_eq {l m : List Bool} (hlen : l.length = m.length) (h : value l = value m) :
    l = m := by
  induction l using List.reverseRecOn generalizing m with
  | nil => exact (List.length_eq_zero_iff.1 hlen.symm).symm
  | append_singleton l a ih =>
      rcases List.eq_nil_or_concat m with rfl | ⟨m, b, rfl⟩
      · simp at hlen
      · rw [List.concat_eq_append] at h hlen ⊢
        rw [value_concat, value_concat] at h
        have ha : a.toNat ≤ 1 := Bool.toNat_le a
        have hb : b.toNat ≤ 1 := Bool.toNat_le b
        have hbit : a = b := by
          have hnat : a.toNat = b.toNat := by omega
          revert hnat
          cases a <;> cases b <;> simp
        have hinit : l = m := ih (by simpa using hlen) (by omega)
        rw [hinit, hbit]

/-- The leading bits of a vector are the vector shifted down. -/
private lemma value_map_getMsbD {w : ℕ} (v : BitVec w) (k : ℕ) (hk : k ≤ w) :
    value ((List.range k).map v.getMsbD) = v.toNat / 2 ^ (w - k) := by
  induction k with
  | zero => simp [Nat.div_eq_of_lt v.isLt]
  | succ k ih =>
      have hbit : v.getMsbD k = v.toNat.testBit (w - (k + 1)) := by
        rw [BitVec.getMsbD, decide_eq_true (show k < w by omega), Bool.true_and, BitVec.getLsbD]
        congr 1
        omega
      have hpow : 2 ^ (w - k) = 2 ^ (w - (k + 1)) * 2 := by
        rw [← pow_succ]
        congr 1
        omega
      rw [List.range_succ, List.map_append, List.map_singleton, value_concat, ih (by omega), hbit,
        Nat.toNat_testBit, hpow, ← Nat.div_div_eq_div_mul]
      omega

/-- Writing a vector and reading it back. -/
@[simp] lemma value_ofVec {w : ℕ} (v : BitVec w) : value (ofVec v) = v.toNat := by
  rw [ofVec, value_map_getMsbD v w le_rfl, Nat.sub_self, pow_zero, Nat.div_one]

/-- Reading a string and writing it back. -/
lemma ofVec_ofNat_value {w : ℕ} {bits : List Bool} (h : bits.length = w) :
    ofVec (BitVec.ofNat w (value bits)) = bits := by
  subst h
  refine eq_of_value_eq (by simp) ?_
  rw [value_ofVec, BitVec.toNat_ofNat, Nat.mod_eq_of_lt (value_lt bits)]

lemma ofNat_value_ofVec {w : ℕ} (v : BitVec w) : BitVec.ofNat w (value (ofVec v)) = v := by
  rw [value_ofVec, BitVec.ofNat_toNat, BitVec.setWidth_eq]

/-- Vectors side by side. -/
lemma ofVec_append {m n : ℕ} (u : BitVec m) (v : BitVec n) :
    ofVec (u ++ v) = ofVec u ++ ofVec v := by
  refine eq_of_value_eq (by simp) ?_
  rw [value_ofVec, value_append, value_ofVec, value_ofVec, length_ofVec, BitVec.toNat_append,
    Nat.shiftLeft_eq, ← Nat.shiftLeft_eq, Nat.shiftLeft_add_eq_or_of_lt v.isLt]

lemma ofVec_inj {w : ℕ} {u v : BitVec w} : ofVec u = ofVec v ↔ u = v := by
  refine ⟨fun h => ?_, congrArg ofVec⟩
  rw [← ofNat_value_ofVec u, ← ofNat_value_ofVec v, h]

/-- Strings that end in vectors of one width. -/
lemma append_ofVec_inj {w : ℕ} {l m : List Bool} {u v : BitVec w} :
    l ++ ofVec u = m ++ ofVec v ↔ l = m ∧ u = v := by
  constructor
  · intro h
    obtain ⟨hinit, hlast⟩ := List.append_inj' h (by simp)
    exact ⟨hinit, ofVec_inj.1 hlast⟩
  · rintro ⟨rfl, rfl⟩
    rfl

/-! ## Slices -/

/-- The `len` elements of a list from `start` on. -/
def slice {α : Type*} (start len : ℕ) (l : List α) : List α := (l.drop start).take len

section Slice

variable {α : Type*} {l : List α}

lemma length_slice {start len : ℕ} (h : start + len ≤ l.length) :
    (slice start len l).length = len := by
  rw [slice, List.length_take, List.length_drop]
  omega

/-- Neighbouring slices. -/
lemma slice_append_slice (start m n : ℕ) (l : List α) :
    slice start m l ++ slice (start + m) n l = slice start (m + n) l := by
  rw [slice, slice, slice, List.take_add, List.drop_drop]

lemma slice_zero_length (l : List α) : slice 0 l.length l = l := by
  rw [slice, List.drop_zero, List.take_length]

/-- A slice of the front part. -/
lemma slice_append_left {start len : ℕ} (h : start + len ≤ l.length) (m : List α) :
    slice start len (l ++ m) = slice start len l := by
  rw [slice, slice, List.drop_append_of_le_length (by omega),
    List.take_append_of_le_length (by rw [List.length_drop]; omega)]

/-- A slice of the back part. -/
lemma slice_append_right (start len : ℕ) (l m : List α) :
    slice (l.length + start) len (l ++ m) = slice start len m := by
  rw [slice, slice, ← List.drop_drop, List.drop_left]

end Slice

/-! ## Overwriting -/

/-- A list with the elements from `start` on overwritten. -/
def splice {α : Type*} (start : ℕ) (new l : List α) : List α :=
  l.take start ++ new ++ l.drop (start + new.length)

section Splice

variable {α : Type*} {start : ℕ} {new l : List α}

lemma length_splice (h : start + new.length ≤ l.length) :
    (splice start new l).length = l.length := by
  simp only [splice, List.length_append, List.length_take, List.length_drop]
  omega

/-- What stands before the new elements. -/
lemma take_splice {k : ℕ} (hk : k ≤ start) (h : start + new.length ≤ l.length) :
    (splice start new l).take k = l.take k := by
  rw [splice, List.append_assoc, List.take_append_of_le_length (by rw [List.length_take]; omega),
    List.take_take, min_eq_left hk]

/-- What stands after them. -/
lemma drop_splice {k : ℕ} (hk : start + new.length ≤ k) (h : start + new.length ≤ l.length) :
    (splice start new l).drop k = l.drop k := by
  have hlen : (l.take start ++ new).length = start + new.length := by
    rw [List.length_append, List.length_take]
    omega
  rw [splice, List.drop_append, hlen, List.drop_eq_nil_of_le (by omega), List.nil_append,
    List.drop_drop]
  congr 1
  omega

/-- Overwriting the middle of a list. -/
lemma splice_middle (pre new old post : List α) (h : new.length = old.length) :
    splice pre.length new (pre ++ old ++ post) = pre ++ new ++ post := by
  have htake : (pre ++ old ++ post).take pre.length = pre := by
    rw [List.append_assoc, List.take_left]
  have hdrop : (pre ++ old ++ post).drop (pre.length + new.length) = post := by
    rw [h, ← List.length_append, List.drop_left]
  rw [splice, htake, hdrop]

/-- A list in front of the overwritten one. -/
lemma splice_append_left (start : ℕ) (new l pre : List α) :
    splice (pre.length + start) new (pre ++ l) = pre ++ splice start new l := by
  have htake : (pre ++ l).take (pre.length + start) = pre ++ l.take start := by
    rw [List.take_append, List.take_of_length_le (Nat.le_add_right _ _), Nat.add_sub_cancel_left]
  have hdrop : (pre ++ l).drop (pre.length + start + new.length) =
      l.drop (start + new.length) := by
    rw [List.drop_append, List.drop_eq_nil_of_le (by omega), List.nil_append]
    congr 1
    omega
  rw [splice, splice, htake, hdrop, List.append_assoc, List.append_assoc, List.append_assoc]

/-- A list behind the overwritten one. -/
lemma splice_append_right (post : List α) (h : start + new.length ≤ l.length) :
    splice start new (l ++ post) = splice start new l ++ post := by
  rw [splice, splice, List.take_append_of_le_length (by omega),
    List.drop_append_of_le_length h, List.append_assoc _ _ post]

end Splice

/-! ## Bytes -/

/-- The bits of some bytes. -/
def ofBytes (bytes : List (BitVec 8)) : List Bool := bytes.flatMap ofVec

/-- The bytes of a string; bits that do not fill a byte are cut off. -/
def toBytes : List Bool → List (BitVec 8)
  | a :: b :: c :: d :: e :: f :: g :: h :: bits =>
      BitVec.ofNat 8 (value [a, b, c, d, e, f, g, h]) :: toBytes bits
  | _ => []

/-- The bytes of a vector. -/
def octets {w : ℕ} (v : BitVec w) : List (BitVec 8) := toBytes (ofVec v)

@[simp] lemma ofBytes_nil : ofBytes [] = [] := rfl

lemma ofBytes_cons (b : BitVec 8) (bytes : List (BitVec 8)) :
    ofBytes (b :: bytes) = ofVec b ++ ofBytes bytes := rfl

lemma ofBytes_append (l m : List (BitVec 8)) : ofBytes (l ++ m) = ofBytes l ++ ofBytes m :=
  List.flatMap_append

@[simp] lemma length_ofBytes (bytes : List (BitVec 8)) :
    (ofBytes bytes).length = 8 * bytes.length := by
  induction bytes with
  | nil => rfl
  | cons b bytes ih =>
      rw [ofBytes_cons, List.length_append, ih, length_ofVec, List.length_cons]
      omega

/-- A string of at least one byte. -/
lemma toBytes_ofVec_append (b : BitVec 8) (bits : List Bool) :
    toBytes (ofVec b ++ bits) = b :: toBytes bits := by
  have hbits : ofVec b = [b.getMsbD 0, b.getMsbD 1, b.getMsbD 2, b.getMsbD 3, b.getMsbD 4,
      b.getMsbD 5, b.getMsbD 6, b.getMsbD 7] := rfl
  have hvalue := ofNat_value_ofVec b
  rw [hbits] at hvalue ⊢
  simp only [List.cons_append, List.nil_append, toBytes, hvalue]

/-- Writing bytes and reading them back, whatever follows. -/
lemma toBytes_ofBytes_append (bytes : List (BitVec 8)) (bits : List Bool) :
    toBytes (ofBytes bytes ++ bits) = bytes ++ toBytes bits := by
  induction bytes with
  | nil => rfl
  | cons b bytes ih =>
      rw [ofBytes_cons, List.append_assoc, toBytes_ofVec_append, ih, List.cons_append]

@[simp] lemma toBytes_ofBytes (bytes : List (BitVec 8)) : toBytes (ofBytes bytes) = bytes := by
  have h := toBytes_ofBytes_append bytes []
  rw [List.append_nil] at h
  exact h.trans (List.append_nil bytes)

/-- Strings of whole bytes are read back. -/
lemma ofBytes_toBytes {n : ℕ} {bits : List Bool} (h : bits.length = 8 * n) :
    ofBytes (toBytes bits) = bits := by
  induction n generalizing bits with
  | zero => rw [List.length_eq_zero_iff.1 h]; rfl
  | succ n ih =>
      have hsplit : bits = ofVec (BitVec.ofNat 8 (value (bits.take 8))) ++ bits.drop 8 := by
        rw [ofVec_ofNat_value (by rw [List.length_take]; omega), List.take_append_drop]
      rw [hsplit, toBytes_ofVec_append, ofBytes_cons, ih (by rw [List.length_drop]; omega)]

/-- Whole bytes and the rest can be read one after the other. -/
lemma toBytes_append {n : ℕ} {l : List Bool} (h : l.length = 8 * n) (m : List Bool) :
    toBytes (l ++ m) = toBytes l ++ toBytes m := by
  have hl := ofBytes_toBytes h
  calc
    toBytes (l ++ m) = toBytes (ofBytes (toBytes l) ++ m) := by rw [hl]
    _ = toBytes l ++ toBytes m := toBytes_ofBytes_append _ m

/-- The bytes of a vector of whole bytes. -/
lemma ofBytes_octets {w n : ℕ} (h : w = 8 * n) (v : BitVec w) : ofBytes (octets v) = ofVec v :=
  ofBytes_toBytes (n := n) (by rw [length_ofVec, h])

lemma length_octets {w n : ℕ} (h : w = 8 * n) (v : BitVec w) : (octets v).length = n := by
  have hlen := congrArg List.length (ofBytes_octets h v)
  rw [length_ofBytes, length_ofVec] at hlen
  omega

lemma take_ofBytes (n : ℕ) (bytes : List (BitVec 8)) :
    (ofBytes bytes).take (8 * n) = ofBytes (bytes.take n) := by
  induction n generalizing bytes with
  | zero => rfl
  | succ n ih =>
      cases bytes with
      | nil => rfl
      | cons b bytes =>
          rw [ofBytes_cons, List.take_append, length_ofVec, List.take_of_length_le
            (by rw [length_ofVec]; omega), List.take_succ_cons, ofBytes_cons, ← ih]
          congr 2

lemma drop_ofBytes (n : ℕ) (bytes : List (BitVec 8)) :
    (ofBytes bytes).drop (8 * n) = ofBytes (bytes.drop n) := by
  induction n generalizing bytes with
  | zero => rfl
  | succ n ih =>
      cases bytes with
      | nil => rfl
      | cons b bytes =>
          rw [ofBytes_cons, List.drop_append, length_ofVec, List.drop_eq_nil_of_le
            (by rw [length_ofVec]; omega), List.nil_append, List.drop_succ_cons, ← ih]
          congr 1

lemma ofBytes_slice (start len : ℕ) (bytes : List (BitVec 8)) :
    ofBytes (slice start len bytes) = slice (8 * start) (8 * len) (ofBytes bytes) := by
  rw [slice, slice, drop_ofBytes, take_ofBytes]

/-- Overwriting bytes overwrites their bits. -/
lemma ofBytes_splice (start : ℕ) (new bytes : List (BitVec 8)) :
    ofBytes (splice start new bytes) = splice (8 * start) (ofBytes new) (ofBytes bytes) := by
  rw [splice, splice, ofBytes_append, ofBytes_append, ← take_ofBytes, ← drop_ofBytes,
    length_ofBytes, Nat.mul_add]

end Bits
end FlowClassifier
