import FlowClassifier.Framework.Bits
import FlowClassifier.Framework.Crc
import FlowClassifier.Switch.Cell

/-!
# The hash of the flow index

`gen_hash` asks the target for `crc16` of a client's address followed by a server's, in the range
0..1023.  That is the check with the generator `0x8005` whose register starts at zero, takes the
bits of every byte from the least significant one on and is read backwards; the low ten bits are
the index.

The index is linear in the two addresses (`xorLinear_slot`), so it is the sum of what the client
contributes and of what the server contributes (`crc16Hash_eq_iff`), and both contributions are
known from the images of single bits.
-/

namespace FlowClassifier

open Bits

/-- The bits of a string of bytes, each byte from its least significant bit on. -/
def reflectBytes : List Bool → List Bool
  | a :: b :: c :: d :: e :: f :: g :: h :: bits =>
      h :: g :: f :: e :: d :: c :: b :: a :: reflectBytes bits
  | _ => []

/-- `HashAlgorithm.crc16`. -/
def crc16 (data : List Bool) : BitVec 16 :=
  (Crc.remainder (0x8005 : BitVec 16) 0 (reflectBytes data)).reverse

/-- `hash(mIndex, HashAlgorithm.crc16, 0, {ipAddr1, ipAddr2}, 1024)`. -/
def crc16Hash (ipAddr1 ipAddr2 : BitVec 32) : Fin 1024 :=
  ⟨(crc16 (ofVec ipAddr1 ++ ofVec ipAddr2)).toNat % 1024, Nat.mod_lt _ (by decide)⟩

/-- The check value of the algorithm, for the digits 1 to 9. -/
example : crc16 (ofBytes [0x31, 0x32, 0x33, 0x34, 0x35, 0x36, 0x37, 0x38, 0x39]) = 0xBB3D := by
  decide +kernel

/-! ## Linearity -/

/-- The low ten bits of the check of eight bytes. -/
def slot (x : BitVec 64) : BitVec 10 := (crc16 (ofVec x)).setWidth 10

lemma reflectBytes_ofVec (x : BitVec 64) :
    reflectBytes (ofVec x) = (List.range 64).map fun k => x.getMsbD (8 * (k / 8) + 7 - k % 8) :=
  rfl

lemma reflectBytes_xor (x y : BitVec 64) :
    reflectBytes (ofVec (x ^^^ y)) =
      (reflectBytes (ofVec x)).zipWith xor (reflectBytes (ofVec y)) := by
  rw [reflectBytes_ofVec, reflectBytes_ofVec, reflectBytes_ofVec, List.zipWith_map]
  simp [List.zipWith_self]

lemma reverse_xor {w : ℕ} (x y : BitVec w) : (x ^^^ y).reverse = x.reverse ^^^ y.reverse := by
  refine BitVec.eq_of_getLsbD_eq fun i _ => ?_
  rw [BitVec.getLsbD_reverse, BitVec.getMsbD_xor, BitVec.getLsbD_xor, BitVec.getLsbD_reverse,
    BitVec.getLsbD_reverse]

/-- The index is linear in the addresses. -/
lemma xorLinear_slot : XorLinear slot where
  map_xor x y := by
    have hlen : (reflectBytes (ofVec x)).length = (reflectBytes (ofVec y)).length := rfl
    have h := Crc.remainder_xor (0x8005 : BitVec 16) hlen 0 0
    rw [BitVec.xor_self, ← reflectBytes_xor] at h
    rw [slot, crc16]
    exact (congrArg (fun r => BitVec.setWidth 10 (BitVec.reverse r)) h).trans
      (by rw [reverse_xor, BitVec.setWidth_xor]; rfl)

/-- What a client's address adds to the index. -/
def clientSlot (client : BitVec 32) : BitVec 10 := slot (client ++ (0 : BitVec 32))

/-- What a server's address adds to the index. -/
def serverSlot (server : BitVec 32) : BitVec 10 := slot ((0 : BitVec 32) ++ server)

lemma xorLinear_clientSlot : XorLinear clientSlot where
  map_xor x y := by
    have h := xorLinear_slot.map_xor (x ++ (0 : BitVec 32)) (y ++ (0 : BitVec 32))
    rwa [BitVec.xor_append, BitVec.xor_self] at h

lemma xorLinear_serverSlot : XorLinear serverSlot where
  map_xor x y := by
    have h := xorLinear_slot.map_xor ((0 : BitVec 32) ++ x) ((0 : BitVec 32) ++ y)
    rwa [BitVec.xor_append, BitVec.xor_self] at h

/-- The index is the sum of the two contributions. -/
lemma val_crc16Hash (client server : BitVec 32) :
    (crc16Hash client server).val = (clientSlot client ^^^ serverSlot server).toNat := by
  have hsplit : client ++ server =
      (client ++ (0 : BitVec 32)) ^^^ ((0 : BitVec 32) ++ server) := by
    rw [BitVec.xor_append]
    simp
  have hslot : slot (client ++ server) = clientSlot client ^^^ serverSlot server := by
    rw [hsplit, xorLinear_slot.map_xor, clientSlot, serverSlot]
  rw [← hslot, slot, ofVec_append, BitVec.toNat_setWidth]
  rfl

/-- Two pairs of addresses share an index when their contributions have the same sum. -/
lemma crc16Hash_eq_iff (client client' server server' : BitVec 32) :
    crc16Hash client server = crc16Hash client' server' ↔
      clientSlot client ^^^ serverSlot server = clientSlot client' ^^^ serverSlot server' := by
  rw [← Fin.val_inj, val_crc16Hash, val_crc16Hash, BitVec.toNat_inj]

end FlowClassifier
