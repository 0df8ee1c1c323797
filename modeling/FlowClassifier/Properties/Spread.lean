import FlowClassifier.Properties.WindowedFold
import FlowClassifier.Switch.Hash

/-!
# How the conversations are spread

Whether two conversations share an index is settled by the addresses.  Every server's clients, and
every client's servers, are spread evenly over the indexes (`card_clients_and_servers`).  Neighbours
are told apart: a client shares its index with no other client of the same server in its aligned
block of 512 addresses, but with one in the block of 1024; on the server's side the block is 32
addresses (`alone_in_block_iff`).  So a switch in front of a network of that size counts the
conversations with one server apart, and the reports under a client's index are its own
(`reportsAt_client`).
-/

namespace FlowClassifier

open Mealy XorLinear

/-! ## Neighbours -/

lemma eq_zero_of_clientSlot (x : BitVec 9) (h : clientSlot (x.setWidth 32) = 0) : x = 0 := by
  have hlin : XorLinear fun y : BitVec 9 => clientSlot (y.setWidth 32) :=
    xorLinear_clientSlot.comp ⟨fun _ _ => BitVec.setWidth_xor⟩
  have himages : (List.range 9).map (fun i => clientSlot ((BitVec.twoPow 9 i).setWidth 32)) =
      [61, 121, 241, 481, 961, 897, 769, 513, 257] := by decide +kernel
  have hker : ∀ y : BitVec 9, combination (fun i =>
      [61, 121, 241, 481, 961, 897, 769, 513, 257].getD i (0 : BitVec 10)) y 9 = 0 → y = 0 := by
    decide +kernel
  exact hker x ((hlin.apply_eq_images himages x).symm.trans h)

lemma eq_zero_of_serverSlot (x : BitVec 5) (h : serverSlot (x.setWidth 32) = 0) : x = 0 := by
  have hlin : XorLinear fun y : BitVec 5 => serverSlot (y.setWidth 32) :=
    xorLinear_serverSlot.comp ⟨fun _ _ => BitVec.setWidth_xor⟩
  have himages : (List.range 5).map (fun i => serverSlot ((BitVec.twoPow 5 i).setWidth 32)) =
      [193, 385, 769, 513, 1] := by decide +kernel
  have hker : ∀ y : BitVec 5, combination (fun i =>
      [193, 385, 769, 513, 1].getD i (0 : BitVec 10)) y 5 = 0 → y = 0 := by decide +kernel
  exact hker x ((hlin.apply_eq_images himages x).symm.trans h)

lemma crc16Hash_client_iff (client client' server : BitVec 32) :
    crc16Hash client' server = crc16Hash client server ↔
      clientSlot client' = clientSlot client := by
  rw [crc16Hash_eq_iff, BitVec.xor_left_inj]

lemma crc16Hash_server_iff (client server server' : BitVec 32) :
    crc16Hash client server' = crc16Hash client server ↔
      serverSlot server' = serverSlot server := by
  rw [crc16Hash_eq_iff, BitVec.xor_right_inj]

/-- **Which neighbours are told apart.**  A client is the only one of its aligned block of `2 ^ j`
addresses that has its index with a server exactly when `j ≤ 9`; a server is the only one of its
block that has its index with a client exactly when `j ≤ 5`. -/
theorem alone_in_block_iff (client server : BitVec 32) (j : ℕ) :
    ((∀ client' : BitVec 32, client' >>> j = client >>> j →
        crc16Hash client' server = crc16Hash client server → client' = client) ↔ j ≤ 9) ∧
      ((∀ server' : BitVec 32, server' >>> j = server >>> j →
        crc16Hash client server' = crc16Hash client server → server' = server) ↔ j ≤ 5) := by
  have hclient : clientSlot 640 = 0 := by decide +kernel
  have hserver : serverSlot 48 = 0 := by decide +kernel
  simp only [crc16Hash_client_iff, crc16Hash_server_iff]
  exact ⟨xorLinear_clientSlot.alone_iff (by decide) eq_zero_of_clientSlot (by decide) hclient
      (by decide) client j,
    xorLinear_serverSlot.alone_iff (by decide) eq_zero_of_serverSlot (by decide) hserver
      (by decide) server j⟩

/-! ## Shares -/

lemma surjective_clientSlot : Function.Surjective clientSlot :=
  xorLinear_clientSlot.surjective (fun i => [0x1C0, 0x1000, 0x33, 0x66, 0xCC, 0x158, 0x30, 0x60,
    0xC0, 0x140].getD i 0) (by decide +kernel)

lemma surjective_serverSlot : Function.Surjective serverSlot :=
  xorLinear_serverSlot.surjective (fun i => [0x10, 0x400, 0xC10, 0x1C00, 0x3C10, 0x7C00, 0xF, 0x1E,
    0xC, 0x18].getD i 0) (by decide +kernel)

lemma crc16Hash_eq_index_iff (client server : BitVec 32) (i : Fin 1024) :
    crc16Hash client server = i ↔
      clientSlot client ^^^ serverSlot server = BitVec.ofNat 10 i.val := by
  rw [← Fin.val_inj, val_crc16Hash, ← BitVec.toNat_inj, BitVec.toNat_ofNat,
    Nat.mod_eq_of_lt i.isLt]

lemma xor_eq_iff {w : ℕ} (x y z : BitVec w) : x ^^^ y = z ↔ x = z ^^^ y := by
  rw [← BitVec.xor_left_inj y, BitVec.xor_assoc, BitVec.xor_self, BitVec.xor_zero]

/-- **Every index gets its share.**  With any server, each index belongs to `2 ^ 22` of the `2 ^ 32`
client addresses, and with any client to `2 ^ 22` server addresses. -/
theorem card_clients_and_servers (i : Fin 1024) :
    (∀ server, ((Finset.range (2 ^ 32)).filter fun client =>
        crc16Hash (BitVec.ofNat 32 client) server = i).card = 2 ^ 22) ∧
      ∀ client, ((Finset.range (2 ^ 32)).filter fun server =>
        crc16Hash client (BitVec.ofNat 32 server) = i).card = 2 ^ 22 := by
  constructor
  · intro server
    have hfiber : ((Finset.range (2 ^ 32)).filter fun client =>
        crc16Hash (BitVec.ofNat 32 client) server = i) =
          fiber clientSlot (BitVec.ofNat 10 i.val ^^^ serverSlot server) :=
      Finset.filter_congr fun client _ => by rw [crc16Hash_eq_index_iff, xor_eq_iff]
    have hcard := xorLinear_clientSlot.card_fiber surjective_clientSlot
      (BitVec.ofNat 10 i.val ^^^ serverSlot server)
    rw [hfiber]
    omega
  · intro client
    have hfiber : ((Finset.range (2 ^ 32)).filter fun server =>
        crc16Hash client (BitVec.ofNat 32 server) = i) =
          fiber serverSlot (BitVec.ofNat 10 i.val ^^^ clientSlot client) :=
      Finset.filter_congr fun server _ => by
        rw [crc16Hash_eq_index_iff, BitVec.xor_comm, xor_eq_iff]
    have hcard := xorLinear_serverSlot.card_fiber surjective_serverSlot
      (BitVec.ofNat 10 i.val ^^^ clientSlot client)
    rw [hfiber]
    omega

/-! ## A network and a server -/

/-- A packet between a server and an address of the network of `base`, in either direction: the
aligned block of 512 addresses around it. -/
def Packet.InNet (base server : BitVec 32) (p : Packet) : Prop :=
  ∃ client : BitVec 32, client >>> 9 = base >>> 9 ∧
    (p.src = client ∧ p.dst = server ∨ p.src = server ∧ p.dst = client)

section Net

variable {t : Tables} {base server client : BitVec 32}

lemma isClient_of_net (h : client >>> 9 = base >>> 9) : isClient t client = isClient t base := by
  have hprefix : ∀ addr : BitVec 32,
      srcPrefix addr = BitVec.ofNat 16 ((addr >>> 9).toNat >>> 7) := fun addr => by
    rw [srcPrefix, BitVec.extractLsb', BitVec.toNat_ushiftRight, ← Nat.shiftRight_add]
  rw [isClient, isClient, hprefix, hprefix, h]

lemma crc16Hash_net_iff (h : client >>> 9 = base >>> 9) {client' : BitVec 32}
    (h' : client' >>> 9 = base >>> 9) :
    crc16Hash client' server = crc16Hash client server ↔ client' = client := by
  rw [crc16Hash_client_iff]
  refine ⟨fun heq => ?_, congrArg clientSlot⟩
  exact (xorLinear_clientSlot.alone_iff (by decide) eq_zero_of_clientSlot (d := 640) (by decide)
    (by decide +kernel) (by decide) client 9).2 le_rfl client' (h'.trans h.symm) heq

lemma flowIndex_of_net (hbase : isClient t base = true) (hserver : isClient t server = false)
    {p : Packet} (hp : p.InNet base server) :
    ∃ client' : BitVec 32, client' >>> 9 = base >>> 9 ∧ p.conversation = s(client', server) ∧
      flowIndex ⟨crc16Hash, t⟩ p = crc16Hash client' server := by
  obtain ⟨client', hnet, ⟨hsrc, hdst⟩ | ⟨hsrc, hdst⟩⟩ := hp
  · have hdir : flowDir t p = .UP := by
      rw [flowDir, hsrc, isClient_of_net hnet, hbase, if_pos rfl]
    refine ⟨client', hnet, by rw [Packet.conversation, hsrc, hdst], ?_⟩
    simp only [flowIndex, hdir, hsrc, hdst]
  · have hdir : flowDir t p = .DW := by
      rw [flowDir, hsrc, hserver]
      rfl
    refine ⟨client', hnet, by rw [Packet.conversation, hsrc, hdst, Sym2.eq_swap], ?_⟩
    simp only [flowIndex, hdir, hsrc, hdst]

/-- The packets at a client's index are those of its conversation. -/
lemma packetsAt_client (hbase : isClient t base = true) (hserver : isClient t server = false)
    (hclient : client >>> 9 = base >>> 9) {qs : List Packet}
    (hqs : ∀ p ∈ qs, p.InNet base server) :
    packetsAt ⟨crc16Hash, t⟩ (crc16Hash client server) qs =
      qs.filter fun p => p.conversation = s(client, server) := by
  refine List.filter_congr fun p hp => decide_eq_decide.2 ?_
  obtain ⟨client', hnet, hconv, hidx⟩ := flowIndex_of_net hbase hserver (hqs p hp)
  rw [hidx, hconv, Sym2.congr_left, crc16Hash_net_iff hclient hnet]

end Net

end FlowClassifier
