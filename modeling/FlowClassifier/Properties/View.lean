import FlowClassifier.Properties.WindowedFold
import FlowClassifier.Switch.Parser

/-!
# What the classifier sees

Of a packet the flow registers and the reports depend on four numbers, its two addresses, its total
length and its arrival time, and on these only when it is UDP with some `ttl` left.  `Packet.view`
is that part, and `reports_view` says that runs with the same views in the same order report the
same windows: nothing in a payload, a port, a checksum or an Ethernet address, and no other traffic,
can move a verdict.
-/

namespace FlowClassifier

open Mealy

/-- What the classifier sees of a UDP packet. -/
structure View where
  src : BitVec 32
  dst : BitVec 32
  totalLen : BitVec 16
  time : BitVec 48
  deriving DecidableEq

/-- Nothing of a packet that is not accounted. -/
def Packet.view (p : Packet) : Option View :=
  if p.IsUdp then some ⟨p.src, p.dst, p.hdr.ipv4.totalLen, p.time⟩ else none

/-- A packet of which nothing else is known. -/
def View.packet (v : View) : Packet := udpPacket v.src v.dst v.totalLen v.time

/-- What the classifier sees of a packet it accounts. -/
def View.of (p : Packet) : View := ⟨p.src, p.dst, p.hdr.ipv4.totalLen, p.time⟩

section Views

variable (cfg : Config)

lemma view_of_isUdp {p : Packet} (h : p.IsUdp) : p.view = some (View.of p) := if_pos h

lemma view_of_not_isUdp {p : Packet} (h : ¬ p.IsUdp) : p.view = none := if_neg h

lemma filterMap_view (ps : List Packet) :
    ps.filterMap Packet.view = (accounted ps).map View.of := by
  rw [accounted, ← List.filterMap_eq_map, List.filterMap_filter]
  refine List.filterMap_congr fun p _ => ?_
  simp [Packet.view, View.of]

lemma packetStep_view {p : Packet} (hp : p.IsUdp) (c : Cell) :
    packetStep cfg c (View.of p).packet = packetStep cfg c p := by
  have hv : (View.of p).packet.IsUdp := isUdp_udpPacket ..
  rw [packetStep_of_isUdp cfg c hp, packetStep_of_isUdp cfg c hv]
  rfl

/-- **A run does what its views do.** -/
lemma run_views (ps : List Packet) :
    (∀ i, (switchRun cfg ((ps.filterMap Packet.view).map View.packet)).cell i =
        (switchRun cfg ps).cell i) ∧
      reports (switchTrace cfg ((ps.filterMap Packet.view).map View.packet)) =
        reports (switchTrace cfg ps) := by
  obtain ⟨hkept, hclosings⟩ := run_accounted cfg Registers.zero ps
  obtain ⟨hrun, htrace⟩ := (switchStep_routed cfg).simulation (switchStep_routed cfg)
    (fun k k' => k = k') (fun c c' => c' = c) (fun p => (View.of p).packet) (fun _ r => r)
    (accounted ps) (fun p _ => rfl) (fun p _ k k' hk => by rw [hk]; rfl)
    (fun c c' p hp hc => by
      rw [hc, packetStep_view cfg (mem_accounted.1 hp).2]
      exact ⟨rfl, rfl⟩)
    Registers.zero Registers.zero (fun k k' hk => by rw [hk])
  rw [filterMap_view, List.map_map]
  constructor
  · intro i
    rw [switchRun, switchRun, ← hkept]
    exact hrun i i rfl
  · rw [switchTrace, switchTrace, ← map_snd_closings (trace _ _ ps), ← hclosings,
      map_snd_closings, reports, reports]
    have hsame := congrArg (List.filterMap Prod.snd) htrace
    rw [List.filterMap_map] at hsame
    exact hsame

end Views

/-- **The classifier sees nothing else.**  Two runs with the same views in the same order report the
same windows and leave the same registers. -/
theorem reports_view (cfg : Config) {ps qs : List Packet}
    (h : ps.filterMap Packet.view = qs.filterMap Packet.view) :
    reports (switchTrace cfg ps) = reports (switchTrace cfg qs) ∧
      ∀ i, (switchRun cfg ps).cell i = (switchRun cfg qs).cell i := by
  obtain ⟨hps, hps'⟩ := run_views cfg ps
  obtain ⟨hqs, hqs'⟩ := run_views cfg qs
  rw [h] at hps hps'
  exact ⟨hps'.symm.trans hqs', fun i => (hps i).symm.trans (hqs i)⟩

/-- A download, once as it is, once with other ports and another frame in between. -/
theorem reports_view_ports :
    let cfg : Config := ⟨fun _ _ => 0, { Tables.empty with direc := [0xC0A8] }⟩
    let p := udpPacket 0x0A000002 0xC0A80001 1400 1000
    let q := udpPacket 0x0A000002 0xC0A80001 1400 40000
    let q' := { q with hdr := { q.hdr with udp := ⟨true, 53, 53, 8, 0xFFFF⟩ } }
    let other := { q with hdr := Headers.none }
    reports (switchTrace cfg [p, q]) = reports (switchTrace cfg [p, other, q']) := by
  intro cfg p q q' other
  exact (reports_view cfg (by decide)).1

end FlowClassifier
