import FlowClassifier.Controller.ApproxRules
import FlowClassifier.Controller.InstallRules

/-!
# Starting the switch

What `main.py` does to a freshly started switch, from top to bottom: the address range of the
clients, the three hosts and the default way out, then the three files of rules.  A file that cannot
be loaded stops the program, with the entries installed before.
-/

namespace FlowClassifier

/-! ## Topology -/

/-- `PLY`, 10.1.0.1. -/
def ply : BitVec 32 := 0x0A010001

/-- `PREFIX`, the upper half of 192.168.0.0. -/
def cltPrefix : BitVec 16 := 0xC0A8

/-- `SRV`, 10.0.0.2. -/
def srv : BitVec 32 := 0x0A000002

/-- `OTH`, 10.0.0.3. -/
def oth : BitVec 32 := 0x0A000003

/-- `insertTableEntry` on `Direc`. -/
def Tables.insertDirec (e : BitVec 16) (t : Tables) : Tables := { t with direc := t.direc ++ [e] }

/-- `insertTableEntry` on `ipv4_lpm`. -/
def Tables.insertLpm (dstAddr : BitVec 32) (action : LpmAction) (t : Tables) : Tables :=
  { t with ipv4Lpm := t.ipv4Lpm ++ [(dstAddr, action)] }

/-- `insertTableEntry` on `ipv4_lpm` with `default_action=True`. -/
def Tables.setLpmDefault (action : LpmAction) (t : Tables) : Tables :=
  { t with ipv4LpmDefault := action }

/-- The direction and the way to the hosts. -/
def variousTables (sw : Tables) : Tables :=
  let sw := sw.insertDirec cltPrefix
  let sw := sw.insertLpm ply (.ipv4Forward 1 1)
  let sw := sw.insertLpm srv (.ipv4Forward 2 2)
  let sw := sw.insertLpm oth (.ipv4Forward 3 3)
  -- Otherwise send the packet clockwise
  sw.setLpmDefault (.ipv4Forward 0 2)

/-! ## The program -/

/-- `main.py` on the contents of `Out.csv`, `FTR_Ruls.csv` and `ACT_Ruls.csv`. -/
def startup (approxFile featRul actRul : List Char) : Except Tables Tables := do
  let sw := variousTables Tables.empty
  let sw ← writeApprRule approxFile sw
  let sw ← writeFeatRule featRul sw
  writeActRule actRul sw

end FlowClassifier
