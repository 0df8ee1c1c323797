import FlowClassifier.Framework.Dict
import FlowClassifier.Framework.Table
import FlowClassifier.Switch.Headers

/-!
# Match-action tables

The tables of the program and their lookups.  A range key matches when it lies between the
entry's bounds, both included; a key an entry leaves out matches anything; the highest priority
wins and among equal priorities the entry installed first (`Framework/Table.lean`).
-/

namespace FlowClassifier

/-- The parameters of the action `Pow`. -/
structure PowParams where
  powera : BitVec 8
  powerb : BitVec 8
  powerc : BitVec 8
  deriving DecidableEq

/-- An entry of a table with one `range` key. -/
structure RangeEntry (α : Type) where
  priority : ℕ
  lo : ℕ
  hi : ℕ
  params : α
  deriving DecidableEq

/-- Range bounds are inclusive. -/
def RangeEntry.hits {α : Type} (key : ℕ) (e : RangeEntry α) : Bool :=
  decide (e.lo ≤ key) && decide (key ≤ e.hi)

/-- The action parameters selected by a key in a table with one `range` key. -/
def rangeLookup {α : Type} (es : List (RangeEntry α)) (key : ℕ) : Option α :=
  (Table.winner RangeEntry.priority (RangeEntry.hits key) es).map RangeEntry.params

/-- An entry of `ActRules`: the ranges of the keys it names, by feature number. -/
structure ActEntry where
  priority : ℕ
  fields : Dict (Fin 12) (ℕ × ℕ)
  cg : BitVec 1
  deriving DecidableEq

/-- An omitted key matches anything. -/
def ActEntry.hits (actionFt : Fin 12 → ℕ) (e : ActEntry) : Bool :=
  e.fields.all fun kv => decide (kv.2.1 ≤ actionFt kv.1) && decide (actionFt kv.1 ≤ kv.2.2)

/-- The actions of `ipv4_lpm`. -/
inductive LpmAction
  | ipv4Forward (dstAddr : BitVec 48) (port : BitVec 9)
  | drop
  | noAction
  deriving DecidableEq

/-- The control-plane contents of every table of the ingress control.  `divide .DW` is `Divide1`
and `divide .UP` is `Divide2`; `feat f` is `Feat<f>ruls`. -/
structure Tables where
  direc : List (BitVec 16)
  ipv4Lpm : List (BitVec 32 × LpmAction)
  ipv4LpmDefault : LpmAction
  divide : Direction → List (RangeEntry PowParams)
  feat : Fin 12 → List (RangeEntry (BitVec 6))
  actRules : List ActEntry

/-- No entry installed; `drop` is the default action the program gives `ipv4_lpm`. -/
def Tables.empty : Tables where
  direc := []
  ipv4Lpm := []
  ipv4LpmDefault := .drop
  divide := fun _ => []
  feat := fun _ => []
  actRules := []

/-- What the program is run with: the hash extern `crc16` with base 0 and range 1024, and the
table contents. -/
structure Config where
  hash : BitVec 32 → BitVec 32 → Fin 1024
  tables : Tables

end FlowClassifier
