import FlowClassifier.Switch.Headers

/-!
# Registers

The register arrays of `basic_tutorial_ingress`: two global ones, seven per direction, and the
four debug arrays.  Every array has 1024 cells and is indexed by the flow hash, whose range is
`0..1023`, so an index is a `Fin 1024` and no access is out of bounds.

`Registers.cell` gathers what the arrays hold at one index.  It is the view in which the pipeline
is a routed machine (`Switch/Cell.lean`).
-/

namespace FlowClassifier

/-- `register<bit<w>>(1024)`. -/
def Register (w : ℕ) : Type := Fin 1024 → BitVec w

namespace Register

variable {w : ℕ}

/-- An array holds zeros when the switch starts. -/
def zero : Register w := fun _ => 0

def read (r : Register w) (i : Fin 1024) : BitVec w := r i

def write (r : Register w) (i : Fin 1024) (v : BitVec w) : Register w :=
  fun j => if j = i then v else r j

@[simp] theorem read_write_self (r : Register w) (i : Fin 1024) (v : BitVec w) :
    (r.write i v).read i = v := by
  simp [read, write]

theorem read_write (r : Register w) (i j : Fin 1024) (v : BitVec w) :
    (r.write i v).read j = if j = i then v else r.read j := rfl

end Register

/-- The seven arrays of one direction (`DW_*` or `UP_*`). -/
structure Bank where
  nbelem : Register 12
  sumSZE : Register 32
  dltSZE : Register 32
  lstMuSZE : Register 32
  flowTst : Register 48
  dltIAT : Register 48
  lstMuIAT : Register 48

/-- All the arrays of the ingress control. -/
structure Registers where
  flowTracker : Register 64
  flowFrstTime : Register 48
  bank : Direction → Bank
  write12Bits : Register 12
  write32Bits : Register 32
  write48Bits : Register 48
  write1Bit : Register 1

def Bank.zero : Bank := ⟨.zero, .zero, .zero, .zero, .zero, .zero, .zero⟩

/-- The state of a freshly started switch. -/
def Registers.zero : Registers := ⟨.zero, .zero, fun _ => .zero, .zero, .zero, .zero, .zero⟩

/-- Replace the arrays of one direction. -/
def Registers.setBank (r : Registers) (d : Direction) (b : Bank) : Registers :=
  { r with bank := fun e => if e = d then b else r.bank e }

/-! ## What the arrays hold at one index -/

/-- The seven values of one direction at one index. -/
structure Half where
  nbelem : BitVec 12
  sumSZE : BitVec 32
  dltSZE : BitVec 32
  lstMuSZE : BitVec 32
  flowTst : BitVec 48
  dltIAT : BitVec 48
  lstMuIAT : BitVec 48
  deriving DecidableEq

/-- The four debug values at one index. -/
structure Debug where
  write12Bits : BitVec 12
  write32Bits : BitVec 32
  write48Bits : BitVec 48
  write1Bit : BitVec 1
  deriving DecidableEq

/-- The values of every array at one index. -/
@[ext] structure Cell where
  flowTracker : BitVec 64
  flowFrstTime : BitVec 48
  half : Direction → Half
  debug : Debug

def Half.zero : Half := ⟨0, 0, 0, 0, 0, 0, 0⟩

def Cell.zero : Cell := ⟨0, 0, fun _ => Half.zero, ⟨0, 0, 0, 0⟩⟩

def Bank.half (b : Bank) (i : Fin 1024) : Half where
  nbelem := b.nbelem.read i
  sumSZE := b.sumSZE.read i
  dltSZE := b.dltSZE.read i
  lstMuSZE := b.lstMuSZE.read i
  flowTst := b.flowTst.read i
  dltIAT := b.dltIAT.read i
  lstMuIAT := b.lstMuIAT.read i

def Registers.cell (r : Registers) (i : Fin 1024) : Cell where
  flowTracker := r.flowTracker.read i
  flowFrstTime := r.flowFrstTime.read i
  half := fun d => (r.bank d).half i
  debug := ⟨r.write12Bits.read i, r.write32Bits.read i, r.write48Bits.read i,
    r.write1Bit.read i⟩

@[simp] theorem Registers.bank_setBank_self (r : Registers) (d : Direction) (b : Bank) :
    (r.setBank d b).bank d = b := by
  simp [setBank]

@[simp] theorem Registers.bank_setBank_flip (r : Registers) (d : Direction) (b : Bank) :
    (r.setBank d b).bank d.flip = r.bank d.flip := by
  simp [setBank]

end FlowClassifier
