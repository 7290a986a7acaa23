import Polled.Kind
import Polled.Ordered

/-!
The value slots of one activation.

Registers that turn out to hold the same value are joined into a group. A register is live while the
activation still owns its value on the current path.
-/

namespace Polled

abbrev Register := Nat

structure Cell where
  kind : Kind
  /-- The smallest register of its group. -/
  root : Register
  live : Bool
  deriving DecidableEq, Repr

structure Registers where
  cells : List Cell
  deriving DecidableEq, Repr

namespace Registers

def empty : Registers := ⟨[]⟩

def size (f : Registers) : Nat := f.cells.length

def isAllocated (f : Registers) (r : Register) : Bool := decide (r < f.size)

def kinds (f : Registers) : List Kind := f.cells.map (·.kind)

def slots (f : Registers) : List Register := f.cells.map (·.root)

def liveness (f : Registers) : List Bool := f.cells.map (·.live)

def kind (f : Registers) (r : Register) : Kind := (f.cells[r]?.map (·.kind)).getD (.owned .integer)

def isLive (f : Registers) (r : Register) : Bool := (f.cells[r]?.map (·.live)).getD false

/-- The register that stands for the group of `r`. -/
def resolve (f : Registers) (r : Register) : Register := (f.cells[r]?.map (·.root)).getD r

def isJoined (f : Registers) (a b : Register) : Bool := f.resolve a == f.resolve b

/-- A new register is live and alone in its group. -/
def alloc (f : Registers) (kind : Kind) : Register × Registers :=
  (f.size, ⟨f.cells ++ [⟨kind, f.size, true⟩]⟩)

/-- Makes one group of two; the answer stands for it. -/
def join (f : Registers) (a b : Register) : Register × Registers :=
  let low := min (f.resolve a) (f.resolve b)
  let high := max (f.resolve a) (f.resolve b)
  (low, ⟨f.cells.map fun c => if c.root = high then { c with root := low } else c⟩)

def release (f : Registers) (r : Register) : Registers :=
  let root := f.resolve r
  ⟨f.cells.map fun c => if c.root = root then { c with live := false } else c⟩

/-- Reinstates liveness as it was; registers that are younger than the flags are not owned. -/
def withLive (f : Registers) (flags : List Bool) : Registers :=
  ⟨f.cells.mapIdx fun i c => { c with live := flags.getD i false }⟩

def releaseFlags (f : Registers) (r : Register) (flags : List Bool) : List Bool :=
  flags.mapIdx fun i live => live && !f.isJoined i r

/-- The groups of live owned values on the heap, except those in `keep`. -/
def unreachable (f : Registers) (keep : List Register) : List Register :=
  let owned := f.cells.filter fun c => c.live && c.kind.ownsHeap
  orderedSet ((owned.map (·.root)).filter fun root => !keep.contains root)

@[simp] theorem size_alloc (f : Registers) (k : Kind) : (f.alloc k).2.size = f.size + 1 := by
  simp [alloc,size]

@[simp] theorem size_join (f : Registers) (a b : Register) : (f.join a b).2.size = f.size := by
  simp [join,size]

@[simp] theorem size_release (f : Registers) (r : Register) : (f.release r).size = f.size := by
  simp [release,size]

@[simp] theorem size_withLive (f : Registers) (flags : List Bool) :
    (f.withLive flags).size = f.size := by
  simp [withLive,size]

end Registers

end Polled
