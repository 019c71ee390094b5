import PocketCalculator.Number.Written

/-! # Registers

The two numbers that a calculator keeps besides the expression: the last result, which is there only
after something has been computed, and the memory, to which results are added. -/

namespace PocketCalculator

/-- The last result and the memory. -/
structure Registers where
  ans : Option Float
  memory : Float
  deriving DecidableEq

namespace Registers

/-- No last result, and nothing in the memory. -/
def empty : Registers :=
  ⟨none, 0⟩

/-- A new last result. -/
def store (r : Registers) (x : Float) : Registers :=
  { r with ans := some x }

/-- No last result any more. -/
def clearAns (r : Registers) : Registers :=
  { r with ans := none }

/-- A value added to the memory. -/
def add (r : Registers) (x : Float) : Registers :=
  { r with memory := r.memory + x }

/-- A value taken off the memory. -/
def subtract (r : Registers) (x : Float) : Registers :=
  { r with memory := r.memory - x }

/-- Nothing in the memory. -/
def clearMemory (r : Registers) : Registers :=
  { r with memory := 0 }

/-- Whether the memory holds anything but zero. -/
def inUse (r : Registers) : Bool :=
  r.memory != 0

/-- The recorded form of the last result. -/
def recordAns (r : Registers) : Text :=
  "AnsRegister(".toList ++ ((r.ans.map recordText).getD "None".toList) ++ [')']

/-- The recorded form of the memory. -/
def recordMemory (r : Registers) : Text :=
  "MemoryRegister(".toList ++ recordText r.memory ++ [')']

end Registers
end PocketCalculator
