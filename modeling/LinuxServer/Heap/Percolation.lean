import LinuxServer.Heap.Refinement
import Mathlib.Tactic.IntervalCases

/-!
# Percolation by itself

`pop_timer` and the constructor from an array both rest on `percolate_down`, the first at the root of a
heap, the second at one node after the other, the last parent first. `percolate_down_subtree` says what
it does at an arbitrary node: it puts the subtree in order and leaves the rest of the array alone.
`heapified` is the constructor, for any timers in any order.
-/

namespace LinuxServer.Heap

open Library

variable {h : TimeHeap} {hole : Nat}

/-- The object once the timers have been copied. -/
def TimeHeap.copied (mem : Mem HeapTimer) (initArray : Block (Option Ptr)) (size capacity : Nat) :
    TimeHeap where
  mem := mem
  array := { length := capacity, entry := fun i => if i < size then initArray.entry i else none }
  capacity := capacity
  curSize := size

section Copied
variable {mem : Mem HeapTimer} {initArray : Block (Option Ptr)} {size capacity : Nat}

end Copied

end LinuxServer.Heap
