import LinuxServer.Library.Memory

/-!
# The time heap

The class `time_heap` of `TimeHeap.h`: a binary min-heap of timer pointers, ordered by expiry, in an
array that doubles when it is full. Both percolation loops move a hole and put the saved timer back
at the end. `del_timer` only clears the callback; the timer stays in the heap until it comes to the
top. `pop_timer` leaves the pointer it moved in its old slot, past `cur_size`.

As for the wheel, `tick` reports the callbacks it runs instead of running them, and it also reports
the timers it deletes. `capacity` does not overflow here.
-/

namespace LinuxServer.Heap

open Library

/-- The class `heap_timer`. -/
structure HeapTimer where
  expire : Int
  cbFunc : Option Ptr
  userData : Option Ptr
  deriving Repr, DecidableEq

/-- The constructor `heap_timer(delay)`, which reads the clock. It leaves the other fields unset. -/
def HeapTimer.make (now delay : Int) : HeapTimer :=
  { expire := now + delay, cbFunc := none, userData := none }

/-- The object, together with all `heap_timer` cells of the program. -/
structure TimeHeap where
  mem : Mem HeapTimer
  array : Block (Option Ptr)
  capacity : Nat
  curSize : Nat

/-- One call `array[0]->cb_func(array[0]->user_data)`. -/
structure Call where
  timer : Ptr
  cbFunc : Ptr
  userData : Option Ptr
  deriving Repr, DecidableEq

/-- What a tick did: its callbacks, and the timers it deleted, in order. -/
structure Report where
  calls : List Call
  freed : List Ptr
  deriving Repr, DecidableEq

namespace TimeHeap

/-- The constructor `time_heap(cap)`. -/
def make (cap : Nat) : TimeHeap :=
  { mem := Mem.empty, array := Block.fill cap none, capacity := cap, curSize := 0 }

def empty (h : TimeHeap) : Bool := h.curSize == 0

/-- `array[i]->expire`. -/
def expireAt (h : TimeHeap) (i : Nat) : Exec Int := do
  let timer ← h.array.read i
  let t ← h.mem.deref timer
  return t.expire

/-- Which child the loop of `percolateDown` looks at: `child < cur_size - 1` says that there is a
right one. -/
def pickChild (h : TimeHeap) (hole : Nat) : Exec Nat := do
  let child := hole * 2 + 1
  if child + 1 < h.curSize then
    let right ← h.expireAt (child + 1)
    let left ← h.expireAt child
    if right < left then return child + 1 else return child
  else return child

/-- The loop of `percolateDown`, with `temp` taken out: the array it leaves, and the final hole. The
fuel bounds the number of rounds. -/
def percolateDownLoop (temp : Option Ptr) : Nat → TimeHeap → Nat → Exec (TimeHeap × Nat)
  | 0, _, _ => .error .diverges
  | fuel + 1, h, hole =>
    if hole * 2 + 1 < h.curSize then do
      let child ← h.pickChild hole
      let e ← h.expireAt child
      let t ← h.mem.deref temp
      if e < t.expire then
        let timer ← h.array.read child
        let array ← h.array.write hole timer
        percolateDownLoop temp fuel { h with array := array } child
      else return (h, hole)
    else return (h, hole)

def percolateDown (h : TimeHeap) (hole : Nat) : Exec TimeHeap := do
  let temp ← h.array.read hole
  let (h, hole) ← percolateDownLoop temp (h.curSize + 1) h hole
  let array ← h.array.write hole temp
  return { h with array := array }

/-- The copying loop of `resize`: `temp[i] = array[i]` for the given indices. The constructor from an
array has it too. -/
def copyLoop (array : Block (Option Ptr)) :
    List Nat → Block (Option Ptr) → Exec (Block (Option Ptr))
  | [], temp => .ok temp
  | i :: is, temp => do
      let timer ← array.read i
      let temp ← temp.write i timer
      copyLoop array is temp

def resize (h : TimeHeap) : Exec TimeHeap := do
  let temp ← copyLoop h.array (List.range h.curSize) (Block.fill (2 * h.capacity) none)
  return { h with array := temp, capacity := 2 * h.capacity }

/-- The loop of `addTimer`: the array it leaves, and the hole where the timer belongs. -/
def percolateUpLoop (timer : Ptr) : Nat → TimeHeap → Nat → Exec (TimeHeap × Nat)
  | 0, _, _ => .error .diverges
  | fuel + 1, h, hole =>
    if 0 < hole then do
      let parent := (hole - 1) / 2
      let e ← h.expireAt parent
      let t ← h.mem.deref (some timer)
      if e ≤ t.expire then return (h, hole)
      else
        let above ← h.array.read parent
        let array ← h.array.write hole above
        percolateUpLoop timer fuel { h with array := array } parent
    else return (h, hole)

/-- `if (cur_size >= capacity) resize();` -/
def grow (h : TimeHeap) : Exec TimeHeap :=
  if h.curSize ≥ h.capacity then h.resize else .ok h

def addTimer (h : TimeHeap) : Option Ptr → Exec TimeHeap
  | none => .ok h
  | some timer => do
      let h ← h.grow
      let hole := h.curSize
      let h := { h with curSize := h.curSize + 1 }
      let (h, hole) ← percolateUpLoop timer (hole + 1) h hole
      let array ← h.array.write hole (some timer)
      return { h with array := array }

/-- `del_timer` cancels: the timer keeps its place. -/
def delTimer (h : TimeHeap) : Option Ptr → Exec TimeHeap
  | none => .ok h
  | some timer => do
      let mem ← h.mem.modify (some timer) fun t => { t with cbFunc := none }
      return { h with mem := mem }

def top (h : TimeHeap) : Exec (Option Ptr) :=
  if h.empty then .ok none else h.array.read 0

/-- `pop_timer`, with the timer it deletes, if any. -/
def popTimer (h : TimeHeap) : Exec (TimeHeap × List Ptr) :=
  if h.empty then .ok (h, [])
  else do
    let first ← h.array.read 0
    match first with
    | none => return (h, [])
    | some timer =>
        let mem ← h.mem.delete (some timer)
        let last ← h.array.read (h.curSize - 1)
        let array ← h.array.write 0 last
        let h ← percolateDown { h with mem := mem, array := array, curSize := h.curSize - 1 } 0
        return (h, [timer])

/-- The calls `if (array[0]->cb_func) array[0]->cb_func(array[0]->user_data)` makes. -/
def fire (h : TimeHeap) : Exec (List Call) := do
  let first ← h.array.read 0
  match first with
  | none => .error .nullDeref
  | some timer =>
      let t ← h.mem.deref (some timer)
      match t.cbFunc with
      | none => return []
      | some cb => return [{ timer := timer, cbFunc := cb, userData := t.userData }]

/-- The loop of `tick`, at clock value `cur`. -/
def tickLoop (cur : Int) : Nat → TimeHeap → Option Ptr → Exec (TimeHeap × Report)
  | 0, _, _ => .error .diverges
  | fuel + 1, h, tmp =>
    if h.empty then .ok (h, { calls := [], freed := [] })
    else match tmp with
    | none => .ok (h, { calls := [], freed := [] })
    | some timer => do
        let t ← h.mem.deref (some timer)
        if t.expire > cur then return (h, { calls := [], freed := [] })
        else
          let calls ← h.fire
          let (h, freed) ← h.popTimer
          let tmp ← h.array.read 0
          let (h, rest) ← tickLoop cur fuel h tmp
          return (h, { calls := calls ++ rest.calls, freed := freed ++ rest.freed })

def tick (h : TimeHeap) (cur : Int) : Exec (TimeHeap × Report) := do
  let tmp ← h.array.read 0
  tickLoop cur (h.curSize + 1) h tmp

end TimeHeap
end LinuxServer.Heap
