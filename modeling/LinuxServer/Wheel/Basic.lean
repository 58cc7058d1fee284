import LinuxServer.Library.LinkedList

/-!
# The timing wheel

The class `time_wheel` of `TimeWheel.h`: sixty slots, each the head of an unsorted doubly linked list
of timers, and a hand `curSlot` that every `tick` advances by one slot. A timer stores in which slot
it hangs and how many full turns it still has to wait.

The object and the timers it owns are one value `TimeWheel`; its `mem` holds exactly the `tw_timer`
cells that `addTimer` made and nobody has deleted yet. A callback is not run inside the model: `tick`
reports the calls it makes, in order, and the caller applies them. This is the reading under which a
callback does not modify the wheel.
-/

namespace LinuxServer.Wheel

open Library

/-- The class `tw_timer`. `cbFunc` and `userData` are null until the caller of `addTimer` fills them
in; the constructor leaves them unset. -/
structure TwTimer where
  rotation : Nat
  timeSlot : Nat
  cbFunc : Option Ptr
  userData : Option Ptr
  next : Option Ptr
  prev : Option Ptr
  deriving Repr, DecidableEq

instance : Linked TwTimer where
  next := TwTimer.next
  prev := TwTimer.prev
  setNext n x := { n with next := x }
  setPrev n x := { n with prev := x }
  payload n := { n with next := none, prev := none }
  next_setNext _ _ := rfl
  prev_setNext _ _ := rfl
  next_setPrev _ _ := rfl
  prev_setPrev _ _ := rfl
  payload_setNext _ _ := rfl
  payload_setPrev _ _ := rfl

/-- The constructor `tw_timer(rot, ts)`. -/
def TwTimer.make (rot ts : Nat) : TwTimer :=
  { rotation := rot, timeSlot := ts, cbFunc := none, userData := none, next := none, prev := none }

/-- The number of slots. -/
def N : Nat := 60

/-- Seconds per slot. -/
def SI : Nat := 1

structure TimeWheel where
  mem : Mem TwTimer
  slots : Nat → Option Ptr
  curSlot : Nat

/-- One call `timer->cb_func(timer->user_data)`. -/
structure Call where
  timer : Ptr
  cbFunc : Ptr
  userData : Option Ptr
  deriving Repr, DecidableEq

namespace TimeWheel

/-- The constructor `time_wheel()`. -/
def make : TimeWheel := { mem := Mem.empty, slots := fun _ => none, curSlot := 0 }

/-- Reading `slots[i]`. -/
def getSlot (w : TimeWheel) (i : Nat) : Exec (Option Ptr) :=
  if i < N then .ok (w.slots i) else .error .outOfBounds

/-- Writing `slots[i]`. -/
def setSlot (w : TimeWheel) (i : Nat) (p : Option Ptr) : Exec TimeWheel :=
  if i < N then .ok { w with slots := Function.update w.slots i p } else .error .outOfBounds

/-- How many slots ahead of the hand a timeout lies: at least one. -/
def ticksOf (timeout : Int) : Nat :=
  if timeout < SI then 1 else (timeout / SI).toNat

/-- `add_timer(timeout)`, with `new` handing out the address `a`. -/
def addTimer (w : TimeWheel) (timeout : Int) (a : Ptr) : Exec (TimeWheel × Option Ptr) :=
  if timeout < 0 then .ok (w, none)
  else do
    let ticks := ticksOf timeout
    let rotation := ticks / N
    let ts := (w.curSlot + ticks % N) % N
    let w := { w with mem := w.mem.new a (TwTimer.make rotation ts) }
    match ← w.getSlot ts with
    | none =>
        let w ← w.setSlot ts (some a)
        return (w, some a)
    | some head =>
        let mem ← w.mem.modify (some a) (fun n => { n with next := some head })
        let mem ← mem.modify (some head) (fun n => { n with prev := some a })
        let w ← { w with mem := mem }.setSlot ts (some a)
        return (w, some a)

/-- What every caller does with a new timer: `timer->user_data = …; timer->cb_func = …`, if there
is a timer. -/
def arm (w : TimeWheel) (timeout : Int) (a cb : Ptr) (ud : Option Ptr) :
    Exec (TimeWheel × Option Ptr) := do
  let (w, timer) ← w.addTimer timeout a
  match timer with
  | none => return (w, none)
  | some _ =>
      let mem ← w.mem.modify timer (fun n => { n with userData := ud })
      let mem ← mem.modify timer (fun n => { n with cbFunc := some cb })
      return ({ w with mem := mem }, timer)

/-- `del_timer(timer)`. -/
def delTimer (w : TimeWheel) (timer : Option Ptr) : Exec TimeWheel :=
  match timer with
  | none => .ok w
  | some _ => do
      let t ← w.mem.deref timer
      let ts := t.timeSlot
      let head ← w.getSlot ts
      if timer = head then
        let t ← w.mem.deref head
        let w ← w.setSlot ts t.next
        let mem ← clearPrev w.mem t.next
        let mem ← mem.delete timer
        return { w with mem := mem }
      else
        let mem ← unlink w.mem timer
        let mem ← mem.delete timer
        return { w with mem := mem }

/-- Calling through `cb_func`; a timer nobody armed has no function to call. -/
def invoke (p : Ptr) (t : TwTimer) : Exec Call :=
  match t.cbFunc with
  | none => .error .nullDeref
  | some cb => .ok { timer := p, cbFunc := cb, userData := t.userData }

/-- The `while (tmp)` loop of `tick`. -/
def tickLoop : Nat → TimeWheel → Option Ptr → Exec (TimeWheel × List Call)
  | 0, _, _ => .error .diverges
  | _ + 1, w, none => .ok (w, [])
  | fuel + 1, w, some p => do
      let t ← w.mem.deref (some p)
      if t.rotation > 0 then
        let mem ← w.mem.modify (some p) (fun n => { n with rotation := n.rotation - 1 })
        let t ← mem.deref (some p)
        tickLoop fuel { w with mem := mem } t.next
      else
        let call ← invoke p t
        let head ← w.getSlot w.curSlot
        if some p = head then
          -- delete header in cur_slot
          let w ← w.setSlot w.curSlot t.next
          let mem ← w.mem.delete (some p)
          let mem ← clearPrev mem t.next
          let (w, calls) ← tickLoop fuel { w with mem := mem } t.next
          return (w, call :: calls)
        else
          let mem ← unlink w.mem (some p)
          let t ← mem.deref (some p)
          let mem ← mem.delete (some p)
          let (w, calls) ← tickLoop fuel { w with mem := mem } t.next
          return (w, call :: calls)

/-- `tick()`. The loop visits each cell of the slot at most once, so `brk` rounds suffice. -/
def tick (w : TimeWheel) : Exec (TimeWheel × List Call) := do
  let tmp ← w.getSlot w.curSlot
  let (w, calls) ← tickLoop (w.mem.brk + 1) w tmp
  return ({ w with curSlot := (w.curSlot + 1) % N }, calls)

end TimeWheel
end LinuxServer.Wheel
