import LinuxServer.Library.LinkedList

/-!
# The sorted timer list

The class `sort_timer_lst` of `LST_Timer.h`: a doubly linked list of timers in ascending order of
expiry, with a pointer to each end. Insertion scans for the first timer that expires later; `tick`
fires from the front and stops at the first timer that is not due. The list is only ever given a new
`tail` when it was empty, and `tick` leaves `tail` as it is, even when it empties the list.

`tick` reports the callbacks it runs. A null callback is a fault.
-/

namespace LinuxServer.SortedList

open Library

/-- The class `util_timer`. -/
structure UtilTimer where
  expire : Int
  cbFunc : Option Ptr
  userData : Option Ptr
  prev : Option Ptr
  next : Option Ptr
  deriving Repr, DecidableEq

instance : Linked UtilTimer where
  next := UtilTimer.next
  prev := UtilTimer.prev
  setNext n x := { n with next := x }
  setPrev n x := { n with prev := x }
  payload n := { n with next := none, prev := none }
  next_setNext _ _ := rfl
  prev_setNext _ _ := rfl
  next_setPrev _ _ := rfl
  prev_setPrev _ _ := rfl
  payload_setNext _ _ := rfl
  payload_setPrev _ _ := rfl

/-- The constructor `util_timer()` followed by the assignments its users make. -/
def UtilTimer.make (expire : Int) (cb ud : Option Ptr) : UtilTimer :=
  { expire := expire, cbFunc := cb, userData := ud, prev := none, next := none }

/-- The object, together with all `util_timer` cells of the program. -/
structure SortTimerLst where
  mem : Mem UtilTimer
  head : Option Ptr
  tail : Option Ptr

/-- One call `tmp->cb_func(tmp->user_data)`. -/
structure Call where
  timer : Ptr
  cbFunc : Ptr
  userData : Option Ptr
  deriving Repr, DecidableEq

namespace SortTimerLst

def make : SortTimerLst := { mem := Mem.empty, head := none, tail := none }

/-- The loop of `add_timer(timer, lst_head)`. The list only changes where the timer is put, so the
loop works on the memory alone. -/
def insertLoop (timer : Option Ptr) :
    Nat → Mem UtilTimer → Option Ptr → Option Ptr → Exec (Mem UtilTimer)
  | 0, _, _, _ => .error .diverges
  | fuel + 1, m, prev, tmp =>
    match tmp with
    | none => .ok m
    | some _ => do
        let t ← m.deref timer
        let u ← m.deref tmp
        if t.expire < u.expire then link m timer prev tmp
        else insertLoop timer fuel m tmp u.next

/-- `add_timer(timer, lst_head)`. -/
def addTimerFrom (w : SortTimerLst) (timer lstHead : Option Ptr) : Exec SortTimerLst := do
  let prev ← w.mem.deref lstHead
  let m ← insertLoop timer (w.mem.brk + 1) w.mem lstHead prev.next
  return { w with mem := m }

def addTimer (w : SortTimerLst) : Option Ptr → Exec SortTimerLst
  | none => .ok w
  | some p =>
    match w.head with
    | none => .ok { w with head := some p, tail := some p }
    | some _ => do
        let t ← w.mem.deref (some p)
        let u ← w.mem.deref w.head
        if t.expire < u.expire then
          let m ← w.mem.modify (some p) fun n => { n with next := w.head }
          let m ← m.modify w.head fun n => { n with prev := some p }
          return { w with mem := m, head := some p }
        else w.addTimerFrom (some p) w.head

/-- Taking the timer at `head` off the list: `head = head->next; head->prev = NULL`. -/
def dropHead (w : SortTimerLst) : Exec SortTimerLst := do
  let t ← w.mem.deref w.head
  let m ← w.mem.modify t.next fun n => { n with prev := none }
  return { w with mem := m, head := t.next }

def adjustTimer (w : SortTimerLst) : Option Ptr → Exec SortTimerLst
  | none => .ok w
  | some p => do
      let t ← w.mem.deref (some p)
      match t.next with
      | none => return w
      | some q => do
          let u ← w.mem.deref (some q)
          if t.expire < u.expire then return w
          else if w.head = some p then
            let w ← w.dropHead
            let m ← w.mem.modify (some p) fun n => { n with next := none }
            addTimerFrom { w with mem := m } (some p) w.head
          else
            let m ← unlinkInner w.mem (some p)
            let t ← m.deref (some p)
            addTimerFrom { w with mem := m } (some p) t.next

def delTimer (w : SortTimerLst) : Option Ptr → Exec SortTimerLst
  | none => .ok w
  | some p =>
    if w.head = some p ∧ w.tail = some p then do
      let m ← w.mem.delete (some p)
      return { mem := m, head := none, tail := none }
    else if w.head = some p then do
      let w ← w.dropHead
      let m ← w.mem.delete (some p)
      return { w with mem := m }
    else if w.tail = some p then do
      let t ← w.mem.deref w.tail
      let m ← w.mem.modify t.prev fun n => { n with next := none }
      let m ← m.delete (some p)
      return { w with mem := m, tail := t.prev }
    else do
      let m ← unlinkInner w.mem (some p)
      let m ← m.delete (some p)
      return { w with mem := m }

/-- The call of a timer. -/
def invoke (p : Ptr) (t : UtilTimer) : Exec Call :=
  match t.cbFunc with
  | none => .error .nullDeref
  | some cb => .ok { timer := p, cbFunc := cb, userData := t.userData }

/-- The loop of `tick`, at clock value `cur`. -/
def tickLoop (cur : Int) : Nat → SortTimerLst → Option Ptr → Exec (SortTimerLst × List Call)
  | 0, _, _ => .error .diverges
  | fuel + 1, w, tmp =>
    match tmp with
    | none => .ok (w, [])
    | some p => do
        let t ← w.mem.deref (some p)
        if cur < t.expire then return (w, [])
        else
          let call ← invoke p t
          let m ← clearPrev w.mem t.next
          let m ← m.delete (some p)
          let (w, calls) ← tickLoop cur fuel { w with mem := m, head := t.next } t.next
          return (w, call :: calls)

def tick (w : SortTimerLst) (cur : Int) : Exec (SortTimerLst × List Call) :=
  match w.head with
  | none => .ok (w, [])
  | some _ => tickLoop cur (w.mem.brk + 1) w w.head

end SortTimerLst
end LinuxServer.SortedList
