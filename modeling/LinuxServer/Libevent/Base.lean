import LinuxServer.Libevent.Active
import LinuxServer.Libevent.Evmap
import LinuxServer.Libevent.Timers

/-!
# The event base

`event.c`: events are added, deleted and activated, and time passes. An event may wait for its descriptor,
for a timeout, or for its callback to be run, in any combination; `ev_flags` has a bit for each of these.
`event_count` counts the bits of all events that are not internal, and the loop ends when it is 0.

Each list of common timeouts has an event of its own, which is internal, and in the heap as long as there
is something in the list. Its callback is `common_timeout_callback`.

The backend is a parameter, as for the event map. Events for signals and finalizers are not part of this
model, and nothing fails for want of memory.
-/

namespace LinuxServer.Libevent

open Library

/-- What does not change in a `struct event`: `EV_PERSIST`, its priority, and `EVLIST_INTERNAL`. -/
structure EventInfo extends IoEvent where
  persist : Bool
  pri : Nat
  internal : Bool
  deriving Repr, DecidableEq

/-- The event of a list of common timeouts, as `event_base_init_common_timeout` makes it. -/
def EventInfo.timeoutEvent : EventInfo :=
  { fd := -1, events := ⟨false, false, false, false⟩, persist := false, pri := 0, internal := true }

/-- The events of a program, which are the numbers below `size`, and the number of priorities and of lists
of common timeouts it has asked for. All events that the library makes for itself have the priority 0.
`noCacheTime` is `EVENT_BASE_FLAG_NO_CACHE_TIME`. -/
structure Setup where
  size : Nat
  info : Nat → EventInfo
  nactivequeues : Nat
  nCommon : Nat
  noCacheTime : Bool
  timeoutEvent : Nat → Nat
  pri_lt : ∀ ev, (info ev).pri < nactivequeues
  internal_pri : ∀ ev, (info ev).internal = true → (info ev).pri = 0
  timeoutEvent_lt : ∀ q, q < nCommon → timeoutEvent q < size
  timeoutEvent_info : ∀ q, q < nCommon → info (timeoutEvent q) = EventInfo.timeoutEvent
  timeoutEvent_inj : ∀ q, q < nCommon → ∀ q', q' < nCommon → timeoutEvent q = timeoutEvent q' → q = q'

namespace Setup

def evs (S : Setup) (ev : Nat) : IoEvent := (S.info ev).toIoEvent

def pri (S : Setup) (ev : Nat) : Nat := (S.info ev).pri

/-- `!(flags & EVLIST_INTERNAL)` -/
def weight (S : Setup) (ev : Nat) : Int := if (S.info ev).internal then 0 else 1

end Setup

/-- `ev_res`: `EV_TIMEOUT` and the other bits. -/
structure Res where
  timeout : Bool
  events : Events
  deriving Repr, DecidableEq

def Res.or (a b : Res) : Res :=
  { timeout := a.timeout || b.timeout
    events := { read := a.events.read || b.events.read, write := a.events.write || b.events.write
                closed := a.events.closed || b.events.closed, et := a.events.et || b.events.et } }

/-- `EV_TIMEOUT` -/
def evTimeout : Res := { timeout := true, events := ⟨false, false, false, false⟩ }

/-- `struct event_base`, with the fields of all events that change. -/
structure EventBase (σ : Type) where
  io : IoBase σ
  /-- `EVLIST_INSERTED` -/
  inserted : Nat → Bool
  timers : Timers
  actives : Actives
  eventCount : Int
  /-- `ev_res` -/
  res : Nat → Res
  /-- `ev_io_timeout` -/
  ioTimeout : Nat → Timeval
  /-- `event_running_priority`; `none` is -1 -/
  runningPriority : Option Nat
  eventContinue : Bool
  /-- `current_event` -/
  current : Option Nat

namespace EventBase
variable {σ : Type} (B : EventOp σ) (debug : Bool) (S : Setup)

/-! ## Queues -/

def removeTimeout (base : EventBase σ) (ev : Nat) : Exec (EventBase σ) := do
  let timers ← base.timers.remove S.nCommon ev
  return { base with timers := timers, eventCount := base.eventCount - S.weight ev }

def insertTimeout (base : EventBase σ) (ev : Nat) : Exec (EventBase σ) := do
  let timers ← base.timers.insert S.nCommon ev
  return { base with timers := timers, eventCount := base.eventCount + S.weight ev }

def removeActive (base : EventBase σ) (ev : Nat) : EventBase σ :=
  { base with actives := base.actives.remove S.pri ev, eventCount := base.eventCount - S.weight ev }

def insertActive (base : EventBase σ) (ev : Nat) : EventBase σ :=
  if base.actives.active ev then base
  else { base with actives := base.actives.insert S.pri ev, eventCount := base.eventCount + S.weight ev }

def removeActiveLater (base : EventBase σ) (ev : Nat) : EventBase σ :=
  { base with actives := base.actives.removeLater ev, eventCount := base.eventCount - S.weight ev }

def insertActiveLater (base : EventBase σ) (ev : Nat) : EventBase σ :=
  if base.actives.active ev || base.actives.later ev then base
  else { base with actives := base.actives.insertLater ev, eventCount := base.eventCount + S.weight ev }

/-- `ev->ev_res = res` -/
def setRes (base : EventBase σ) (ev : Nat) (res : Res) : EventBase σ :=
  { base with res := Function.update base.res ev res }

/-- `if (ev->ev_flags & EVLIST_TIMEOUT) event_queue_remove_timeout(base, ev);` -/
def dropTimeout (base : EventBase σ) (ev : Nat) : Exec (EventBase σ) :=
  if base.timers.pending ev then base.removeTimeout S ev else .ok base

/-! ## Adding and deleting -/

/-- The part of `event_add_nolock_` that is about the descriptor, with `res`. -/
def addIo (base : EventBase σ) (ev : Nat) : EventBase σ × Int :=
  if (S.info ev).events.any &&
      !(base.inserted ev || base.actives.active ev || base.actives.later ev) then
    let (io, res) := evmapIoAdd B S.evs debug base.io ev
    if res ≠ -1 then
      ({ base with io := io, inserted := Function.update base.inserted ev true
                   eventCount := base.eventCount + S.weight ev }, 0)
    else ({ base with io := io }, -1)
  else (base, 0)

/-- There is space in the heap for one more. -/
def reserve (base : EventBase σ) : EventBase σ :=
  { base with timers := { base.timers with
      timeheap := base.timers.timeheap.reserve (1 + base.timers.timeheap.n) } }

/-- The part of `event_add_nolock_` that is about the timeout. -/
def addTimer (now : Int) (base : EventBase σ) (ev : Nat) (tv : Timeval) (isAbsolute : Bool) :
    Exec (EventBase σ) := do
  let base := if (S.info ev).persist && !isAbsolute
    then { base with ioTimeout := Function.update base.ioTimeout ev tv } else base
  let base ← base.dropTimeout S ev
  let base := if base.actives.active ev && (base.res ev).timeout then base.removeActive S ev else base
  let timeout := if isAbsolute then tv else { tv with usecs := now + tv.usecs }
  let base := { base with timers := base.timers.setTimeout ev timeout }
  base.insertTimeout S ev

/-- `event_add_nolock_`, where `schedule` is `common_timeout_schedule`; it is called for the first event
of a list. -/
def eventAddWith (schedule : EventBase σ → Nat → Nat → Exec (EventBase σ)) (now : Int)
    (base : EventBase σ) (ev : Nat) (tv : Option Timeval) (isAbsolute : Bool) :
    Exec (EventBase σ × Int) :=
  let base := if tv.isSome && !base.timers.pending ev then base.reserve else base
  let (base, res) := base.addIo B debug S ev
  match tv with
  | none => .ok (base, res)
  | some tv =>
      if res ≠ -1 then do
        let base ← base.addTimer S now ev tv isAbsolute
        match Timers.isCommon S.nCommon tv with
        | none => return (base, res)
        | some q =>
            if (base.timers.common q).head? = some ev then
              let base ← schedule base q ev
              return (base, res)
            else return (base, res)
      else .ok (base, res)

/-- `common_timeout_schedule`. The timeout of the event of a list is not a common one, so `event_add` is
not called again from here. -/
def commonTimeoutSchedule (base : EventBase σ) (q head : Nat) : Exec (EventBase σ) := do
  let tv : Timeval := { usecs := (base.timers.timeout head).usecs, common := none }
  let (base, _) ← base.eventAddWith B debug S (fun _ _ _ => .error .diverges) 0 (S.timeoutEvent q)
    (some tv) true
  return base

/-- `event_add_nolock_`, at clock value `now`. -/
def eventAdd (now : Int) (base : EventBase σ) (ev : Nat) (tv : Option Timeval) (isAbsolute : Bool) :
    Exec (EventBase σ × Int) :=
  base.eventAddWith B debug S (commonTimeoutSchedule B debug S) now ev tv isAbsolute

/-- The part of `event_del_nolock_` that is about the descriptor. -/
def delIo (base : EventBase σ) (ev : Nat) : EventBase σ × Int :=
  if base.inserted ev then
    let base := { base with inserted := Function.update base.inserted ev false
                            eventCount := base.eventCount - S.weight ev }
    let (io, res) := evmapIoDel B S.evs base.io ev
    ({ base with io := io }, if res = 1 then 0 else res)
  else (base, 0)

/-- `event_del_nolock_`. -/
def eventDel (base : EventBase σ) (ev : Nat) : Exec (EventBase σ × Int) := do
  let base ← base.dropTimeout S ev
  let base := if base.actives.active ev then base.removeActive S ev
    else if base.actives.later ev then base.removeActiveLater S ev
    else base
  return base.delIo B S ev

/-- `event_remove_timer_nolock_`. -/
def eventRemoveTimer (base : EventBase σ) (ev : Nat) : Exec (EventBase σ) :=
  if base.timers.pending ev then do
    let base ← base.removeTimeout S ev
    return { base with ioTimeout := Function.update base.ioTimeout ev ⟨0, none⟩ }
  else .ok base

/-! ## Activating -/

/-- `if (ev->ev_pri < base->event_running_priority) base->event_continue = 1;` -/
def askContinue (base : EventBase σ) (ev : Nat) : EventBase σ :=
  match base.runningPriority with
  | none => base
  | some i => if S.pri ev < i then { base with eventContinue := true } else base

/-- `event_active_nolock_`, with `event_callback_activate_nolock_`. -/
def eventActive (base : EventBase σ) (ev : Nat) (res : Res) : EventBase σ :=
  if base.actives.active ev then base.setRes ev ((base.res ev).or res)
  else
    let later := base.actives.later ev
    let base := base.setRes ev (if later then (base.res ev).or res else res)
    let base := base.askContinue S ev
    let base := if later then base.removeActiveLater S ev else base
    base.insertActive S ev

/-- `event_active_later_nolock_`. -/
def eventActiveLater (base : EventBase σ) (ev : Nat) (res : Res) : EventBase σ :=
  if base.actives.active ev || base.actives.later ev then base.setRes ev ((base.res ev).or res)
  else (base.setRes ev res).insertActiveLater S ev

/-- What a backend does when it reports that `fd` is ready. -/
def ioActive (base : EventBase σ) (fd : Fd) (events : Events) : EventBase σ :=
  (evmapIoActive S.evs base.io fd events).foldl
    (fun base x => base.eventActive S x.1 { timeout := false, events := x.2 }) base

/-- `event_queue_make_later_events_active`. -/
def makeLaterActive (base : EventBase σ) : EventBase σ :=
  { base with actives := base.actives.makeLaterActive S.pri }

/-! ## Time -/

/-- `timeout_next`: how long to wait, and for ever if it is `none`. -/
def timeoutNext (base : EventBase σ) (now : Int) : Exec (Option Int) := do
  let ev ← base.timers.timeheap.top
  match ev with
  | none => return none
  | some ev =>
      let timeout := base.timers.key ev
      if timeout ≤ now then return some 0 else return some (timeout - now)

/-- The loop of `timeout_process`. -/
def timeoutLoop (now : Int) : Nat → EventBase σ → Exec (EventBase σ)
  | 0, _ => .error .diverges
  | fuel + 1, base => do
      let ev ← base.timers.timeheap.top
      match ev with
      | none => return base
      | some ev =>
          if base.timers.key ev > now then return base
          else
            let (base, _) ← base.eventDel B S ev
            timeoutLoop now fuel (base.eventActive S ev evTimeout)

def timeoutProcess (base : EventBase σ) (now : Int) : Exec (EventBase σ) :=
  timeoutLoop B S now (base.timers.timeheap.n + 1) base

/-- The loop of `common_timeout_callback`. -/
def commonTimeoutLoop (now : Int) (q : Nat) : Nat → EventBase σ → Exec (EventBase σ)
  | 0, _ => .error .diverges
  | fuel + 1, base =>
      match base.timers.common q with
      | [] => .ok base
      | ev :: _ =>
          if base.timers.key ev > now then .ok base
          else do
            let (base, _) ← base.eventDel B S ev
            commonTimeoutLoop now q fuel (base.eventActive S ev evTimeout)

/-- `common_timeout_callback`. -/
def commonTimeoutCallback (base : EventBase σ) (now : Int) (q : Nat) : Exec (EventBase σ) := do
  let base ← commonTimeoutLoop B S now q ((base.timers.common q).length + 1) base
  match base.timers.common q with
  | [] => return base
  | ev :: _ => commonTimeoutSchedule B debug S base q ev

/-! ## Callbacks -/

/-- `event_persist_closure`, up to the call. -/
def persistClosure (now : Int) (base : EventBase σ) (ev : Nat) : Exec (EventBase σ) :=
  let delay := base.ioTimeout ev
  if delay.usecs ≠ 0 ∨ delay.common ≠ none then do
    let common := if (Timers.isCommon S.nCommon (base.timers.timeout ev)).isSome
      then delay.common else none
    let relativeTo := if (base.res ev).timeout then base.timers.key ev else now
    let runAt := relativeTo + delay.usecs
    let runAt := if runAt < now then now + delay.usecs else runAt
    let (base, _) ← base.eventAdd B debug S now ev (some { usecs := runAt, common := common }) true
    return base
  else .ok base

/-- One round of `event_process_active_single_queue`, up to the call of the callback. -/
def processNext (now : Int) (base : EventBase σ) (ev : Nat) : Exec (EventBase σ) :=
  if (S.info ev).persist then
    let base := base.removeActive S ev
    persistClosure B debug S now { base with current := some ev } ev
  else do
    let (base, _) ← base.eventDel B S ev
    return { base with current := some ev }

end EventBase
end LinuxServer.Libevent
