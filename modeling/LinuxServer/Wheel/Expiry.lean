import LinuxServer.Wheel.Refinement
import LinuxServer.Library.Machine

/-!
# When a timer expires

The wheel under any sequence of additions, deletions and ticks. The log of a run (newest entry
first) says what happened; `pending` reads off it, without looking at the wheel, how many more ticks
each timer should sit through. The invariant `Tracks` compares that with the wheel: the number is
the distance of the timer's slot from the hand plus a full turn for each rotation left.

The result is `expires_exactly`: a timer set for `timeout` is called by the tick that is preceded by
exactly `max timeout 1` others since it was added, by no other tick, and by none at all once it was
deleted.

`lists_refined` is about the lists of the slots: which of them an operation changes, and how.
-/

namespace LinuxServer.Wheel

open Library

/-! ## Runs of the wheel -/

inductive Op where
  | add (timeout : Int) (a cb : Ptr) (ud : Option Ptr)
  | del (p : Ptr)
  | tick
  deriving Repr, DecidableEq

inductive Obs where
  | added (p : Ptr) (timeout : Int) (cb : Ptr) (ud : Option Ptr)
  | refused (timeout : Int)
  | deleted (p : Ptr)
  | ticked (calls : List Call)
  deriving Repr, DecidableEq

structure Session where
  wheel : TimeWheel
  log : List Obs

namespace Session

/-- `new` only hands out addresses that are not live, and only timers that are in the wheel (a live
cell of it) may be deleted. -/
def enabled (s : Session) : Op → Prop
  | .add _ a _ _ => s.wheel.mem.cells a = none
  | .del p => s.wheel.mem.cells p ≠ none
  | .tick => True

def step (s : Session) : Op → Exec Session
  | .add timeout a cb ud => do
      let (w, timer) ← s.wheel.arm timeout a cb ud
      match timer with
      | none => return { wheel := w, log := .refused timeout :: s.log }
      | some p => return { wheel := w, log := .added p timeout cb ud :: s.log }
  | .del p => do
      let w ← s.wheel.delTimer (some p)
      return { wheel := w, log := .deleted p :: s.log }
  | .tick => do
      let (w, calls) ← s.wheel.tick
      return { wheel := w, log := .ticked calls :: s.log }

def machine : Machine Session Op where
  init s := s = { wheel := TimeWheel.make, log := [] }
  enabled := enabled
  step := step

instance (s : Session) (o : Op) : Decidable (machine.enabled s o) :=
  match o with
  | .add _ a _ _ => inferInstanceAs (Decidable (s.wheel.mem.cells a = none))
  | .del p => inferInstanceAs (Decidable (s.wheel.mem.cells p ≠ none))
  | .tick => inferInstanceAs (Decidable True)

end Session

/-! ## What the log says about a timer -/

/-- A timer that has still to sit through `rounds` ticks before the one that calls it. -/
structure Pending where
  rounds : Nat
  cbFunc : Ptr
  userData : Option Ptr
  deriving Repr, DecidableEq

/-- One more tick: a timer with no rounds left is called and gone. -/
def Pending.pass (x : Pending) : Option Pending :=
  if x.rounds = 0 then none else some { x with rounds := x.rounds - 1 }

def pending : List Obs → Ptr → Option Pending
  | [], _ => none
  | .added q timeout cb ud :: log, p =>
      if q = p then some { rounds := (max timeout 1).toNat, cbFunc := cb, userData := ud }
      else pending log p
  | .refused _ :: log, p => pending log p
  | .deleted q :: log, p => if q = p then none else pending log p
  | .ticked _ :: log, p => (pending log p).bind Pending.pass

/-- The calls of timer `p` in a tick that follows `log`. -/
def expected (log : List Obs) (p : Ptr) : List Call :=
  match pending log p with
  | some x => if x.rounds = 0 then [{ timer := p, cbFunc := x.cbFunc, userData := x.userData }] else []
  | none => []

/-- How many ticks a stretch of the log contains. -/
def tickCount (log : List Obs) : Nat :=
  log.countP fun o => match o with
    | .ticked _ => true
    | _ => false

/-! ## What the wheel says about it -/

/-- Ticks an entry of slot `s` still sits through: the hand has to reach the slot, and to come round
again for each rotation. -/
def remaining (cur s : Nat) (e : Entry) : Nat := (s + N - cur) % N + N * e.rotation

theorem ticksOf_eq {timeout : Int} (ht : 0 ≤ timeout) :
    TimeWheel.ticksOf timeout = (max timeout 1).toNat := by
  unfold TimeWheel.ticksOf SI
  split <;> omega

theorem remaining_new {cur : Nat} (hc : cur < N) (ticks : Nat) {e : Entry}
    (he : e.rotation = ticks / N) : remaining cur ((cur + ticks % N) % N) e = ticks := by
  unfold remaining
  rw [he]
  simp only [N] at *
  omega

theorem remaining_eq_zero {cur s : Nat} {e : Entry} (hc : cur < N) (hs : s < N) :
    remaining cur s e = 0 ↔ s = cur ∧ e.rotation = 0 := by
  unfold remaining
  simp only [N] at *
  omega

/-- The hand moves on: entries of other slots come one tick closer. -/
theorem remaining_other {cur s : Nat} {e : Entry} (hc : cur < N) (hs : s < N) (hne : s ≠ cur) :
    remaining ((cur + 1) % N) s e = remaining cur s e - 1 := by
  unfold remaining
  simp only [N] at *
  omega

/-- Entries the hand has just passed are a full turn away, less the rotation they gave up. -/
theorem remaining_turn {cur : Nat} {e : Entry} (hc : cur < N) (hpos : 0 < e.rotation) :
    remaining ((cur + 1) % N) cur e.turn = remaining cur cur e - 1 := by
  unfold remaining Entry.turn
  simp only [N] at *
  omega

/-! ## The calls of one tick -/

variable {a : Dial} {p : Ptr} {e : Entry} {l : List Entry}

theorem Entry.call_timer {c : Call} (h : e.call = some c) : c.timer = e.timer := by
  obtain ⟨cb, -, rfl⟩ := Option.map_eq_some_iff.mp h
  rfl

theorem filter_calls_notMem (hp : p ∉ l.map Entry.timer) :
    ((due l).filterMap Entry.call).filter (·.timer = p) = [] := by
  rw [List.filter_eq_nil_iff]
  intro c hc
  obtain ⟨e, he, hce⟩ := List.mem_filterMap.mp hc
  rw [decide_eq_true_eq, Entry.call_timer hce]
  rintro rfl
  exact hp (List.mem_map_of_mem (List.mem_of_mem_filter he))

theorem filter_calls_mem (hnd : (l.map Entry.timer).Nodup) (he : e ∈ l) :
    ((due l).filterMap Entry.call).filter (·.timer = e.timer) =
      if e.rotation = 0 then e.call.toList else [] := by
  obtain ⟨l₁, l₂, rfl⟩ := List.append_of_mem he
  rw [List.map_append, List.map_cons, List.nodup_middle, List.nodup_cons, List.mem_append,
    not_or] at hnd
  have hsplit : due (l₁ ++ e :: l₂) = due l₁ ++ (due [e] ++ due l₂) := by
    simp [due, List.filter_cons]
    split <;> simp
  rw [hsplit, List.filterMap_append, List.filterMap_append, List.filter_append, List.filter_append,
    filter_calls_notMem hnd.1.1, filter_calls_notMem hnd.1.2, List.nil_append, List.append_nil]
  by_cases hrot : e.rotation = 0
  · cases hc : e.call with
    | none => simp [due, hrot, hc]
    | some c => simp [due, hrot, hc, Entry.call_timer hc]
  · simp [due, hrot]

/-! ## The invariant -/

structure Tracks (s : Session) (a : Dial) : Prop where
  refines : Refines s.wheel a
  armed : a.Armed
  entry : ∀ t < N, ∀ e ∈ a.slots t, ∃ x, pending s.log e.timer = some x ∧
    x.rounds = remaining a.curSlot t e ∧ e.cbFunc = some x.cbFunc ∧ e.userData = x.userData
  only : ∀ p x, pending s.log p = some x → ∃ t < N, p ∈ a.timers t
  history : ∀ later calls earlier, s.log = later ++ .ticked calls :: earlier →
    ∀ p, calls.filter (·.timer = p) = expected earlier p

variable {s : Session}

theorem Tracks.start : Tracks { wheel := TimeWheel.make, log := [] } Dial.empty where
  refines := Refines.empty
  armed := by
    intro t _ e he
    cases he
  entry := by
    intro t _ e he
    cases he
  only := by
    intro p x hx
    cases hx
  history := by
    intro later calls earlier h
    simp at h

/-- A new log entry that is not a tick adds nothing to check. -/
theorem Tracks.history_cons (ht : Tracks s a) {o : Obs} (ho : ∀ calls, o ≠ .ticked calls)
    {later : List Obs} {calls : List Call} {earlier : List Obs}
    (h : o :: s.log = later ++ .ticked calls :: earlier) (p : Ptr) :
    calls.filter (·.timer = p) = expected earlier p := by
  cases later with
  | nil => exact absurd (List.cons.inj h).1 (ho calls)
  | cons _ later => exact ht.history later calls earlier (List.cons.inj h).2 p

/-- A timer is pending exactly when its cell is live. -/
theorem Tracks.pending_iff_live (ht : Tracks s a) :
    pending s.log p ≠ none ↔ s.wheel.mem.cells p ≠ none := by
  constructor
  · intro h
    obtain ⟨x, hx⟩ := Option.ne_none_iff_exists'.mp h
    obtain ⟨t, htN, hp⟩ := ht.only p x hx
    exact ht.refines.mem_live htN hp
  · intro h
    obtain ⟨t, htN, hp⟩ := ht.refines.live p h
    obtain ⟨e, he, rfl⟩ := List.mem_map.mp hp
    obtain ⟨x, hx, -⟩ := ht.entry t htN e he
    simp [hx]

theorem Tracks.add (ht : Tracks s a) (hp : s.wheel.mem.cells p = none) {timeout : Int}
    (hpos : 0 ≤ timeout) (cb : Ptr) (ud : Option Ptr) :
    ∃ w', s.wheel.arm timeout p cb ud = .ok (w', some p) ∧
      Tracks { wheel := w', log := .added p timeout cb ud :: s.log }
        (a.add timeout p (some cb) ud) := by
  obtain ⟨w', hw', hr'⟩ := arm_refines ht.refines hp hpos cb ud
  have hcur := ht.refines.cur_lt
  -- an entry after the add is the new one, or an old one of another timer
  have hmem : ∀ t < N, ∀ e ∈ (a.add timeout p (some cb) ud).slots t,
      (t = a.target timeout ∧ e = Entry.made timeout p (some cb) ud) ∨
        (e ∈ a.slots t ∧ e.timer ≠ p) := by
    intro t htN e he
    have hold : e ∈ a.slots t → e.timer ≠ p := by
      rintro hin rfl
      exact ht.refines.fresh hp htN (List.mem_map_of_mem hin)
    unfold Dial.add at he
    by_cases hts : t = a.target timeout
    · subst hts
      rw [Dial.setSlot_self] at he
      rcases List.mem_cons.mp he with rfl | he
      · exact .inl ⟨rfl, rfl⟩
      · exact .inr ⟨he, hold he⟩
    · rw [Dial.setSlot_ne _ _ hts] at he
      exact .inr ⟨he, hold he⟩
  refine ⟨w', hw', hr', ?_, ?_, ?_, ?_⟩
  · intro t htN e he
    rcases hmem t htN e he with ⟨-, rfl⟩ | ⟨hin, -⟩
    · simp [Entry.made]
    · exact ht.armed t htN e hin
  · intro t htN e he
    rcases hmem t htN e he with ⟨rfl, rfl⟩ | ⟨hin, hne⟩
    · refine ⟨{ rounds := (max timeout 1).toNat, cbFunc := cb, userData := ud }, ?_, ?_, rfl, rfl⟩
      · simp [pending, Entry.made]
      · rw [← ticksOf_eq hpos]
        exact (remaining_new hcur _ rfl).symm
    · obtain ⟨x, hx, hrest⟩ := ht.entry t htN e hin
      refine ⟨x, ?_, hrest⟩
      simp [pending, hne.symm, hx]
  · intro q x hx
    by_cases hqp : p = q
    · subst hqp
      refine ⟨a.target timeout, a.target_lt timeout, ?_⟩
      simp [Dial.timers, Dial.add, Entry.made]
    · simp only [pending, hqp, if_false] at hx
      obtain ⟨t, htN, hq⟩ := ht.only q x hx
      refine ⟨t, htN, ?_⟩
      obtain ⟨e, he, rfl⟩ := List.mem_map.mp hq
      apply List.mem_map_of_mem
      unfold Dial.add
      by_cases hts : t = a.target timeout
      · subst hts
        rw [Dial.setSlot_self]
        exact List.mem_cons_of_mem _ he
      · rw [Dial.setSlot_ne _ _ hts]
        exact he
  · intro later calls earlier h q
    exact ht.history_cons (by simp) h q

theorem Tracks.del (ht : Tracks s a) (hp : s.wheel.mem.cells p ≠ none) :
    ∃ w', s.wheel.delTimer (some p) = .ok w' ∧
      Tracks { wheel := w', log := .deleted p :: s.log } (a.del p) := by
  obtain ⟨t₀, ht₀, hpt⟩ := ht.refines.live p hp
  obtain ⟨w', hw', hr'⟩ := delTimer_refines ht.refines ht₀ hpt
  have hmem : ∀ t, ∀ e ∈ (a.del p).slots t, e ∈ a.slots t ∧ e.timer ≠ p := by
    intro t e he
    simpa [Dial.del] using he
  refine ⟨w', hw', hr', ?_, ?_, ?_, ?_⟩
  · intro t htN e he
    exact ht.armed t htN e (hmem t e he).1
  · intro t htN e he
    obtain ⟨hin, hne⟩ := hmem t e he
    obtain ⟨x, hx, hrest⟩ := ht.entry t htN e hin
    refine ⟨x, ?_, hrest⟩
    simp [pending, hne.symm, hx]
  · intro q x hx
    by_cases hqp : p = q
    · simp [pending, hqp] at hx
    · simp only [pending, hqp, if_false] at hx
      obtain ⟨t, htN, hq⟩ := ht.only q x hx
      obtain ⟨e, he, rfl⟩ := List.mem_map.mp hq
      refine ⟨t, htN, List.mem_map_of_mem ?_⟩
      simp only [Dial.del, List.mem_filter, decide_eq_true_eq]
      exact ⟨he, fun h => hqp h.symm⟩
  · intro later calls earlier h q
    exact ht.history_cons (by simp) h q

/-- Entries after a tick are entries from before it, one round closer. -/
theorem Tracks.tick_entry (ht : Tracks s a) {t : Nat} (htN : t < N) {e' : Entry}
    (he' : e' ∈ a.tick.slots t) :
    ∃ e ∈ a.slots t, e'.timer = e.timer ∧ e'.cbFunc = e.cbFunc ∧ e'.userData = e.userData ∧
      remaining a.curSlot t e ≠ 0 ∧
      remaining a.tick.curSlot t e' = remaining a.curSlot t e - 1 := by
  have hcur := ht.refines.cur_lt
  by_cases hts : t = a.curSlot
  · subst hts
    simp only [Dial.tick, Function.update_self, kept, List.mem_map, List.mem_filter,
      decide_eq_true_eq] at he'
    obtain ⟨e, ⟨he, hpos⟩, rfl⟩ := he'
    refine ⟨e, he, rfl, rfl, rfl, ?_, remaining_turn hcur hpos⟩
    rw [ne_eq, remaining_eq_zero hcur hcur]
    omega
  · simp only [Dial.tick, Function.update_of_ne hts] at he'
    refine ⟨e', he', rfl, rfl, rfl, ?_, remaining_other hcur htN hts⟩
    rw [ne_eq, remaining_eq_zero hcur htN]
    tauto

theorem Tracks.calls_eq (ht : Tracks s a) (p : Ptr) :
    a.calls.filter (·.timer = p) = expected s.log p := by
  have hcur := ht.refines.cur_lt
  have hnd : ((a.slots a.curSlot).map Entry.timer).Nodup := (ht.refines.chain _ hcur).nodup
  unfold Dial.calls expected
  cases hx : pending s.log p with
  | none =>
      apply filter_calls_notMem
      intro hp
      obtain ⟨e, he, rfl⟩ := List.mem_map.mp hp
      obtain ⟨x, hx', -⟩ := ht.entry _ hcur e he
      rw [hx] at hx'
      cases hx'
  | some x =>
      obtain ⟨t, htN, hp⟩ := ht.only p x hx
      obtain ⟨e, he, rfl⟩ := List.mem_map.mp hp
      obtain ⟨y, hy, hrounds, hcb, hud⟩ := ht.entry t htN e he
      obtain rfl : x = y := Option.some.inj (hx.symm.trans hy)
      have hzero := remaining_eq_zero (e := e) hcur htN
      rw [← hrounds] at hzero
      by_cases hts : t = a.curSlot
      · subst hts
        rw [filter_calls_mem hnd he]
        simp only [hzero, true_and, Entry.call, hcb, hud, Option.map_some, Option.toList_some]
      · rw [filter_calls_notMem]
        · simp [hzero, hts]
        · intro hp'
          exact hts (ht.refines.slot_unique htN hcur hp hp')

theorem Tracks.tick (ht : Tracks s a) :
    ∃ w', s.wheel.tick = .ok (w', a.calls) ∧
      Tracks { wheel := w', log := .ticked a.calls :: s.log } a.tick := by
  obtain ⟨w', hw', hr'⟩ := tick_refines ht.refines ht.armed
  have hcur := ht.refines.cur_lt
  refine ⟨w', hw', hr', ?_, ?_, ?_, ?_⟩
  · intro t htN e' he'
    obtain ⟨e, he, -, hcb, -⟩ := ht.tick_entry htN he'
    rw [hcb]
    exact ht.armed t htN e he
  · intro t htN e' he'
    obtain ⟨e, he, htimer, hcb, hud, hne, hrem⟩ := ht.tick_entry htN he'
    obtain ⟨x, hx, hrounds, hxcb, hxud⟩ := ht.entry t htN e he
    have hx0 : x.rounds ≠ 0 := by rw [hrounds]; exact hne
    refine ⟨{ x with rounds := x.rounds - 1 }, ?_, ?_, ?_, ?_⟩
    · simp [pending, htimer, hx, Pending.pass, hx0]
    · rw [hrem, ← hrounds]
    · rw [hcb, hxcb]
    · rw [hud, hxud]
  · intro q x hx
    simp only [pending, Option.bind_eq_some_iff] at hx
    obtain ⟨y, hy, hpass⟩ := hx
    have hy0 : y.rounds ≠ 0 := by
      intro h
      simp [Pending.pass, h] at hpass
    obtain ⟨t, htN, hq⟩ := ht.only q y hy
    obtain ⟨e, he, rfl⟩ := List.mem_map.mp hq
    obtain ⟨z, hz, hrounds, -⟩ := ht.entry t htN e he
    obtain rfl : y = z := Option.some.inj (hy.symm.trans hz)
    -- with rounds left, it hangs in another slot or has turns to wait in this one
    rw [hrounds, ne_eq, remaining_eq_zero hcur htN] at hy0
    refine ⟨t, htN, ?_⟩
    by_cases hts : t = a.curSlot
    · subst hts
      have hpos : 0 < e.rotation := by omega
      have hin : e.turn ∈ a.tick.slots a.curSlot := by
        simp only [Dial.tick, Function.update_self, kept, List.mem_map, List.mem_filter,
          decide_eq_true_eq]
        exact ⟨e, ⟨he, hpos⟩, rfl⟩
      exact List.mem_map.mpr ⟨e.turn, hin, rfl⟩
    · apply List.mem_map_of_mem
      simpa [Dial.tick, Function.update_of_ne hts] using he
  · intro later calls earlier h q
    cases later with
    | nil =>
        obtain ⟨hc, rfl⟩ := List.cons.inj h
        obtain rfl := Obs.ticked.inj hc
        exact ht.calls_eq q
    | cons _ later => exact ht.history later calls earlier (List.cons.inj h).2 q

/-! ## Every run -/

theorem arm_negative (w : TimeWheel) {timeout : Int} (h : timeout < 0) (q cb : Ptr)
    (ud : Option Ptr) : w.arm timeout q cb ud = .ok (w, none) := by
  simp [TimeWheel.arm, TimeWheel.addTimer, h]

/-- Every operation the environment may ask for returns, and keeps wheel and log in agreement. -/
theorem Tracks.step (ht : Tracks s a) {o : Op} (ho : s.enabled o) :
    ∃ s', s.step o = .ok s' ∧ ∃ a', Tracks s' a' := by
  cases o with
  | add timeout q cb ud =>
      by_cases hneg : timeout < 0
      · refine ⟨_, by rw [Session.step, arm_negative _ hneg]; rfl, a, ?_⟩
        refine ⟨ht.refines, ht.armed, ht.entry, ht.only, ?_⟩
        intro later calls earlier h p
        exact ht.history_cons (by simp) h p
      · obtain ⟨w', hw', ht'⟩ := ht.add ho (Int.not_lt.mp hneg) cb ud
        exact ⟨_, by rw [Session.step, hw']; rfl, _, ht'⟩
  | del q =>
      obtain ⟨w', hw', ht'⟩ := ht.del ho
      exact ⟨_, by rw [Session.step, hw']; rfl, _, ht'⟩
  | tick =>
      obtain ⟨w', hw', ht'⟩ := ht.tick
      exact ⟨_, by rw [Session.step, hw']; rfl, _, ht'⟩

theorem reachable_tracks (hr : Session.machine.Reachable s) : ∃ a, Tracks s a := by
  apply hr.preserved
  · rintro s rfl
    exact ⟨_, Tracks.start⟩
  · rintro s o ⟨a, ht⟩ ho
    exact ht.step ho

/-! ## The wheel as lists, over whole runs -/

/-- What an operation does to the lists. -/
def Dial.apply (a : Dial) : Op → Dial
  | .add timeout p cb ud => if timeout < 0 then a else a.add timeout p (some cb) ud
  | .del p => a.del p
  | .tick => a.tick

/-- Armed timers are called one by one. -/
theorem timers_filterMap_call (h : ∀ e ∈ l, e.cbFunc ≠ none) :
    (l.filterMap Entry.call).map Call.timer = l.map Entry.timer := by
  induction l with
  | nil => rfl
  | cons e l ih =>
      obtain ⟨cb, hcb⟩ := Option.ne_none_iff_exists'.mp (h e List.mem_cons_self)
      have hcall : e.call = some { timer := e.timer, cbFunc := cb, userData := e.userData } := by
        rw [Entry.call, hcb, Option.map_some]
      rw [List.filterMap_cons_some hcall, List.map_cons, List.map_cons,
        ih (fun e' he' => h e' (List.mem_cons_of_mem _ he'))]

theorem Refines.apply (hr : Refines s.wheel a) (ha : a.Armed) {o : Op} (ho : s.enabled o) :
    ∃ s', s.step o = .ok s' ∧ Refines s'.wheel (a.apply o) := by
  cases o with
  | add timeout q cb ud =>
      by_cases hneg : timeout < 0
      · refine ⟨_, by rw [Session.step, arm_negative _ hneg]; rfl, ?_⟩
        rw [Dial.apply, if_pos hneg]
        exact hr
      · obtain ⟨w', hw', hr'⟩ := arm_refines hr ho (Int.not_lt.mp hneg) cb ud
        refine ⟨_, by rw [Session.step, hw']; rfl, ?_⟩
        rw [Dial.apply, if_neg hneg]
        exact hr'
  | del q =>
      obtain ⟨t, ht, hq⟩ := hr.live q ho
      obtain ⟨w', hw', hr'⟩ := delTimer_refines hr ht hq
      exact ⟨_, by rw [Session.step, hw']; rfl, hr'⟩
  | tick =>
      obtain ⟨w', hw', hr'⟩ := tick_refines hr ha
      exact ⟨_, by rw [Session.step, hw']; rfl, hr'⟩

/-- **The wheel is sixty lists** in every reachable state. They are disjoint and hold their own timers.
`add_timer` puts a new timer in front of the list of its slot. Each operation of a session does to the
lists what `Dial.apply` says, and a tick calls the due timers of the current slot, one by one and in the
order of the list. -/
theorem lists_refined (hr : Session.machine.Reachable s) :
    ∃ a : Dial, Refines s.wheel a ∧
      (∀ i < N, ∀ j < N, i ≠ j → (a.timers i).Disjoint (a.timers j)) ∧
      (∀ i < N, ∀ p ∈ a.timers i, ∃ c, s.wheel.mem.cells p = some c ∧ c.timeSlot = i) ∧
      (∀ timeout p, 0 ≤ timeout → s.wheel.mem.cells p = none →
        ∃ w', s.wheel.addTimer timeout p = .ok (w', some p) ∧
          Refines w' (a.add timeout p none none)) ∧
      (∀ o, Session.machine.enabled s o → ∃ s', Session.machine.step s o = .ok s' ∧
        Refines s'.wheel (a.apply o)) ∧
      (∃ w', s.wheel.tick = .ok (w', a.calls) ∧ Refines w' a.tick) ∧
      a.calls.map Call.timer = (due (a.slots a.curSlot)).map Entry.timer := by
  obtain ⟨a, ht⟩ := reachable_tracks hr
  have hr := ht.refines
  refine ⟨a, hr, ?_, ?_, ?_, ?_, tick_refines hr ht.armed, ?_⟩
  · intro i hi j hj hij p hp hp'
    exact hij (hr.slot_unique hi hj hp hp')
  · intro i hi p hp
    obtain ⟨e, he, rfl⟩ := List.mem_map.mp hp
    obtain ⟨c, hc, hpay⟩ := Option.map_eq_some_iff.mp (hr.cell i hi e he)
    exact ⟨c, hc, congrArg TwTimer.timeSlot hpay⟩
  · intro timeout p htime hp
    exact addTimer_refines hr hp htime
  · intro o ho
    exact hr.apply ht.armed ho
  · apply timers_filterMap_call
    intro e he
    exact ht.armed _ hr.cur_lt e (List.mem_filter.mp he).1

/-- Three timers in one slot, the middle one with a turn to wait: when the hand gets there, the other two
are called and the middle one stays. -/
theorem lists_refined_alternating :
    ∃ s a, Session.machine.Reachable s ∧ Refines s.wheel a ∧
      s.log = .ticked [⟨9, 1, none⟩, ⟨7, 1, none⟩] ::
        (.ticked [] :: [.added 9 1 1 none, .added 8 61 1 none, .added 7 1 1 none]) ∧
      a.timers 1 = [8] := by
  obtain ⟨s, hr, hs⟩ := Machine.Reachable.of_replay (M := Session.machine)
    [.add 1 7 1 none, .add 61 8 1 none, .add 1 9 1 none, .tick, .tick]
    (fun s => (s.log, follow s.wheel.mem s.wheel.mem.brk (s.wheel.slots 1))) rfl
    (b := (.ticked [⟨9, 1, none⟩, ⟨7, 1, none⟩] ::
        (.ticked [] :: [.added 9 1 1 none, .added 8 61 1 none, .added 7 1 1 none]), [8]))
    (by decide +kernel)
  obtain ⟨hlog, hslot⟩ := Prod.mk.inj hs
  obtain ⟨a, ha, -⟩ := lists_refined hr
  have hchain := ha.chain 1 (by decide)
  refine ⟨s, a, hr, ha, hlog, ?_⟩
  rw [← hslot, hchain.walk.follow_eq hchain.length_le_brk]

/-- What is left of a timer after a stretch of the log in which its address was not handed out
again. -/
theorem pending_append {mid earlier : List Obs} {timeout : Int} {cb : Ptr} {ud : Option Ptr}
    (hmid : ∀ t c u, Obs.added p t c u ∉ mid) :
    pending (mid ++ .added p timeout cb ud :: earlier) p =
      if Obs.deleted p ∉ mid ∧ (tickCount mid : Int) ≤ max timeout 1 then
        some { rounds := (max timeout 1).toNat - tickCount mid, cbFunc := cb, userData := ud }
      else none := by
  induction mid with
  | nil => simp [pending, tickCount]
  | cons o mid ih =>
      have ih := ih (fun t c u h => hmid t c u (List.mem_cons_of_mem _ h))
      cases o with
      | added q t c u =>
          have hq : q ≠ p := by
            rintro rfl
            exact hmid t c u List.mem_cons_self
          simp only [List.cons_append, pending, hq, if_false, ih]
          simp [tickCount]
      | refused t =>
          simp only [List.cons_append, pending, ih]
          simp [tickCount]
      | deleted q =>
          by_cases hq : q = p
          · simp [pending, hq]
          · simp only [List.cons_append, pending, hq, if_false, ih]
            simp [tickCount, Ne.symm hq]
      | ticked calls =>
          have hcount : tickCount (.ticked calls :: mid) = tickCount mid + 1 := by
            simp [tickCount]
          simp only [List.cons_append, pending, ih, hcount]
          by_cases hdel : Obs.deleted p ∈ mid
          · simp [hdel]
          · by_cases hle : (tickCount mid : Int) + 1 ≤ max timeout 1
            · have h₁ : (tickCount mid : Int) ≤ max timeout 1 := by omega
              have h₂ : (max timeout 1).toNat - tickCount mid ≠ 0 := by omega
              simp [hdel, hle, h₁, h₂, Pending.pass]
              omega
            · by_cases heq : (tickCount mid : Int) ≤ max timeout 1
              · have h₂ : (max timeout 1).toNat - tickCount mid = 0 := by omega
                simp [hdel, hle, heq, h₂, Pending.pass]
              · simp [hdel, hle, heq]

/-- **Exact expiry.** No operation of a run faults or fails to return. And take any tick of a run and
any earlier addition of a timer `p`, such that the address `p` was not handed out again in between:
the tick makes the call of that timer, once, if the timer was not deleted in between and exactly
`max timeout 1` ticks lie in between; otherwise it does not call it. -/
theorem expires_exactly (hr : Session.machine.Reachable s) :
    (∀ o, Session.machine.enabled s o → ∃ s', Session.machine.step s o = .ok s') ∧
    ∀ later calls mid p timeout cb ud earlier,
      s.log = later ++ .ticked calls :: (mid ++ .added p timeout cb ud :: earlier) →
      (∀ t c u, Obs.added p t c u ∉ mid) →
      calls.filter (·.timer = p) =
        if Obs.deleted p ∉ mid ∧ (tickCount mid : Int) = max timeout 1 then
          [{ timer := p, cbFunc := cb, userData := ud }]
        else [] := by
  obtain ⟨a, ht⟩ := reachable_tracks hr
  constructor
  · intro o ho
    obtain ⟨s', hs', -⟩ := ht.step ho
    exact ⟨s', hs'⟩
  · intro later calls mid p timeout cb ud earlier hlog hmid
    rw [ht.history later calls _ hlog p, expected, pending_append hmid]
    by_cases hdel : Obs.deleted p ∈ mid
    · simp [hdel]
    · by_cases hle : (tickCount mid : Int) ≤ max timeout 1
      · have hzero : (max timeout 1).toNat - tickCount mid = 0 ↔
            (tickCount mid : Int) = max timeout 1 := by omega
        simp [hdel, hle, hzero]
      · have hne : (tickCount mid : Int) ≠ max timeout 1 := by omega
        simp [hdel, hle, hne]

/-- A timeout of a full turn lands in the slot under the hand: sixty ticks pass it by and the
sixty-first calls it. -/
theorem expires_exactly_full_turn :
    ∃ s calls, Session.machine.Reachable s ∧
      s.log = .ticked calls :: (List.replicate 60 (.ticked []) ++ [.added 7 60 1 (some 9)]) ∧
      calls.filter (·.timer = 7) = [{ timer := 7, cbFunc := 1, userData := some 9 }] := by
  obtain ⟨s, hr, hlog⟩ := Machine.Reachable.of_replay (M := Session.machine)
    (.add 60 7 1 (some 9) :: List.replicate 61 .tick) Session.log rfl
    (b := .ticked [{ timer := 7, cbFunc := 1, userData := some 9 }] ::
      (List.replicate 60 (.ticked []) ++ [.added 7 60 1 (some 9)])) (by decide +kernel)
  refine ⟨s, _, hr, hlog, ?_⟩
  have h := (expires_exactly hr).2 [] _ _ 7 60 1 (some 9) [] hlog (by
    intro t c u h
    cases (List.mem_replicate.mp h).2)
  rw [h, if_pos (by decide)]

end LinuxServer.Wheel
