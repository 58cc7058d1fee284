import LinuxServer.Libevent.Callbacks
import LinuxServer.Library.Machine

/-!
# The event loop

Runs of the event base: the program adds, deletes and activates events at any time, from callbacks or from
other threads, and the loop of `event_base_loop` goes through its rounds. The callbacks of the program are
what it does between the steps of the loop; those of the lists of common timeouts are modelled.

`Loop.Inv` holds in every state of every run, and no step fails.
-/

namespace LinuxServer.Libevent

open Library

/-- The base, and how many callbacks of events that are not internal have been run in this round; the
monotonic clock, in microseconds; and the fields of the base that have to do with it or with the end of the
loop. -/
structure Loop (σ : Type) where
  base : EventBase σ
  processed : Nat
  clock : Int
  /-- `tv_cache`; `none` if its `tv_sec` is 0 -/
  cache : Option Int
  /-- `virtual_event_count` -/
  virtualCount : Nat

/-- Time passes. The next ones are calls of the program: `updateCache` is `event_base_update_cache_time`, and
`loopContinue` is `event_base_loopcontinue`. The rest are steps of the loop: the events that were put off
become active, the backend waits, it reports that a descriptor is ready, timeouts are looked at; the first
event of the first queue is run, or the next one of the same queue, or, if only internal events were run,
the first one of a queue behind it; the round ends, be it because of `event_break` or some limit; a
callback returns. -/
inductive LoopAction where
  | pass (time : Nat)
  | add (ev : Nat) (tv : Option Timeval)
  | del (ev : Nat)
  | removeTimer (ev : Nat)
  | active (ev : Nat) (res : Res)
  | activeLater (ev : Nat) (res : Res)
  | addVirtual
  | delVirtual
  | loopContinue
  | updateCache
  | makeLater
  | dispatch
  | ready (fd : Fd) (events : Events)
  | timeouts
  | start
  | next
  | advance
  | finish
  | callback
  deriving Repr, DecidableEq

namespace Setup

/-- The list an event belongs to, if it is the event of a list. -/
def listOf (S : Setup) (ev : Nat) : Option Nat :=
  (List.range S.nCommon).find? fun q => S.timeoutEvent q == ev

/-- The event of a list of common timeouts. -/
theorem listOf_eq_some {S : Setup} {ev q : Nat} (h : S.listOf ev = some q) :
    q < S.nCommon ∧ ev = S.timeoutEvent q := by
  have hmem := List.mem_of_find?_eq_some h
  have hp := List.find?_some h
  exact ⟨List.mem_range.mp hmem, (beq_iff_eq.mp hp).symm⟩

/-- An event of the program is the event of no list. -/
theorem listOf_eq_none {S : Setup} {ev : Nat} (h : S.listOf ev = none) :
    ∀ q < S.nCommon, ev ≠ S.timeoutEvent q := by
  rintro q hq rfl
  have := List.find?_eq_none.mp h q (List.mem_range.mpr hq)
  simp at this

end Setup

namespace Loop
variable {σ : Type} (B : EventOp σ) (debug : Bool) (S : Setup)

/-- `gettime`. -/
def gettime (s : Loop σ) : Int := s.cache.getD s.clock

/-- `clear_time_cache`. -/
def clearTimeCache (s : Loop σ) : Loop σ := { s with cache := none }

/-- `update_time_cache`. In the first second of the clock there is nothing in the cache. -/
def updateTimeCache (s : Loop σ) : Loop σ :=
  { s with cache := if S.noCacheTime || s.clock / 1000000 == 0 then none else some s.clock }

/-- The loop exits: `!event_haveevents(base) && !N_ACTIVE_CALLBACKS(base)`. -/
def Exits (s : Loop σ) : Prop :=
  ¬ (0 < s.virtualCount ∨ 0 < s.base.eventCount) ∧ s.base.actives.count = 0

/-- The first queue that is not empty, from the queue `i` on. -/
def firstQueue (s : Loop σ) (i : Nat) : Option Nat :=
  (List.range S.nactivequeues).find? fun j => i ≤ j && !(s.base.actives.activequeues j).isEmpty

/-- The first event of the queue `i` is run. -/
def runQueue (s : Loop σ) (i : Nat) : Exec (Loop σ) :=
  match s.base.actives.activequeues i with
  | [] => .ok s
  | ev :: _ => do
      let base ← EventBase.processNext B debug S s.gettime { s.base with runningPriority := some i } ev
      return { s with base := base, processed := s.processed + if (S.info ev).internal then 0 else 1 }

/-- The callback of the current event returns. -/
def runCallback (s : Loop σ) : Exec (Loop σ) :=
  match s.base.current.bind S.listOf with
  | none => .ok { s with base := { s.base with current := none } }
  | some q => do
      let base ← s.base.commonTimeoutCallback B debug S s.gettime q
      return { s with base := { base with current := none } }

/-- The loop does nothing else while a callback is run. -/
def Idle (s : Loop σ) : Prop := s.base.runningPriority = none ∧ s.base.current = none

instance (s : Loop σ) : Decidable s.Idle :=
  inferInstanceAs (Decidable (s.base.runningPriority = none ∧ s.base.current = none))

/-- The round goes on with another queue only if no event of the program was run, and then only when the
queue is empty or the loop has been told to look again. -/
def GoesOn (s : Loop σ) (i : Nat) : Prop :=
  s.processed = 0 ∧ (s.base.actives.activequeues i = [] ∨ s.base.eventContinue = true)

instance (s : Loop σ) (i : Nat) : Decidable (s.GoesOn i) :=
  inferInstanceAs (Decidable (s.processed = 0 ∧
    (s.base.actives.activequeues i = [] ∨ s.base.eventContinue = true)))

/-- What the actions ask for. The program leaves the events of the lists alone. -/
def Enabled (s : Loop σ) : LoopAction → Prop
  | .pass _ | .addVirtual | .loopContinue | .updateCache => True
  | .delVirtual => 0 < s.virtualCount
  | .add ev _ => ev < S.size ∧ S.listOf ev = none
  | .del ev => ev < S.size ∧ S.listOf ev = none
  | .removeTimer ev => ev < S.size ∧ S.listOf ev = none
  | .active ev _ => ev < S.size ∧ S.listOf ev = none
  | .activeLater ev _ => ev < S.size ∧ S.listOf ev = none
  | .makeLater | .dispatch | .ready _ _ | .timeouts | .start => s.Idle
  | .next => s.base.current = none ∧ s.base.runningPriority ≠ none ∧ s.base.eventContinue = false
  | .advance => s.base.current = none ∧ ∀ i ∈ s.base.runningPriority, s.GoesOn i
  | .finish => s.base.current = none
  | .callback => s.base.current ≠ none

instance (s : Loop σ) (act : LoopAction) : Decidable (s.Enabled S act) :=
  match act with
  | .pass _ | .addVirtual | .loopContinue | .updateCache => inferInstanceAs (Decidable True)
  | .delVirtual => inferInstanceAs (Decidable (0 < s.virtualCount))
  | .add ev _ => inferInstanceAs (Decidable (ev < S.size ∧ S.listOf ev = none))
  | .del ev => inferInstanceAs (Decidable (ev < S.size ∧ S.listOf ev = none))
  | .removeTimer ev => inferInstanceAs (Decidable (ev < S.size ∧ S.listOf ev = none))
  | .active ev _ => inferInstanceAs (Decidable (ev < S.size ∧ S.listOf ev = none))
  | .activeLater ev _ => inferInstanceAs (Decidable (ev < S.size ∧ S.listOf ev = none))
  | .makeLater | .dispatch | .ready _ _ | .timeouts | .start => inferInstanceAs (Decidable s.Idle)
  | .next => inferInstanceAs (Decidable (s.base.current = none ∧ s.base.runningPriority ≠ none ∧
      s.base.eventContinue = false))
  | .advance => inferInstanceAs (Decidable (s.base.current = none ∧
      ∀ i ∈ s.base.runningPriority, s.GoesOn i))
  | .finish => inferInstanceAs (Decidable (s.base.current = none))
  | .callback => inferInstanceAs (Decidable (s.base.current ≠ none))

/-- A new base. The fields of events that have not been added may have any values. -/
def make (io : IoBase σ) (timeout : Nat → Timeval) (res : Nat → Res) (ioTimeout : Nat → Timeval)
    (clock : Int) : Loop σ :=
  { base := { io := io
              inserted := fun _ => false
              timers := { timeheap := MinHeap.ctor, common := fun _ => [], timeout := timeout
                          pending := fun _ => false }
              actives := Actives.init
              eventCount := 0
              res := res
              ioTimeout := ioTimeout
              runningPriority := none
              eventContinue := false
              current := none }
    processed := 0
    clock := clock
    cache := none
    virtualCount := 0 }

/-- A round begins with `event_continue` cleared. -/
def machine : Machine (Loop σ) LoopAction where
  init s := ∃ io timeout res ioTimeout clock, (∀ fd, io.io fd = EvmapIo.init) ∧
    s = make io timeout res ioTimeout clock
  enabled s act := s.Enabled S act
  step s
    | .pass time => .ok { s with clock := s.clock + time }
    | .add ev tv => do
        let (base, _) ← s.base.eventAdd B debug S s.gettime ev tv false
        return { s with base := base }
    | .del ev => do
        let (base, _) ← s.base.eventDel B S ev
        return { s with base := base }
    | .removeTimer ev => do
        let base ← s.base.eventRemoveTimer S ev
        return { s with base := base }
    | .active ev res => .ok { s with base := s.base.eventActive S ev res }
    | .activeLater ev res => .ok { s with base := s.base.eventActiveLater S ev res }
    | .addVirtual => .ok { s with virtualCount := s.virtualCount + 1 }
    | .delVirtual => .ok { s with virtualCount := s.virtualCount - 1 }
    | .loopContinue => .ok { s with base := { s.base with eventContinue := true } }
    | .updateCache => .ok (s.updateTimeCache S)
    | .makeLater => .ok { s with base := s.base.makeLaterActive S }
    | .dispatch => .ok s.clearTimeCache
    | .ready fd events => .ok { s with base := s.base.ioActive S fd events }
    | .timeouts => do
        let s := s.updateTimeCache S
        let base ← s.base.timeoutProcess B S s.gettime
        return { s with base := base }
    | .start =>
        match s.firstQueue S 0 with
        | none => .ok s
        | some i => runQueue B debug S { s with processed := 0 } i
    | .next =>
        match s.base.runningPriority with
        | none => .ok s
        | some i => s.runQueue B debug S i
    | .advance =>
        match s.base.runningPriority.bind fun i => s.firstQueue S (i + 1) with
        | none => .ok s
        | some j => s.runQueue B debug S j
    | .finish => .ok { s with base := { s.base with runningPriority := none, eventContinue := false } }
    | .callback => s.runCallback B debug S

/-! ## The invariant -/

structure Inv (told : Prop) (s : Loop σ) : Prop where
  base : EventBase.Inv S told s.base
  /-- only internal events have been run, which are in the first queue -/
  first : ∀ i, s.base.runningPriority = some i → s.processed = 0 → i = 0
  cached : ∀ c, s.cache = some c → c ≤ s.clock

variable {B debug S} {s s' : Loop σ} {act : LoopAction} {ev i : Nat} {told : Prop}

/-- A call of the program is about one of its own events. -/
theorem own_of (h : ev < S.size ∧ S.listOf ev = none) : EventBase.Own S ev :=
  ⟨h.1, Setup.listOf_eq_none h.2⟩

/-- The first queue that is not empty. -/
theorem firstQueue_spec {j : Nat} (h : s.firstQueue S i = some j) :
    i ≤ j ∧ s.base.actives.activequeues j ≠ [] ∧
      ∀ k, i ≤ k → k < j → s.base.actives.activequeues k = [] := by
  have hp := List.find?_some h
  simp only [Bool.and_eq_true, decide_eq_true_eq, Bool.not_eq_true', List.isEmpty_eq_false_iff] at hp
  refine ⟨hp.1, hp.2, ?_⟩
  intro k hik hkj
  obtain ⟨-, l₁, l₂, hsplit, hbefore⟩ := List.find?_eq_some_iff_append.mp h
  have hk : k ∈ l₁ := by
    have hj : j < S.nactivequeues := List.mem_range.mp (List.mem_of_find?_eq_some h)
    have hmem : k ∈ List.range S.nactivequeues := List.mem_range.mpr (by omega)
    have hsorted := List.pairwise_lt_range (n := S.nactivequeues)
    rw [hsplit] at hmem hsorted
    rcases List.mem_append.mp hmem with hk | hk
    · exact hk
    · rcases List.mem_cons.mp hk with rfl | hk
      · omega
      · have := (List.pairwise_cons.mp (List.pairwise_append.mp hsorted).2.1).1 k hk
        omega
  have := hbefore k hk
  simpa [hik] using this

/-- An active event is in the queue of its priority. -/
theorem queue_ne_nil (h : EventBase.Ok S s.base) (he : s.base.actives.active ev = true) :
    s.base.actives.activequeues (S.pri ev) ≠ [] := by
  have hmem := (h.actives.mem (S.pri ev) ev).mpr ⟨he, rfl⟩
  intro hnil
  rw [hnil] at hmem
  cases hmem

variable (B debug) in
/-- The first event of a queue is run. -/
theorem runQueue_spec (h : EventBase.Inv S told s.base) (hcur : s.base.current = none)
    (hcache : ∀ c, s.cache = some c → c ≤ s.clock)
    (hfirst : s.base.eventContinue = false → ∀ e, s.base.actives.active e = true → i ≤ S.pri e)
    (hasked : s.base.eventContinue = true → told ∨ 0 < i)
    (hproc : ∀ ev, S.pri ev = i → (S.info ev).internal = true → s.processed = 0 → i = 0)
    (hne : s.base.actives.activequeues i ≠ []) :
    ∃ ev tl s', s.base.actives.activequeues i = ev :: tl ∧ runQueue B debug S s i = .ok s' ∧
      s'.Inv S told ∧ s'.base.current = some ev := by
  obtain ⟨ev, tl, hl⟩ : ∃ ev tl, s.base.actives.activequeues i = ev :: tl :=
    List.exists_cons_of_ne_nil hne
  have hmem : ev ∈ s.base.actives.activequeues i := by
    rw [hl]
    exact List.mem_cons_self
  obtain ⟨hact, hpri⟩ := (h.ok.actives.mem i ev).mp hmem
  have hinv : EventBase.Inv S told { s.base with runningPriority := some i } := by
    refine ⟨h.ok.congr rfl rfl rfl rfl rfl, ⟨h.deadlines.plain, h.deadlines.covered⟩, ?_, ?_⟩
    · intro j hj hc e he
      obtain rfl := Option.some.inj hj
      exact hfirst hc e he
    · exact fun hc => (hasked hc).imp_right fun hpos => ⟨i, rfl, hpos⟩
  obtain ⟨base', hrun, hinv', hcur', hrp, -, -⟩ :=
    EventBase.processNext_spec B debug s.gettime hinv hact hcur
  refine ⟨ev, tl, { s with base := base', processed := s.processed + if (S.info ev).internal then 0 else 1 },
    hl, ?_, ⟨hinv', ?_, hcache⟩, hcur'⟩
  · unfold runQueue
    rw [hl]
    dsimp only
    rw [hrun, ok_bind]
    rfl
  · intro j hj hz
    have hj : base'.runningPriority = some j := hj
    rw [hrp] at hj
    obtain rfl : i = j := Option.some.inj hj
    have hz : s.processed + (if (S.info ev).internal then 0 else 1) = 0 := hz
    split at hz
    · rename_i hint
      exact hproc ev hpri hint (by omega)
    · omega

/-- Nothing has been added at first. -/
theorem Inv.start (hi : (machine B debug S).init s) : s.Inv S told := by
  obtain ⟨io, timeout, res, ioTimeout, clock, hio, rfl⟩ := hi
  have hnone : ∀ e, e ∉ (io.io (S.evs e).fd).events := by
    intro e
    rw [hio]
    exact List.not_mem_nil
  have hint : Integrity S.evs io := by
    have hbase : io = { io := fun _ => EvmapIo.init, backend := io.backend } := by
      cases io
      simp only [IoBase.mk.injEq, and_true]
      exact funext hio
    rw [hbase]
    exact .init _
  have hzero : S.count (fun _ => false) = 0 := (S.count_eq_zero _).mpr fun _ _ _ => rfl
  refine ⟨⟨⟨hint, ?_, ?_, ?_, .init, ?_, ?_⟩, ⟨?_, ?_⟩, ?_, ?_⟩, ?_, nofun⟩
  · intro fd e he
    have he : e ∈ (io.io fd).events := he
    rw [hio] at he
    cases he
  · intro e he
    cases he
  · refine ⟨⟨[], MinHeap.Valid.ctor⟩, ?_, ?_, fun _ => List.nodup_nil, fun _ => List.Pairwise.nil⟩
    · intro e
      simp [make, MinHeap.ctor]
    · intro q e
      simp [make]
  · show (0 : Int) = S.count (fun _ => false) + S.count (fun _ => false) + S.count (fun _ => false) +
      S.count (fun _ => false)
    rw [hzero]
    rfl
  · intro e _
    exact ⟨rfl, rfl, rfl, rfl⟩
  · intro q _ hp
    cases hp
  · intro q _
    refine .inr (.inr ?_)
    intro e he
    cases he
  · intro i hi
    cases hi
  · intro hc
    cases hc
  · intro i hi
    cases hi

/-- The program's own calls leave the round alone. -/
theorem Inv.withBase {base : EventBase σ} (h : s.Inv S told) (hb : EventBase.Inv S told base)
    (hrun : base.runningPriority = s.base.runningPriority) : Inv S told { s with base := base } := by
  refine ⟨hb, ?_, h.cached⟩
  intro i hi
  have hi : base.runningPriority = some i := hi
  rw [hrun] at hi
  exact h.first i hi

/-- `event_remove_timer` keeps the invariant. -/
theorem removeTimer_spec (h : EventBase.Inv S told s.base) (hown : EventBase.Own S ev) :
    ∃ base', s.base.eventRemoveTimer S ev = .ok base' ∧ EventBase.Inv S told base' ∧
      base'.runningPriority = s.base.runningPriority := by
  unfold EventBase.eventRemoveTimer
  split
  · rename_i hp
    obtain ⟨t, hrun, hok, hpend, htime⟩ := h.ok.removeTimeout hown.1 hp
    rw [hrun, ok_bind]
    refine ⟨_, rfl, ⟨hok.congr rfl rfl rfl rfl rfl, ⟨?_, ?_⟩, h.priorities⟩, rfl⟩
    · intro q hq hpq
      have hpq : t.pending (S.timeoutEvent q) = true := hpq
      show Timers.isCommon S.nCommon (t.timeout (S.timeoutEvent q)) = none
      rw [hpend] at hpq
      rw [htime]
      exact h.deadlines.plain q hq (EventBase.of_update_false hpq).2
    · intro q hq
      rcases h.deadlines.covered q hq with hcur | hact | hlist
      · exact .inl hcur
      · exact .inr (.inl hact)
      · refine .inr (.inr ?_)
        intro e he hcom
        have he : t.pending e = true := he
        have hcom : Timers.isCommon S.nCommon (t.timeout e) = some q := hcom
        rw [hpend] at he
        rw [htime] at hcom
        obtain ⟨hpt, hle⟩ := hlist e (EventBase.of_update_false he).2 hcom
        refine ⟨?_, ?_⟩
        · show t.pending (S.timeoutEvent q) = true
          rw [hpend, Function.update_of_ne (hown.2 q hq).symm]
          exact hpt
        · show (t.timeout (S.timeoutEvent q)).usecs ≤ (t.timeout e).usecs
          rw [htime]
          exact hle
  · exact ⟨_, rfl, h, rfl⟩

/-- `event_active_later_` keeps the invariant. -/
theorem activeLater_spec (h : EventBase.Inv S told s.base) (hev : ev < S.size) (res : Res) :
    EventBase.Inv S told (s.base.eventActiveLater S ev res) ∧
      (s.base.eventActiveLater S ev res).runningPriority = s.base.runningPriority := by
  unfold EventBase.eventActiveLater
  split
  · exact ⟨⟨h.ok.setRes _ _, ⟨h.deadlines.plain, h.deadlines.covered⟩, h.priorities⟩, rfl⟩
  · rename_i hno
    simp only [Bool.or_eq_true, not_or, Bool.not_eq_true] at hno
    have hok := h.ok.setRes ev res
    obtain ⟨hok', hlat, hact⟩ := hok.insertActiveLater hev hno.1 hno.2
    have hact : ((s.base.setRes ev res).insertActiveLater S ev).actives.active =
        s.base.actives.active := hact
    have hcond : ¬ ((s.base.setRes ev res).actives.active ev ||
        (s.base.setRes ev res).actives.later ev) = true := by
      show ¬ (s.base.actives.active ev || s.base.actives.later ev) = true
      simp [hno]
    unfold EventBase.insertActiveLater at hok' hact ⊢
    rw [if_neg hcond] at hok' hact ⊢
    refine ⟨⟨hok', ⟨h.deadlines.plain, ?_⟩, h.priorities.of_le rfl rfl ?_⟩, rfl⟩
    · intro q hq
      rcases h.deadlines.covered q hq with hcur | hac | hlist
      · exact .inl hcur
      · refine .inr (.inl ?_)
        rw [hact]
        exact hac
      · exact .inr (.inr hlist)
    · rw [hact]
      exact fun _ h => h

/-- Between two rounds the events that were put off become active. -/
theorem makeLater_spec (h : EventBase.Inv S told s.base) (hidle : s.Idle) :
    EventBase.Inv S told (s.base.makeLaterActive S) := by
  obtain ⟨hok, hact⟩ := h.ok.makeLaterActive
  refine ⟨hok, ⟨h.deadlines.plain, ?_⟩, ?_, h.priorities.2⟩
  · intro q hq
    rcases h.deadlines.covered q hq with hcur | hac | hlist
    · exact .inl hcur
    · refine .inr (.inl ?_)
      rw [hact]
      simp [hac]
    · exact .inr (.inr hlist)
  · intro i hi
    have hi : s.base.runningPriority = some i := hi
    rw [hidle.1] at hi
    cases hi

variable (B debug) in
/-- The step that begins a round runs the first event of the first queue. -/
theorem start_spec (h : s.Inv S told) (hidle : s.Idle) (hq : s.firstQueue S 0 = some i) :
    ∃ ev tl s', s.base.actives.activequeues i = ev :: tl ∧
      (machine B debug S).step s .start = .ok s' ∧ s'.Inv S told ∧ s'.base.current = some ev ∧
      ∀ e, s.base.actives.active e = true → i ≤ S.pri e := by
  obtain ⟨-, hne, hbefore⟩ := firstQueue_spec hq
  have hmin : ∀ e, s.base.actives.active e = true → i ≤ S.pri e := by
    intro e he
    by_contra hlt
    exact queue_ne_nil h.base.ok he (hbefore _ (Nat.zero_le _) (Nat.not_le.mp hlt))
  -- nothing is being run, so it is not for a more important event that the loop is to look again
  have hasked : s.base.eventContinue = true → told ∨ 0 < i := by
    intro hc
    rcases h.base.priorities.2 hc with ht | ⟨k, hk, -⟩
    · exact .inl ht
    · rw [hidle.1] at hk
      cases hk
  obtain ⟨ev, tl, s', hl, hrun, hinv, hcur⟩ := runQueue_spec B debug
    (s := { s with processed := 0 }) h.base hidle.2 h.cached (fun _ => hmin) hasked
    (fun e he hint _ => by rw [← he]; exact S.internal_pri e hint) hne
  refine ⟨ev, tl, s', hl, ?_, hinv, hcur, hmin⟩
  simp only [machine, hq]
  exact hrun

variable (B debug) in
/-- The next event of the same queue is run. -/
theorem next_spec (h : s.Inv S told) (hcur : s.base.current = none) (hrp : s.base.runningPriority = some i)
    (hcont : s.base.eventContinue = false) (hne : s.base.actives.activequeues i ≠ []) :
    ∃ ev tl s', s.base.actives.activequeues i = ev :: tl ∧
      (machine B debug S).step s .next = .ok s' ∧ s'.Inv S told ∧ s'.base.current = some ev ∧
      ∀ e, s.base.actives.active e = true → i ≤ S.pri e := by
  have hmin := h.base.priorities.1 i hrp hcont
  have hasked : s.base.eventContinue = true → told ∨ 0 < i := by
    intro hc
    rw [hcont] at hc
    cases hc
  obtain ⟨ev, tl, s', hl, hrun, hinv, hcur'⟩ := runQueue_spec B debug
    h.base hcur h.cached (fun _ => hmin) hasked (fun _ _ _ hz => h.first i hrp hz) hne
  refine ⟨ev, tl, s', hl, ?_, hinv, hcur', hmin⟩
  simp only [machine, hrp]
  exact hrun

variable (B debug) in
/-- The loop goes on with a queue behind the first one. It passes over what is still in the first one if it
has been told to look again. -/
theorem advance_spec {j : Nat} (h : s.Inv S told) (hcur : s.base.current = none)
    (hrp : s.base.runningPriority = some i) (hgo : s.GoesOn i) (hq : s.firstQueue S (i + 1) = some j) :
    ∃ ev tl s', s.base.actives.activequeues j = ev :: tl ∧
      (machine B debug S).step s .advance = .ok s' ∧ s'.Inv S told ∧ s'.base.current = some ev ∧
      (s.base.eventContinue = true → told) ∧
      ((∀ e, s.base.actives.active e = true → j ≤ S.pri e) ↔ s.base.actives.activequeues 0 = []) ∧
      (s.base.eventContinue = false → s.base.actives.activequeues 0 = []) := by
  -- only internal events were run, so the queue is the first one
  obtain rfl := h.first i hrp hgo.1
  have htold : s.base.eventContinue = true → told := by
    intro hc
    rcases h.base.priorities.2 hc with ht | ⟨k, hk, hpos⟩
    · exact ht
    · rw [hrp] at hk
      obtain rfl := Option.some.inj hk
      omega
  have hempty : s.base.eventContinue = false → s.base.actives.activequeues 0 = [] := by
    intro hc
    rcases hgo.2 with hnil | hc'
    · exact hnil
    · rw [hc] at hc'
      cases hc'
  obtain ⟨hle, hne, hbefore⟩ := firstQueue_spec hq
  have hmin : (∀ e, s.base.actives.active e = true → j ≤ S.pri e) ↔
      s.base.actives.activequeues 0 = [] := by
    constructor
    · intro hall
      by_contra hne'
      obtain ⟨e, tl, hl⟩ := List.exists_cons_of_ne_nil hne'
      obtain ⟨ha, hpri⟩ := (h.base.ok.actives.mem 0 e).mp (by rw [hl]; exact List.mem_cons_self)
      have := hall e ha
      have : S.pri e = 0 := hpri
      omega
    · intro hnil e he
      by_contra hlt
      have hq' := queue_ne_nil h.base.ok he
      by_cases hz : S.pri e = 0
      · rw [hz] at hq'
        exact hq' hnil
      · exact hq' (hbefore _ (by omega) (Nat.not_le.mp hlt))
  obtain ⟨ev, tl, s', hl, hrun, hinv, hcur'⟩ := runQueue_spec B debug
    h.base hcur h.cached (fun hc => hmin.mpr (hempty hc)) (fun hc => .inl (htold hc)) (by
      intro e he hint _
      rw [← he]
      exact S.internal_pri e hint) hne
  refine ⟨ev, tl, s', hl, ?_, hinv, hcur', htold, hmin, hempty⟩
  simp only [machine, hrp, Option.bind_some, hq]
  exact hrun

/-- A callback returns; that of a list of common timeouts looks at its list. -/
theorem callback_spec (h : s.Inv S told) (he : s.base.current ≠ none) :
    ∃ s', s.runCallback B debug S = .ok s' ∧ s'.Inv S told := by
  obtain ⟨ev, hev⟩ := Option.ne_none_iff_exists'.mp he
  unfold runCallback
  rw [hev]
  cases hlist : S.listOf ev with
  | none =>
      simp only [Option.bind_some, hlist]
      refine ⟨_, rfl, h.withBase ⟨h.base.ok.congr rfl rfl rfl rfl rfl, ⟨h.base.deadlines.plain, ?_⟩,
        h.base.priorities⟩ rfl⟩
      intro q hq
      rcases h.base.deadlines.covered q hq with hcur | hact | hl
      · rw [hev] at hcur
        exact absurd (Option.some.inj hcur) (Setup.listOf_eq_none hlist q hq)
      · exact .inr (.inl hact)
      · exact .inr (.inr hl)
  | some q =>
      obtain ⟨hq, rfl⟩ := Setup.listOf_eq_some hlist
      obtain ⟨base', hrun, hinv, hrp, -⟩ :=
        EventBase.commonTimeoutCallback_spec B debug s.gettime h.base hq hev
      simp only [Option.bind_some, hlist]
      rw [hrun, ok_bind]
      exact ⟨_, rfl, h.withBase hinv hrp⟩

/-- What is in the cache was the time once. -/
theorem updateTimeCache_cached (S : Setup) (s : Loop σ) :
    ∀ c, (s.updateTimeCache S).cache = some c → c = s.clock := by
  intro c hc
  unfold updateTimeCache at hc
  dsimp only at hc
  split at hc
  · cases hc
  · exact (Option.some.inj hc).symm

/-- Reading the clock keeps the invariant. -/
theorem Inv.updateTimeCache (h : s.Inv S told) : (s.updateTimeCache S).Inv S told :=
  ⟨h.base, h.first, fun c hc => (updateTimeCache_cached S s c hc).le⟩

variable (B debug) in
/-- One step: it returns, and the invariant is kept, in which `told` is needed for `loopContinue` only. -/
theorem Inv.step (h : s.Inv S told) (he : (machine B debug S).enabled s act)
    (htold : act = .loopContinue → told) :
    ∃ s', (machine B debug S).step s act = .ok s' ∧ s'.Inv S told := by
  cases act with
  | pass time =>
      refine ⟨_, rfl, ⟨h.base, h.first, ?_⟩⟩
      intro c hc
      have := h.cached c hc
      show c ≤ s.clock + time
      omega
  | add ev tv =>
      obtain ⟨base', res, hrun, hinv, hq⟩ := h.base.eventAdd B debug (own_of he) s.gettime tv false
      refine ⟨{ s with base := base' }, ?_, h.withBase hinv hq.running⟩
      simp only [machine, hrun, ok_bind, pure_eq_ok]
  | del ev =>
      obtain ⟨base', res, hrun, hok, hd⟩ := EventBase.eventDel_spec (B := B) h.base.ok he.1
      refine ⟨{ s with base := base' }, ?_, h.withBase (h.base.deleted (own_of he).2 hok hd) hd.running⟩
      simp only [machine, hrun, ok_bind, pure_eq_ok]
  | removeTimer ev =>
      obtain ⟨base', hrun, hinv, hrp⟩ := removeTimer_spec h.base (own_of he)
      refine ⟨{ s with base := base' }, ?_, h.withBase hinv hrp⟩
      simp only [machine, hrun, ok_bind, pure_eq_ok]
  | active ev res =>
      obtain ⟨-, ha⟩ := EventBase.eventActive_spec h.base.ok he.1 res
      exact ⟨_, rfl, h.withBase (h.base.eventActive he.1 res) ha.running⟩
  | activeLater ev res =>
      obtain ⟨hinv, hrp⟩ := activeLater_spec h.base he.1 res
      exact ⟨_, rfl, h.withBase hinv hrp⟩
  | addVirtual => exact ⟨_, rfl, ⟨h.base, h.first, h.cached⟩⟩
  | delVirtual => exact ⟨_, rfl, ⟨h.base, h.first, h.cached⟩⟩
  | loopContinue =>
      refine ⟨_, rfl, h.withBase ⟨h.base.ok.congr rfl rfl rfl rfl rfl,
        ⟨h.base.deadlines.plain, h.base.deadlines.covered⟩, ?_, fun _ => .inl (htold rfl)⟩ rfl⟩
      intro i _ hc
      cases hc
  | updateCache => exact ⟨_, rfl, h.updateTimeCache⟩
  | makeLater => exact ⟨_, rfl, h.withBase (makeLater_spec h.base he) rfl⟩
  | dispatch => exact ⟨_, rfl, ⟨h.base, h.first, nofun⟩⟩
  | ready fd events =>
      obtain ⟨hinv, -, hrp⟩ := h.base.ioActive fd events
      exact ⟨_, rfl, h.withBase hinv hrp⟩
  | timeouts =>
      have hu := h.updateTimeCache
      obtain ⟨base', hrun, hinv, hexp⟩ :=
        EventBase.timeoutLoop_spec B (s.updateTimeCache S).gettime hu.base (Nat.lt_succ_self _)
      refine ⟨{ s.updateTimeCache S with base := base' }, ?_, hu.withBase hinv hexp.running⟩
      simp only [machine, EventBase.timeoutProcess, hrun, ok_bind, pure_eq_ok]
  | start =>
      cases hq : s.firstQueue S 0 with
      | none => exact ⟨s, by simp only [machine, hq], h⟩
      | some i =>
          obtain ⟨ev, tl, s', -, hrun, hinv, -⟩ := start_spec B debug h he hq
          exact ⟨s', hrun, hinv⟩
  | next =>
      obtain ⟨hcur, hrp, hcont⟩ := he
      obtain ⟨i, hi⟩ := Option.ne_none_iff_exists'.mp hrp
      by_cases hne : s.base.actives.activequeues i = []
      · exact ⟨s, by simp only [machine, hi, runQueue, hne], h⟩
      · obtain ⟨ev, tl, s', -, hrun, hinv, -⟩ := next_spec B debug h hcur hi hcont hne
        exact ⟨s', hrun, hinv⟩
  | advance =>
      obtain ⟨hcur, hgo⟩ := he
      cases hrp : s.base.runningPriority with
      | none => exact ⟨s, by simp only [machine, hrp, Option.bind_none], h⟩
      | some i =>
          cases hq : s.firstQueue S (i + 1) with
          | none => exact ⟨s, by simp only [machine, hrp, Option.bind_some, hq], h⟩
          | some j =>
              obtain ⟨ev, tl, s', -, hrun, hinv, -⟩ := advance_spec B debug h hcur hrp (hgo i hrp) hq
              exact ⟨s', hrun, hinv⟩
  | finish =>
      refine ⟨_, rfl, ⟨⟨h.base.ok.congr rfl rfl rfl rfl rfl,
        ⟨h.base.deadlines.plain, h.base.deadlines.covered⟩, ?_, ?_⟩, ?_, h.cached⟩⟩
      · intro i hi
        cases hi
      · intro hc
        cases hc
      · intro i hi
        cases hi
  | callback => exact callback_spec h he

/-- The invariant holds in every reachable state. -/
theorem inv_of_reachable (hr : (machine B debug S).Reachable s) : s.Inv S True :=
  hr.preserved (fun _ => Inv.start) fun _ _ h he => h.step _ _ he fun _ => trivial

end Loop
end LinuxServer.Libevent
