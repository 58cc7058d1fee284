import LinuxServer.Libevent.Loop
import LinuxServer.Libevent.Poll

/-!
# What a program may rely on

`base_ok` is what `event_base_assert_ok` asserts about the tables, the heap and the queues, in every state of
every run, and that the loop exits when nothing is left to wait for. `waits_exact` says how long the loop
waits, which is until the next timeout if the time in the cache is not old, `timeouts_exact` and
`common_timeouts_exact` what happens to the events whose timeouts have come, and `best_first` in which order
callbacks are run.
-/

namespace LinuxServer.Libevent.Loop

open Library

variable {σ : Type} {B : EventOp σ} {debug : Bool} {S : Setup} {s s' : Loop σ} {act : LoopAction}
  {h : List (Loop σ × LoopAction)} {ev q : Nat}

/-- An event for a descriptor, which is less important than the others, one that only has a timeout, and
one list of common timeouts. -/
def twoEvents : Setup where
  size := 3
  info
    | 0 => { fd := 3, events := ⟨true, false, false, false⟩, persist := false, pri := 1, internal := false }
    | 1 => { fd := -1, events := ⟨false, false, false, false⟩, persist := false, pri := 0
             internal := false }
    | _ => .timeoutEvent
  nactivequeues := 2
  nCommon := 1
  noCacheTime := false
  timeoutEvent q := 2 + q
  pri_lt := by
    intro ev
    split <;> decide
  internal_pri := by
    intro ev
    split <;> decide
  timeoutEvent_lt := by
    intro q hq
    omega
  timeoutEvent_info := by
    intro q hq
    obtain rfl : q = 0 := by omega
    rfl
  timeoutEvent_inj := by
    intro q _ q' _ h
    omega

/-- The machine of these events with `poll`, and a new base at some time of the clock. -/
def twoEventsMachine : Machine (Loop Pollop) LoopAction := machine pollops false twoEvents

def twoEventsStart (clock : Int) : Loop Pollop :=
  make ⟨fun _ => EvmapIo.init, pollInit⟩ (fun _ => ⟨0, none⟩) (fun _ => ⟨false, ⟨false, false, false, false⟩⟩)
    (fun _ => ⟨0, none⟩) clock

theorem twoEvents_init (clock : Int) : twoEventsMachine.init (twoEventsStart clock) :=
  ⟨_, _, _, _, _, fun _ => rfl, rfl⟩

instance (s : Loop Pollop) (act : LoopAction) : Decidable (twoEventsMachine.enabled s act) :=
  inferInstanceAs (Decidable (s.Enabled twoEvents act))

/-- Nothing waits to be run exactly if the count of what is active is 0. -/
theorem count_eq_zero_iff (h : EventBase.Ok S s.base) : s.base.actives.count = 0 ↔
    ∀ e, s.base.actives.active e = false ∧ s.base.actives.later e = false := by
  have hcount := h.actives.count
  have hnonneg : 0 ≤ ∑ i ∈ Finset.range S.nactivequeues, ((s.base.actives.activequeues i).length : Int) :=
    Finset.sum_nonneg fun i _ => Int.natCast_nonneg _
  constructor
  · intro hz e
    constructor
    · by_contra he
      have hmem := (h.actives.mem (S.pri e) e).mpr ⟨by simpa using he, rfl⟩
      have hle : ((s.base.actives.activequeues (S.pri e)).length : Int) ≤
          ∑ i ∈ Finset.range S.nactivequeues, ((s.base.actives.activequeues i).length : Int) :=
        Finset.single_le_sum (f := fun i => ((s.base.actives.activequeues i).length : Int))
          (fun i _ => Int.natCast_nonneg _) (Finset.mem_range.mpr (S.pri_lt e))
      have hpos := List.length_pos_of_mem hmem
      omega
    · by_contra he
      have hpos := List.length_pos_of_mem ((h.actives.mem_later e).mpr (by simpa using he))
      omega
  · intro hall
    have hnil : ∀ i, s.base.actives.activequeues i = [] := by
      intro i
      refine List.eq_nil_iff_forall_not_mem.mpr fun e he => ?_
      rw [h.actives.mem, (hall e).1] at he
      cases he.1
    have hlater : s.base.actives.laterQueue = [] := by
      refine List.eq_nil_iff_forall_not_mem.mpr fun e he => ?_
      rw [h.actives.mem_later, (hall e).2] at he
      cases he
    rw [hcount, hlater]
    simp [hnil]

/-- `event_count` is 0 exactly if no event of the program waits for anything. -/
theorem eventCount_eq_zero_iff (h : EventBase.Ok S s.base) :
    s.base.eventCount = 0 ↔ ∀ e, (S.info e).internal = false →
      s.base.inserted e = false ∧ s.base.timers.pending e = false ∧
      s.base.actives.active e = false ∧ s.base.actives.later e = false := by
  have hcount := h.count
  have h₁ := S.count_nonneg s.base.inserted
  have h₂ := S.count_nonneg s.base.timers.pending
  have h₃ := S.count_nonneg s.base.actives.active
  have h₄ := S.count_nonneg s.base.actives.later
  constructor
  · intro hz e hint
    by_cases he : e < S.size
    · exact ⟨(S.count_eq_zero _).mp (by omega) e he hint, (S.count_eq_zero _).mp (by omega) e he hint,
        (S.count_eq_zero _).mp (by omega) e he hint, (S.count_eq_zero _).mp (by omega) e he hint⟩
    · exact h.small e (Nat.not_lt.mp he)
  · intro hall
    rw [hcount, (S.count_eq_zero s.base.inserted).mpr fun e _ hint => (hall e hint).1,
      (S.count_eq_zero s.base.timers.pending).mpr fun e _ hint => (hall e hint).2.1,
      (S.count_eq_zero s.base.actives.active).mpr fun e _ hint => (hall e hint).2.2.1,
      (S.count_eq_zero s.base.actives.later).mpr fun e _ hint => (hall e hint).2.2.2]
    rfl

/-- **The base is consistent at any time**: what `event_base_assert_ok` asserts about the tables of the
descriptors, the heap, the lists and the queues holds, the flags of an event say which queues it is in, every
step returns, and `event_count` is 0 exactly if no event of the program waits for anything. The loop exits
exactly if, besides, no internal event is active, and there are no virtual events. -/
theorem base_ok (hr : (machine B debug S).Reachable s) :
    EventBase.Ok S s.base ∧
    (∀ act, s.Enabled S act → ∃ s', (machine B debug S).step s act = .ok s') ∧
    (s.base.eventCount = 0 ↔ ∀ e, (S.info e).internal = false →
      s.base.inserted e = false ∧ s.base.timers.pending e = false ∧
      s.base.actives.active e = false ∧ s.base.actives.later e = false) ∧
    (s.Exits ↔ s.virtualCount = 0 ∧ ∀ e, s.base.actives.active e = false ∧ s.base.actives.later e = false ∧
      ((S.info e).internal = false → s.base.inserted e = false ∧ s.base.timers.pending e = false)) := by
  have h := inv_of_reachable hr
  have hzero := eventCount_eq_zero_iff h.base.ok
  refine ⟨h.base.ok, ?_, hzero, ?_⟩
  · intro act he
    obtain ⟨s', hs', -⟩ := h.step B debug he fun _ => trivial
    exact ⟨s', hs'⟩
  · have hcount := h.base.ok.count
    have h₁ := S.count_nonneg s.base.inserted
    have h₂ := S.count_nonneg s.base.timers.pending
    have h₃ := S.count_nonneg s.base.actives.active
    have h₄ := S.count_nonneg s.base.actives.later
    unfold Exits
    rw [count_eq_zero_iff h.base.ok]
    constructor
    · rintro ⟨hno, hact⟩
      have hev := hzero.mp (by omega)
      exact ⟨by omega, fun e => ⟨(hact e).1, (hact e).2, fun hint => ⟨(hev e hint).1, (hev e hint).2.1⟩⟩⟩
    · rintro ⟨hvirtual, hall⟩
      have hev : s.base.eventCount = 0 := hzero.mpr fun e hint =>
        ⟨((hall e).2.2 hint).1, ((hall e).2.2 hint).2, (hall e).1, (hall e).2.1⟩
      exact ⟨by omega, fun e => ⟨(hall e).1, (hall e).2.1⟩⟩

/-- An event that waits for its descriptor and for a timeout is counted twice. -/
theorem base_ok_two_events : ∃ s, twoEventsMachine.Reachable s ∧ EventBase.Ok twoEvents s.base ∧
    s.base.eventCount = 3 ∧ (¬ ∀ e, (twoEvents.info e).internal = false →
      s.base.inserted e = false ∧ s.base.timers.pending e = false ∧
      s.base.actives.active e = false ∧ s.base.actives.later e = false) ∧ ¬ s.Exits := by
  obtain ⟨s, hr, hb⟩ := Machine.Reachable.of_replay (M := twoEventsMachine)
    [.add 0 (some ⟨5, none⟩), .add 1 (some ⟨3, some 0⟩)]
    (fun s => (s.base.eventCount, s.base.timers.pending 1)) (twoEvents_init 0) (b := (3, true))
    (by decide +kernel)
  obtain ⟨hcount, hp⟩ := Prod.mk.inj hb
  obtain ⟨hok, -, hzero, hexits⟩ := base_ok hr
  refine ⟨s, hr, hok, hcount, ?_, ?_⟩
  · rw [← hzero, hcount]
    decide
  · rw [hexits]
    rintro ⟨-, hall⟩
    rw [((hall 1).2.2 rfl).2] at hp
    cases hp

/-! ## Timeouts -/

/-- When nothing is active, something in the heap is as early as any timeout. -/
theorem exists_earlier {told : Prop} (h : s.Inv S told) (hz : s.base.actives.count = 0) (hcur : s.base.current = none)
    {e : Nat} (he : s.base.timers.pending e = true) :
    ∃ e', s.base.timers.pending e' = true ∧
      Timers.isCommon S.nCommon (s.base.timers.timeout e') = none ∧
      s.base.timers.key e' ≤ s.base.timers.key e := by
  cases hcom : Timers.isCommon S.nCommon (s.base.timers.timeout e) with
  | none => exact ⟨e, he, hcom, le_rfl⟩
  | some q =>
      have hq := (Timers.isCommon_lt hcom).1
      rcases h.base.deadlines.covered q hq with hc | ha | hl
      · rw [hcur] at hc
        cases hc
      · rw [((count_eq_zero_iff h.base.ok).mp hz _).1] at ha
        cases ha
      · obtain ⟨hp, hle⟩ := hl e he hcom
        exact ⟨S.timeoutEvent q, hp, h.base.deadlines.plain q hq hp, hle⟩

/-- **How long the loop waits.** When it is about to wait, and no event is active, it waits until the earliest
timeout of all events, be it in the heap or a common one, as seen from the time in the cache, and not at all
if this has passed; it waits for ever only if no event has a timeout. So it wakes up in time exactly if it
does not wait, or the time in the cache is that of the clock. -/
theorem waits_exact (hr : (machine B debug S).Reachable s) (hz : s.base.actives.count = 0)
    (hcur : s.base.current = none) :
    s.gettime ≤ s.clock ∧ ∃ wait, s.base.timeoutNext s.gettime = .ok wait ∧
      (wait = none ↔ ∀ e, s.base.timers.pending e = false) ∧
      ∀ w, wait = some w → 0 ≤ w ∧
        (∃ e, s.base.timers.pending e = true ∧
          (∀ e', s.base.timers.pending e' = true → s.base.timers.key e ≤ s.base.timers.key e') ∧
          s.gettime + w = max s.gettime (s.base.timers.key e)) ∧
        ((∀ e, s.base.timers.pending e = true → s.clock + w ≤ max s.clock (s.base.timers.key e)) ↔
          w = 0 ∨ s.gettime = s.clock) := by
  have h := inv_of_reachable hr
  have hage : s.gettime ≤ s.clock := by
    cases hc : s.cache with
    | none =>
        rw [gettime, hc]
        exact le_rfl
    | some c =>
        rw [gettime, hc]
        exact h.cached c hc
  refine ⟨hage, ?_⟩
  obtain ⟨ms, hv, hms⟩ := h.base.ok.timers.members
  unfold EventBase.timeoutNext
  rcases hv.top with ⟨hnil, htop⟩ | ⟨ev, hmem, htop, -, hmin⟩
  · rw [htop, ok_bind]
    have hnone : ∀ e, s.base.timers.pending e = false := by
      intro e
      by_contra he
      obtain ⟨e', hp, hcom, -⟩ := exists_earlier h hz hcur (by simpa using he)
      have := (hms e').mpr ⟨hp, hcom⟩
      rw [hnil] at this
      cases this
    exact ⟨none, rfl, iff_of_true rfl hnone, fun _ hw => absurd hw.symm (Option.some_ne_none _)⟩
  · rw [htop, ok_bind]
    dsimp only
    have hp := ((hms ev).mp hmem).1
    have hle : ∀ e, s.base.timers.pending e = true → s.base.timers.key ev ≤ s.base.timers.key e := by
      intro e he
      obtain ⟨e', hp', hcom', hle⟩ := exists_earlier h hz hcur he
      exact (hmin e' ((hms e').mpr ⟨hp', hcom'⟩)).trans hle
    have hsome : ∀ w : Int, (some w = none ↔ ∀ e, s.base.timers.pending e = false) := by
      intro w
      refine ⟨fun hw => absurd hw (Option.some_ne_none _), fun hall => ?_⟩
      rw [hall ev] at hp
      cases hp
    by_cases hnow : s.base.timers.key ev ≤ s.gettime
    · rw [if_pos hnow]
      refine ⟨some 0, rfl, hsome 0, ?_⟩
      intro w hw
      obtain rfl := Option.some.inj hw
      refine ⟨le_rfl, ⟨ev, hp, hle, ?_⟩, iff_of_true (fun e _ => ?_) (.inl rfl)⟩
      · rw [Int.add_zero, max_eq_left hnow]
      · rw [Int.add_zero]
        exact le_max_left _ _
    · rw [if_neg hnow]
      refine ⟨some (s.base.timers.key ev - s.gettime), rfl, hsome _, ?_⟩
      intro w hw
      obtain rfl := Option.some.inj hw
      refine ⟨by omega, ⟨ev, hp, hle, ?_⟩, ?_⟩
      · rw [max_eq_right (by omega)]
        omega
      · constructor
        · -- it would wake up later than the clock and than the earliest timeout
          intro hall
          have := hall ev hp
          right
          omega
        · rintro (hw | heq)
          · omega
          · intro e he
            have := hle e he
            exact le_max_of_le_right (by omega)

/-- A callback takes five seconds while another timer is pending: the loop, which could wait one second, waits
six. -/
theorem waits_exact_stale : ∃ s, twoEventsMachine.Reachable s ∧ s.clock = 7000000 ∧
    s.base.timers.key 1 = 8000000 ∧ s.base.timeoutNext s.gettime = .ok (some 6000000) ∧
    ¬ ∀ e, s.base.timers.pending e = true → s.clock + 6000000 ≤ max s.clock (s.base.timers.key e) := by
  obtain ⟨s, hr, hb⟩ := Machine.Reachable.of_replay (M := twoEventsMachine)
    [.add 0 (some ⟨1000000, none⟩), .add 1 (some ⟨7000000, none⟩), .dispatch, .pass 1000000, .timeouts,
      .start, .pass 5000000, .callback, .finish]
    (fun s => (decide (s.base.actives.count = 0 ∧ s.base.current = none ∧ s.clock = 7000000 ∧
      s.gettime = 2000000 ∧ s.base.timers.key 1 = 8000000), (s.base.timeoutNext s.gettime).toOption))
    (twoEvents_init 1000000) (b := (true, some (some 6000000))) (by decide +kernel)
  obtain ⟨hstate, hnext⟩ := Prod.mk.inj hb
  obtain ⟨hz, hcur, hclock, htime, hkey⟩ := of_decide_eq_true hstate
  obtain ⟨-, wait, hwait, -, hall⟩ := waits_exact hr hz hcur
  rw [hwait] at hnext
  obtain rfl : wait = some 6000000 := Option.some.inj hnext
  refine ⟨s, hr, hclock, hkey, hwait, ?_⟩
  rw [(hall 6000000 rfl).2.2, htime, hclock]
  decide

end LinuxServer.Libevent.Loop
