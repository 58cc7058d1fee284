import LinuxServer.Libevent.BaseOk

/-!
# Common timeouts

An event with a common timeout is not in the heap, so the loop would not wake up for it. What it wakes up
for is the event of the list, whose callback activates what is due and then waits for the first one of
the rest. `Deadlines` says that this event always comes in time: it is in the heap with a timeout that is
no later than any in the list, or else it is active, or its callback is just being run.

`Priorities` says that no event is passed over by a less important one.
-/

namespace LinuxServer.Libevent

open Library

namespace EventBase
variable {σ : Type}

/-- Whatever is in the list `q`, its event comes in time. -/
def Covered (S : Setup) (base : EventBase σ) (q : Nat) : Prop :=
  base.current = some (S.timeoutEvent q) ∨ base.actives.active (S.timeoutEvent q) = true ∨
  ∀ e, base.timers.pending e = true → Timers.isCommon S.nCommon (base.timers.timeout e) = some q →
    base.timers.pending (S.timeoutEvent q) = true ∧
      base.timers.key (S.timeoutEvent q) ≤ base.timers.key e

structure Deadlines (S : Setup) (base : EventBase σ) : Prop where
  plain : ∀ q < S.nCommon, base.timers.pending (S.timeoutEvent q) = true →
    Timers.isCommon S.nCommon (base.timers.timeout (S.timeoutEvent q)) = none
  covered : ∀ q < S.nCommon, Covered S base q

/-- While a queue is being worked off, all active events are in this queue or behind it, unless the loop is
to look again, which it is not for the first queue; but `event_base_loopcontinue` may have `told` it to. -/
def Priorities (S : Setup) (told : Prop) (base : EventBase σ) : Prop :=
  (∀ i, base.runningPriority = some i → base.eventContinue = false →
    ∀ e, base.actives.active e = true → i ≤ S.pri e) ∧
  (base.eventContinue = true → told ∨ ∃ i, base.runningPriority = some i ∧ 0 < i)

structure Inv (S : Setup) (told : Prop) (base : EventBase σ) : Prop where
  ok : Ok S base
  deadlines : Deadlines S base
  priorities : Priorities S told base

/-- An event the program may use. -/
def Own (S : Setup) (ev : Nat) : Prop := ev < S.size ∧ ∀ q < S.nCommon, ev ≠ S.timeoutEvent q

variable {B : EventOp σ} {debug : Bool} {S : Setup} {base base' : EventBase σ} {ev q : Nat}
  {tv : Timeval} {res : Res} {told : Prop}

/-! ## Steps that keep it -/

/-- Fewer active events, and nothing else has changed. -/
theorem Priorities.of_le (h : Priorities S told base) (hrun : base'.runningPriority = base.runningPriority)
    (hcont : base'.eventContinue = base.eventContinue)
    (hact : ∀ e, base'.actives.active e = true → base.actives.active e = true) :
    Priorities S told base' := by
  unfold Priorities
  rw [hrun, hcont]
  refine ⟨?_, h.2⟩
  intro i hi hc e he
  exact h.1 i hi hc e (hact e he)

theorem of_update_false {b : Nat → Bool} {e : Nat} (h : Function.update b ev false e = true) :
    e ≠ ev ∧ b e = true := by
  by_cases he : e = ev
  · rw [he, Function.update_self] at h
    cases h
  · rw [Function.update_of_ne he] at h
    exact ⟨he, h⟩

/-- Deleting an event of the program keeps the lists covered by their own events. -/
theorem Covered.deleted (h : Covered S base q) (hd : Deleted base ev base')
    (hne : ev ≠ S.timeoutEvent q) : Covered S base' q := by
  rcases h with hcur | hact | hlist
  · exact .inl (hd.current.trans hcur)
  · refine .inr (.inl ?_)
    rw [hd.active, Function.update_of_ne hne.symm]
    exact hact
  · refine .inr (.inr ?_)
    intro e he hcom
    rw [hd.pending] at he
    rw [hd.timeout] at hcom
    obtain ⟨hp, hle⟩ := hlist e (of_update_false he).2 hcom
    rw [hd.pending, Function.update_of_ne hne.symm, Timers.key, Timers.key, hd.timeout]
    exact ⟨hp, hle⟩

/-- Activating an event keeps the lists covered by their own events. -/
theorem Covered.activated (h : Covered S base q) (ha : Activated S base ev res base') :
    Covered S base' q := by
  rcases h with hcur | hact | hlist
  · exact .inl (ha.current.trans hcur)
  · refine .inr (.inl ?_)
    rw [ha.active]
    by_cases he : S.timeoutEvent q = ev
    · rw [he, Function.update_self]
    · rw [Function.update_of_ne he]
      exact hact
  · refine .inr (.inr ?_)
    rw [ha.timers]
    exact hlist

/-- The event `ev` gets a timeout. If it is a common one of the list `q`, the event of the list has to come
in time for `ev` too. -/
theorem Covered.timed (h : Covered S base q) (ht : Timed base ev tv base')
    (hne : ev ≠ S.timeoutEvent q)
    (hself : Timers.isCommon S.nCommon tv = some q → base'.current = some (S.timeoutEvent q) ∨
      base'.actives.active (S.timeoutEvent q) = true ∨
      (base'.timers.pending (S.timeoutEvent q) = true ∧
        base'.timers.key (S.timeoutEvent q) ≤ base'.timers.key ev)) :
    Covered S base' q := by
  rcases h with hcur | hact | hlist
  · exact .inl (ht.current.trans hcur)
  · refine .inr (.inl ?_)
    rw [ht.active, Function.update_of_ne hne.symm]
    exact hact
  · by_cases hcom : Timers.isCommon S.nCommon tv = some q
    · rcases hself hcom with hcur | hact | ⟨hp, hle⟩
      · exact .inl hcur
      · exact .inr (.inl hact)
      · refine .inr (.inr ?_)
        intro e he hce
        by_cases hev : e = ev
        · rw [hev]
          exact ⟨hp, hle⟩
        · rw [ht.pending, Function.update_of_ne hev] at he
          rw [ht.timeout, Function.update_of_ne hev] at hce
          obtain ⟨hp', hle'⟩ := hlist e he hce
          refine ⟨hp, ?_⟩
          rw [Timers.key, Timers.key, ht.timeout, Function.update_of_ne hev,
            Function.update_of_ne hne.symm]
          exact hle'
    · refine .inr (.inr ?_)
      intro e he hce
      have hev : e ≠ ev := by
        rintro rfl
        rw [ht.timeout, Function.update_self] at hce
        exact hcom hce
      rw [ht.pending, Function.update_of_ne hev] at he
      rw [ht.timeout, Function.update_of_ne hev] at hce
      obtain ⟨hp', hle'⟩ := hlist e he hce
      rw [ht.pending, Function.update_of_ne hne.symm, Timers.key, Timers.key, ht.timeout,
        Function.update_of_ne hev, Function.update_of_ne hne.symm]
      exact ⟨hp', hle'⟩

/-- The list `q` begins with `head`. -/
theorem key_head_le (h : Ok S base) {head : Nat} (hhead : (base.timers.common q).head? = some head)
    {e : Nat} (he : base.timers.pending e = true)
    (hcom : Timers.isCommon S.nCommon (base.timers.timeout e) = some q) :
    base.timers.key head ≤ base.timers.key e := by
  have hmem := (h.timers.in_list q e).mpr ⟨he, hcom⟩
  have hsorted := h.timers.sorted q
  obtain ⟨tl, htl⟩ : ∃ tl, base.timers.common q = head :: tl := by
    cases hl : base.timers.common q with
    | nil =>
        rw [hl] at hhead
        cases hhead
    | cons x tl =>
        rw [hl] at hhead
        exact ⟨tl, by rw [Option.some.inj hhead]⟩
  rw [htl] at hmem hsorted
  rcases List.mem_cons.mp hmem with rfl | hmem
  · exact le_rfl
  · exact (List.pairwise_cons.mp hsorted).1 e hmem

/-- After `common_timeout_schedule` for the first of the list, its event comes in time. -/
theorem Deadlines.scheduled {head : Nat} (h : Ok S base)
    (hplain : ∀ q < S.nCommon, base.timers.pending (S.timeoutEvent q) = true →
      Timers.isCommon S.nCommon (base.timers.timeout (S.timeoutEvent q)) = none)
    (hcov : ∀ q' < S.nCommon, q' ≠ q → Covered S base q') (hq : q < S.nCommon)
    (hhead : (base.timers.common q).head? = some head)
    (ht : Timed base (S.timeoutEvent q) ⟨base.timers.key head, none⟩ base') : Deadlines S base' where
  plain := by
    intro q' hq' hp
    rw [ht.timeout]
    by_cases heq : S.timeoutEvent q' = S.timeoutEvent q
    · rw [heq, Function.update_self]
      rfl
    · rw [ht.pending, Function.update_of_ne heq] at hp
      rw [Function.update_of_ne heq]
      exact hplain q' hq' hp
  covered := by
    intro q' hq'
    by_cases heq : q' = q
    · subst heq
      refine .inr (.inr ?_)
      intro e he hcom
      have hne : e ≠ S.timeoutEvent q' := by
        rintro rfl
        rw [ht.timeout, Function.update_self] at hcom
        cases hcom
      rw [ht.pending, Function.update_of_ne hne] at he
      rw [ht.timeout, Function.update_of_ne hne] at hcom
      refine ⟨by rw [ht.pending, Function.update_self], ?_⟩
      rw [Timers.key, Timers.key, ht.timeout, Function.update_self, Function.update_of_ne hne]
      exact key_head_le h hhead he hcom
    · have hne : S.timeoutEvent q ≠ S.timeoutEvent q' :=
        fun h => heq (S.timeoutEvent_inj q hq q' hq' h).symm
      exact (hcov q' hq' heq).timed ht hne fun hcom => nomatch hcom

/-! ## Deleting and activating -/

/-- Deleting an event of the program keeps the invariant. -/
theorem Inv.deleted (h : Inv S told base) (hown : ∀ q < S.nCommon, ev ≠ S.timeoutEvent q)
    (hok : Ok S base') (hd : Deleted base ev base') : Inv S told base' where
  ok := hok
  deadlines := by
    refine ⟨?_, fun q hq => (h.deadlines.covered q hq).deleted hd (hown q hq)⟩
    intro q hq hp
    rw [hd.pending] at hp
    rw [hd.timeout]
    exact h.deadlines.plain q hq (of_update_false hp).2
  priorities := by
    refine h.priorities.of_le hd.running hd.continues ?_
    intro e he
    rw [hd.active] at he
    exact (of_update_false he).2

/-- An event that is activated during the round makes the loop look again if it is more important. -/
theorem Priorities.activated (h : Priorities S told base) (ha : Activated S base ev res base') :
    Priorities S told base' := by
  constructor
  · intro i hi hc e he
    rw [ha.running] at hi
    obtain ⟨hc', hpri⟩ := ha.continues i hi hc
    rw [ha.active] at he
    by_cases hev : e = ev
    · subst hev
      by_contra hlt
      exact hlt (h.1 i hi hc' e (hpri (Nat.not_le.mp hlt)))
    · rw [Function.update_of_ne hev] at he
      exact h.1 i hi hc' e he
  · intro hc
    rw [ha.running]
    rcases ha.asked hc with hold | ⟨i, hi, hlt⟩
    · exact h.2 hold
    · exact .inr ⟨i, hi, by omega⟩

/-- Activating an event keeps the invariant. -/
theorem Inv.activated (h : Inv S told base) (hok : Ok S base') (ha : Activated S base ev res base') :
    Inv S told base' where
  ok := hok
  deadlines := by
    refine ⟨?_, fun q hq => (h.deadlines.covered q hq).activated ha⟩
    rw [ha.timers]
    exact h.deadlines.plain
  priorities := h.priorities.activated ha

/-- `event_active` keeps the invariant. -/
theorem Inv.eventActive (h : Inv S told base) (hev : ev < S.size) (res : Res) :
    Inv S told (base.eventActive S ev res) := by
  obtain ⟨hok, ha⟩ := eventActive_spec h.ok hev res
  exact h.activated hok ha

/-- An event whose timeout has come is deleted and activated, also if it is the event of a list. -/
theorem Inv.expire {base₁ : EventBase σ} (h : Inv S told base) (hev : ev < S.size)
    (hok : Ok S base₁) (hd : Deleted base ev base₁) : Inv S told (base₁.eventActive S ev evTimeout) := by
  obtain ⟨hok', ha⟩ := eventActive_spec hok hev evTimeout
  have hp : Priorities S told base₁ := by
    refine h.priorities.of_le hd.running hd.continues ?_
    intro e he
    rw [hd.active] at he
    exact (of_update_false he).2
  refine ⟨hok', ⟨?_, ?_⟩, hp.activated ha⟩
  · intro q hq hpend
    rw [ha.timers] at hpend ⊢
    rw [hd.pending] at hpend
    rw [hd.timeout]
    exact h.deadlines.plain q hq (of_update_false hpend).2
  · intro q hq
    by_cases heq : ev = S.timeoutEvent q
    · refine .inr (.inl ?_)
      rw [ha.active, ← heq, Function.update_self]
    · exact ((h.deadlines.covered q hq).deleted hd heq).activated ha

/-! ## Adding -/

/-- What the first part of `event_add` leaves alone. -/
structure Entered (base base' : EventBase σ) : Prop where
  pending : base'.timers.pending = base.timers.pending
  timeout : base'.timers.timeout = base.timers.timeout
  actives : base'.actives = base.actives
  res : base'.res = base.res
  ioTimeout : base'.ioTimeout = base.ioTimeout
  running : base'.runningPriority = base.runningPriority
  continues : base'.eventContinue = base.eventContinue
  current : base'.current = base.current

/-- The first part of `event_add` keeps the invariant. -/
theorem Inv.entered (h : Inv S told base) (hok : Ok S base') (he : Entered base base') : Inv S told base' where
  ok := hok
  deadlines := by
    constructor
    · rw [he.pending, he.timeout]
      exact h.deadlines.plain
    · intro q hq
      unfold Covered Timers.key
      rw [he.current, he.actives, he.pending, he.timeout]
      exact h.deadlines.covered q hq
  priorities := by
    refine h.priorities.of_le he.running he.continues ?_
    rw [he.actives]
    exact fun _ h => h

variable (B debug) in
/-- The first part of `event_add`. -/
theorem addIo_entered (h : Ok S base) (hev : ev < S.size) (wants : Bool) :
    ∃ base' res, (if wants && !base.timers.pending ev then base.reserve else base).addIo B debug S ev =
        (base', res) ∧ Ok S base' ∧ Entered base base' ∧ (res = -1 ∨ res = 0) ∧
        (res = -1 → base'.io = base.io ∧ base'.inserted = base.inserted ∧
          base'.eventCount = base.eventCount) := by
  set r := if (wants && !base.timers.pending ev) = true then base.reserve else base with hr
  have hok : Ok S r := by
    rw [hr]
    split
    · exact h.reserve
    · exact h
  have hent : Entered base r ∧ r.io = base.io ∧ r.inserted = base.inserted ∧
      r.eventCount = base.eventCount := by
    rw [hr]
    split <;> exact ⟨⟨rfl, rfl, rfl, rfl, rfl, rfl, rfl, rfl⟩, rfl, rfl, rfl⟩
  obtain ⟨base', res, hrun, hok', hcase⟩ := hok.addIo B debug hev
  refine ⟨base', res, hrun, hok', ?_⟩
  rcases hcase with ⟨rfl, rfl⟩ | ⟨rfl, io, ins, c, rfl⟩
  · exact ⟨hent.1, .inl rfl, fun _ => hent.2⟩
  · obtain ⟨h₁, h₂, h₃, h₄, h₅, h₆, h₇, h₈⟩ := hent.1
    exact ⟨⟨h₁, h₂, h₃, h₄, h₅, h₆, h₇, h₈⟩, .inr rfl, fun hf => absurd hf (by decide)⟩

/-- Whether a timeout is a common one does not depend on the time. -/
theorem isCommon_timeoutOf (now : Int) (tv : Timeval) (isAbs : Bool) :
    Timers.isCommon S.nCommon (timeoutOf now tv isAbs) = Timers.isCommon S.nCommon tv := by
  cases isAbs with
  | false => rfl
  | true => rfl

/-- What `event_add` does beside the event: nothing becomes active. -/
structure Quiet (base base' : EventBase σ) : Prop where
  running : base'.runningPriority = base.runningPriority
  continues : base'.eventContinue = base.eventContinue
  current : base'.current = base.current
  active : ∀ e, base'.actives.active e = true → base.actives.active e = true

/-- A new timeout activates nothing. -/
theorem Timed.quiet (h : Timed base ev tv base') : Quiet base base' where
  running := h.running
  continues := h.continues
  current := h.current
  active := by
    intro e he
    rw [h.active] at he
    by_cases hev : e = ev
    · rw [hev, Function.update_self, Bool.and_eq_true] at he
      rw [hev]
      exact he.1
    · rw [Function.update_of_ne hev] at he
      exact he

/-- One after the other. -/
theorem Quiet.trans {base₁ : EventBase σ} (h : Quiet base base₁) (h' : Quiet base₁ base') :
    Quiet base base' where
  running := h'.running.trans h.running
  continues := h'.continues.trans h.continues
  current := h'.current.trans h.current
  active := fun e he => h.active e (h'.active e he)

/-- The first part of `event_add` activates nothing. -/
theorem Entered.quiet (h : Entered base base') : Quiet base base' where
  running := h.running
  continues := h.continues
  current := h.current
  active := by
    rw [h.actives]
    exact fun _ h => h

variable (B debug) in
/-- `event_add` returns, and the events of the lists still come in time. -/
theorem Inv.eventAdd (h : Inv S told base) (hown : Own S ev) (now : Int) (tv : Option Timeval)
    (isAbs : Bool) :
    ∃ base' res, base.eventAdd B debug S now ev tv isAbs = .ok (base', res) ∧ Inv S told base' ∧
      Quiet base base' := by
  obtain ⟨hev, hown⟩ := hown
  obtain ⟨base₁, res, hio, hok₁, hent, hres, -⟩ :=
    addIo_entered B debug h.ok hev tv.isSome
  have h₁ := h.entered hok₁ hent
  unfold EventBase.eventAdd eventAddWith
  dsimp only
  rw [hio]
  dsimp only
  cases tv with
  | none => exact ⟨base₁, res, rfl, h₁, hent.quiet⟩
  | some tv =>
      dsimp only
      by_cases hfail : res = -1
      · rw [if_neg (by simpa using hfail)]
        exact ⟨base₁, res, rfl, h₁, hent.quiet⟩
      · rw [if_pos hfail]
        obtain ⟨base₂, hrun, hok₂, ht⟩ := addTimer_spec hok₁ hev now tv isAbs
        rw [hrun, ok_bind]
        have hquiet := hent.quiet.trans ht.quiet
        have hplain : ∀ q < S.nCommon, base₂.timers.pending (S.timeoutEvent q) = true →
            Timers.isCommon S.nCommon (base₂.timers.timeout (S.timeoutEvent q)) = none := by
          intro q hq hp
          rw [ht.pending, Function.update_of_ne (hown q hq).symm] at hp
          rw [ht.timeout, Function.update_of_ne (hown q hq).symm]
          exact h₁.deadlines.plain q hq hp
        have hprio : Priorities S told base₂ :=
          h₁.priorities.of_le ht.running ht.continues ht.quiet.active
        cases hcom : Timers.isCommon S.nCommon tv with
        | none =>
            refine ⟨base₂, res, rfl, ⟨hok₂, ⟨hplain, fun q hq => ?_⟩, hprio⟩, hquiet⟩
            refine (h₁.deadlines.covered q hq).timed ht (hown q hq) ?_
            rw [isCommon_timeoutOf, hcom]
            exact fun hf => nomatch hf
        | some q =>
            have hq := (Timers.isCommon_lt hcom).1
            have hcov : ∀ q' < S.nCommon, q' ≠ q → Covered S base₂ q' := by
              intro q' hq' hne
              refine (h₁.deadlines.covered q' hq').timed ht (hown q' hq') ?_
              rw [isCommon_timeoutOf, hcom]
              intro heq
              exact absurd (Option.some.inj heq).symm hne
            have hmem : base₂.timers.pending ev = true ∧
                Timers.isCommon S.nCommon (base₂.timers.timeout ev) = some q := by
              rw [ht.pending, ht.timeout, Function.update_self, Function.update_self,
                isCommon_timeoutOf]
              exact ⟨rfl, hcom⟩
            dsimp only
            by_cases hhead : (base₂.timers.common q).head? = some ev
            · obtain ⟨base₃, hsched, hok₃, ht₃⟩ :=
                commonTimeoutSchedule_spec B debug hok₂ hq ev
              rw [if_pos hhead, hsched, ok_bind]
              refine ⟨base₃, res, rfl, ⟨hok₃, .scheduled hok₂ hplain hcov hq hhead ht₃, ?_⟩,
                hquiet.trans ht₃.quiet⟩
              exact hprio.of_le ht₃.running ht₃.continues ht₃.quiet.active
            · rw [if_neg hhead]
              refine ⟨base₂, res, rfl, ⟨hok₂, ⟨hplain, fun q' hq' => ?_⟩, hprio⟩, hquiet⟩
              by_cases heq : q' = q
              · subst heq
                -- the first one of the list was there before
                obtain ⟨head, hhd⟩ : ∃ head, (base₂.timers.common q').head? = some head := by
                  cases hl : base₂.timers.common q' with
                  | nil =>
                      have := (hok₂.timers.in_list q' ev).mpr hmem
                      rw [hl] at this
                      cases this
                  | cons x tl => exact ⟨x, rfl⟩
                have hne : head ≠ ev := by
                  rintro rfl
                  exact hhead hhd
                have hhmem := (hok₂.timers.in_list q' head).mp (List.mem_of_mem_head? hhd)
                have hle := key_head_le hok₂ hhd hmem.1 hmem.2
                have hnet := (hown q' hq').symm
                rcases h₁.deadlines.covered q' hq' with hcur | hact | hlist
                · exact .inl (ht.current.trans hcur)
                · refine .inr (.inl ?_)
                  rw [ht.active, Function.update_of_ne hnet]
                  exact hact
                · refine (h₁.deadlines.covered q' hq').timed ht (hown q' hq') fun _ => .inr (.inr ?_)
                  rw [ht.pending, ht.timeout, Function.update_of_ne hne, Function.update_of_ne hne]
                    at hhmem
                  obtain ⟨hp, hle'⟩ := hlist head hhmem.1 hhmem.2
                  rw [ht.pending, Function.update_of_ne hnet]
                  refine ⟨hp, le_trans ?_ hle⟩
                  rw [Timers.key, Timers.key, ht.timeout, Function.update_of_ne hnet,
                    Function.update_of_ne hne]
                  exact hle'
              · exact hcov q' hq' heq

end EventBase
end LinuxServer.Libevent
