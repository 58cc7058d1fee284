import LinuxServer.Libevent.Deadlines

/-!
# Timeouts and callbacks

What the functions of the loop keep: `timeout_process` and `common_timeout_callback`, which activate the
events whose timeouts have come, and the rounds of `event_process_active_single_queue`, which take an
event off its queue to run its callback.
-/

namespace LinuxServer.Libevent

open Library

namespace EventBase
variable {σ : Type} {B : EventOp σ} {debug : Bool} {S : Setup} {base base' : EventBase σ} {ev q : Nat}
  {now : Int} {told : Prop}

/-! ## Timeouts -/

/-- The event is in the heap, and its timeout has come. -/
def Due (S : Setup) (base : EventBase σ) (now : Int) (e : Nat) : Prop :=
  base.timers.pending e = true ∧ Timers.isCommon S.nCommon (base.timers.timeout e) = none ∧
    base.timers.key e ≤ now

/-- The events `due` have been deleted and activated, and nothing has happened to the others. -/
structure Expired (due : Nat → Prop) (base base' : EventBase σ) : Prop where
  expired : ∀ e, due e → base'.actives.active e = true ∧ (base'.res e).timeout = true ∧
    base'.inserted e = false ∧ base'.timers.pending e = false ∧ base'.actives.later e = false
  others : ∀ e, ¬ due e → base'.actives.active e = base.actives.active e ∧ base'.res e = base.res e ∧
    base'.inserted e = base.inserted e ∧ base'.timers.pending e = base.timers.pending e ∧
    base'.actives.later e = base.actives.later e
  timeout : base'.timers.timeout = base.timers.timeout
  ioTimeout : base'.ioTimeout = base.ioTimeout
  current : base'.current = base.current
  running : base'.runningPriority = base.runningPriority

theorem Expired.none {due : Nat → Prop} (h : ∀ e, ¬ due e) (base : EventBase σ) :
    Expired due base base where
  expired := fun e he => absurd he (h e)
  others := fun _ _ => ⟨rfl, rfl, rfl, rfl, rfl⟩
  timeout := rfl
  ioTimeout := rfl
  current := rfl
  running := rfl

/-- One event is due, and then the others are. -/
theorem Expired.step {due due' : Nat → Prop} {base₁ base₂ : EventBase σ} (hd : Deleted base ev base₁)
    (ha : Activated S base₁ ev evTimeout base₂) (h : Expired due' base₂ base')
    (hev : due ev) (hev' : ¬ due' ev) (hrest : ∀ e, e ≠ ev → (due e ↔ due' e)) :
    Expired due base base' where
  expired := by
    intro e he
    by_cases heq : e = ev
    · subst heq
      obtain ⟨h₁, h₂, h₃, h₄, h₅⟩ := h.others e hev'
      obtain ⟨r, hr, ht⟩ := ha.res
      rw [h₁, h₂, h₃, h₄, h₅, ha.active, hr, ha.inserted, ha.timers, ha.later, hd.inserted, hd.pending]
      simp only [Function.update_self]
      exact ⟨trivial, ht rfl, trivial, trivial, trivial⟩
    · exact h.expired e ((hrest e heq).mp he)
  others := by
    intro e he
    have heq : e ≠ ev := by
      rintro rfl
      exact he hev
    obtain ⟨h₁, h₂, h₃, h₄, h₅⟩ := h.others e fun hf => he ((hrest e heq).mpr hf)
    obtain ⟨r, hr, -⟩ := ha.res
    rw [h₁, h₂, h₃, h₄, h₅, ha.active, hr, ha.inserted, ha.timers, ha.later, hd.inserted, hd.pending,
      hd.active, hd.later, hd.res]
    simp only [Function.update_of_ne heq, and_self]
  timeout := by rw [h.timeout, ha.timers, hd.timeout]
  ioTimeout := by rw [h.ioTimeout, ha.ioTimeout, hd.ioTimeout]
  current := by rw [h.current, ha.current, hd.current]
  running := by rw [h.running, ha.running, hd.running]

/-- After an event has been deleted there is one less in the heap. -/
theorem heap_shrinks (h : Ok S base) (h' : Ok S base') (hp : base.timers.pending ev = true)
    (hcom : Timers.isCommon S.nCommon (base.timers.timeout ev) = none)
    (hpend : base'.timers.pending = Function.update base.timers.pending ev false)
    (htime : base'.timers.timeout = base.timers.timeout) :
    base'.timers.timeheap.n + 1 = base.timers.timeheap.n := by
  obtain ⟨ms, hv, hms⟩ := h.timers.members
  obtain ⟨ms', hv', hms'⟩ := h'.timers.members
  have hmem : ev ∈ ms := (hms ev).mpr ⟨hp, hcom⟩
  have hperm : ms'.Perm (ms.erase ev) := by
    rw [List.perm_ext_iff_of_nodup hv'.nodup (hv.nodup.erase ev)]
    intro e
    rw [hms', hpend, htime, hv.nodup.mem_erase_iff, hms]
    by_cases he : e = ev
    · subst he
      simp
    · simp [he]
  have hlen := List.length_erase_of_mem hmem
  have hpos := List.length_pos_of_mem hmem
  rw [hv.length_eq, hv'.length_eq, hperm.length_eq]
  omega

variable (B now) in
theorem timeoutLoop_spec (h : Inv S told base) {fuel : Nat} (hfuel : base.timers.timeheap.n < fuel) :
    ∃ base', timeoutLoop B S now fuel base = .ok base' ∧ Inv S told base' ∧
      Expired (Due S base now) base base' := by
  induction fuel generalizing base with
  | zero => omega
  | succ fuel ih =>
      obtain ⟨ms, hv, hms⟩ := h.ok.timers.members
      unfold timeoutLoop
      rcases hv.top with ⟨hnil, htop⟩ | ⟨ev, hmem, htop, -, hmin⟩
      · rw [htop, ok_bind]
        refine ⟨base, rfl, h, .none ?_ base⟩
        intro e he
        have := (hms e).mpr ⟨he.1, he.2.1⟩
        rw [hnil] at this
        cases this
      · rw [htop, ok_bind]
        dsimp only
        obtain ⟨hp, hcom⟩ := (hms ev).mp hmem
        by_cases hlate : base.timers.key ev > now
        · rw [if_pos hlate]
          refine ⟨base, rfl, h, .none ?_ base⟩
          intro e he
          have := hmin e ((hms e).mpr ⟨he.1, he.2.1⟩)
          have := he.2.2
          omega
        · rw [if_neg hlate]
          have hev : ev < S.size := by
            by_contra hge
            rw [(h.ok.small ev (Nat.not_lt.mp hge)).2.1] at hp
            cases hp
          obtain ⟨base₁, res, hdel, hok₁, hd⟩ := eventDel_spec (B := B) h.ok hev
          rw [hdel, ok_bind]
          dsimp only
          have hinv := h.expire hev hok₁ hd
          obtain ⟨-, ha⟩ := eventActive_spec hok₁ hev evTimeout
          have hshrink := heap_shrinks h.ok hok₁ hp hcom hd.pending hd.timeout
          have hsame : (base₁.eventActive S ev evTimeout).timers = base₁.timers := ha.timers
          obtain ⟨base', hrun, hinv', hexp⟩ := ih hinv (by rw [hsame]; omega)
          refine ⟨base', hrun, hinv', hexp.step hd ha ⟨hp, hcom, by omega⟩ ?_ ?_⟩
          · rintro ⟨hp', -⟩
            rw [hsame, hd.pending, Function.update_self] at hp'
            cases hp'
          · intro e he
            unfold Due Timers.key
            rw [hsame, hd.pending, hd.timeout, Function.update_of_ne he]

/-- What is due in the list `q`. -/
def DueIn (S : Setup) (base : EventBase σ) (now : Int) (q e : Nat) : Prop :=
  base.timers.pending e = true ∧ Timers.isCommon S.nCommon (base.timers.timeout e) = some q ∧
    base.timers.key e ≤ now

variable (B now) in
/-- The loop of `common_timeout_callback` stops at the first event that is not due. -/
theorem commonTimeoutLoop_spec (h : Inv S told base) {fuel : Nat}
    (hfuel : (base.timers.common q).length < fuel) :
    ∃ base', commonTimeoutLoop B S now q fuel base = .ok base' ∧ Inv S told base' ∧
      Expired (DueIn S base now q) base base' := by
  induction fuel generalizing base with
  | zero => omega
  | succ fuel ih =>
      unfold commonTimeoutLoop
      cases hl : base.timers.common q with
      | nil =>
          refine ⟨base, rfl, h, .none ?_ base⟩
          intro e he
          have := (h.ok.timers.in_list q e).mpr ⟨he.1, he.2.1⟩
          rw [hl] at this
          cases this
      | cons ev tl =>
          dsimp only
          have hhead : (base.timers.common q).head? = some ev := by rw [hl]; rfl
          have hmem : ev ∈ base.timers.common q := by rw [hl]; exact List.mem_cons_self
          obtain ⟨hp, hcom⟩ := (h.ok.timers.in_list q ev).mp hmem
          by_cases hlate : base.timers.key ev > now
          · rw [if_pos hlate]
            refine ⟨base, rfl, h, .none ?_ base⟩
            intro e he
            have := key_head_le h.ok hhead he.1 he.2.1
            have := he.2.2
            omega
          · rw [if_neg hlate]
            have hev : ev < S.size := by
              by_contra hge
              rw [(h.ok.small ev (Nat.not_lt.mp hge)).2.1] at hp
              cases hp
            obtain ⟨base₁, res, hdel, hok₁, hd⟩ := eventDel_spec (B := B) h.ok hev
            rw [hdel, ok_bind]
            dsimp only
            have hinv := h.expire hev hok₁ hd
            obtain ⟨-, ha⟩ := eventActive_spec hok₁ hev evTimeout
            have hsame : (base₁.eventActive S ev evTimeout).timers = base₁.timers := ha.timers
            have hshrink : (base₁.timers.common q).length < fuel := by
              have hperm : (base₁.timers.common q).Perm ((base.timers.common q).erase ev) := by
                rw [List.perm_ext_iff_of_nodup (hok₁.timers.nodup q)
                  ((h.ok.timers.nodup q).erase ev)]
                intro e
                rw [hok₁.timers.in_list, hd.pending, hd.timeout, (h.ok.timers.nodup q).mem_erase_iff,
                  h.ok.timers.in_list]
                by_cases he : e = ev
                · subst he
                  simp
                · simp [he]
              have hlen := List.length_erase_of_mem hmem
              have hpos := List.length_pos_of_mem hmem
              rw [hperm.length_eq]
              omega
            obtain ⟨base', hrun, hinv', hexp⟩ := ih hinv (by rw [hsame]; exact hshrink)
            refine ⟨base', hrun, hinv', hexp.step hd ha ⟨hp, hcom, by omega⟩ ?_ ?_⟩
            · rintro ⟨hp', -⟩
              rw [hsame, hd.pending, Function.update_self] at hp'
              cases hp'
            · intro e he
              unfold DueIn Timers.key
              rw [hsame, hd.pending, hd.timeout, Function.update_of_ne he]

variable (B debug now) in
/-- After `common_timeout_callback` the list is empty, or its event waits for the first one of the rest. So
nothing depends on the callback any more. -/
theorem commonTimeoutCallback_spec (h : Inv S told base) (hq : q < S.nCommon)
    (hcur : base.current = some (S.timeoutEvent q)) :
    ∃ base', base.commonTimeoutCallback B debug S now q = .ok base' ∧
      Inv S told { base' with current := none } ∧ base'.runningPriority = base.runningPriority ∧
      ∃ base₁, Expired (DueIn S base now q) base base₁ ∧
        (base' = base₁ ∨ ∃ t, Timed base₁ (S.timeoutEvent q) ⟨t, none⟩ base') := by
  obtain ⟨base₁, hrun, hinv, hexp⟩ :=
    commonTimeoutLoop_spec B now h (Nat.lt_succ_self _)
  unfold commonTimeoutCallback
  rw [hrun, ok_bind]
  -- the events of the other lists do not depend on the callback that is being run
  have hother : ∀ q' < S.nCommon, q' ≠ q → Covered S { base₁ with current := none } q' := by
    intro q' hq' hne
    rcases hinv.deadlines.covered q' hq' with hcur' | hact | hlist
    · rw [hexp.current, hcur] at hcur'
      exact absurd (S.timeoutEvent_inj q hq q' hq' (Option.some.inj hcur')).symm hne
    · exact .inr (.inl hact)
    · exact .inr (.inr hlist)
  have hok : Ok S { base₁ with current := none } := hinv.ok.congr rfl rfl rfl rfl rfl
  cases hl : base₁.timers.common q with
  | nil =>
      refine ⟨base₁, rfl, ⟨hok, ⟨hinv.deadlines.plain, ?_⟩, hinv.priorities⟩, hexp.running,
        base₁, hexp, .inl rfl⟩
      intro q' hq'
      by_cases heq : q' = q
      · subst heq
        refine .inr (.inr ?_)
        intro e he hcom
        have := (hinv.ok.timers.in_list q' e).mpr ⟨he, hcom⟩
        rw [hl] at this
        cases this
      · exact hother q' hq' heq
  | cons ev tl =>
      dsimp only
      obtain ⟨base₂, hsched, hok₂, ht⟩ :=
        commonTimeoutSchedule_spec B debug hinv.ok hq ev
      refine ⟨base₂, hsched, ⟨hok₂.congr rfl rfl rfl rfl rfl, ?_, ?_⟩,
        ht.running.trans hexp.running, base₁, hexp, .inr ⟨_, ht⟩⟩
      · refine Deadlines.scheduled hok hinv.deadlines.plain hother hq (by
          show (base₁.timers.common q).head? = some ev
          rw [hl]
          rfl) ?_
        exact ⟨ht.io, ht.inserted, ht.pending, ht.timeout, ht.active, ht.later, ht.res,
          ht.ioTimeout, ht.running,
          ht.continues, rfl⟩
      · exact hinv.priorities.of_le ht.running ht.continues ht.quiet.active

/-! ## Callbacks -/

theorem Own.of_persist (hev : ev < S.size) (hp : (S.info ev).persist = true) : Own S ev := by
  refine ⟨hev, ?_⟩
  rintro q hq rfl
  rw [S.timeoutEvent_info q hq] at hp
  cases hp

variable (B debug now) in
theorem Inv.persistClosure (h : Inv S told base) (hown : Own S ev) :
    ∃ base', base.persistClosure B debug S now ev = .ok base' ∧ Inv S told base' ∧ Quiet base base' := by
  unfold EventBase.persistClosure
  dsimp only
  split
  · obtain ⟨base', res, hrun, hinv, hq⟩ := h.eventAdd B debug hown now
      (some ⟨if (if (base.res ev).timeout = true then base.timers.key ev else now) +
        (base.ioTimeout ev).usecs < now then now + (base.ioTimeout ev).usecs
        else (if (base.res ev).timeout = true then base.timers.key ev else now) +
          (base.ioTimeout ev).usecs,
        if (Timers.isCommon S.nCommon (base.timers.timeout ev)).isSome = true
          then (base.ioTimeout ev).common else none⟩) true
    rw [hrun, ok_bind]
    exact ⟨base', rfl, hinv, hq⟩
  · exact ⟨base, rfl, h, ⟨rfl, rfl, rfl, fun _ h => h⟩⟩

variable (B debug now) in
/-- One round of the loop over a queue: an active event stops being so, and it becomes the current one. -/
theorem processNext_spec (h : Inv S told base) (hact : base.actives.active ev = true)
    (hcur : base.current = none) :
    ∃ base', base.processNext B debug S now ev = .ok base' ∧ Inv S told base' ∧
      base'.current = some ev ∧ base'.runningPriority = base.runningPriority ∧
      base'.eventContinue = base.eventContinue ∧
      ∀ e, base'.actives.active e = true → base.actives.active e = true := by
  have hev : ev < S.size := by
    by_contra hge
    rw [(h.ok.small ev (Nat.not_lt.mp hge)).2.2.1] at hact
    cases hact
  unfold processNext
  split
  · rename_i hper
    have hown := Own.of_persist hev hper
    have hok := h.ok.removeActive hev hact
    have hact' : ∀ e, (base.removeActive S ev).actives.active e = true →
        e ≠ ev ∧ base.actives.active e = true := fun e he => of_update_false he
    have hinv : Inv S told { base.removeActive S ev with current := some ev } := by
      refine ⟨hok.congr rfl rfl rfl rfl rfl, ⟨h.deadlines.plain, ?_⟩,
        h.priorities.of_le rfl rfl fun e he => (hact' e he).2⟩
      intro q hq
      rcases h.deadlines.covered q hq with hcur' | hact'' | hlist
      · rw [hcur] at hcur'
        cases hcur'
      · refine .inr (.inl ?_)
        show Function.update base.actives.active ev false (S.timeoutEvent q) = true
        rw [Function.update_of_ne (hown.2 q hq).symm]
        exact hact''
      · exact .inr (.inr hlist)
    obtain ⟨base', hrun, hinv', hquiet⟩ := hinv.persistClosure B debug now hown
    exact ⟨base', hrun, hinv', hquiet.current, hquiet.running, hquiet.continues,
      fun e he => (hact' e (hquiet.active e he)).2⟩
  · obtain ⟨base₁, res, hrun, hok, hd⟩ := eventDel_spec (B := B) h.ok hev
    rw [hrun, ok_bind]
    have hact' : ∀ e, base₁.actives.active e = true → base.actives.active e = true := by
      intro e he
      rw [hd.active] at he
      exact (of_update_false he).2
    refine ⟨_, rfl, ⟨hok.congr rfl rfl rfl rfl rfl, ⟨?_, ?_⟩,
      h.priorities.of_le hd.running hd.continues hact'⟩, rfl, hd.running, hd.continues, hact'⟩
    · intro q hq hp
      show Timers.isCommon S.nCommon (base₁.timers.timeout (S.timeoutEvent q)) = none
      have hp : base₁.timers.pending (S.timeoutEvent q) = true := hp
      rw [hd.pending] at hp
      rw [hd.timeout]
      exact h.deadlines.plain q hq (of_update_false hp).2
    · intro q hq
      by_cases heq : ev = S.timeoutEvent q
      · exact .inl (congrArg some heq)
      · rcases (h.deadlines.covered q hq).deleted hd heq with hcur' | hact'' | hlist
        · rw [hd.current, hcur] at hcur'
          cases hcur'
        · exact .inr (.inl hact'')
        · exact .inr (.inr hlist)

theorem Inv.ioActive (h : Inv S told base) (fd : Fd) (events : Events) :
    Inv S told (base.ioActive S fd events) ∧ (base.ioActive S fd events).current = base.current ∧
      (base.ioActive S fd events).runningPriority = base.runningPriority := by
  unfold EventBase.ioActive
  have hsmall : ∀ x ∈ evmapIoActive S.evs base.io fd events, x.1 < S.size := by
    intro x hx
    have hmem : x.1 ∈ (base.io.io fd).events := by
      obtain ⟨e, he, hx⟩ := List.mem_filterMap.mp hx
      dsimp only at hx
      split at hx
      · obtain rfl := Option.some.inj hx
        exact he
      · cases hx
    by_contra hge
    have := h.ok.map_inserted fd x.1 hmem
    rw [(h.ok.small x.1 (Nat.not_lt.mp hge)).1] at this
    cases this
  generalize evmapIoActive S.evs base.io fd events = l at hsmall
  induction l generalizing base with
  | nil => exact ⟨h, rfl, rfl⟩
  | cons x l ih =>
      have hx := hsmall x List.mem_cons_self
      obtain ⟨-, ha⟩ := eventActive_spec h.ok hx { timeout := false, events := x.2 }
      obtain ⟨hinv, hcur, hrun⟩ := ih (h.eventActive hx _) fun y hy => hsmall y (List.mem_cons_of_mem _ hy)
      exact ⟨hinv, hcur.trans ha.current, hrun.trans ha.running⟩

end EventBase
end LinuxServer.Libevent
