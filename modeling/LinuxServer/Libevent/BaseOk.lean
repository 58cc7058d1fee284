import LinuxServer.Libevent.Base

/-!
# What the functions of the event base keep

`EventBase.Ok` is what `event_base_assert_ok_nolock_` asserts, with the flags of all events, and with what
`event_count` counts. Each function returns and keeps it; beyond this, its lemma says what it does to the
flags, and the queues follow from these.
-/

namespace LinuxServer.Libevent

open Library

namespace Setup

/-- The sum of the bits `b` of the events that are not internal. -/
def count (S : Setup) (b : Nat → Bool) : Int :=
  ∑ ev ∈ Finset.range S.size, if b ev then S.weight ev else 0

variable {S : Setup} {b : Nat → Bool} {ev : Nat}

/-- How the number of events changes when one is set or cleared. -/
theorem count_update (hev : ev < S.size) (v : Bool) :
    S.count (Function.update b ev v) + (if b ev then S.weight ev else 0) =
      S.count b + if v then S.weight ev else 0 := by
  have hmem : ev ∈ Finset.range S.size := Finset.mem_range.mpr hev
  unfold count
  rw [← Finset.add_sum_erase _ _ hmem, ← Finset.add_sum_erase _ _ hmem, Function.update_self]
  have hrest : ∑ e ∈ (Finset.range S.size).erase ev,
        (if Function.update b ev v e then S.weight e else 0) =
      ∑ e ∈ (Finset.range S.size).erase ev, if b e then S.weight e else 0 := by
    apply Finset.sum_congr rfl
    intro e he
    rw [Function.update_of_ne (Finset.ne_of_mem_erase he)]
  rw [hrest]
  omega

theorem weight_nonneg (S : Setup) (ev : Nat) : 0 ≤ S.weight ev := by
  unfold weight
  split <;> omega

/-- A number of events is not negative. -/
theorem count_nonneg (S : Setup) (b : Nat → Bool) : 0 ≤ S.count b := by
  apply Finset.sum_nonneg
  intro e _
  split
  · exact S.weight_nonneg e
  · exact le_rfl

/-- The number is 0 exactly if it is so of no event of the program. -/
theorem count_eq_zero (S : Setup) (b : Nat → Bool) :
    S.count b = 0 ↔ ∀ ev < S.size, (S.info ev).internal = false → b ev = false := by
  unfold count
  rw [Finset.sum_eq_zero_iff_of_nonneg]
  · constructor
    · intro h ev hev hint
      have := h ev (Finset.mem_range.mpr hev)
      by_contra hb
      rw [if_pos (by simpa using hb), weight, hint, if_neg Bool.false_ne_true] at this
      omega
    · intro h ev hev
      split
      · rename_i hb
        unfold weight
        split
        · rfl
        · rename_i hint
          rw [h ev (Finset.mem_range.mp hev) (by simpa using hint)] at hb
          cases hb
      · rfl
  · intro e _
    split
    · exact S.weight_nonneg e
    · exact le_rfl

end Setup

namespace EventBase
variable {σ : Type}

structure Ok (S : Setup) (base : EventBase σ) : Prop where
  integrity : Integrity S.evs base.io
  map_inserted : ∀ fd, ∀ e ∈ (base.io.io fd).events, base.inserted e = true
  inserted_map : ∀ e, base.inserted e = true → 0 ≤ (S.evs e).fd →
    e ∈ (base.io.io (S.evs e).fd).events
  timers : Timers.Ok S.nCommon base.timers
  actives : Actives.Ok S.pri S.nactivequeues base.actives
  count : base.eventCount = S.count base.inserted + S.count base.timers.pending +
    S.count base.actives.active + S.count base.actives.later
  small : ∀ e, S.size ≤ e → base.inserted e = false ∧ base.timers.pending e = false ∧
    base.actives.active e = false ∧ base.actives.later e = false

variable {B : EventOp σ} {debug : Bool} {S : Setup} {base base' : EventBase σ} {ev : Nat}

/-- A bit of an event of the program. -/
theorem small_update {b : Nat → Bool} {v : Bool} {e : Nat} (hev : ev < S.size) (he : S.size ≤ e)
    (hb : b e = false) : Function.update b ev v e = false := by
  rw [Function.update_of_ne (by omega)]
  exact hb

/-- Making space in the heap keeps everything. -/
theorem Ok.reserve (h : Ok S base) : Ok S base.reserve where
  integrity := h.integrity
  map_inserted := h.map_inserted
  inserted_map := h.inserted_map
  timers := h.timers.reserve _
  actives := h.actives
  count := h.count
  small := h.small

/-- Fields that the invariant does not look at. -/
theorem Ok.congr (h : Ok S base) (hio : base'.io = base.io) (hins : base'.inserted = base.inserted)
    (ht : base'.timers = base.timers) (ha : base'.actives = base.actives)
    (hc : base'.eventCount = base.eventCount) : Ok S base' where
  integrity := hio ▸ h.integrity
  map_inserted := by
    rw [hio, hins]
    exact h.map_inserted
  inserted_map := by
    rw [hio, hins]
    exact h.inserted_map
  timers := ht ▸ h.timers
  actives := ha ▸ h.actives
  count := by
    rw [hc, hins, ht, ha]
    exact h.count
  small := by
    rw [hins, ht, ha]
    exact h.small

/-- `ev_res` is not looked at. -/
theorem Ok.setRes (h : Ok S base) (ev : Nat) (res : Res) : Ok S (base.setRes ev res) :=
  h.congr rfl rfl rfl rfl rfl

/-! ## Queues -/

/-- Another set of timeouts, in which the bit of `ev` is `v`. -/
theorem Ok.withTimers (h : Ok S base) (hev : ev < S.size) {t : Timers} {v : Bool} {c : Int}
    (ht : Timers.Ok S.nCommon t) (hp : t.pending = Function.update base.timers.pending ev v)
    (hc : c + (if base.timers.pending ev then S.weight ev else 0) =
      base.eventCount + if v then S.weight ev else 0) :
    Ok S { base with timers := t, eventCount := c } where
  integrity := h.integrity
  map_inserted := h.map_inserted
  inserted_map := h.inserted_map
  timers := ht
  actives := h.actives
  count := by
    have hcount := S.count_update (b := base.timers.pending) hev v
    have hold := h.count
    dsimp only
    rw [hp]
    omega
  small := by
    intro e he
    obtain ⟨h₁, h₂, h₃, h₄⟩ := h.small e he
    dsimp only
    rw [hp]
    exact ⟨h₁, small_update hev he h₂, h₃, h₄⟩

/-- `event_queue_remove_timeout`. -/
theorem Ok.removeTimeout (h : Ok S base) (hev : ev < S.size) (hyes : base.timers.pending ev = true) :
    ∃ t, base.removeTimeout S ev =
        .ok { base with timers := t, eventCount := base.eventCount - S.weight ev } ∧
      Ok S { base with timers := t, eventCount := base.eventCount - S.weight ev } ∧
      t.pending = Function.update base.timers.pending ev false ∧ t.timeout = base.timers.timeout := by
  obtain ⟨t, hrun, hok, hp, htime, -⟩ := h.timers.remove hyes
  refine ⟨t, ?_, h.withTimers hev hok hp ?_, hp, htime⟩
  · rw [EventBase.removeTimeout, hrun]
    rfl
  · rw [hyes, if_pos rfl, if_neg Bool.false_ne_true]
    omega

/-- `event_queue_insert_timeout`. -/
theorem Ok.insertTimeout (h : Ok S base) (hev : ev < S.size) (hno : base.timers.pending ev = false) :
    ∃ t, base.insertTimeout S ev =
        .ok { base with timers := t, eventCount := base.eventCount + S.weight ev } ∧
      Ok S { base with timers := t, eventCount := base.eventCount + S.weight ev } ∧
      t.pending = Function.update base.timers.pending ev true ∧ t.timeout = base.timers.timeout := by
  obtain ⟨t, hrun, hok, hp, htime, -⟩ := h.timers.insert hno
  refine ⟨t, ?_, h.withTimers hev hok hp ?_, hp, htime⟩
  · rw [EventBase.insertTimeout, hrun]
    rfl
  · rw [hno, if_pos rfl, if_neg Bool.false_ne_true]
    omega

/-- Clearing a bit that is not set. -/
theorem update_false {b : Nat → Bool} (hb : ¬ b ev = true) : Function.update b ev false = b :=
  Function.update_eq_self_iff.mpr (by simpa using hb)

/-- The timeout of an event is removed if it has one. -/
theorem Ok.dropTimeout (h : Ok S base) (hev : ev < S.size) :
    ∃ t c, base.dropTimeout S ev = .ok { base with timers := t, eventCount := c } ∧
      Ok S { base with timers := t, eventCount := c } ∧
      t.pending = Function.update base.timers.pending ev false ∧ t.timeout = base.timers.timeout := by
  unfold EventBase.dropTimeout
  by_cases hpend : base.timers.pending ev = true
  · rw [if_pos hpend]
    obtain ⟨t, hrun, hok, hp, htime⟩ := h.removeTimeout hev hpend
    exact ⟨t, _, hrun, hok, hp, htime⟩
  · rw [if_neg hpend]
    exact ⟨base.timers, base.eventCount, rfl, h, (update_false hpend).symm, rfl⟩

/-- Another set of active events, in which the bits of `ev` are `v` and `w`. -/
theorem Ok.withActives (h : Ok S base) (hev : ev < S.size) {a : Actives} {v w : Bool} {c : Int}
    (ha : Actives.Ok S.pri S.nactivequeues a)
    (hact : a.active = Function.update base.actives.active ev v)
    (hlat : a.later = Function.update base.actives.later ev w)
    (hc : c + (if base.actives.active ev then S.weight ev else 0) +
        (if base.actives.later ev then S.weight ev else 0) =
      base.eventCount + (if v then S.weight ev else 0) + if w then S.weight ev else 0) :
    Ok S { base with actives := a, eventCount := c } where
  integrity := h.integrity
  map_inserted := h.map_inserted
  inserted_map := h.inserted_map
  timers := h.timers
  actives := ha
  count := by
    have h₁ := S.count_update (b := base.actives.active) hev v
    have h₂ := S.count_update (b := base.actives.later) hev w
    have hold := h.count
    dsimp only
    rw [hact, hlat]
    omega
  small := by
    intro e he
    obtain ⟨h₁, h₂, h₃, h₄⟩ := h.small e he
    dsimp only
    rw [hact, hlat]
    exact ⟨h₁, h₂, small_update hev he h₃, small_update hev he h₄⟩

/-- `event_queue_remove_active`. -/
theorem Ok.removeActive (h : Ok S base) (hev : ev < S.size) (hyes : base.actives.active ev = true) :
    Ok S (base.removeActive S ev) := by
  have hno := h.actives.disjoint ev hyes
  refine h.withActives (v := false) (w := false) hev (h.actives.remove (S.pri_lt ev) hyes) rfl
    (Function.update_eq_self_iff.mpr hno.symm).symm ?_
  simp only [hyes, hno, if_true, Bool.false_eq_true, if_false]
  omega

/-- `event_queue_insert_active`. -/
theorem Ok.insertActive (h : Ok S base) (hev : ev < S.size) (hno : base.actives.active ev = false)
    (hnol : base.actives.later ev = false) :
    Ok S (base.insertActive S ev) ∧
      (base.insertActive S ev).actives.active = Function.update base.actives.active ev true ∧
      (base.insertActive S ev).actives.later = base.actives.later := by
  obtain ⟨ha, hact, hlat⟩ := h.actives.insert (S.pri_lt ev) hno hnol
  unfold EventBase.insertActive
  rw [hno, if_neg Bool.false_ne_true]
  refine ⟨h.withActives (v := true) (w := false) hev ha hact ?_ ?_, hact, hlat⟩
  · rw [hlat]
    exact (Function.update_eq_self_iff.mpr hnol.symm).symm
  · simp only [hno, hnol, if_true, Bool.false_eq_true, if_false]
    omega

/-- `event_queue_remove_active_later`. -/
theorem Ok.removeActiveLater (h : Ok S base) (hev : ev < S.size) (hyes : base.actives.later ev = true) :
    Ok S (base.removeActiveLater S ev) := by
  have hno : base.actives.active ev = false := by
    by_contra hact
    rw [h.actives.disjoint ev (by simpa using hact)] at hyes
    cases hyes
  refine h.withActives (v := false) (w := false) hev (h.actives.removeLater hyes)
    (Function.update_eq_self_iff.mpr hno.symm).symm rfl ?_
  simp only [hyes, hno, if_true, Bool.false_eq_true, if_false]
  omega

/-- `event_queue_insert_active_later`. -/
theorem Ok.insertActiveLater (h : Ok S base) (hev : ev < S.size)
    (hno : base.actives.active ev = false) (hnol : base.actives.later ev = false) :
    Ok S (base.insertActiveLater S ev) ∧
      (base.insertActiveLater S ev).actives.later = Function.update base.actives.later ev true ∧
      (base.insertActiveLater S ev).actives.active = base.actives.active := by
  obtain ⟨ha, hlat, hact, -⟩ := h.actives.insertLater hno hnol
  unfold EventBase.insertActiveLater
  rw [hno, hnol, if_neg (by simp)]
  refine ⟨h.withActives (v := false) (w := true) hev ha ?_ hlat ?_, hlat, hact⟩
  · rw [hact]
    exact (Function.update_eq_self_iff.mpr hno.symm).symm
  · simp only [hno, hnol, if_true, Bool.false_eq_true, if_false]
    omega

/-- `event_queue_make_later_events_active`: all events that were put off are active. -/
theorem Ok.makeLaterActive (h : Ok S base) :
    Ok S (base.makeLaterActive S) ∧ (base.makeLaterActive S).actives.active =
      fun e => base.actives.active e || base.actives.later e := by
  obtain ⟨ha, hnil, hact⟩ := h.actives.makeLaterActive S.pri_lt
  have hlat : ∀ e, (base.actives.makeLaterActive S.pri).later e = false := by
    intro e
    by_contra hl
    have := (ha.mem_later e).mpr (by simpa using hl)
    rw [hnil] at this
    cases this
  refine ⟨⟨h.integrity, h.map_inserted, h.inserted_map, h.timers, ha, ?_, ?_⟩, hact⟩
  · -- no event was active and put off at the same time
    have hsum : S.count (fun e => base.actives.active e || base.actives.later e) =
        S.count base.actives.active + S.count base.actives.later := by
      unfold Setup.count
      rw [← Finset.sum_add_distrib]
      apply Finset.sum_congr rfl
      intro e _
      by_cases hae : base.actives.active e = true
      · simp [hae, h.actives.disjoint e hae]
      · simp [hae]
    have hzero : S.count (base.actives.makeLaterActive S.pri).later = 0 := by
      rw [S.count_eq_zero]
      exact fun e _ _ => hlat e
    have hcount := h.count
    dsimp only [EventBase.makeLaterActive]
    rw [hact, hsum, hzero]
    omega
  · intro e he
    obtain ⟨h₁, h₂, h₃, h₄⟩ := h.small e he
    refine ⟨h₁, h₂, ?_, hlat e⟩
    show (base.actives.makeLaterActive S.pri).active e = false
    rw [hact]
    dsimp only
    rw [h₃, h₄]
    rfl

/-! ## The descriptor -/

/-- The map has changed, and the bit of `ev` with it. -/
theorem Ok.withIo (h : Ok S base) (hev : ev < S.size) {io : IoBase σ} {v : Bool} {c : Int}
    (hi : Integrity S.evs io)
    (hmem : ∀ fd e, e ∈ (io.io fd).events → e ∈ (base.io.io fd).events ∧ e ≠ ev ∨ e = ev ∧ v = true)
    (hother : ∀ e, e ≠ ev → ∀ fd, e ∈ (base.io.io fd).events → e ∈ (io.io fd).events)
    (hself : v = true → 0 ≤ (S.evs ev).fd → ev ∈ (io.io (S.evs ev).fd).events)
    (hc : c + (if base.inserted ev then S.weight ev else 0) =
      base.eventCount + if v then S.weight ev else 0) :
    Ok S { base with io := io, inserted := Function.update base.inserted ev v, eventCount := c } where
  integrity := hi
  map_inserted := by
    intro fd e he
    dsimp only
    rcases hmem fd e he with ⟨hold, hne⟩ | ⟨rfl, rfl⟩
    · rw [Function.update_of_ne hne]
      exact h.map_inserted fd e hold
    · rw [Function.update_self]
  inserted_map := by
    intro e he hfd
    dsimp only at he ⊢
    by_cases hev' : e = ev
    · subst hev'
      rw [Function.update_self] at he
      exact hself he hfd
    · rw [Function.update_of_ne hev'] at he
      exact hother e hev' _ (h.inserted_map e he hfd)
  timers := h.timers
  actives := h.actives
  count := by
    have hcount := S.count_update (b := base.inserted) hev v
    have hold := h.count
    dsimp only
    omega
  small := by
    intro e he
    obtain ⟨h₁, h₂, h₃, h₄⟩ := h.small e he
    exact ⟨small_update hev he h₁, h₂, h₃, h₄⟩

variable (B debug) in
/-- Either there is nothing to do, or the event is refused, and nothing has changed, or it is entered. -/
theorem Ok.addIo (h : Ok S base) (hev : ev < S.size) :
    ∃ base' res, base.addIo B debug S ev = (base', res) ∧ Ok S base' ∧
      ((res = -1 ∧ base' = base) ∨
       (res = 0 ∧ ∃ io ins c,
        base' = { base with io := io, inserted := ins, eventCount := c })) := by
  unfold EventBase.addIo
  split
  · rename_i hcond
    simp only [Bool.and_eq_true, Bool.not_eq_true', Bool.or_eq_false_iff] at hcond
    obtain ⟨hany, ⟨hins, -⟩, -⟩ := hcond
    have hany : (S.evs ev).events.any = true := hany
    have hnew : ev ∉ (base.io.io (S.evs ev).fd).events := by
      intro hmem
      rw [h.map_inserted _ _ hmem] at hins
      cases hins
    generalize hadd : evmapIoAdd B S.evs debug base.io ev = r
    obtain ⟨io, res⟩ := r
    have hi := h.integrity.add hany hnew hadd
    dsimp only
    rcases evmapIoAdd_result hadd with ⟨rfl, rfl⟩ | ⟨hres, hfd, rfl⟩ | ⟨hres, hfd, b, rfl⟩
    · rw [if_neg (by simp)]
      exact ⟨_, _, rfl, h.congr rfl rfl rfl rfl rfl, .inl ⟨rfl, rfl⟩⟩
    · rw [if_pos hres]
      refine ⟨_, _, rfl, h.withIo (v := true) hev hi ?_ (fun _ _ _ hmem => hmem) ?_ ?_,
        .inr ⟨rfl, _, _, _, rfl⟩⟩
      · intro fd e he
        refine .inl ⟨he, ?_⟩
        rintro rfl
        rw [h.map_inserted fd e he] at hins
        cases hins
      · intro _ hfd'
        exact absurd hfd' (Int.not_le.mpr hfd)
      · rw [hins, if_pos rfl, if_neg Bool.false_ne_true]
        omega
    · rw [if_pos hres]
      refine ⟨_, _, rfl, h.withIo (v := true) hev hi ?_ ?_ ?_ ?_, .inr ⟨rfl, _, _, _, rfl⟩⟩
      · intro fd e he
        by_cases hfd' : fd = (S.evs ev).fd
        · subst hfd'
          rw [io_put_self] at he
          rcases List.mem_cons.mp he with rfl | hold
          · exact .inr ⟨rfl, rfl⟩
          · refine .inl ⟨hold, ?_⟩
            rintro rfl
            exact hnew hold
        · rw [io_put_of_ne hfd'] at he
          refine .inl ⟨he, ?_⟩
          rintro rfl
          rw [h.map_inserted fd e he] at hins
          cases hins
      · intro e _ fd he
        by_cases hfd' : fd = (S.evs ev).fd
        · subst hfd'
          rw [io_put_self]
          exact List.mem_cons_of_mem _ he
        · rw [io_put_of_ne hfd']
          exact he
      · intro _ _
        rw [io_put_self]
        exact List.mem_cons_self
      · rw [hins, if_pos rfl, if_neg Bool.false_ne_true]
        omega
  · exact ⟨base, 0, rfl, h, .inr ⟨rfl, base.io, base.inserted, base.eventCount, rfl⟩⟩

/-- The part of `event_del` about the descriptor. -/
theorem Ok.delIo (h : Ok S base) (hev : ev < S.size) :
    ∃ io c res, base.delIo B S ev = ({ base with
        io := io, inserted := Function.update base.inserted ev false, eventCount := c }, res) ∧
      Ok S { base with
        io := io, inserted := Function.update base.inserted ev false, eventCount := c } := by
  unfold EventBase.delIo
  split
  · rename_i hins
    generalize hdel : evmapIoDel B S.evs base.io ev = r
    obtain ⟨io, res⟩ := r
    dsimp only
    rw [hdel]
    refine ⟨io, base.eventCount - S.weight ev, _, rfl, ?_⟩
    have hcount : base.eventCount - S.weight ev + (if base.inserted ev then S.weight ev else 0) =
        base.eventCount + if false then S.weight ev else 0 := by
      rw [hins, if_pos rfl, if_neg Bool.false_ne_true]
      omega
    by_cases hfd : 0 ≤ (S.evs ev).fd
    · have hmem := h.inserted_map ev hins hfd
      obtain ⟨b, rfl, -⟩ := evmapIoDel_cases hfd hdel
      refine h.withIo (v := false) hev (h.integrity.del hmem hdel) ?_ ?_ (fun hf => nomatch hf) hcount
      · intro fd e he
        by_cases hfd' : fd = (S.evs ev).fd
        · subst hfd'
          rw [io_put_self] at he
          obtain ⟨hne, hold⟩ := (h.integrity.nodup _).mem_erase_iff.mp he
          exact .inl ⟨hold, hne⟩
        · rw [io_put_of_ne hfd'] at he
          refine .inl ⟨he, ?_⟩
          rintro rfl
          exact hfd' (h.integrity.fd fd e he).1.symm
      · intro e hne fd he
        by_cases hfd' : fd = (S.evs ev).fd
        · subst hfd'
          rw [io_put_self]
          exact (List.mem_erase_of_ne hne).mpr he
        · rw [io_put_of_ne hfd']
          exact he
    · have hio : io = base.io := by
        unfold evmapIoDel at hdel
        dsimp only at hdel
        rw [if_pos (Int.not_le.mp hfd)] at hdel
        exact (Prod.mk.inj hdel).1.symm
      subst hio
      refine h.withIo (v := false) hev h.integrity ?_ (fun _ _ _ hmem => hmem)
        (fun hf => nomatch hf) hcount
      intro fd e he
      refine .inl ⟨he, ?_⟩
      rintro rfl
      obtain ⟨heq, hpos⟩ := h.integrity.fd fd e he
      rw [← heq] at hpos
      exact hfd hpos
  · rename_i hins
    have hsame : Function.update base.inserted ev false = base.inserted :=
      Function.update_eq_self_iff.mpr (by simpa using hins)
    refine ⟨base.io, base.eventCount, 0, ?_, ?_⟩
    · rw [hsame]
    · rw [hsame]
      exact h

/-! ## Deleting -/

/-- What `event_del` leaves of an event. -/
structure Deleted (base : EventBase σ) (ev : Nat) (base' : EventBase σ) : Prop where
  inserted : base'.inserted = Function.update base.inserted ev false
  pending : base'.timers.pending = Function.update base.timers.pending ev false
  active : base'.actives.active = Function.update base.actives.active ev false
  later : base'.actives.later = Function.update base.actives.later ev false
  timeout : base'.timers.timeout = base.timers.timeout
  res : base'.res = base.res
  ioTimeout : base'.ioTimeout = base.ioTimeout
  running : base'.runningPriority = base.runningPriority
  continues : base'.eventContinue = base.eventContinue
  current : base'.current = base.current

/-- `event_del` keeps the base right, and the event waits for nothing afterwards. -/
theorem eventDel_spec (h : Ok S base) (hev : ev < S.size) :
    ∃ base' res, base.eventDel B S ev = .ok (base', res) ∧ Ok S base' ∧ Deleted base ev base' := by
  obtain ⟨t, c, hrun, hok, hp, htime⟩ := h.dropTimeout hev
  unfold EventBase.eventDel
  rw [hrun, ok_bind]
  generalize hbase₁ : ({ base with timers := t, eventCount := c } : EventBase σ) = base₁ at hok
  -- the queues
  obtain ⟨a, c', heq, hok₂, hact, hlat⟩ : ∃ a c',
      (if base₁.actives.active ev then base₁.removeActive S ev
        else if base₁.actives.later ev then base₁.removeActiveLater S ev else base₁) =
        { base₁ with actives := a, eventCount := c' } ∧
      Ok S { base₁ with actives := a, eventCount := c' } ∧
      a.active = Function.update base₁.actives.active ev false ∧
      a.later = Function.update base₁.actives.later ev false := by
    by_cases hact : base₁.actives.active ev = true
    · rw [if_pos hact]
      have hno : ¬ base₁.actives.later ev = true := by simp [hok.actives.disjoint ev hact]
      exact ⟨_, _, rfl, hok.removeActive hev hact, rfl, (update_false hno).symm⟩
    · rw [if_neg hact]
      by_cases hlat : base₁.actives.later ev = true
      · rw [if_pos hlat]
        exact ⟨_, _, rfl, hok.removeActiveLater hev hlat, (update_false hact).symm, rfl⟩
      · rw [if_neg hlat]
        exact ⟨base₁.actives, base₁.eventCount, rfl, hok, (update_false hact).symm, (update_false hlat).symm⟩
  dsimp only
  rw [heq]
  obtain ⟨io, c'', res, hdel, hok₃⟩ := hok₂.delIo (B := B) hev
  rw [hdel]
  subst hbase₁
  exact ⟨_, res, rfl, hok₃, ⟨rfl, hp, hact, hlat, htime, rfl, rfl, rfl, rfl, rfl⟩⟩

/-! ## Activating -/

/-- What `event_active` makes of an event. -/
structure Activated (S : Setup) (base : EventBase σ) (ev : Nat) (res : Res) (base' : EventBase σ) :
    Prop where
  inserted : base'.inserted = base.inserted
  timers : base'.timers = base.timers
  active : base'.actives.active = Function.update base.actives.active ev true
  later : base'.actives.later = Function.update base.actives.later ev false
  res : ∃ r, base'.res = Function.update base.res ev r ∧ (res.timeout = true → r.timeout = true)
  ioTimeout : base'.ioTimeout = base.ioTimeout
  running : base'.runningPriority = base.runningPriority
  continues : ∀ i, base.runningPriority = some i → base'.eventContinue = false →
    base.eventContinue = false ∧ (S.pri ev < i → base.actives.active ev = true)
  asked : base'.eventContinue = true →
    base.eventContinue = true ∨ ∃ i, base.runningPriority = some i ∧ S.pri ev < i
  current : base'.current = base.current

/-- Whether the loop is told to go on with another queue. -/
theorem askContinue_eq (S : Setup) (base : EventBase σ) (ev : Nat) :
    ∃ c, base.askContinue S ev = { base with eventContinue := c } ∧
      (∀ i, base.runningPriority = some i → c = false →
        base.eventContinue = false ∧ ¬ S.pri ev < i) ∧
      (c = true → base.eventContinue = true ∨ ∃ i, base.runningPriority = some i ∧ S.pri ev < i) := by
  unfold askContinue
  split
  · rename_i hrun
    refine ⟨base.eventContinue, rfl, ?_, .inl⟩
    intro i hi
    rw [hrun] at hi
    cases hi
  · rename_i i hrun
    split
    · rename_i hlt
      refine ⟨true, rfl, ?_, fun _ => .inr ⟨i, hrun, hlt⟩⟩
      intro _ _ hc
      cases hc
    · rename_i hge
      refine ⟨base.eventContinue, rfl, ?_, .inl⟩
      intro j hj hc
      rw [hrun] at hj
      obtain rfl := Option.some.inj hj
      exact ⟨hc, hge⟩

/-- `event_active` keeps the base right, and the event is active afterwards. -/
theorem eventActive_spec (h : Ok S base) (hev : ev < S.size) (res : Res) :
    Ok S (base.eventActive S ev res) ∧ Activated S base ev res (base.eventActive S ev res) := by
  unfold EventBase.eventActive
  by_cases hact : base.actives.active ev = true
  · rw [if_pos hact]
    refine ⟨h.setRes _ _, ⟨rfl, rfl, ?_, ?_, ⟨_, rfl, ?_⟩, rfl, rfl, ?_, .inl, rfl⟩⟩
    · exact (Function.update_eq_self_iff.mpr hact.symm).symm
    · exact (Function.update_eq_self_iff.mpr (h.actives.disjoint ev hact).symm).symm
    · intro hres
      simp [Res.or, hres]
    · intro i _ hc
      exact ⟨hc, fun _ => hact⟩
  · rw [if_neg hact]
    have hact : base.actives.active ev = false := by simpa using hact
    dsimp only
    generalize hb₁ : base.setRes ev (if base.actives.later ev then (base.res ev).or res else res) = b₁
    have hok₁ : Ok S b₁ := by
      rw [← hb₁]
      exact h.setRes _ _
    obtain ⟨c, hc, hcont, hask⟩ := askContinue_eq S b₁ ev
    rw [hc]
    have hok₂ : Ok S { b₁ with eventContinue := c } := hok₁.congr rfl rfl rfl rfl rfl
    have hres : res.timeout = true →
        (if base.actives.later ev then (base.res ev).or res else res).timeout = true := by
      intro hres
      split
      · simp [Res.or, hres]
      · exact hres
    by_cases hlat : base.actives.later ev = true
    · rw [if_pos hlat]
      have hlat₁ : b₁.actives.later ev = true := by
        rw [← hb₁]
        exact hlat
      have hok₃ := hok₂.removeActiveLater hev hlat₁
      have hact₃ : ({ b₁ with eventContinue := c } : EventBase σ).actives.active ev = false := by
        rw [← hb₁]
        exact hact
      obtain ⟨hok₄, hact₄, hlat₄⟩ := hok₃.insertActive hev hact₃ (Function.update_self ..)
      refine ⟨hok₄, ?_⟩
      unfold EventBase.insertActive at hact₄ hlat₄ ⊢
      rw [if_neg (by rw [show (removeActiveLater S { b₁ with eventContinue := c } ev).actives.active ev =
        false from hact₃]; exact Bool.false_ne_true)] at hact₄ hlat₄ ⊢
      subst hb₁
      refine ⟨rfl, rfl, hact₄, hlat₄, ⟨_, rfl, hres⟩, rfl, rfl, ?_, hask, rfl⟩
      · intro i hi hcc
        obtain ⟨h₁, h₂⟩ := hcont i hi hcc
        exact ⟨h₁, fun hlt => absurd hlt h₂⟩
    · rw [if_neg hlat]
      have hlat₁ : ({ b₁ with eventContinue := c } : EventBase σ).actives.later ev = false := by
        rw [← hb₁]
        show base.actives.later ev = false
        simpa using hlat
      have hact₃ : ({ b₁ with eventContinue := c } : EventBase σ).actives.active ev = false := by
        rw [← hb₁]
        exact hact
      obtain ⟨hok₄, hact₄, hlat₄⟩ := hok₂.insertActive hev hact₃ hlat₁
      refine ⟨hok₄, ?_⟩
      unfold EventBase.insertActive at hact₄ hlat₄ ⊢
      rw [if_neg (by rw [hact₃]; exact Bool.false_ne_true)] at hact₄ hlat₄ ⊢
      subst hb₁
      refine ⟨rfl, rfl, hact₄, ?_, ⟨_, rfl, hres⟩, rfl, rfl, ?_, hask, rfl⟩
      · rw [hlat₄]
        exact (update_false hlat).symm
      · intro i hi hcc
        obtain ⟨h₁, h₂⟩ := hcont i hi hcc
        exact ⟨h₁, fun hlt => absurd hlt h₂⟩

/-! ## Adding -/

/-- What the timeout does to an event: it waits for `tv`, and is no longer active for another one. -/
structure Timed (base : EventBase σ) (ev : Nat) (tv : Timeval) (base' : EventBase σ) : Prop where
  io : base'.io = base.io
  inserted : base'.inserted = base.inserted
  pending : base'.timers.pending = Function.update base.timers.pending ev true
  timeout : base'.timers.timeout = Function.update base.timers.timeout ev tv
  active : base'.actives.active = Function.update base.actives.active ev
    (base.actives.active ev && !(base.res ev).timeout)
  later : base'.actives.later = base.actives.later
  res : base'.res = base.res
  ioTimeout : ∀ e, e ≠ ev → base'.ioTimeout e = base.ioTimeout e
  running : base'.runningPriority = base.runningPriority
  continues : base'.eventContinue = base.eventContinue
  current : base'.current = base.current

/-- `ev_timeout` after `event_add`. -/
def timeoutOf (now : Int) (tv : Timeval) (isAbsolute : Bool) : Timeval :=
  if isAbsolute then tv else { tv with usecs := now + tv.usecs }

/-- The part of `event_add` about the timeout. -/
theorem addTimer_spec (h : Ok S base) (hev : ev < S.size) (now : Int) (tv : Timeval) (isAbs : Bool) :
    ∃ base', base.addTimer S now ev tv isAbs = .ok base' ∧ Ok S base' ∧
      Timed base ev (timeoutOf now tv isAbs) base' := by
  unfold EventBase.addTimer
  dsimp only
  obtain ⟨iot, hiot, hsame⟩ : ∃ iot, (if ((S.info ev).persist && !isAbs) = true
      then { base with ioTimeout := Function.update base.ioTimeout ev tv } else base) =
        { base with ioTimeout := iot } ∧ ∀ e, e ≠ ev → iot e = base.ioTimeout e := by
    split
    · exact ⟨_, rfl, fun e he => Function.update_of_ne he ..⟩
    · exact ⟨base.ioTimeout, rfl, fun _ _ => rfl⟩
  rw [hiot]
  have hok₁ : Ok S { base with ioTimeout := iot } := h.congr rfl rfl rfl rfl rfl
  obtain ⟨t, c, hrun, hok₂, hp, htime⟩ := hok₁.dropTimeout hev
  rw [hrun, ok_bind]
  generalize hb₂ : ({ base with ioTimeout := iot, timers := t, eventCount := c } : EventBase σ) = b₂
    at hok₂
  obtain ⟨a, c', heq, hok₃, hact, hlat⟩ : ∃ a c',
      (if (b₂.actives.active ev && (b₂.res ev).timeout) = true then b₂.removeActive S ev else b₂) =
        { b₂ with actives := a, eventCount := c' } ∧
      Ok S { b₂ with actives := a, eventCount := c' } ∧
      a.active = Function.update b₂.actives.active ev (b₂.actives.active ev && !(b₂.res ev).timeout) ∧
      a.later = b₂.actives.later := by
    by_cases hcond : (b₂.actives.active ev && (b₂.res ev).timeout) = true
    · rw [if_pos hcond]
      simp only [Bool.and_eq_true] at hcond
      refine ⟨_, _, rfl, hok₂.removeActive hev hcond.1, ?_, rfl⟩
      rw [hcond.1, hcond.2]
      rfl
    · rw [if_neg hcond]
      refine ⟨b₂.actives, b₂.eventCount, rfl, hok₂, ?_, rfl⟩
      refine (Function.update_eq_self_iff.mpr ?_).symm
      cases hx : b₂.actives.active ev <;> cases hy : (b₂.res ev).timeout <;> simp_all
  rw [heq]
  have hno : ({ b₂ with actives := a, eventCount := c' } : EventBase σ).timers.pending ev = false := by
    rw [← hb₂]
    show t.pending ev = false
    rw [hp, Function.update_self]
  have hok₄ : Ok S { b₂ with
      actives := a, eventCount := c', timers := b₂.timers.setTimeout ev (timeoutOf now tv isAbs) } :=
    ⟨hok₃.integrity, hok₃.map_inserted, hok₃.inserted_map, hok₃.timers.setTimeout hno _, hok₃.actives,
      hok₃.count, hok₃.small⟩
  obtain ⟨t', hrun', hok₅, hp', htime'⟩ := hok₄.insertTimeout hev hno
  refine ⟨_, hrun', hok₅, ?_⟩
  subst hb₂
  refine ⟨rfl, rfl, ?_, ?_, hact, hlat, rfl, hsame, rfl, rfl, rfl⟩
  · show t'.pending = _
    rw [hp']
    show Function.update t.pending ev true = _
    rw [hp, Function.update_idem]
  · show t'.timeout = _
    rw [htime']
    show Function.update t.timeout ev _ = _
    rw [htime]

variable (B debug) in
/-- `common_timeout_schedule`: the event of the list waits for the timeout of the first one in it. -/
theorem commonTimeoutSchedule_spec (h : Ok S base) {q : Nat} (hq : q < S.nCommon) (head : Nat) :
    ∃ base', commonTimeoutSchedule B debug S base q head = .ok base' ∧ Ok S base' ∧
      Timed base (S.timeoutEvent q) ⟨base.timers.key head, none⟩ base' := by
  have hinfo := S.timeoutEvent_info q hq
  have hev := S.timeoutEvent_lt q hq
  have hio : ∀ b : EventBase σ, b.addIo B debug S (S.timeoutEvent q) = (b, 0) := by
    intro b
    unfold EventBase.addIo
    rw [hinfo]
    rfl
  unfold commonTimeoutSchedule eventAddWith
  dsimp only
  rw [hio]
  dsimp only
  rw [if_pos (by decide)]
  set r := if ((some (Timeval.mk (base.timers.timeout head).usecs none)).isSome &&
    !base.timers.pending (S.timeoutEvent q)) = true then base.reserve else base with hr
  have hokr : Ok S r := by
    rw [hr]
    split
    · exact h.reserve
    · exact h
  obtain ⟨base', hrun, hok, htimed⟩ := addTimer_spec hokr hev 0
    ⟨(base.timers.timeout head).usecs, none⟩ true
  rw [hrun, ok_bind]
  refine ⟨base', rfl, hok, ?_⟩
  have hsame : r.io = base.io ∧ r.inserted = base.inserted ∧
      r.timers.pending = base.timers.pending ∧ r.timers.timeout = base.timers.timeout ∧
      r.actives = base.actives ∧ r.res = base.res ∧ r.runningPriority = base.runningPriority ∧
      r.eventContinue = base.eventContinue ∧ r.current = base.current ∧ r.ioTimeout = base.ioTimeout := by
    rw [hr]
    split
    · exact ⟨rfl, rfl, rfl, rfl, rfl, rfl, rfl, rfl, rfl, rfl⟩
    · exact ⟨rfl, rfl, rfl, rfl, rfl, rfl, rfl, rfl, rfl, rfl⟩
  obtain ⟨h₁, h₂, h₃, h₄, h₅, h₆, h₇, h₈, h₉, h₁₀⟩ := hsame
  constructor
  · rw [htimed.io, h₁]
  · rw [htimed.inserted, h₂]
  · rw [htimed.pending, h₃]
  · rw [htimed.timeout, h₄]
    rfl
  · rw [htimed.active, h₅, h₆]
  · rw [htimed.later, h₅]
  · rw [htimed.res, h₆]
  · rw [← h₁₀]
    exact htimed.ioTimeout
  · rw [htimed.running, h₇]
  · rw [htimed.continues, h₈]
  · rw [htimed.current, h₉]

end EventBase
end LinuxServer.Libevent
