import LinuxServer.Heap.Server

/-!
# The alarm of the time heap server

The server keeps at most one alarm running and remembers in `is_sig_alarm` that it did. The flag is
set together with the alarm but only reset by `cb_func`, that is when a connection is closed. A tick
that removes nothing but cancelled timers leaves the flag set with no alarm behind it, and from then
on the remaining timers are forgotten.

This cannot happen as long as the alarm is always set for a time by which some timer that is not
cancelled has expired: then the tick it leads to closes a connection. `alarm_not_lost` proves it from
that condition on the runs of `timer_handler`; an alarm set on accepting a connection always meets it.
-/

namespace LinuxServer.Heap

open Library EventLoop

/-- The timers in the heap. -/
def TimeHeap.timers (h : TimeHeap) : List HeapTimer :=
  (List.range h.curSize).filterMap fun i => (h.array.entry i).bind h.mem.cells

theorem Valid.mem_timers {h : TimeHeap} {ms : List Ptr} (hv : Valid h ms) {t : HeapTimer} :
    t ∈ h.timers ↔ ∃ q ∈ ms, h.mem.cells q = some t := by
  unfold TimeHeap.timers
  rw [List.mem_filterMap]
  constructor
  · rintro ⟨i, hi, hcell⟩
    obtain ⟨q, hq, hentry⟩ := hv.slot (List.mem_range.mp hi)
    rw [hentry] at hcell
    exact ⟨q, hq, hcell⟩
  · rintro ⟨q, hq, hcell⟩
    obtain ⟨i, hi, hentry⟩ := hv.slot_of_mem hq
    exact ⟨i, List.mem_range.mpr hi, by rw [hentry]; exact hcell⟩

namespace Server

/-- While the loop waits, a timer that is not cancelled is watched: an alarm is pending, or a
`SIGALRM` byte unread. -/
def Watched (s : Loop Server) : Prop :=
  s.phase = .waiting → (∃ t ∈ s.prog.heap.timers, t.cbFunc ≠ none) →
    s.alarm ≠ none ∨ Sig.alrm ∈ s.pipe

/-- The condition on `timer_handler`. It is going to set the alarm if `is_sig_alarm` is clear, or if
it is going to close a connection. The alarm will ring when the earliest timer left expires, a second
later at the earliest; by then a timer that is not cancelled has to be due. -/
def RingsForLive (s : Loop Server) : Action → Prop
  | .finish later => s.timeout = true →
      (s.prog.isSigAlarm = false ∨
        ∃ t ∈ s.prog.heap.timers, t.cbFunc ≠ none ∧ t.expire ≤ s.now) →
      ∀ t ∈ s.prog.heap.timers, s.now < t.expire →
        ∃ u ∈ s.prog.heap.timers, u.cbFunc ≠ none ∧ s.now < u.expire ∧
          u.expire ≤ max t.expire (later + 1)
  | _ => True

instance (s : Loop Server) (act : Action) : Decidable (RingsForLive s act) :=
  match act with
  | .finish later => inferInstanceAs (Decidable (s.timeout = true →
      (s.prog.isSigAlarm = false ∨
        ∃ t ∈ s.prog.heap.timers, t.cbFunc ≠ none ∧ t.expire ≤ s.now) →
      ∀ t ∈ s.prog.heap.timers, s.now < t.expire →
        ∃ u ∈ s.prog.heap.timers, u.cbFunc ≠ none ∧ s.now < u.expire ∧
          u.expire ≤ max t.expire (later + 1)))
  | .clock _ | .raise _ | .wait _ | .accept _ | .read | .skip | .client _ =>
      inferInstanceAs (Decidable True)

/-! ## Rings -/

/-- A tick is on its way. -/
def Outstanding (s : Loop Server) : Prop :=
  s.alarm ≠ none ∨ Sig.alrm ∈ s.pipe ∨ s.timeout = true

/-- The tick on its way comes at `e` or later. -/
def Covers (s : Loop Server) (e : Int) : Prop :=
  (∃ due, s.alarm = some due ∧ e ≤ due) ∨ ((Sig.alrm ∈ s.pipe ∨ s.timeout = true) ∧ e ≤ s.now)

variable {s s' : Loop Server} {act : Action} {e : Int}

theorem Covers.outstanding (h : Covers s e) : Outstanding s := by
  rcases h with ⟨due, hdue, -⟩ | ⟨h, -⟩
  · exact .inl (by simp [hdue])
  · exact .inr h

/-- As time passes, a pending alarm stays pending or its byte arrives. -/
theorem advance_alarm (later : Int) {due : Int} (hdue : s.alarm = some due) :
    (s.advance later).alarm = some due ∨ (Sig.alrm ∈ (s.advance later).pipe ∧ due ≤ later) := by
  unfold Loop.advance
  rw [hdue]
  dsimp only
  split
  · rename_i hle
    exact .inr ⟨by simp, hle⟩
  · exact .inl rfl

theorem mem_advance_pipe {later : Int} {sig : Sig} (h : sig ∈ s.pipe) :
    sig ∈ (s.advance later).pipe := by
  unfold Loop.advance
  split
  · exact h
  · split
    · simp [h]
    · exact h

theorem advance_timeout (later : Int) : (s.advance later).timeout = s.timeout := by
  unfold Loop.advance
  split
  · rfl
  · split <;> rfl

theorem Covers.advance {later : Int} (hle : s.now ≤ later) (h : Covers s e) :
    Covers (s.advance later) e := by
  rcases h with ⟨due, hdue, he⟩ | ⟨h, he⟩
  · rcases advance_alarm later hdue with h | ⟨hp, hlate⟩
    · exact .inl ⟨due, h, he⟩
    · exact .inr ⟨.inl hp, by rw [Loop.advance_now]; omega⟩
  · refine .inr ⟨?_, by rw [Loop.advance_now]; omega⟩
    rcases h with h | h
    · exact .inl (mem_advance_pipe h)
    · exact .inr (by rw [advance_timeout, h])

theorem Outstanding.advance (later : Int) (h : Outstanding s) : Outstanding (s.advance later) := by
  rcases h with h | h | h
  · obtain ⟨due, hdue⟩ := Option.ne_none_iff_exists'.mp h
    rcases advance_alarm later hdue with h | ⟨hp, -⟩
    · exact .inl (by simp [h])
    · exact .inr (.inl hp)
  · exact .inr (.inl (mem_advance_pipe h))
  · exact .inr (.inr (by rw [advance_timeout, h]))

/-- Reading the pipe turns the byte into the flag `timeout`, or leaves it for the next read. -/
theorem afterRead_rings {rest : List Source} (h : Sig.alrm ∈ s.pipe ∨ s.timeout = true) :
    Sig.alrm ∈ (s.afterRead rest).pipe ∨ (s.afterRead rest).timeout = true := by
  rcases h with h | h
  · rw [← List.take_append_drop 1024 s.pipe, List.mem_append] at h
    rcases h with h | h
    · exact .inr (by simp [Loop.afterRead, h])
    · exact .inl h
  · exact .inr (by simp [Loop.afterRead, h])

/-! ## The invariant

All timers are in the heap, so the live ones of the memory are those that `Watched` is about. A set
flag means that the tick on its way will find a live timer due. -/

/-- A timer that is not cancelled. -/
def Live (s : Loop Server) (q : Ptr) (t : HeapTimer) : Prop :=
  s.prog.heap.mem.cells q = some t ∧ t.cbFunc ≠ none

structure Guarded (s : Loop Server) (ms : List Ptr) : Prop where
  sane : s.Sane
  valid : Valid s.prog.heap ms
  only : ∀ q, s.prog.heap.mem.cells q ≠ none → q ∈ ms
  timer : ∀ fd ∈ s.opened, (s.prog.users fd).sockFd = fd ∧ ∃ q, (s.prog.users fd).timer = some q
  set : s.prog.isSigAlarm = true → ∃ q t, Live s q t ∧ Covers s t.expire
  clear : s.prog.isSigAlarm = false → (∃ q t, Live s q t) → Outstanding s
  quiet : s.phase = .waiting → s.timeout = false

variable {ms : List Ptr}

theorem Guarded.outstanding (hg : Guarded s ms) {q : Ptr} {t : HeapTimer} (hl : Live s q t) :
    Outstanding s := by
  cases hflag : s.prog.isSigAlarm with
  | true =>
      obtain ⟨-, t', -, hc⟩ := hg.set hflag
      exact hc.outstanding
  | false => exact hg.clear hflag ⟨q, t, hl⟩

theorem Guarded.watched (hg : Guarded s ms) : Watched s := by
  rintro hph ⟨t, ht, hcb⟩
  obtain ⟨q, -, hcell⟩ := hg.valid.mem_timers.mp ht
  rcases hg.outstanding ⟨hcell, hcb⟩ with h | h | h
  · exact .inl h
  · exact .inr h
  · rw [hg.quiet hph] at h
    cases h

/-- A step that leaves the program and the open descriptors alone and keeps the tick on its way. -/
theorem Guarded.of_eq (hg : Guarded s ms) (hsane : s'.Sane) (hprog : s'.prog = s.prog)
    (hopen : s'.opened = s.opened) (hcov : ∀ e, Covers s e → Covers s' e)
    (hout : Outstanding s → Outstanding s') (hquiet : s'.phase = .waiting → s'.timeout = false) :
    Guarded s' ms := by
  have hlive : ∀ q t, Live s' q t ↔ Live s q t := by
    intro q t
    unfold Live
    rw [hprog]
  constructor
  · exact hsane
  · rw [hprog]
    exact hg.valid
  · rw [hprog]
    exact hg.only
  · rw [hprog, hopen]
    exact hg.timer
  · intro hflag
    obtain ⟨q, t, hl, hc⟩ := hg.set (hprog ▸ hflag)
    exact ⟨q, t, (hlive q t).mpr hl, hcov _ hc⟩
  · rintro hflag ⟨q, t, hl⟩
    exact hout (hg.outstanding ((hlive q t).mp hl))
  · exact hquiet

/-- In particular a step that changes nothing but the phase, or appends to the pipe. -/
theorem Guarded.rephase (hg : Guarded s ms) (hsane : s'.Sane) (hprog : s'.prog = s.prog)
    (hopen : s'.opened = s.opened) (hnow : s'.now = s.now) (halarm : s'.alarm = s.alarm)
    (hpipe : ∀ sig ∈ s.pipe, sig ∈ s'.pipe) (htimeout : s'.timeout = s.timeout)
    (hquiet : s'.phase = .waiting → s'.timeout = false) : Guarded s' ms := by
  have hrings : Sig.alrm ∈ s.pipe ∨ s.timeout = true → Sig.alrm ∈ s'.pipe ∨ s'.timeout = true := by
    rw [htimeout]
    exact Or.imp_left (hpipe _)
  apply hg.of_eq hsane hprog hopen _ _ hquiet
  · intro e hc
    unfold Covers
    rw [halarm, hnow]
    exact hc.imp_right (And.imp_left hrings)
  · intro ho
    unfold Outstanding
    rw [halarm]
    exact ho.imp_right hrings

/-! ### Accepting and hanging up -/

theorem Guarded.accept (hg : Guarded s ms) {fd : Nat} {q : Ptr} {rest : List Source}
    {e : Effect Server} (hq : s.prog.heap.mem.cells q = none)
    (he : onAccept s.prog s.now fd q = .ok e) (hsane : (s.afterAccept e fd q rest).Sane) :
    Guarded (s.afterAccept e fd q rest) (q :: ms) := by
  obtain ⟨h', heq, hv', hmem⟩ := onAccept_valid hg.valid hq s.now fd
  obtain rfl := Except.ok.inj (he.symm.trans heq)
  constructor
  · exact hsane
  · exact hv'
  · intro x hx
    have hx : h'.mem.cells x ≠ none := hx
    rw [hmem] at hx
    by_cases hxq : x = q
    · exact hxq ▸ List.mem_cons_self
    · rw [Mem.cells_set_ne _ _ hxq] at hx
      exact List.mem_cons_of_mem _ (hg.only x hx)
  · intro x hx
    show ((accepted s.prog fd q h').prog.users x).sockFd = x ∧
      ∃ r, ((accepted s.prog fd q h').prog.users x).timer = some r
    by_cases hxfd : x = fd
    · subst hxfd
      simp [accepted]
    · have hx : x ∈ s.opened := by
        simpa [Loop.afterAccept, Loop.apply, accepted, hxfd] using hx
      simpa [accepted, hxfd] using hg.timer x hx
  · intro _
    cases hflag : s.prog.isSigAlarm with
    | true =>
        -- the alarm that is running stays as it is
        obtain ⟨x, t, ⟨hx, hcb⟩, hc⟩ := hg.set hflag
        have hxq : x ≠ q := by
          rintro rfl
          rw [hq] at hx
          cases hx
        refine ⟨x, t, ⟨?_, hcb⟩, ?_⟩
        · show h'.mem.cells x = some t
          rw [hmem, Mem.cells_set_ne _ _ hxq, hx]
        · have halarm : (s.afterAccept (accepted s.prog fd q h') fd q rest).alarm = s.alarm := by
            simp [Loop.afterAccept, Loop.apply, accepted, hflag]
          unfold Covers
          rw [halarm]
          exact hc
    | false =>
        refine ⟨q, timerFor s.now fd, ⟨?_, by simp [timerFor]⟩, .inl ⟨s.now + timeslot, ?_, ?_⟩⟩
        · show h'.mem.cells q = some _
          rw [hmem, Mem.cells_set_self]
        · simp [Loop.afterAccept, Loop.apply, accepted, hflag]
        · exact le_refl (s.now + timeslot)
  · intro hflag
    cases hflag
  · intro hph
    cases hph

theorem Guarded.hangUp (hg : Guarded s ms) {fd : Nat} (r : Recv) (rest : List Source)
    {e : Effect Server} (hfd : fd ∈ s.opened) (he : s.prog.hangUp fd = .ok e) :
    e.closes = [fd] ∧ ((s.afterClient e fd r rest).Sane →
      ∃ ms', Guarded (s.afterClient e fd r rest) ms') := by
  obtain ⟨hsock, q, htimer⟩ := hg.timer fd hfd
  obtain ⟨t, ht⟩ : ∃ t, s.prog.heap.mem.cells q = some t := by
    -- otherwise `del_timer` would have faulted
    cases hc : s.prog.heap.mem.cells q with
    | some t => exact ⟨t, rfl⟩
    | none => simp [Server.hangUp, callback, htimer, TimeHeap.delTimer, Mem.modify, hc] at he
  have hq : q ∈ ms := hg.only q (by simp [ht])
  obtain ⟨u, h', -, hu, heq, hv', hmem⟩ := hangUp_valid hg.valid hq htimer ht
  obtain rfl := Except.ok.inj (he.symm.trans heq)
  rw [hsock]
  refine ⟨rfl, fun hsane => ⟨ms.erase u, hsane, hv', ?_, ?_, ?_, ?_, ?_⟩⟩
  · intro x hx
    have hx : h'.mem.cells x ≠ none := hx
    rw [hmem] at hx
    have hxu : x ≠ u := by
      rintro rfl
      exact hx (Mem.cells_set_self _ _ _)
    rw [Mem.cells_set_ne _ _ hxu] at hx
    refine (hg.valid.nodup.mem_erase_iff).mpr ⟨hxu, ?_⟩
    by_cases hxq : x = q
    · exact hxq ▸ hq
    · rw [Mem.cells_set_ne _ _ hxq] at hx
      exact hg.only x hx
  · intro x hx
    have hx : x ∈ s.opened := (List.mem_filter.mp hx).1
    exact hg.timer x hx
  · intro hflag
    cases hflag
  · rintro - ⟨x, t', hx, hcb⟩
    have hx : h'.mem.cells x = some t' := hx
    rw [hmem] at hx
    have hxu : x ≠ u := by
      rintro rfl
      rw [Mem.cells_set_self] at hx
      cases hx
    rw [Mem.cells_set_ne _ _ hxu] at hx
    have hxq : x ≠ q := by
      rintro rfl
      rw [Mem.cells_set_self] at hx
      obtain rfl := Option.some.inj hx
      exact hcb rfl
    rw [Mem.cells_set_ne _ _ hxq] at hx
    exact hg.outstanding ⟨hx, hcb⟩
  · intro hph
    cases hph

/-! ### Ticking -/

section Tick
variable {h' : TimeHeap} {r : Report}

/-- A timer that is not due stays. -/
theorem Guarded.survives (ht : Ticked s.prog.heap ms s.now h' r) {q : Ptr} {t : HeapTimer}
    (hq : s.prog.heap.mem.cells q = some t) (hlate : s.now < t.expire) :
    q ∉ r.freed ∧ h'.mem.cells q = some t := by
  have hout : q ∉ r.freed := by
    intro h
    have hdue := (List.mem_filter.mp (ht.freed.mem_iff.mp h)).2
    simp only [isDue, expireOf_some hq, decide_eq_true_eq] at hdue
    omega
  exact ⟨hout, by rw [ht.cells, if_neg hout, hq]⟩

/-- A tick makes a call exactly if a live timer is due. -/
theorem Guarded.calls_ne_nil (hg : Guarded s ms) (ht : Ticked s.prog.heap ms s.now h' r) :
    r.calls ≠ [] ↔ ∃ q t, Live s q t ∧ t.expire ≤ s.now := by
  constructor
  · intro hne
    obtain ⟨c, hc⟩ := List.exists_mem_of_ne_nil _ hne
    rw [ht.calls] at hc
    obtain ⟨q, hq, hcall⟩ := List.mem_filterMap.mp hc
    obtain ⟨t, hcell, hcb⟩ := Option.bind_eq_some_iff.mp hcall
    have hdue := (List.mem_filter.mp (ht.freed.mem_iff.mp hq)).2
    refine ⟨q, t, ⟨hcell, ?_⟩, by simpa [isDue, expireOf_some hcell] using hdue⟩
    intro hnone
    simp [hnone] at hcb
  · rintro ⟨q, t, ⟨hcell, hcb⟩, hdue⟩ hnil
    obtain ⟨cb, hcb⟩ := Option.ne_none_iff_exists'.mp hcb
    have hq : q ∈ r.freed := by
      rw [ht.freed.mem_iff, List.mem_filter]
      exact ⟨hg.only q (by simp [hcell]), by simpa [isDue, expireOf_some hcell] using hdue⟩
    have hcall : callOf s.prog.heap.mem q =
        some { timer := q, cbFunc := cb, userData := t.userData } := by
      simp [callOf, hcell, hcb]
    have hc := List.mem_filterMap.mpr ⟨q, hq, hcall⟩
    rw [← ht.calls, hnil] at hc
    cases hc

/-- The flag was set and no callback ran: the tick came too early for the live timer, and the alarm is
still to come. -/
theorem Guarded.covers_early (hg : Guarded s ms) (ht : Ticked s.prog.heap ms s.now h' r)
    {e e' : Effect Server} {later : Int} (hset : s.prog.isSigAlarm = true) (hnil : r.calls = [])
    (hnone : e.alarm = none) (hkeep : e'.alarm = none) :
    ∃ q t, h'.mem.cells q = some t ∧ t.cbFunc ≠ none ∧ Covers (s.afterHandler e e' later) t.expire := by
  obtain ⟨q, t, hl, hc⟩ := hg.set hset
  have hlate : s.now < t.expire := by
    by_contra hdue
    exact (hg.calls_ne_nil ht).mpr ⟨q, t, hl, by omega⟩ hnil
  refine ⟨q, t, (Guarded.survives ht hl.1 hlate).2, hl.2, ?_⟩
  rcases hc with ⟨due, hdue, hle⟩ | ⟨-, hdue⟩
  · have halarm : (s.apply e).alarm = some due := by simp [Loop.apply, hnone, hdue]
    have hsame : (s.afterHandler e e' later).alarm = ((s.apply e).advance later).alarm := by
      simp [Loop.afterHandler, Loop.afterTick, Loop.apply, hkeep]
    rcases advance_alarm later halarm with h | ⟨hp, hdue'⟩
    · exact .inl ⟨due, by rw [hsame, h], hle⟩
    · refine .inr ⟨.inl hp, ?_⟩
      show t.expire ≤ ((s.apply e).advance later).now
      rw [Loop.advance_now]
      omega
  · omega

/-- The alarm is set for the timer `x`; the condition names a live timer that is due by then. -/
theorem Guarded.covers_ring (hg : Guarded s ms) (ht : Ticked s.prog.heap ms s.now h' r)
    {e e' : Effect Server} {later d : Int} {x : Ptr} (htimeout : s.timeout = true)
    (hC : RingsForLive s (.finish later))
    (hwill : s.prog.isSigAlarm = false ∨ r.calls ≠ [])
    (hx : x ∈ ms.filter (!isDue s.prog.heap.mem s.now ·)) (hd : e'.alarm = some d)
    (hring : later + d = max (expireOf h'.mem (some x)) (later + 1)) :
    ∃ q t, h'.mem.cells q = some t ∧ t.cbFunc ≠ none ∧ Covers (s.afterHandler e e' later) t.expire := by
  have hwill : s.prog.isSigAlarm = false ∨
      ∃ t ∈ s.prog.heap.timers, t.cbFunc ≠ none ∧ t.expire ≤ s.now := by
    refine hwill.imp_right fun hne => ?_
    obtain ⟨q, t, ⟨hcell, hcb⟩, hdue⟩ := (hg.calls_ne_nil ht).mp hne
    exact ⟨t, hg.valid.mem_timers.mpr ⟨q, hg.only q (by simp [hcell]), hcell⟩, hcb, hdue⟩
  obtain ⟨hxms, hxdue⟩ := List.mem_filter.mp hx
  obtain ⟨t, hcell⟩ := Option.ne_none_iff_exists'.mp (hg.valid.live x hxms)
  have hlate : s.now < t.expire := by simpa [isDue, expireOf_some hcell] using hxdue
  obtain ⟨u, hu, hcb, hulate, hle⟩ :=
    hC htimeout hwill t (hg.valid.mem_timers.mpr ⟨x, hxms, hcell⟩) hlate
  obtain ⟨q, -, hq⟩ := hg.valid.mem_timers.mp hu
  refine ⟨q, u, (Guarded.survives ht hq hulate).2, hcb, .inl ⟨later + d, ?_, ?_⟩⟩
  · simp [Loop.afterHandler, Loop.afterTick, Loop.apply, hd]
  · have hexp : expireOf h'.mem (some x) = t.expire :=
      expireOf_some (Guarded.survives ht hcell hlate).2
    rw [hring, hexp]
    exact hle

theorem Guarded.timerHandler (hg : Guarded s ms) (ht : Ticked s.prog.heap ms s.now h' r)
    {e e' : Effect Server} {later : Int} (htimeout : s.timeout = true)
    (hC : RingsForLive s (.finish later)) (hprog : e.prog = (ticked s.prog h' r).prog)
    (hnone : e.alarm = none) (he' : onRearm e.prog later = .ok e')
    (hsane : (s.afterHandler e e' later).Sane) :
    ∃ ms', Guarded (s.afterHandler e e' later) ms' := by
  rw [hprog] at he'
  obtain ⟨e₁, he₁, -, hheap, husers, hcases⟩ := onRearm_valid
    (p := (ticked s.prog h' r).prog) (show Valid h' _ from ht.valid) later
  obtain rfl : e₁ = e' := Except.ok.inj (he₁.symm.trans he')
  have hheap : (s.afterHandler e e₁ later).prog.heap = h' := hheap
  have husers : (s.afterHandler e e₁ later).prog.users = s.prog.users := husers
  have honly : ∀ q, (s.afterHandler e e₁ later).prog.heap.mem.cells q ≠ none →
      q ∈ ms.filter (!isDue s.prog.heap.mem s.now ·) := by
    intro q hq
    rw [hheap, ht.cells] at hq
    split at hq
    · exact absurd rfl hq
    · rename_i hout
      exact ht.mem_kept.mpr ⟨hg.only q hq, hout⟩
  refine ⟨ms.filter (!isDue s.prog.heap.mem s.now ·), hsane, by rw [hheap]; exact ht.valid, honly,
    ?_, ?_, ?_, fun _ => rfl⟩
  · intro fd hfd
    rw [husers]
    have hfd : fd ∈ ((s.apply e).advance later).opened := (List.mem_filter.mp hfd).1
    rw [Loop.advance_opened] at hfd
    exact hg.timer fd (List.mem_filter.mp hfd).1
  · intro hflag
    have hflag : e₁.prog.isSigAlarm = true := hflag
    rcases hcases with ⟨hold, -, hkeep⟩ | ⟨-, -, hclear, -⟩ | ⟨hold, -, x, hx, d, hd, hring⟩
    · obtain ⟨hset, hnil⟩ := Bool.and_eq_true_iff.mp hold
      obtain ⟨q, t, hcell, hcb, hcov⟩ :=
        hg.covers_early ht hset (List.isEmpty_iff.mp hnil) hnone hkeep
      exact ⟨q, t, ⟨by rw [hheap]; exact hcell, hcb⟩, hcov⟩
    · rw [hclear] at hflag
      cases hflag
    · have hwill : s.prog.isSigAlarm = false ∨ r.calls ≠ [] := by
        cases hset : s.prog.isSigAlarm with
        | false => exact .inl rfl
        | true =>
            right
            intro hnil
            simp [ticked, hset, hnil] at hold
      obtain ⟨q, t, hcell, hcb, hcov⟩ := hg.covers_ring ht htimeout hC hwill hx hd hring
      exact ⟨q, t, ⟨by rw [hheap]; exact hcell, hcb⟩, hcov⟩
  · rintro hflag ⟨q, t, hcell, -⟩
    exfalso
    have hflag : e₁.prog.isSigAlarm = false := hflag
    rcases hcases with ⟨-, hset, -⟩ | ⟨-, hnil, -, -⟩ | ⟨-, hset, -⟩
    · rw [hset] at hflag
      cases hflag
    · have hq := honly q (by simp [hcell])
      rw [hnil] at hq
      cases hq
    · rw [hset] at hflag
      cases hflag

end Tick

/-! ### Whole runs -/

theorem onTick_inv {p : Server} {now : Int} {e : Effect Server} {h' : TimeHeap} {r : Report}
    (htick : p.heap.tick now = .ok (h', r)) (he : p.onTick now = .ok e) :
    e.prog = (ticked p h' r).prog ∧ e.alarm = none := by
  unfold onTick at he
  simp only [htick, ok_bind] at he
  obtain ⟨closes, -, he⟩ := bind_eq_ok.mp he
  obtain rfl := Except.ok.inj he
  exact ⟨rfl, rfl⟩

theorem Guarded.moves (hg : Guarded s ms) (hm : Loop.Moves handlers s act s')
    (hC : RingsForLive s act) : ∃ ms', Guarded s' ms' := by
  have hsane : s'.Sane := by
    apply hg.sane.moves hm
    · intro fd q e _ he
      exact onAccept_closes (show s.prog.onAccept s.now fd q = .ok e from he)
    · intro fd r e hfd he x hx
      have he : s.prog.onClient s.now fd r = .ok e := he
      cases hr : hangsUp r with
      | true =>
          rw [onClient_of_hangsUp hr] at he
          rw [(hg.hangUp r [] hfd he).1] at hx
          exact List.mem_singleton.mp hx
      | false =>
          rw [onClient_of_stays hr] at he
          obtain rfl := Except.ok.inj he
          cases hx
  cases hm with
  | clock hle =>
      exact ⟨ms, hg.of_eq hsane (by simp) (by simp) (fun e hc => hc.advance hle)
        (fun ho => ho.advance _) (by simpa [advance_timeout] using hg.quiet)⟩
  | raise =>
      exact ⟨ms, hg.rephase hsane rfl rfl rfl rfl
        (fun sig h => List.mem_append_left _ h) rfl hg.quiet⟩
  | wait _ _ _ _ => exact ⟨ms, hg.rephase hsane rfl rfl rfl rfl (fun _ h => h) rfl (by simp)⟩
  | acceptFailed _ => exact ⟨ms, hg.rephase hsane rfl rfl rfl rfl (fun _ h => h) rfl (by simp)⟩
  | @accept fd q rest e _ hfd _ hq he =>
      exact ⟨q :: ms, hg.accept (Option.isNone_iff_eq_none.mp hq) he hsane⟩
  | read _ =>
      refine ⟨ms, hg.of_eq hsane rfl rfl ?_ ?_ (by simp [Loop.afterRead])⟩
      · intro e hc
        exact hc.imp_right (And.imp_left afterRead_rings)
      · intro ho
        exact ho.imp_right afterRead_rings
  | @client fd r rest e hph he =>
      have hfd : fd ∈ s.opened := hg.sane.client fd (by rw [hph]; exact List.mem_cons_self)
      have he : s.prog.onClient s.now fd r = .ok e := he
      cases hr : hangsUp r with
      | true =>
          rw [onClient_of_hangsUp hr] at he
          exact (hg.hangUp r rest hfd he).2 hsane
      | false =>
          rw [onClient_of_stays hr] at he
          obtain rfl := Except.ok.inj he
          exact ⟨ms, hg.rephase hsane rfl (by simp [Loop.afterClient, Loop.apply]) rfl rfl
            (fun _ h => h) rfl (by simp [Loop.afterClient])⟩
  | skip _ => exact ⟨ms, hg.rephase hsane rfl rfl rfl rfl (fun _ h => h) rfl (by simp)⟩
  | quiet _ ht => exact ⟨ms, hg.rephase hsane rfl rfl rfl rfl (fun _ h => h) rfl (fun _ => ht)⟩
  | @tick later e e' _ _ htimeout he he' =>
      obtain ⟨h', r, htick, ht⟩ := tick_ticked hg.valid s.now
      obtain ⟨hprog, hnone⟩ := onTick_inv htick he
      exact hg.timerHandler ht htimeout hC hprog hnone he' hsane

theorem guarded_start (hs : machine.init s) : ∃ ms, Guarded s ms := by
  obtain ⟨now, rfl⟩ := hs
  refine ⟨[], Loop.Sane.start _ _ _, Valid.make (by decide), ?_, ?_, ?_, ?_, fun _ => rfl⟩
  · intro q hq
    exact absurd rfl hq
  · intro fd hfd
    cases hfd
  · intro hflag
    cases hflag
  · intro _ _
    exact .inl (by simp [Loop.start])

/-- In a run in which `timer_handler` only sets alarms by which a live timer is due, no timer is ever
left without an alarm. -/
theorem alarm_not_lost {h : List (Loop Server × Action)} (hr : machine.Run h s)
    (hC : Machine.Always RingsForLive h) : Machine.Throughout Watched h s := by
  have hg := hr.guarded (I := fun s => ∃ ms, Guarded s ms) (fun s hs => guarded_start hs)
    (by
      rintro s act s' ⟨ms, hg⟩ he hC hs
      exact hg.moves (Loop.moves_of_step he hs) hC) hC
  have hw : ∀ s, (∃ ms, Guarded s ms) → Watched s := by
    rintro s ⟨ms, hg⟩
    exact hg.watched
  exact ⟨fun x hx => hw x.1 (hg.1 x hx), hw s hg.2⟩

/-- Three clients connect at times 0, 1 and 2, and `gone` hangs up at 3. The alarm rings at 5, and
again at 6. -/
def threeClients (gone : Nat) : List Action :=
  [.wait [.listen], .accept (some (5, 1)), .finish 0,
    .clock 1, .wait [.listen], .accept (some (6, 2)), .finish 1,
    .clock 2, .wait [.listen], .accept (some (7, 3)), .finish 2,
    .clock 3, .wait [.client gone], .client .eof, .finish 3,
    .clock 5, .wait [.pipe], .read, .finish 5,
    .clock 6, .wait [.pipe], .read, .finish 6]

/-- When the first of them leaves, nothing is cancelled in vain: the second is closed at 6, and an
alarm is set for the third. -/
theorem alarm_not_lost_first_leaves :
    ∃ h s, machine.Run h s ∧ h.map Prod.snd = threeClients 5 ∧ s.opened = [7] ∧
      s.alarm = some 7 ∧ Machine.Throughout Watched h s := by
  obtain ⟨h, s, hr, has, hs⟩ := Machine.Run.of_replay (M := machine.restrict RingsForLive)
    (threeClients 5) (fun s => (s.opened, s.alarm)) ⟨0, rfl⟩ (b := ([7], some 7)) (by decide +kernel)
  obtain ⟨hr, hC⟩ := hr.of_restrict
  obtain ⟨hopen, halarm⟩ := Prod.mk.inj hs
  exact ⟨h, s, hr, has, hopen, halarm, alarm_not_lost hr hC⟩

/-- When the second leaves, its cancelled timer stays behind, and the alarm is set for it at 5. The
tick at 6 removes it without a callback, and the third client is left with a timer but no alarm. -/
theorem alarm_lost_second_leaves :
    ∃ h s, machine.Run h s ∧ h.map Prod.snd = threeClients 6 ∧ ¬ Watched s := by
  obtain ⟨h, s, hr, has, hs⟩ := Machine.Run.of_replay (M := machine) (threeClients 6)
    (fun s => (s.phase, s.prog.heap.timers, s.alarm, s.pipe)) ⟨0, rfl⟩
    (b := (.waiting, [timerFor 2 7], none, [])) (by decide +kernel)
  simp only [Prod.mk.injEq] at hs
  obtain ⟨hph, htimers, halarm, hpipe⟩ := hs
  refine ⟨h, s, hr, has, ?_⟩
  intro hw
  have hsome : ∃ t ∈ s.prog.heap.timers, t.cbFunc ≠ none := by
    rw [htimers]
    exact ⟨_, List.mem_singleton_self _, by simp [timerFor]⟩
  rcases hw hph hsome with h | h
  · exact h halarm
  · rw [hpipe] at h
    cases h

end Server
end LinuxServer.Heap
