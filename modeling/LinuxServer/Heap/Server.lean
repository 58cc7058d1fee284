import LinuxServer.Heap.Refinement
import LinuxServer.EventLoop

/-!
# The time heap server

`TimeHeap.cpp` gives every accepted connection a timer of `TIMESLOT` seconds in one global heap. When
a client hangs up, the server cancels its timer with `del_timer` and then calls `pop_timer`, which
removes whatever timer is at the top of the heap.

`one_timer_iff` says when that is right: the connections keep their timers throughout a run exactly
as long as every client that hangs up is the one whose timer is at the top. Otherwise the pop takes
the timer of another connection, which then never times out, and whose `users[fd].timer` dangles.
-/

namespace LinuxServer.Heap

open Library EventLoop

def timeslot : Int := 5

/-- The address of `cb_func`. -/
def cbFunc : Ptr := 1

structure Server where
  heap : TimeHeap
  users : Nat → ClientData
  isSigAlarm : Bool

namespace Server

/-- `cb_func(user_data)`: the descriptor it closes. A pointer to `users[fd]` is modelled by `fd`. It
also resets `is_sig_alarm`, which is left to the callers. -/
def callback (users : Nat → ClientData) : Option Ptr → Exec Nat
  | none => .error .nullDeref
  | some fd => .ok (users fd).sockFd

/-- The timer a new connection gets. -/
def timerFor (now : Int) (connFd : Nat) : HeapTimer :=
  { HeapTimer.make now timeslot with userData := some connFd, cbFunc := some cbFunc }

def onAccept (p : Server) (now : Int) (connFd : Nat) (a : Ptr) : Exec (Effect Server) := do
  let users := Function.update p.users connFd { p.users connFd with sockFd := connFd }
  let heap := { p.heap with mem := p.heap.mem.new a (timerFor now connFd) }
  let heap ← heap.addTimer (some a)
  let alarm := if p.isSigAlarm then none else some timeslot
  let users := Function.update users connFd { users connFd with timer := some a }
  return { prog := { heap := heap, users := users, isSigAlarm := true }, closes := [],
           alarm := alarm }

/-- `cb_func(&users[sockFd]); client_time_heap.del_timer(timer); client_time_heap.pop_timer();` -/
def hangUp (p : Server) (sockFd : Nat) : Exec (Effect Server) := do
  let timer := (p.users sockFd).timer
  let fd ← callback p.users (some sockFd)
  let heap ← p.heap.delTimer timer
  let (heap, _) ← heap.popTimer
  return { prog := { p with heap := heap, isSigAlarm := false }, closes := [fd], alarm := none }

def onClient (p : Server) (_now : Int) (sockFd : Nat) : Recv → Exec (Effect Server)
  | .fail => p.hangUp sockFd
  | .eof => p.hangUp sockFd
  | .again => .ok { prog := p, closes := [], alarm := none }
  | .data => .ok { prog := p, closes := [], alarm := none }

def onTick (p : Server) (now : Int) : Exec (Effect Server) := do
  let (heap, r) ← p.heap.tick now
  let closes ← r.calls.mapM fun c => callback p.users c.userData
  return { prog := { p with heap := heap, isSigAlarm := p.isSigAlarm && r.calls.isEmpty },
           closes := closes, alarm := none }

/-- The rest of `timer_handler`: `alarm` is set for the timer at the top. -/
def onRearm (p : Server) (now : Int) : Exec (Effect Server) :=
  if p.isSigAlarm then .ok { prog := p, closes := [], alarm := none }
  else do
    let tmp ← p.heap.top
    match tmp with
    | none => return { prog := p, closes := [], alarm := none }
    | some timer =>
        let t ← p.heap.mem.deref (some timer)
        let delay := t.expire - now
        let delay := if delay ≤ 0 then 1 else delay
        return { prog := { p with isSigAlarm := true }, closes := [], alarm := some delay }

def handlers : Handlers Server where
  accept := onAccept
  client := onClient
  tick := onTick
  rearm := onRearm
  fresh p a := (p.heap.mem.cells a).isNone

/-- `main`: an empty heap of capacity 1024, unset records, and `alarm(10)`. -/
def machine : Machine (Loop Server) Action :=
  Loop.machine handlers
    { heap := TimeHeap.make 1024, users := fun _ => { sockFd := 0, timer := none },
      isSigAlarm := false } 10

instance (s : Loop Server) (act : Action) : Decidable (machine.enabled s act) :=
  Loop.decidableEnabled handlers s act

/-! ## What the handlers do to a valid heap -/

variable {p : Server} {ms : List Ptr} {e : Effect Server} {fd : Nat} {q : Ptr} {t : HeapTimer}

/-- The effect of accepting, given the heap it leads to. -/
def accepted (p : Server) (fd : Nat) (q : Ptr) (h' : TimeHeap) : Effect Server where
  prog :=
    { heap := h'
      users := Function.update p.users fd { sockFd := fd, timer := some q }
      isSigAlarm := true }
  closes := []
  alarm := if p.isSigAlarm then none else some timeslot

/-- The effect of hanging up on `fd`, given the heap it leads to. -/
def hungUp (p : Server) (fd : Nat) (h' : TimeHeap) : Effect Server where
  prog := { p with heap := h', isSigAlarm := false }
  closes := [fd]
  alarm := none

/-- A new connection gets a timer in the heap. -/
theorem onAccept_valid (hv : Valid p.heap ms) (hq : p.heap.mem.cells q = none) (now : Int)
    (fd : Nat) :
    ∃ h', p.onAccept now fd q = .ok (accepted p fd q h') ∧ Valid h' (q :: ms) ∧
      h'.mem = p.heap.mem.set q (some (timerFor now fd)) := by
  have hout : q ∉ ms := fun h => hv.live q h hq
  have hv₁ : Valid { p.heap with mem := p.heap.mem.new q (timerFor now fd) } ms := by
    apply hv.of_mem
    · intro x hx
      have hne : x ≠ q := fun h => hout (h ▸ hx)
      rw [Mem.new, Mem.cells_set_ne _ _ hne]
      exact hv.live x hx
    · intro x hx
      have hne : x ≠ q := fun h => hout (h ▸ hx)
      exact expireOf_set_ne _ _ hne
  obtain ⟨h', hadd, hv', hmem⟩ := addTimer_valid hv₁ hout (by simp [Mem.new])
  refine ⟨h', ?_, hv', hmem⟩
  unfold onAccept accepted
  simp [hadd]

/-- What hanging up leaves: `q` cancelled, then the top `u` popped. -/
theorem hangUp_valid (hv : Valid p.heap ms) (hq : q ∈ ms) (htimer : (p.users fd).timer = some q)
    (ht : p.heap.mem.cells q = some t) :
    ∃ u h', p.heap.array.entry 0 = some u ∧ u ∈ ms ∧
      p.hangUp fd = .ok (hungUp p (p.users fd).sockFd h') ∧
      Valid h' (ms.erase u) ∧
      h'.mem = (p.heap.mem.set q (some { t with cbFunc := none })).set u none := by
  obtain ⟨h₁, hdel, hv₁, hmem₁⟩ := delTimer_valid hv ht
  have harr : h₁.array = p.heap.array := by
    simp only [TimeHeap.delTimer, Mem.modify_eq ht, ok_bind] at hdel
    obtain rfl := Except.ok.inj hdel
    rfl
  rcases top_valid hv₁ with ⟨rfl, -⟩ | ⟨u, hu, -, hroot, -⟩
  · cases hq
  · obtain ⟨h', hpop, hv', hmem'⟩ := popTimer_valid hv₁ hu hroot
    refine ⟨u, h', harr ▸ hroot, hu, ?_, hv', by rw [hmem', hmem₁]⟩
    simp [hangUp, hungUp, callback, htimer, hdel, hpop]

/-- Re-arming never touches the heap. It sets the alarm for the earliest timer, in a second at the
earliest. -/
theorem onRearm_valid (hv : Valid p.heap ms) (now : Int) :
    ∃ e, p.onRearm now = .ok e ∧ e.closes = [] ∧ e.prog.heap = p.heap ∧ e.prog.users = p.users ∧
      ((p.isSigAlarm = true ∧ e.prog.isSigAlarm = true ∧ e.alarm = none) ∨
       (p.isSigAlarm = false ∧ ms = [] ∧ e.prog.isSigAlarm = false ∧ e.alarm = none) ∨
       (p.isSigAlarm = false ∧ e.prog.isSigAlarm = true ∧ ∃ x ∈ ms, ∃ d,
          e.alarm = some d ∧ now + d = max (expireOf p.heap.mem (some x)) (now + 1))) := by
  unfold onRearm
  cases hflag : p.isSigAlarm with
  | true => exact ⟨_, rfl, rfl, rfl, rfl, .inl ⟨rfl, hflag, rfl⟩⟩
  | false =>
      rw [if_neg (by simp)]
      rcases top_valid hv with ⟨hnil, htop⟩ | ⟨x, hx, htop, -, -⟩
      · rw [htop, ok_bind]
        exact ⟨_, rfl, rfl, rfl, rfl, .inr (.inl ⟨rfl, hnil, hflag, rfl⟩)⟩
      · obtain ⟨t, ht⟩ := Option.ne_none_iff_exists'.mp (hv.live x hx)
        rw [htop, ok_bind]
        dsimp only
        rw [Mem.deref_eq ht, ok_bind]
        refine ⟨_, rfl, rfl, rfl, rfl, .inr (.inr ⟨rfl, rfl, x, hx, _, rfl, ?_⟩)⟩
        rw [expireOf_some ht]
        split <;> omega

/-! ## Connections and their timers -/

/-- Slot `i` of the heap holds a timer for `fd` that is not cancelled. -/
def Serves (p : Server) (fd i : Nat) : Prop :=
  i < p.heap.curSize ∧ ∃ q t, p.heap.array.entry i = some q ∧ p.heap.mem.cells q = some t ∧
    t.userData = some fd ∧ t.cbFunc ≠ none

/-- Every open connection has exactly one timer in the heap, and `users[fd].timer` is that timer. -/
def OneTimer (s : Loop Server) : Prop :=
  ∀ fd ∈ s.opened, (∃! i, Serves s.prog fd i) ∧
    ∀ i, Serves s.prog fd i → (s.prog.users fd).timer = s.prog.heap.array.entry i

/-- A client that hangs up is the one whose timer is at the top of the heap. -/
def EarliestLeaves (s : Loop Server) : Action → Prop
  | .client r => ∀ fd ∈ s.phase.client, hangsUp r = true →
      s.prog.heap.array.entry 0 = (s.prog.users fd).timer
  | _ => True

instance (s : Loop Server) (act : Action) : Decidable (EarliestLeaves s act) :=
  match act with
  | .client r => inferInstanceAs (Decidable (∀ fd ∈ s.phase.client, hangsUp r = true →
      s.prog.heap.array.entry 0 = (s.prog.users fd).timer))
  | .clock _ | .raise _ | .wait _ | .accept _ | .read | .skip | .finish _ =>
      inferInstanceAs (Decidable True)

structure Inv (s : Loop Server) (ms : List Ptr) : Prop where
  sane : s.Sane
  valid : Valid s.prog.heap ms
  timer : ∀ fd ∈ s.opened, (s.prog.users fd).sockFd = fd ∧ ∃ q ∈ ms, ∃ t,
    (s.prog.users fd).timer = some q ∧ s.prog.heap.mem.cells q = some t ∧
    t.userData = some fd ∧ t.cbFunc ≠ none
  client : ∀ q ∈ ms, ∃ fd ∈ s.opened, (s.prog.users fd).timer = some q

variable {s s' : Loop Server} {act : Action}

/-- The invariant gives each connection a timer of its own. -/
theorem Inv.oneTimer (hi : Inv s ms) : OneTimer s := by
  intro fd hfd
  obtain ⟨-, q, hq, t, htimer, ht, hud, hcb⟩ := hi.timer fd hfd
  obtain ⟨i, hlt, hentry⟩ := hi.valid.slot_of_mem hq
  -- a timer that serves `fd` belongs to the client it names, which is `fd`
  have hown : ∀ j, Serves s.prog fd j → s.prog.heap.array.entry j = some q := by
    rintro j ⟨hj, q', t', hentry', ht', hud', -⟩
    obtain ⟨x, hx, hxe⟩ := hi.valid.slot hj
    obtain rfl : q' = x := Option.some.inj (hentry'.symm.trans hxe)
    obtain ⟨fd', hfd', htimer'⟩ := hi.client q' hx
    obtain ⟨-, q'', -, t'', htimer'', ht'', hud'', -⟩ := hi.timer fd' hfd'
    obtain rfl : q' = q'' := Option.some.inj (htimer'.symm.trans htimer'')
    obtain rfl : t' = t'' := Option.some.inj (ht'.symm.trans ht'')
    obtain rfl : fd = fd' := Option.some.inj (hud'.symm.trans hud'')
    rw [hentry', ← htimer', htimer]
  refine ⟨⟨i, ⟨hlt, q, t, hentry, ht, hud, hcb⟩, ?_⟩, ?_⟩
  · intro j hj
    exact hi.valid.entry_inj hj.1 hlt ((hown j hj).trans hentry.symm)
  · intro j hj
    rw [htimer, hown j hj]

/-- The client a timer in the heap belongs to is the one it names. -/
theorem Inv.owner (hi : Inv s ms) (hq : q ∈ ms) :
    ∃ fd ∈ s.opened, (s.prog.users fd).timer = some q ∧ ∃ t cb,
      s.prog.heap.mem.cells q = some t ∧ t.userData = some fd ∧ t.cbFunc = some cb := by
  obtain ⟨fd, hfd, htimer⟩ := hi.client q hq
  obtain ⟨-, q', -, t, htimer', ht, hud, hcb⟩ := hi.timer fd hfd
  obtain rfl : q = q' := Option.some.inj (htimer.symm.trans htimer')
  obtain ⟨cb, hcb⟩ := Option.ne_none_iff_exists'.mp hcb
  exact ⟨fd, hfd, htimer, t, cb, ht, hud, hcb⟩

/-- No two connections have the same timer. -/
theorem Inv.timer_ne (hi : Inv s ms) {fd' : Nat} (hfd : fd ∈ s.opened) (hfd' : fd' ∈ s.opened)
    (hne : fd ≠ fd') : (s.prog.users fd).timer ≠ (s.prog.users fd').timer := by
  obtain ⟨-, q, -, t, htimer, ht, hud, -⟩ := hi.timer fd hfd
  obtain ⟨-, q', -, t', htimer', ht', hud', -⟩ := hi.timer fd' hfd'
  rw [htimer, htimer']
  intro heq
  obtain rfl := Option.some.inj heq
  obtain rfl := Option.some.inj (ht.symm.trans ht')
  exact hne (Option.some.inj (hud.symm.trans hud'))

/-- The program and the open descriptors are all the invariant reads. -/
theorem Inv.of_eq (hi : Inv s ms) (hsane : s'.Sane) (hprog : s'.prog = s.prog)
    (hopen : s'.opened = s.opened) : Inv s' ms := by
  constructor
  · exact hsane
  · rw [hprog]
    exact hi.valid
  · rw [hprog, hopen]
    exact hi.timer
  · rw [hprog, hopen]
    exact hi.client

/-! ### Accepting -/

/-- A new connection with its timer. -/
theorem Inv.onAccept (hi : Inv s ms) (hfd : fd ∉ s.opened)
    (hq : s.prog.heap.mem.cells q = none) (rest : List Source) :
    ∃ e, onAccept s.prog s.now fd q = .ok e ∧
      ((s.afterAccept e fd q rest).Sane → Inv (s.afterAccept e fd q rest) (q :: ms)) := by
  obtain ⟨h', heq, hv', hmem⟩ := onAccept_valid hi.valid hq s.now fd
  refine ⟨_, heq, ?_⟩
  intro hsane
  have hopen : ∀ x, x ∈ (s.afterAccept (accepted s.prog fd q h') fd q rest).opened ↔
      x = fd ∨ x ∈ s.opened := by
    intro x
    simp [Loop.afterAccept, Loop.apply, accepted]
  have hold : ∀ x, x ≠ fd → (accepted s.prog fd q h').prog.users x = s.prog.users x := by
    intro x hx
    exact Function.update_of_ne hx _ _
  have hnew : (accepted s.prog fd q h').prog.users fd = { sockFd := fd, timer := some q } :=
    Function.update_self _ _ _
  constructor
  · exact hsane
  · exact hv'
  · intro x hx
    show ((accepted s.prog fd q h').prog.users x).sockFd = x ∧ ∃ r ∈ q :: ms, ∃ t,
      ((accepted s.prog fd q h').prog.users x).timer = some r ∧ h'.mem.cells r = some t ∧
        t.userData = some x ∧ t.cbFunc ≠ none
    rw [hmem]
    by_cases hxfd : x = fd
    · subst hxfd
      rw [hnew]
      exact ⟨rfl, q, List.mem_cons_self, timerFor s.now x, rfl, by simp, rfl, by simp [timerFor]⟩
    · rw [hold x hxfd]
      obtain ⟨hsock, r, hr, t, htimer, ht, hud, hcb⟩ :=
        hi.timer x (((hopen x).mp hx).resolve_left hxfd)
      have hrq : r ≠ q := by
        rintro rfl
        rw [hq] at ht
        cases ht
      exact ⟨hsock, r, List.mem_cons_of_mem _ hr, t, htimer, by rw [Mem.cells_set_ne _ _ hrq, ht],
        hud, hcb⟩
  · intro r hr
    show ∃ x ∈ _, ((accepted s.prog fd q h').prog.users x).timer = some r
    rcases List.mem_cons.mp hr with rfl | hr
    · exact ⟨fd, (hopen fd).mpr (.inl rfl), by rw [hnew]⟩
    · obtain ⟨x, hx, htimer⟩ := hi.client r hr
      have hxfd : x ≠ fd := fun h => hfd (h ▸ hx)
      exact ⟨x, (hopen x).mpr (.inr hx), by rw [hold x hxfd, htimer]⟩

/-! ### Hanging up -/

/-- Hanging up returns, and pops the timer at the top, whoever it belongs to. -/
theorem Inv.hangUp (hi : Inv s ms) (hfd : fd ∈ s.opened) :
    ∃ u h' mem', s.prog.heap.array.entry 0 = some u ∧ u ∈ ms ∧
      s.prog.hangUp fd = .ok (hungUp s.prog fd h') ∧
      Valid h' (ms.erase u) ∧ h'.mem = mem' ∧ mem'.cells u = none ∧
      ∀ q ∈ ms, q ≠ u → (s.prog.users fd).timer ≠ some q →
        mem'.cells q = s.prog.heap.mem.cells q := by
  obtain ⟨hsock, q, hq, t, htimer, ht, -, -⟩ := hi.timer fd hfd
  obtain ⟨u, h', hroot, hu, heq, hv', hmem⟩ := hangUp_valid hi.valid hq htimer ht
  rw [hsock] at heq
  refine ⟨u, h', _, hroot, hu, heq, hv', hmem, Mem.cells_set_self _ _ _, ?_⟩
  intro r hr hru hrq
  have hne : r ≠ q := by
    rintro rfl
    exact hrq htimer
  rw [Mem.cells_set_ne _ _ hru, Mem.cells_set_ne _ _ hne]

/-- The connection that leaves has the first timer, which is popped. -/
theorem Inv.hangUp_top (hi : Inv s ms) (hfd : fd ∈ s.opened)
    (htop : s.prog.heap.array.entry 0 = (s.prog.users fd).timer) {r : Recv} {rest : List Source}
    (he : s.prog.hangUp fd = .ok e) (hsane : (s.afterClient e fd r rest).Sane) :
    ∃ ms', Inv (s.afterClient e fd r rest) ms' := by
  obtain ⟨u, h', mem', hroot, hu, heq, hv', rfl, -, hcells⟩ := hi.hangUp hfd
  obtain rfl := Except.ok.inj (he.symm.trans heq)
  have htimer : (s.prog.users fd).timer = some u := htop ▸ hroot
  have hopen : ∀ x, x ∈ (s.afterClient (hungUp s.prog fd h') fd r rest).opened ↔
      x ∈ s.opened ∧ x ≠ fd := by
    intro x
    simp [Loop.afterClient, Loop.apply, hungUp]
  refine ⟨ms.erase u, hsane, hv', ?_, ?_⟩
  · intro x hx
    obtain ⟨hx, hxfd⟩ := (hopen x).mp hx
    obtain ⟨hsock, q, hq, t, htimer', ht, hud, hcb⟩ := hi.timer x hx
    have hqu : q ≠ u := by
      rintro rfl
      exact hi.timer_ne hx hfd hxfd (htimer'.trans htimer.symm)
    refine ⟨hsock, q, (hi.valid.nodup.mem_erase_iff).mpr ⟨hqu, hq⟩, t, htimer', ?_, hud, hcb⟩
    show h'.mem.cells q = some t
    rw [hcells q hq hqu (by rw [htimer]; simpa using hqu.symm), ht]
  · intro q hq
    obtain ⟨hqu, hq⟩ := (hi.valid.nodup.mem_erase_iff).mp hq
    obtain ⟨x, hx, htimer'⟩ := hi.client q hq
    refine ⟨x, (hopen x).mpr ⟨hx, ?_⟩, htimer'⟩
    rintro rfl
    exact hqu (Option.some.inj (htimer'.symm.trans htimer))

/-- If the top belongs to somebody else, that connection has lost its timer. -/
theorem Inv.hangUp_other (hi : Inv s ms) (hfd : fd ∈ s.opened) {r : Recv} {rest : List Source}
    (he : s.prog.hangUp fd = .ok e) (hone : OneTimer (s.afterClient e fd r rest)) :
    s.prog.heap.array.entry 0 = (s.prog.users fd).timer := by
  obtain ⟨u, h', mem', hroot, hu, heq, hv', rfl, hfreed, -⟩ := hi.hangUp hfd
  obtain rfl := Except.ok.inj (he.symm.trans heq)
  obtain ⟨x, hx, htimer⟩ := hi.client u hu
  by_cases hxfd : x = fd
  · rw [hroot, ← hxfd, htimer]
  · exfalso
    have hopen : x ∈ (s.afterClient (hungUp s.prog fd h') fd r rest).opened := by
      simpa [Loop.afterClient, Loop.apply, hungUp] using ⟨hx, hxfd⟩
    obtain ⟨⟨i, hserves, -⟩, hsame⟩ := hone x hopen
    have hentry := hsame i hserves
    obtain ⟨-, q, t, hq, ht, -⟩ := hserves
    have hqu : q = u := by
      have huq : some u = some q := htimer.symm.trans (hentry.trans hq)
      exact (Option.some.inj huq).symm
    subst hqu
    have ht : h'.mem.cells q = some t := ht
    rw [hfreed] at ht
    cases ht

/-! ### Ticking -/

/-- The descriptors the calls of a tick close. -/
def closedBy (r : Report) : List Nat := r.calls.map fun c => c.userData.getD 0

/-- The effect of the ticking half of `timer_handler`. -/
def ticked (p : Server) (h' : TimeHeap) (r : Report) : Effect Server where
  prog := { p with heap := h', isSigAlarm := p.isSigAlarm && r.calls.isEmpty }
  closes := closedBy r
  alarm := none

section Tick
variable {h' : TimeHeap} {r : Report}

/-- The call of a timer a tick removes, and whom it closes. -/
theorem Inv.call (hi : Inv s ms) (hq : q ∈ ms) :
    ∃ fd ∈ s.opened, (s.prog.users fd).timer = some q ∧
      ∃ c, callOf s.prog.heap.mem q = some c ∧ c.userData = some fd := by
  obtain ⟨fd, hfd, htimer, t, cb, ht, hud, hcb⟩ := hi.owner hq
  exact ⟨fd, hfd, htimer, { timer := q, cbFunc := cb, userData := t.userData },
    by simp [callOf, ht, hcb], hud⟩

/-- A callback is called for the connection of its timer. -/
theorem Inv.caller (hi : Inv s ms) (ht : Ticked s.prog.heap ms s.now h' r) {c : Call}
    (hc : c ∈ r.calls) : ∃ fd ∈ s.opened, c.userData = some fd ∧
      ∃ q ∈ r.freed, (s.prog.users fd).timer = some q := by
  rw [ht.calls] at hc
  obtain ⟨q, hq, hcall⟩ := List.mem_filterMap.mp hc
  have hqms : q ∈ ms := List.mem_of_mem_filter (ht.freed.mem_iff.mp hq)
  obtain ⟨fd, hfd, htimer, c', hcall', hud⟩ := hi.call hqms
  obtain rfl : c = c' := Option.some.inj (hcall.symm.trans hcall')
  exact ⟨fd, hfd, hud, q, hq, htimer⟩

/-- What `timer_handler` does when `tick` has been called. -/
theorem Inv.onTick_eq (hi : Inv s ms) (htick : s.prog.heap.tick s.now = .ok (h', r))
    (ht : Ticked s.prog.heap ms s.now h' r) :
    s.prog.onTick s.now = .ok (ticked s.prog h' r) := by
  have hcb : (r.calls.mapM fun c => callback s.prog.users c.userData) = .ok (closedBy r) := by
    apply mapM_ok
    intro c hc
    obtain ⟨fd, hfd, hud, -⟩ := hi.caller ht hc
    rw [hud]
    show Except.ok (s.prog.users fd).sockFd = Except.ok fd
    rw [(hi.timer fd hfd).1]
  unfold onTick
  simp only [htick, ok_bind, hcb]
  rfl

/-- A tick closes the connections whose timers it removes. -/
theorem Inv.mem_closedBy (hi : Inv s ms) (ht : Ticked s.prog.heap ms s.now h' r)
    (hfd : fd ∈ s.opened) (htimer : (s.prog.users fd).timer = some q) :
    fd ∈ closedBy r ↔ q ∈ r.freed := by
  constructor
  · intro h
    obtain ⟨c, hc, hcfd⟩ := List.mem_map.mp h
    obtain ⟨fd', hfd', hud, q', hq', htimer'⟩ := hi.caller ht hc
    rw [hud] at hcfd
    obtain rfl : fd' = fd := hcfd
    obtain rfl : q = q' := Option.some.inj (htimer.symm.trans htimer')
    exact hq'
  · intro hq
    have hqms : q ∈ ms := List.mem_of_mem_filter (ht.freed.mem_iff.mp hq)
    obtain ⟨fd', hfd', htimer', c, hcall, hud⟩ := hi.call hqms
    have hsame : fd' = fd := by
      by_contra hne
      exact hi.timer_ne hfd' hfd hne (htimer'.trans htimer.symm)
    refine List.mem_map.mpr ⟨c, ?_, by rw [hud, hsame]; rfl⟩
    rw [ht.calls]
    exact List.mem_filterMap.mpr ⟨q, hq, hcall⟩

/-- `timer_handler` closes the connections whose timers are due. -/
theorem Inv.timerHandler (hi : Inv s ms) (ht : Ticked s.prog.heap ms s.now h' r) {later : Int}
    {e' : Effect Server} (he' : onRearm (ticked s.prog h' r).prog later = .ok e')
    (hsane : (s.afterHandler (ticked s.prog h' r) e' later).Sane) :
    ∃ ms', Inv (s.afterHandler (ticked s.prog h' r) e' later) ms' := by
  obtain ⟨e₁, he₁, hcl, hheap, husers, -⟩ := onRearm_valid
    (p := (ticked s.prog h' r).prog) (show Valid h' _ from ht.valid) later
  obtain rfl : e₁ = e' := Except.ok.inj (he₁.symm.trans he')
  have hheap : (s.afterHandler (ticked s.prog h' r) e₁ later).prog.heap = h' := hheap
  have husers : (s.afterHandler (ticked s.prog h' r) e₁ later).prog.users = s.prog.users := husers
  have hopen : ∀ x, x ∈ (s.afterHandler (ticked s.prog h' r) e₁ later).opened ↔
      x ∈ s.opened ∧ x ∉ closedBy r := fun x => Loop.mem_opened_afterHandler hcl
  refine ⟨ms.filter (!isDue s.prog.heap.mem s.now ·), hsane, ?_, ?_, ?_⟩
  · rw [hheap]
    exact ht.valid
  · intro x hx
    obtain ⟨hx, hxr⟩ := (hopen x).mp hx
    obtain ⟨hsock, q, hq, t, htimer, hcell, hud, hcb⟩ := hi.timer x hx
    rw [hi.mem_closedBy ht hx htimer] at hxr
    rw [husers, hheap]
    exact ⟨hsock, q, ht.mem_kept.mpr ⟨hq, hxr⟩, t, htimer, by rw [ht.cells, if_neg hxr, hcell],
      hud, hcb⟩
  · intro q hq
    obtain ⟨hq, hqr⟩ := ht.mem_kept.mp hq
    obtain ⟨x, hx, htimer⟩ := hi.client q hq
    rw [husers]
    exact ⟨x, (hopen x).mpr ⟨hx, by rwa [hi.mem_closedBy ht hx htimer]⟩, htimer⟩

end Tick

/-! ### Whole runs -/

/-- What the server does when a client hangs up. -/
theorem onClient_of_hangsUp {r : Recv} (hr : hangsUp r = true) (p : Server) (now : Int) (fd : Nat) :
    p.onClient now fd r = p.hangUp fd := by
  cases r with
  | data => cases hr
  | again => cases hr
  | eof => rfl
  | fail => rfl

/-- What the server does when a client stays. -/
theorem onClient_of_stays {r : Recv} (hr : hangsUp r = false) (p : Server) (now : Int) (fd : Nat) :
    p.onClient now fd r = .ok { prog := p, closes := [], alarm := none } := by
  cases r with
  | data => rfl
  | again => rfl
  | eof => cases hr
  | fail => cases hr

/-- Accepting a connection closes none. -/
theorem onAccept_closes {now : Int} (h : p.onAccept now fd q = .ok e) : e.closes = [] := by
  obtain ⟨heap, -, h⟩ := bind_eq_ok.mp h
  obtain rfl := Except.ok.inj h
  rfl

/-- Only the connection of the client may be closed. -/
theorem Inv.onClient_closes (hi : Inv s ms) (hfd : fd ∈ s.opened) {r : Recv}
    (he : onClient s.prog s.now fd r = .ok e) : ∀ x ∈ e.closes, x = fd := by
  cases hr : hangsUp r with
  | true =>
      rw [onClient_of_hangsUp hr] at he
      obtain ⟨u, h', -, -, -, heq, -⟩ := hi.hangUp hfd
      obtain rfl := Except.ok.inj (he.symm.trans heq)
      intro x hx
      exact List.mem_singleton.mp hx
  | false =>
      rw [onClient_of_stays hr] at he
      obtain rfl := Except.ok.inj he
      intro x hx
      cases hx

/-- Every move keeps the loop sane. -/
theorem Inv.moves_sane (hi : Inv s ms) (hm : Loop.Moves handlers s act s') : s'.Sane := by
  apply hi.sane.moves hm
  · intro fd q e _ he
    exact onAccept_closes (show s.prog.onAccept s.now fd q = .ok e from he)
  · intro fd r e hfd he
    exact hi.onClient_closes hfd he

/-- Every move that meets the condition keeps the invariant. -/
theorem Inv.moves (hi : Inv s ms) (hm : Loop.Moves handlers s act s')
    (hC : EarliestLeaves s act) : ∃ ms', Inv s' ms' := by
  have hsane := hi.moves_sane hm
  cases hm with
  | clock _ => exact ⟨ms, hi.of_eq hsane (by simp) (by simp)⟩
  | raise => exact ⟨ms, hi.of_eq hsane rfl rfl⟩
  | wait _ _ _ _ => exact ⟨ms, hi.of_eq hsane rfl rfl⟩
  | acceptFailed _ => exact ⟨ms, hi.of_eq hsane rfl rfl⟩
  | @accept fd q rest e _ hfd _ hq he =>
      obtain ⟨e', he', hi'⟩ := hi.onAccept hfd (Option.isNone_iff_eq_none.mp hq) rest
      obtain rfl : e' = e := Except.ok.inj (he'.symm.trans he)
      exact ⟨q :: ms, hi' hsane⟩
  | read _ => exact ⟨ms, hi.of_eq hsane rfl rfl⟩
  | @client fd r rest e hph he =>
      have hfd : fd ∈ s.opened := hi.sane.client fd (by rw [hph]; exact List.mem_cons_self)
      have he : s.prog.onClient s.now fd r = .ok e := he
      cases hr : hangsUp r with
      | true =>
          rw [onClient_of_hangsUp hr] at he
          exact hi.hangUp_top hfd (hC fd (by rw [hph]; rfl) hr) he hsane
      | false =>
          rw [onClient_of_stays hr] at he
          obtain rfl := Except.ok.inj he
          exact ⟨ms, hi.of_eq hsane rfl (by simp [Loop.afterClient, Loop.apply])⟩
  | skip _ => exact ⟨ms, hi.of_eq hsane rfl rfl⟩
  | quiet _ _ => exact ⟨ms, hi.of_eq hsane rfl rfl⟩
  | @tick later e e' _ _ _ he he' =>
      obtain ⟨h', r, htick, ht⟩ := tick_ticked hi.valid s.now
      obtain rfl := Except.ok.inj (he.symm.trans (hi.onTick_eq htick ht))
      exact hi.timerHandler ht he' hsane

theorem inv_start (hs : machine.init s) : ∃ ms, Inv s ms := by
  obtain ⟨now, rfl⟩ := hs
  refine ⟨[], Loop.Sane.start _ _ _, Valid.make (by decide), ?_, ?_⟩
  · intro fd hfd
    cases hfd
  · intro q hq
    cases hq

/-- No step fails. -/
theorem Inv.returns (hi : Inv s ms) (he : machine.enabled s act) :
    ∃ s', machine.step s act = .ok s' := by
  apply Loop.step_returns he
  · intro fd q hfd hq
    obtain ⟨e, heff, -⟩ := hi.onAccept hfd (Option.isNone_iff_eq_none.mp hq) []
    exact ⟨e, heff⟩
  · intro fd r rest hph
    have hfd : fd ∈ s.opened := hi.sane.client fd (by rw [hph]; exact List.mem_cons_self)
    show ∃ e, s.prog.onClient s.now fd r = .ok e
    cases hr : hangsUp r with
    | true =>
        obtain ⟨u, h', -, -, -, heq, -⟩ := hi.hangUp hfd
        exact ⟨_, by rw [onClient_of_hangsUp hr]; exact heq⟩
    | false => exact ⟨_, onClient_of_stays hr _ _ _⟩
  · obtain ⟨h', r, htick, ht⟩ := tick_ticked hi.valid s.now
    refine ⟨_, hi.onTick_eq htick ht, ?_⟩
    intro later
    obtain ⟨e', he', -⟩ := onRearm_valid (p := (ticked s.prog h' r).prog)
      (show Valid h' _ from ht.valid) later
    exact ⟨e', he'⟩

/-- The connections keep their timers throughout a run exactly if every client that hangs up in it
is the one whose timer is at the top of the heap. Such a run can also always go on. -/
theorem one_timer_iff {h : List (Loop Server × Action)} (hr : machine.Run h s) :
    (Machine.Throughout OneTimer h s ↔ Machine.Always EarliestLeaves h) ∧
    (Machine.Always EarliestLeaves h →
      ∀ act, machine.enabled s act → ∃ s', machine.step s act = .ok s') := by
  have hstep : ∀ s act s', (∃ ms, Inv s ms) → machine.enabled s act → EarliestLeaves s act →
      machine.step s act = .ok s' → ∃ ms, Inv s' ms := by
    rintro s act s' ⟨ms, hi⟩ he hC hs
    exact hi.moves (Loop.moves_of_step he hs) hC
  constructor
  · apply hr.exact (fun s hs => inv_start hs) _ hstep
    · rintro s act s' ⟨ms, hi⟩ he hs hone
      cases act with
      | client r =>
          intro fd hnext hup
          have hm : Loop.Moves handlers s (.client r) s' := Loop.moves_of_step he hs
          cases hm with
          | @client fd' _ rest e hph heff =>
              obtain rfl : fd' = fd := by
                rw [hph] at hnext
                exact Option.some.inj hnext
              have hfd : fd' ∈ s.opened :=
                hi.sane.client fd' (by rw [hph]; exact List.mem_cons_self)
              have heff : s.prog.onClient s.now fd' r = .ok e := heff
              rw [onClient_of_hangsUp hup] at heff
              exact hi.hangUp_other hfd heff hone
      | _ => trivial
    · rintro s ⟨ms, hi⟩
      exact hi.oneTimer
  · intro hC act he
    obtain ⟨ms, hi⟩ := (hr.guarded (fun s hs => inv_start hs) hstep hC).2
    exact hi.returns he

/-- Two clients connect, a second apart, and `gone` hangs up. -/
def twoClients (gone : Nat) : List Action :=
  [.wait [.listen], .accept (some (5, 1)), .finish 0, .clock 1, .wait [.listen],
    .accept (some (6, 2)), .finish 1, .wait [.client gone], .client .eof]

/-- When the first of them leaves, the second keeps its timer. -/
theorem one_timer_first_leaves :
    ∃ h s, machine.Run h s ∧ h.map Prod.snd = twoClients 5 ∧ s.opened = [6] ∧
      Machine.Throughout OneTimer h s := by
  obtain ⟨h, s, hr, has, hopen⟩ := Machine.Run.of_replay (M := machine.restrict EarliestLeaves)
    (twoClients 5) Loop.opened ⟨0, rfl⟩ (b := [6]) (by decide +kernel)
  obtain ⟨hr, hC⟩ := hr.of_restrict
  exact ⟨h, s, hr, has, hopen, (one_timer_iff hr).1.mpr hC⟩

/-- When the second leaves, the first one loses its timer: it is open, and `users[5].timer` has been
freed. -/
theorem one_timer_second_leaves :
    ∃ h s, machine.Run h s ∧ h.map Prod.snd = twoClients 6 ∧ ¬ OneTimer s := by
  obtain ⟨h, s, hr, has, hs⟩ := Machine.Run.of_replay (M := machine) (twoClients 6)
    (fun s => (s.opened, (s.prog.users 5).timer, s.prog.heap.mem.cells 1)) ⟨0, rfl⟩
    (b := ([5], some 1, none)) (by decide +kernel)
  simp only [Prod.mk.injEq] at hs
  obtain ⟨hopen, htimer, hfreed⟩ := hs
  refine ⟨h, s, hr, has, ?_⟩
  intro hone
  obtain ⟨⟨i, hserves, -⟩, hsame⟩ := hone 5 (by rw [hopen]; exact List.mem_singleton_self 5)
  have hentry := hsame i hserves
  obtain ⟨-, q, t, hq, ht, -⟩ := hserves
  rw [htimer, hq] at hentry
  rw [← Option.some.inj hentry, hfreed] at ht
  cases ht

end Server
end LinuxServer.Heap
