import LinuxServer.SortedList.Runs
import LinuxServer.EventLoop

/-!
# The sorted list server

`LST_Timer.cpp` gives every accepted connection a timer of three `TIMESLOT`s in one global sorted list,
and prolongs it whenever the client sends something, by setting `expire` and calling `add_timer` again.
When a client hangs up, its timer is deleted from the list, whether or not it is linked there.

As time goes by, a new timer never expires before one that is already linked, and so `add_timer` drops
it unless the list is empty. `every_linked_iff` says what this comes to: the open clients have their
timers in the list throughout a run exactly if no one is accepted while another client is connected.
With two clients, the server dereferences a null pointer as soon as the second of them hangs up.
-/

namespace LinuxServer.SortedList

open Library EventLoop

def timeslot : Int := 5

/-- The address of `cb_func`. -/
def cbFunc : Ptr := 1

structure Server where
  lst : SortTimerLst
  users : Nat → ClientData

namespace Server

/-- `cb_func(user_data)`: the descriptor it closes. A pointer to `users[fd]` is modelled by `fd`. The
second it sleeps is time that passes before the next step. -/
def callback (users : Nat → ClientData) : Option Ptr → Exec Nat
  | none => .error .nullDeref
  | some fd => .ok (users fd).sockFd

/-- The timer a new connection gets. -/
def timerFor (now : Int) (connFd : Nat) : UtilTimer :=
  UtilTimer.make (now + 3 * timeslot) (some cbFunc) (some connFd)

def onAccept (p : Server) (now : Int) (connFd : Nat) (a : Ptr) : Exec (Effect Server) := do
  let users := Function.update p.users connFd { sockFd := connFd, timer := some a }
  let lst := { p.lst with mem := p.lst.mem.new a (timerFor now connFd) }
  let lst ← lst.addTimer (some a)
  return { prog := { lst := lst, users := users }, closes := [], alarm := none }

/-- `cb_func(&users[sockFd]); if (timer) timer_lst.del_timer(timer);` -/
def hangUp (p : Server) (sockFd : Nat) : Exec (Effect Server) := do
  let timer := (p.users sockFd).timer
  let fd ← callback p.users (some sockFd)
  let lst ← p.lst.delTimer timer
  return { prog := { p with lst := lst }, closes := [fd], alarm := none }

/-- The timer is given a new `expire` where it is, and added again. -/
def refresh (p : Server) (now : Int) (sockFd : Nat) : Exec (Effect Server) :=
  match (p.users sockFd).timer with
  | none => .ok { prog := p, closes := [], alarm := none }
  | some a => do
      let m ← p.lst.mem.modify (some a) fun t => { t with expire := now + 3 * timeslot }
      let lst ← SortTimerLst.addTimer { p.lst with mem := m } (some a)
      return { prog := { p with lst := lst }, closes := [], alarm := none }

def onClient (p : Server) (now : Int) (sockFd : Nat) : Recv → Exec (Effect Server)
  | .fail => p.hangUp sockFd
  | .eof => p.hangUp sockFd
  | .again => .ok { prog := p, closes := [], alarm := none }
  | .data => p.refresh now sockFd

def onTick (p : Server) (now : Int) : Exec (Effect Server) := do
  let (lst, calls) ← p.lst.tick now
  let closes ← calls.mapM fun c => callback p.users c.userData
  return { prog := { p with lst := lst }, closes := closes, alarm := none }

/-- `alarm(TIMESLOT)`. -/
def onRearm (p : Server) (_now : Int) : Exec (Effect Server) :=
  .ok { prog := p, closes := [], alarm := some timeslot }

def handlers : Handlers Server where
  accept := onAccept
  client := onClient
  tick := onTick
  rearm := onRearm
  fresh p a := (p.lst.mem.cells a).isNone

/-- `main`: an empty list, unset records, and `alarm(TIMESLOT)`. -/
def machine : Machine (Loop Server) Action :=
  Loop.machine handlers
    { lst := SortTimerLst.make, users := fun _ => { sockFd := 0, timer := none } } timeslot

instance (s : Loop Server) (act : Action) : Decidable (machine.enabled s act) :=
  Loop.decidableEnabled handlers s act

/-- The timer of every open client is linked in the list. -/
def EveryLinked (s : Loop Server) : Prop :=
  ∀ fd ∈ s.opened, ∃ q, (s.prog.users fd).timer = some q ∧ q ∈ s.prog.lst.linked

/-- No one is accepted while another client is connected. -/
def AcceptsAlone (s : Loop Server) : Action → Prop
  | .accept (some _) => s.opened = []
  | _ => True

instance (s : Loop Server) (act : Action) : Decidable (AcceptsAlone s act) :=
  match act with
  | .accept (some _) => inferInstanceAs (Decidable (s.opened = []))
  | .accept none | .clock _ | .raise _ | .wait _ | .client _ | .read | .skip | .finish _ =>
      inferInstanceAs (Decidable True)

/-! ## One client -/

/-- `fd` is the one client, and its timer `q` is alone in the list. -/
structure Lone (p : Server) (now : Int) (fd : Nat) (q : Ptr) : Prop where
  holds : Holds p.lst [q]
  user : p.users fd = { sockFd := fd, timer := some q }
  cell : ∃ t, p.lst.mem.cells q = some t ∧ t.userData = some fd ∧ t.expire ≤ now + 3 * timeslot

structure Inv (s : Loop Server) : Prop where
  sane : s.Sane
  clients : (s.opened = [] ∧ Holds s.prog.lst []) ∨ ∃ fd q, s.opened = [fd] ∧ Lone s.prog s.now fd q

variable {s s' : Loop Server} {act : Action} {p : Server} {now : Int} {fd fd' : Nat} {q a : Ptr}
  {e : Effect Server}

theorem Inv.everyLinked (hi : Inv s) : EveryLinked s := by
  intro fd hfd
  rcases hi.clients with ⟨hopen, -⟩ | ⟨fd', q, hopen, hl⟩
  · rw [hopen] at hfd
    cases hfd
  · rw [hopen, List.mem_singleton] at hfd
    subst hfd
    refine ⟨q, by rw [hl.user], ?_⟩
    rw [hl.holds.linked_eq]
    exact List.mem_singleton_self q

theorem Lone.later (hl : Lone p now fd q) {t : Int} (h : now ≤ t) : Lone p t fd q := by
  obtain ⟨c, hc, hud, hle⟩ := hl.cell
  exact ⟨hl.holds, hl.user, c, hc, hud, by omega⟩

/-- The effect of accepting, given the list it leads to. -/
def accepted (p : Server) (fd : Nat) (a : Ptr) (lst : SortTimerLst) : Effect Server where
  prog := { lst := lst, users := Function.update p.users fd { sockFd := fd, timer := some a } }
  closes := []
  alarm := none

/-- A new connection: the list its timer is added to, and what it becomes. -/
theorem onAccept_holds {l : List Ptr} (hw : Holds p.lst l) (ha : p.lst.mem.cells a = none) (now : Int)
    (fd : Nat) :
    ∃ lst', p.onAccept now fd a = .ok (accepted p fd a lst') ∧ a ∉ l ∧
      Holds lst' (added (expireOf (p.lst.mem.new a (timerFor now fd))) a l) ∧
      ∃ t, lst'.mem.cells a = some t ∧ t.userData = some fd ∧ t.expire = now + 3 * timeslot := by
  obtain ⟨hal, hw'⟩ := hw.new ha (timerFor now fd)
  have hnew : (p.lst.mem.new a (timerFor now fd)).cells a = some (timerFor now fd) :=
    Mem.cells_set_self _ _ _
  obtain ⟨lst', heq, hadded, hr⟩ := addTimer_holds hw' hal hnew rfl rfl
    (by simp [timerFor, UtilTimer.make])
  obtain ⟨t, ht, hpay⟩ := hr.cell hnew
  refine ⟨lst', ?_, hal, hadded, t, ht, ?_, ?_⟩
  · simp only [onAccept, heq, ok_bind]
    rfl
  · show (Linked.payload t).userData = _
    rw [hpay]
    rfl
  · show (Linked.payload t).expire = _
    rw [hpay]
    rfl

/-- The first client finds an empty list. -/
theorem onAccept_first (hw : Holds p.lst []) (ha : p.lst.mem.cells a = none) (now : Int) (fd : Nat) :
    ∃ e, p.onAccept now fd a = .ok e ∧ e.closes = [] ∧ Lone e.prog now fd a := by
  obtain ⟨lst', heq, -, hadded, t, ht, hud, hexp⟩ := onAccept_holds hw ha now fd
  exact ⟨_, heq, rfl, hadded, Function.update_self .., t, ht, hud, hexp.le⟩

/-- The timer of any other client expires no earlier than the one that is linked, and is dropped. -/
theorem Lone.onAccept (hl : Lone p now fd q) (ha : p.lst.mem.cells a = none) (fd' : Nat) :
    ∃ e, p.onAccept now fd' a = .ok e ∧ e.closes = [] ∧ (e.prog.users fd').timer = some a ∧
      a ∉ e.prog.lst.linked := by
  obtain ⟨c, hc, -, hle⟩ := hl.cell
  obtain ⟨lst', heq, haq, hadded, -⟩ := onAccept_holds hl.holds ha now fd'
  refine ⟨_, heq, rfl, by simp [accepted], ?_⟩
  have hqa : q ≠ a := fun h => haq (by rw [h]; exact List.mem_singleton_self a)
  have hkeep : added (expireOf (p.lst.mem.new a (timerFor now fd'))) a [q] = [q] := by
    rw [added, if_neg (List.cons_ne_nil _ _)]
    apply slotIn_lost
    intro u hu
    rw [List.mem_singleton.mp hu, Mem.new, expireOf_set_ne hqa, expireOf_eq hc,
      expireOf_eq (Mem.cells_set_self _ _ _)]
    show ¬ now + 3 * timeslot < c.expire
    omega
  rw [hkeep] at hadded
  show a ∉ lst'.linked
  rw [hadded.linked_eq]
  exact haq

theorem Lone.hangUp (hl : Lone p now fd q) :
    ∃ e, p.hangUp fd = .ok e ∧ e.closes = [fd] ∧ Holds e.prog.lst [] := by
  have hw : Holds p.lst ([] ++ q :: []) := hl.holds
  obtain ⟨lst', hdel, hw'⟩ := delTimer_holds hw
  refine ⟨{ prog := { p with lst := lst' }, closes := [fd], alarm := none }, ?_, rfl, hw'⟩
  simp only [Server.hangUp, callback, hl.user, hdel, ok_bind]
  rfl

/-- Adding a timer that is already alone in the list leaves it there. -/
theorem addTimer_alone {w : SortTimerLst} (hw : Holds w [q]) : w.addTimer (some q) = .ok w := by
  obtain ⟨t, ht, -, hnext, -⟩ := id hw.chain.seg
  have hhead : w.head = some q := hw.chain.head
  have hnext : t.next = none := hnext
  simp only [SortTimerLst.addTimer, hhead, Mem.deref_eq ht, ok_bind]
  rw [if_neg (Int.lt_irrefl _), SortTimerLst.addTimerFrom, Mem.deref_eq ht, ok_bind, hnext]
  rfl

theorem Lone.refresh (hl : Lone p now fd q) :
    ∃ e, p.refresh now fd = .ok e ∧ e.closes = [] ∧ Lone e.prog now fd q := by
  obtain ⟨t, ht, hud, -⟩ := hl.cell
  let t' : UtilTimer := { t with expire := now + 3 * timeslot }
  have ht' : (p.lst.mem.set q (some t')).cells q = some t' := Mem.cells_set_self _ _ _
  have hw' : Holds { p.lst with mem := p.lst.mem.set q (some t') } [q] := by
    refine ⟨?_, hl.holds.tail, List.pairwise_singleton _ _, ?_⟩
    · apply hl.holds.chain.congr
      intro x hx n hn
      rw [List.mem_singleton.mp hx] at hn ⊢
      obtain rfl : t = n := Option.some.inj (ht.symm.trans hn)
      exact ⟨t', ht', rfl, rfl⟩
    · intro x hx
      rw [List.mem_singleton.mp hx]
      obtain ⟨n, hn, hcb⟩ := hl.holds.armed q (List.mem_singleton_self q)
      obtain rfl : t = n := Option.some.inj (ht.symm.trans hn)
      exact ⟨t', ht', hcb⟩
  let p' : Server := { p with lst := { p.lst with mem := p.lst.mem.set q (some t') } }
  refine ⟨{ prog := p', closes := [], alarm := none }, ?_, rfl, hw', hl.user, t', ht', hud,
    Int.le_refl _⟩
  simp only [Server.refresh, hl.user, Mem.modify_eq ht, ok_bind]
  rw [addTimer_alone hw', ok_bind]
  rfl

/-- A tick either leaves the client alone or closes it and empties the list. -/
theorem Lone.onTick (hl : Lone p now fd q) :
    ∃ e, p.onTick now = .ok e ∧
      ((e.closes = [] ∧ Lone e.prog now fd q) ∨ (e.closes = [fd] ∧ Holds e.prog.lst [])) := by
  obtain ⟨t, hcell, hud, hle⟩ := hl.cell
  have hhead : p.lst.head = some q := hl.holds.chain.head
  by_cases hlate : now < t.expire
  · have htick : p.lst.tick now = .ok (p.lst, []) := by
      simp only [SortTimerLst.tick, hhead, SortTimerLst.tickLoop, Mem.deref_eq hcell, ok_bind,
        if_pos hlate]
      rfl
    refine ⟨{ prog := p, closes := [], alarm := none }, ?_, .inl ⟨rfl, hl⟩⟩
    rw [Server.onTick, htick]
    rfl
  · obtain ⟨lst', calls, rest, htick, ht⟩ := tick_ticked hl.holds now
    have hexp := expireOf_eq hcell
    -- the timer is due, so it is not among the rest
    obtain ⟨c, rfl, rfl, hc⟩ : ∃ c, calls = [c] ∧ rest = [] ∧ c.timer = q := by
      have hsplit := ht.split
      cases calls with
      | nil =>
          have := ht.late q (by rw [← show [q] = rest from hsplit]; exact List.mem_singleton_self q)
          omega
      | cons c calls =>
          rw [List.map_cons, List.cons_append, List.cons.injEq] at hsplit
          obtain ⟨hc, hnil⟩ := hsplit
          obtain ⟨hcalls, hrest⟩ := List.append_eq_nil_iff.mp hnil.symm
          exact ⟨c, by rw [List.map_eq_nil_iff.mp hcalls], hrest, hc.symm⟩
    have hcall := ht.call c (List.mem_singleton_self c)
    rw [hc, callOf, Mem.deref_eq hcell, ok_bind, SortTimerLst.invoke] at hcall
    have hcud : c.userData = some fd := by
      split at hcall
      · cases hcall
      · obtain rfl := Except.ok.inj hcall
        exact hud
    refine ⟨{ prog := { p with lst := lst' }, closes := [fd], alarm := none }, ?_,
      .inr ⟨rfl, ht.holds⟩⟩
    rw [Server.onTick, htick]
    simp [callback, hcud, hl.user]

/-! ## Whole runs -/

/-- The steps that concern neither the clients nor the list. -/
theorem Inv.of_eq (hi : Inv s) (hsane : s'.Sane) (hprog : s'.prog = s.prog)
    (hopen : s'.opened = s.opened) (hnow : s.now ≤ s'.now) : Inv s' := by
  refine ⟨hsane, ?_⟩
  rw [hprog, hopen]
  rcases hi.clients with h | ⟨fd, q, hfd, hl⟩
  · exact .inl h
  · exact .inr ⟨fd, q, hfd, hl.later hnow⟩

theorem Inv.only (hi : Inv s) (hfd : fd ∈ s.opened) : s.opened = [fd] ∧ ∃ q, Lone s.prog s.now fd q := by
  rcases hi.clients with ⟨hopen, -⟩ | ⟨fd', q, hopen, hl⟩
  · rw [hopen] at hfd
    cases hfd
  · have hsame : fd = fd' := by
      rw [hopen] at hfd
      exact List.mem_singleton.mp hfd
    subst hsame
    exact ⟨hopen, q, hl⟩

/-- What client input leads to: the client is gone, or it stays and has its timer. -/
theorem Inv.onClient (hi : Inv s) (hfd : fd ∈ s.opened) (r : Recv) :
    ∃ e, s.prog.onClient s.now fd r = .ok e ∧
      ((e.closes = [] ∧ ∃ q, Lone e.prog s.now fd q) ∨ (e.closes = [fd] ∧ Holds e.prog.lst [])) := by
  obtain ⟨-, q, hl⟩ := hi.only hfd
  have hup : ∃ e, s.prog.hangUp fd = .ok e ∧
      ((e.closes = [] ∧ ∃ q, Lone e.prog s.now fd q) ∨ (e.closes = [fd] ∧ Holds e.prog.lst [])) := by
    obtain ⟨e, he, hc, hw⟩ := hl.hangUp
    exact ⟨e, he, .inr ⟨hc, hw⟩⟩
  cases r with
  | data =>
      obtain ⟨e, he, hc, hl'⟩ := hl.refresh
      exact ⟨e, he, .inl ⟨hc, q, hl'⟩⟩
  | again => exact ⟨_, rfl, .inl ⟨rfl, q, hl⟩⟩
  | eof => exact hup
  | fail => exact hup

theorem Inv.onTick (hi : Inv s) :
    ∃ e, s.prog.onTick s.now = .ok e ∧
      ((s.opened = [] ∧ Holds e.prog.lst []) ∨
       ∃ fd, s.opened = [fd] ∧ ((e.closes = [] ∧ ∃ q, Lone e.prog s.now fd q) ∨
        (e.closes = [fd] ∧ Holds e.prog.lst []))) := by
  rcases hi.clients with ⟨hopen, hw⟩ | ⟨fd, q, hopen, hl⟩
  · have htick : s.prog.lst.tick s.now = .ok (s.prog.lst, []) := by
      have hhead : s.prog.lst.head = none := hw.chain.head
      simp only [SortTimerLst.tick, hhead]
    exact ⟨_, by rw [Server.onTick, htick]; rfl, .inl ⟨hopen, hw⟩⟩
  · obtain ⟨e, he, h | h⟩ := hl.onTick
    · exact ⟨e, he, .inr ⟨fd, hopen, .inl ⟨h.1, q, h.2⟩⟩⟩
    · exact ⟨e, he, .inr ⟨fd, hopen, .inr h⟩⟩

theorem onAccept_closes (h : p.onAccept now fd a = .ok e) : e.closes = [] := by
  obtain ⟨lst, -, h⟩ := bind_eq_ok.mp h
  obtain rfl := Except.ok.inj h
  rfl

theorem Inv.moves_sane (hi : Inv s) (hm : Loop.Moves handlers s act s') : s'.Sane := by
  apply hi.sane.moves hm
  · intro fd a e _ he
    exact onAccept_closes (show s.prog.onAccept s.now fd a = .ok e from he)
  · intro fd r e hfd he
    obtain ⟨e', he', hc⟩ := hi.onClient hfd r
    obtain rfl : e' = e := Except.ok.inj (he'.symm.trans he)
    rcases hc with ⟨hc, -⟩ | ⟨hc, -⟩
    · simp [hc]
    · simp [hc]

/-- One case for each way through the loop. Only accepting a second client has to be excluded. -/
theorem Inv.moves (hi : Inv s) (hm : Loop.Moves handlers s act s') (hC : AcceptsAlone s act) :
    Inv s' := by
  have hsane := hi.moves_sane hm
  cases hm with
  | clock ht => exact hi.of_eq hsane (by simp) (by simp) (by simpa using ht)
  | raise => exact hi.of_eq hsane rfl rfl (Int.le_refl _)
  | wait _ _ _ _ => exact hi.of_eq hsane rfl rfl (Int.le_refl _)
  | acceptFailed _ => exact hi.of_eq hsane rfl rfl (Int.le_refl _)
  | @accept fd a rest e _ hfd _ ha he =>
      have hnone : s.opened = [] := hC
      have hw : Holds s.prog.lst [] := by
        rcases hi.clients with ⟨-, hw⟩ | ⟨fd', q, hopen, -⟩
        · exact hw
        · rw [hnone] at hopen
          cases hopen
      obtain ⟨e', he', hc, hl⟩ := onAccept_first hw (Option.isNone_iff_eq_none.mp ha) s.now fd
      obtain rfl : e' = e := Except.ok.inj (he'.symm.trans he)
      refine ⟨hsane, .inr ⟨fd, a, ?_, hl⟩⟩
      simp [Loop.afterAccept, Loop.apply, hc, hnone]
  | read _ => exact hi.of_eq hsane rfl rfl (Int.le_refl _)
  | @client fd r rest e hph he =>
      have hfd : fd ∈ s.opened := hi.sane.client fd (by rw [hph]; exact List.mem_cons_self)
      obtain ⟨hopen, -⟩ := hi.only hfd
      obtain ⟨e', he', h⟩ := hi.onClient hfd r
      obtain rfl : e' = e := Except.ok.inj (he'.symm.trans he)
      refine ⟨hsane, ?_⟩
      rcases h with ⟨hc, q, hl⟩ | ⟨hc, hw⟩
      · exact .inr ⟨fd, q, by simp [Loop.afterClient, Loop.apply, hc, hopen], hl⟩
      · exact .inl ⟨by simp [Loop.afterClient, Loop.apply, hc, hopen], hw⟩
  | skip _ => exact hi.of_eq hsane rfl rfl (Int.le_refl _)
  | quiet _ _ => exact hi.of_eq hsane rfl rfl (Int.le_refl _)
  | @tick later e e' _ hle _ he he' =>
      obtain ⟨e₁, he₁, h⟩ := hi.onTick
      obtain rfl : e₁ = e := Except.ok.inj (he₁.symm.trans he)
      obtain rfl := Except.ok.inj (show Except.ok _ = Except.ok e' from he')
      refine ⟨hsane, ?_⟩
      have hnow : ∀ e', s.now ≤ (s.afterHandler e₁ e' later).now := by
        intro e'
        simpa [Loop.afterHandler, Loop.afterTick, Loop.apply] using hle
      rcases h with ⟨hopen, hw⟩ | ⟨fd, hopen, ⟨hc, q, hl⟩ | ⟨hc, hw⟩⟩
      · exact .inl ⟨by simp [Loop.afterHandler, Loop.afterTick, Loop.apply, hopen], hw⟩
      · exact .inr ⟨fd, q, by simp [Loop.afterHandler, Loop.afterTick, Loop.apply, hopen, hc],
          hl.later (hnow _)⟩
      · exact .inl ⟨by simp [Loop.afterHandler, Loop.afterTick, Loop.apply, hopen, hc], hw⟩

theorem inv_start (hs : machine.init s) : Inv s := by
  obtain ⟨now, rfl⟩ := hs
  exact ⟨Loop.Sane.start _ _ _, .inl ⟨rfl, Holds.make⟩⟩

theorem Inv.returns (hi : Inv s) (he : machine.enabled s act) : ∃ s', machine.step s act = .ok s' := by
  apply Loop.step_returns he
  · intro fd a hfd ha
    have ha := Option.isNone_iff_eq_none.mp ha
    rcases hi.clients with ⟨-, hw⟩ | ⟨fd', q, -, hl⟩
    · obtain ⟨e, heff, -⟩ := onAccept_first hw ha s.now fd
      exact ⟨e, heff⟩
    · obtain ⟨e, heff, -⟩ := hl.onAccept ha fd
      exact ⟨e, heff⟩
  · intro fd r rest hph
    have hfd : fd ∈ s.opened := hi.sane.client fd (by rw [hph]; exact List.mem_cons_self)
    obtain ⟨e, heff, -⟩ := hi.onClient hfd r
    exact ⟨e, heff⟩
  · obtain ⟨e, heff, -⟩ := hi.onTick
    exact ⟨e, heff, fun later => ⟨_, rfl⟩⟩

/-- Whoever is accepted while another client is connected has no timer in the list. -/
theorem Inv.alone_of_everyLinked (hi : Inv s) (hm : Loop.Moves handlers s act s')
    (hlinked : EveryLinked s') : AcceptsAlone s act := by
  cases hm with
  | @accept fd a rest e _ hfd _ ha he =>
      rcases hi.clients with ⟨hopen, -⟩ | ⟨fd', q, -, hl⟩
      · exact hopen
      · exfalso
        obtain ⟨e', he', -, htimer, hout⟩ := hl.onAccept (Option.isNone_iff_eq_none.mp ha) fd
        obtain rfl : e' = e := Except.ok.inj (he'.symm.trans he)
        obtain ⟨x, hx, hin⟩ := hlinked fd List.mem_cons_self
        have hx : (e'.prog.users fd).timer = some x := hx
        rw [htimer] at hx
        obtain rfl := Option.some.inj hx
        exact hout hin
  | _ => trivial

/-- **Every open client's timer is linked throughout a run exactly if** no one is accepted while another
client is connected. Such a run does not fault, and a client whose turn it is has its timer in the list,
so that `del_timer` may be called with it. -/
theorem every_linked_iff {h : List (Loop Server × Action)} (hr : machine.Run h s) :
    (Machine.Throughout EveryLinked h s ↔ Machine.Always AcceptsAlone h) ∧
    (Machine.Always AcceptsAlone h →
      (∀ act, machine.enabled s act → ∃ s', machine.step s act = .ok s') ∧
      ∀ fd rest, s.phase = .batch (.client fd :: rest) →
        ∃ q, (s.prog.users fd).timer = some q ∧ q ∈ s.prog.lst.linked) := by
  have hstep : ∀ s act s', Inv s → machine.enabled s act → AcceptsAlone s act →
      machine.step s act = .ok s' → Inv s' := by
    intro s act s' hi he hC hs
    exact hi.moves (Loop.moves_of_step he hs) hC
  constructor
  · apply hr.exact (fun s hs => inv_start hs) (fun s hi => hi.everyLinked) hstep
    intro s act s' hi he hs hlinked
    exact hi.alone_of_everyLinked (Loop.moves_of_step he hs) hlinked
  · intro hC
    have hi := (hr.guarded (fun s hs => inv_start hs) hstep hC).2
    refine ⟨fun act he => hi.returns he, ?_⟩
    intro fd rest hph
    exact hi.everyLinked fd (hi.sane.client fd (by rw [hph]; exact List.mem_cons_self))

/-- A client connects, sends something and hangs up, and then another one connects. -/
theorem every_linked_in_turn :
    ∃ h s, machine.Run h s ∧ s.opened = [6] ∧ s.prog.lst.linked = [2] ∧
      Machine.Throughout EveryLinked h s := by
  obtain ⟨h, s, hr, -, hs⟩ := Machine.Run.of_replay (M := machine.restrict AcceptsAlone)
    [.wait [.listen], .accept (some (5, 1)), .finish 0, .clock 1, .wait [.client 5], .client .data,
      .finish 1, .wait [.client 5, .listen], .client .eof, .accept (some (6, 2)), .finish 2]
    (fun s => (s.opened, s.prog.lst.linked)) ⟨0, rfl⟩ (b := ([6], [2])) (by decide +kernel)
  obtain ⟨hr, hC⟩ := hr.of_restrict
  obtain ⟨hopen, hlinked⟩ := Prod.mk.inj hs
  exact ⟨h, s, hr, hopen, hlinked, (every_linked_iff hr).1.mpr hC⟩

/-- Two clients connect. The timer of the second is not in the list, and when that client hangs up the
server dereferences a null pointer. -/
theorem every_linked_together_fails :
    ∃ h s, machine.Run h s ∧
      h.map Prod.snd = [.wait [.listen], .accept (some (5, 1)), .finish 0, .wait [.listen],
        .accept (some (6, 2)), .finish 0, .wait [.client 6]] ∧
      s.phase = .batch [.client 6] ∧ ¬ EveryLinked s ∧ machine.enabled s (.client .eof) ∧
      machine.step s (.client .eof) = .error .nullDeref := by
  obtain ⟨h, s, hr, has, hs⟩ := Machine.Run.of_replay (M := machine)
    [.wait [.listen], .accept (some (5, 1)), .finish 0, .wait [.listen], .accept (some (6, 2)),
      .finish 0, .wait [.client 6]]
    (fun s => (s.opened, s.phase, (s.prog.users 6).timer.any (· ∈ s.prog.lst.linked),
      machine.fault s (.client .eof))) ⟨0, rfl⟩
    (b := ([6, 5], .batch [.client 6], false, some .nullDeref)) (by decide +kernel)
  simp only [Prod.mk.injEq] at hs
  obtain ⟨hopen, hph, hout, hstep⟩ := hs
  refine ⟨h, s, hr, has, hph, ?_, ?_, Machine.step_of_fault hstep⟩
  · intro hall
    obtain ⟨q, hq, hin⟩ := hall 6 (by rw [hopen]; decide)
    rw [hq] at hout
    simp [hin] at hout
  · show s.phase.next.any Source.isClient = true
    rw [hph]
    rfl

end Server
end LinuxServer.SortedList
