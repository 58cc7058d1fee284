import LinuxServer.Wheel.Expiry
import LinuxServer.EventLoop
import Mathlib.Algebra.GroupWithZero.Nat

/-!
# The timing wheel server

`TimeWheel.cpp` gives every accepted connection a timer of `TIMESLOT` seconds in one global wheel and
never prolongs it. A connection ends either when its own `recv` reports end of file or an error, or
when its timer fires; in both cases `cb_func` closes it. Nobody resets `users[fd].timer`, so after an
expiry it dangles until the descriptor is handed out again.

`wheel_server_correspondence` says that this is harmless, whatever the order of events: open
descriptors and timers in the wheel correspond to each other, and a connection is closed exactly once.
-/

namespace LinuxServer.Wheel

open Library EventLoop

def timeslot : Int := 5

/-- The address of `cb_func`. -/
def cbFunc : Ptr := 1

structure Server where
  wheel : TimeWheel
  users : Nat → ClientData

namespace Server

/-- `cb_func(user_data)`: the descriptor it closes. A pointer to `users[fd]` is modelled by `fd`. -/
def callback (users : Nat → ClientData) : Option Ptr → Exec Nat
  | none => .error .nullDeref
  | some fd => .ok (users fd).sockFd

def onAccept (p : Server) (_now : Int) (connFd : Nat) (a : Ptr) : Exec (Effect Server) := do
  let users := Function.update p.users connFd { p.users connFd with sockFd := connFd }
  let (w, timer) ← p.wheel.arm timeslot a cbFunc (some connFd)
  match timer with
  | none => return { prog := { wheel := w, users := users }, closes := [], alarm := none }
  | some _ =>
      let users := Function.update users connFd { users connFd with timer := timer }
      return { prog := { wheel := w, users := users }, closes := [], alarm := none }

/-- `cb_func(&users[sockFd]); if (timer) client_conn_time_wheel.del_timer(timer);` -/
def hangUp (p : Server) (sockFd : Nat) : Exec (Effect Server) := do
  let timer := (p.users sockFd).timer
  let fd ← callback p.users (some sockFd)
  let w ← p.wheel.delTimer timer
  return { prog := { p with wheel := w }, closes := [fd], alarm := none }

def onClient (p : Server) (_now : Int) (sockFd : Nat) : Recv → Exec (Effect Server)
  | .fail => p.hangUp sockFd
  | .eof => p.hangUp sockFd
  | .again => .ok { prog := p, closes := [], alarm := none }
  | .data => .ok { prog := p, closes := [], alarm := none }

def onTick (p : Server) (_now : Int) : Exec (Effect Server) := do
  let (w, calls) ← p.wheel.tick
  let closes ← calls.mapM fun c => callback p.users c.userData
  return { prog := { p with wheel := w }, closes := closes, alarm := none }

/-- `alarm(1)`. -/
def onRearm (p : Server) (_now : Int) : Exec (Effect Server) :=
  .ok { prog := p, closes := [], alarm := some 1 }

def handlers : Handlers Server where
  accept := onAccept
  client := onClient
  tick := onTick
  rearm := onRearm
  fresh p a := (p.wheel.mem.cells a).isNone

/-- `main`: an empty wheel, unset records, and `alarm(1)`. -/
def machine : Machine (Loop Server) Action :=
  Loop.machine handlers
    { wheel := TimeWheel.make, users := fun _ => { sockFd := 0, timer := none } } 1

instance (s : Loop Server) (act : Action) : Decidable (machine.enabled s act) :=
  Loop.decidableEnabled handlers s act

/-! ## What the log says about a connection -/

/-- Ticks a connection on `fd` still survives; `none` if there is none. Only what came from outside
counts here: who connected, what `recv` returned and how often the wheel was ticked. -/
def left : List Record → Nat → Option Nat
  | [], _ => none
  | .accepted q _ :: log, fd => if q = fd then some 5 else left log fd
  | .served q r _ :: log, fd => if q = fd ∧ hangsUp r = true then none else left log fd
  | .ticked _ :: log, fd => (left log fd).bind fun k => if k = 0 then none else some (k - 1)

/-- The timer made for the latest connection on `fd`. -/
def timerOf : List Record → Nat → Option Ptr
  | [], _ => none
  | .accepted q p :: log, fd => if q = fd then some p else timerOf log fd
  | .served _ _ _ :: log, fd => timerOf log fd
  | .ticked _ :: log, fd => timerOf log fd

/-- The descriptors an entry of the log reports as closed. -/
def closesOf : Record → List Nat
  | .accepted _ _ => []
  | .served _ _ closes => closes
  | .ticked closes => closes

/-- How often `fd` was closed in a stretch of the log. -/
def closedIn (log : List Record) (fd : Nat) : Nat :=
  (log.map fun o => (closesOf o).count fd).sum

def isTick : Record → Bool
  | .ticked _ => true
  | _ => false

def ticksIn (log : List Record) : Nat := log.countP isTick

/-- The client on `fd` hung up, or its socket failed. -/
def isHangUp (fd : Nat) : Record → Bool
  | .served q r _ => q == fd && hangsUp r
  | _ => false

def hungUp (log : List Record) (fd : Nat) : Bool := log.any (isHangUp fd)

/-- What the server should do at an entry of the log, given what came before. -/
def Legit (log : List Record) : Record → Prop
  | .accepted fd _ => left log fd = none
  | .served fd r closes => left log fd ≠ none ∧ closes = if hangsUp r then [fd] else []
  | .ticked closes => ∀ fd, closes.count fd = if left log fd = some 0 then 1 else 0

def Legal : List Record → Prop
  | [] => True
  | o :: log => Legit log o ∧ Legal log

theorem legal_append {l₁ l₂ : List Record} (h : Legal (l₁ ++ l₂)) : Legal l₂ := by
  induction l₁ with
  | nil => exact h
  | cons o l₁ ih => exact ih h.2

section Stretch
variable {mid : List Record} {fd : Nat} (q : Ptr) (earlier : List Record)

/-- One more tick. -/
theorem ticksIn_cons_ticked (closes : List Nat) (log : List Record) :
    ticksIn (.ticked closes :: log) = ticksIn log + 1 := List.countP_cons_of_pos rfl

/-- A client has hung up now or before. -/
theorem hungUp_cons (o : Record) (log : List Record) (fd : Nat) :
    hungUp (o :: log) fd = (isHangUp fd o || hungUp log fd) := List.any_cons

/-- What is left of a connection after a stretch in which its descriptor was not handed out
again. -/
theorem left_append (hmid : ∀ x, Record.accepted fd x ∉ mid) :
    (hungUp mid fd = true ∨ 6 ≤ ticksIn mid → left (mid ++ .accepted fd q :: earlier) fd = none) ∧
    (hungUp mid fd = false → ticksIn mid ≤ 5 →
      left (mid ++ .accepted fd q :: earlier) fd = some (5 - ticksIn mid)) := by
  induction mid with
  | nil => simp [left, hungUp, ticksIn]
  | cons o mid ih =>
      obtain ⟨hgone, halive⟩ := ih (fun x hx => hmid x (List.mem_cons_of_mem _ hx))
      rw [List.cons_append, hungUp_cons]
      cases o with
      | accepted x y =>
          have hx : x ≠ fd := by
            rintro rfl
            exact hmid y List.mem_cons_self
          have hticks : ticksIn (.accepted x y :: mid) = ticksIn mid :=
            List.countP_cons_of_neg (by simp [isTick])
          rw [left, if_neg hx, hticks]
          exact ⟨hgone, halive⟩
      | served x r closes =>
          have hticks : ticksIn (.served x r closes :: mid) = ticksIn mid :=
            List.countP_cons_of_neg (by simp [isTick])
          rw [left, hticks]
          by_cases hx : x = fd ∧ hangsUp r = true
          · simp [isHangUp, hx]
          · have hno : isHangUp fd (.served x r closes) = false := by
              rw [Bool.eq_false_iff]
              simpa [isHangUp] using hx
            rw [if_neg hx, hno, Bool.false_or]
            exact ⟨hgone, halive⟩
      | ticked closes =>
          rw [left, ticksIn_cons_ticked]
          show (hungUp mid fd = true ∨ _ → _) ∧ (hungUp mid fd = false → _ → _)
          constructor
          · intro h
            by_cases hnow : hungUp mid fd = true ∨ 6 ≤ ticksIn mid
            · rw [hgone hnow]
              rfl
            · have hfive : ticksIn mid = 5 := by
                rcases h with h | h
                · exact absurd (.inl h) hnow
                · omega
              rw [halive (by simpa using fun h => hnow (.inl h)) (by omega), hfive]
              rfl
          · intro hup hticks
            rw [halive hup (by omega), Option.bind_some, if_neg (by omega)]
            congr 1

/-- A connection has been closed once if it is gone, and not at all if it is not. -/
theorem closedIn_eq (hmid : ∀ x, Record.accepted fd x ∉ mid)
    (hl : Legal (mid ++ .accepted fd q :: earlier)) :
    (left (mid ++ .accepted fd q :: earlier) fd = none → closedIn mid fd = 1) ∧
    (left (mid ++ .accepted fd q :: earlier) fd ≠ none → closedIn mid fd = 0) := by
  induction mid with
  | nil => simp [closedIn, left]
  | cons o mid ih =>
      obtain ⟨hgone, halive⟩ := ih (fun x hx => hmid x (List.mem_cons_of_mem _ hx)) hl.2
      have hcons : closedIn (o :: mid) fd = (closesOf o).count fd + closedIn mid fd := rfl
      have hlegit : Legit (mid ++ .accepted fd q :: earlier) o := hl.1
      rw [hcons, List.cons_append]
      generalize mid ++ Record.accepted fd q :: earlier = log at hlegit hgone halive ⊢
      cases o with
      | accepted x y =>
          have hx : x ≠ fd := by
            rintro rfl
            exact hmid y List.mem_cons_self
          simpa [closesOf, left, hx] using ⟨hgone, halive⟩
      | served x r closes =>
          obtain ⟨hopen, hcloses⟩ := hlegit
          by_cases hx : x = fd ∧ hangsUp r = true
          · obtain ⟨rfl, hr⟩ := hx
            simp [closesOf, left, hr, hcloses, halive hopen]
          · have hcount : closes.count fd = 0 := by
              rw [hcloses]
              by_cases hr : hangsUp r = true
              · have hne : x ≠ fd := fun h => hx ⟨h, hr⟩
                simp [hr, hne]
              · simp [hr]
            rw [left, if_neg hx, closesOf, hcount, Nat.zero_add]
            exact ⟨hgone, halive⟩
      | ticked closes =>
          have hcount := hlegit fd
          rw [left, closesOf, hcount]
          rcases hlog : left log fd with _ | k
          · simp [hgone hlog]
          · have hzero := halive (by simp [hlog])
            by_cases hk : k = 0
            · simp [hk, hzero]
            · simp [hk, hzero]

end Stretch

/-! ## The invariant

`log` is the history of the wheel alone, as in `Expiry`. Each open descriptor has one pending timer,
which names the descriptor back and will fire when the log of the server says so; and there are no
other pending timers. -/

structure Inv (s : Loop Server) (log : List Obs) (a : Dial) : Prop where
  sane : s.Sane
  tracks : Tracks { wheel := s.prog.wheel, log := log } a
  timer : ∀ fd ∈ s.opened, (s.prog.users fd).sockFd = fd ∧ ∃ p k,
    (s.prog.users fd).timer = some p ∧ left s.log fd = some k ∧
    pending log p = some { rounds := k, cbFunc := cbFunc, userData := some fd }
  client : ∀ p x, pending log p = some x → ∃ fd ∈ s.opened, (s.prog.users fd).timer = some p
  opened : ∀ fd, left s.log fd ≠ none → fd ∈ s.opened
  current : ∀ fd, (s.prog.users fd).timer = timerOf s.log fd
  legal : Legal s.log

variable {s s' : Loop Server} {log : List Obs} {a : Dial} {act : Action}

/-- Two clients never share a timer: it names only one of them. -/
theorem Inv.timer_ne (hi : Inv s log a) {fd fd' : Nat} (hfd : fd ∈ s.opened) (hfd' : fd' ∈ s.opened)
    (hne : fd ≠ fd') : (s.prog.users fd).timer ≠ (s.prog.users fd').timer := by
  obtain ⟨-, p, k, hp, -, hx⟩ := hi.timer fd hfd
  obtain ⟨-, p', k', hp', -, hx'⟩ := hi.timer fd' hfd'
  rw [hp, hp']
  intro heq
  obtain rfl := Option.some.inj heq
  rw [hx] at hx'
  simp only [Option.some.injEq, Pending.mk.injEq] at hx'
  exact hne hx'.2.2

/-- The timer a live pending entry belongs to, seen from its client. -/
theorem Inv.owner (hi : Inv s log a) {p : Ptr} {x : Pending} (hx : pending log p = some x) :
    ∃ fd ∈ s.opened, (s.prog.users fd).timer = some p ∧ left s.log fd = some x.rounds ∧
      x.userData = some fd := by
  obtain ⟨fd, hfd, hp⟩ := hi.client p x hx
  obtain ⟨-, p', k, hp', hk, hx'⟩ := hi.timer fd hfd
  obtain rfl : p = p' := Option.some.inj (hp.symm.trans hp')
  obtain rfl : x = { rounds := k, cbFunc := cbFunc, userData := some fd } :=
    Option.some.inj (hx.symm.trans hx')
  exact ⟨fd, hfd, hp, hk, rfl⟩

/-! ### Accepting -/

/-- A new connection with its timer. -/
theorem Inv.onAccept (hi : Inv s log a) {fd : Nat} {q : Ptr} (hfd : fd ∉ s.opened)
    (hq : s.prog.wheel.mem.cells q = none) (rest : List Source) :
    ∃ e, onAccept s.prog s.now fd q = .ok e ∧ e.closes = [] ∧
      ((s.afterAccept e fd q rest).Sane →
        ∃ log' a', Inv (s.afterAccept e fd q rest) log' a') := by
  obtain ⟨w', hw', ht'⟩ := hi.tracks.add hq (show (0 : Int) ≤ timeslot by decide) cbFunc (some fd)
  -- the cell is new, even if an earlier timer had the same address
  have hnone : pending log q = none := by
    by_contra h
    exact (hi.tracks.pending_iff_live.mp h) hq
  have hleft : left s.log fd = none := by
    by_contra h
    exact hfd (hi.opened fd h)
  unfold Server.onAccept
  rw [hw', ok_bind]
  refine ⟨_, rfl, rfl, ?_⟩
  intro hsane
  refine ⟨_, _, hsane, ht', ?_, ?_, ?_, ?_, ⟨hleft, hi.legal⟩⟩
  · intro x hx
    have hx' : x = fd ∨ x ∈ s.opened := by
      simpa [Loop.afterAccept, Loop.apply] using hx
    by_cases hxfd : x = fd
    · subst hxfd
      refine ⟨by simp [Loop.afterAccept, Loop.apply], q, 5, ?_, ?_, ?_⟩
      · simp [Loop.afterAccept, Loop.apply]
      · simp [Loop.afterAccept, left]
      · simp [pending, timeslot]
    · have hxo : x ∈ s.opened := hx'.resolve_left hxfd
      obtain ⟨hsock, p, k, hp, hk, hpend⟩ := hi.timer x hxo
      have hqp : q ≠ p := by
        rintro rfl
        rw [hnone] at hpend
        cases hpend
      refine ⟨by simpa [Loop.afterAccept, Loop.apply, hxfd] using hsock, p, k, ?_, ?_, ?_⟩
      · simpa [Loop.afterAccept, Loop.apply, hxfd] using hp
      · simpa [Loop.afterAccept, left, Ne.symm hxfd] using hk
      · simpa [pending, hqp] using hpend
  · intro p x hx
    by_cases hqp : q = p
    · subst hqp
      exact ⟨fd, by simp [Loop.afterAccept], by simp [Loop.afterAccept, Loop.apply]⟩
    · simp only [pending, hqp, if_false] at hx
      obtain ⟨x', hx', hp⟩ := hi.client p x hx
      have hne : x' ≠ fd := fun h => hfd (h ▸ hx')
      refine ⟨x', by simp [Loop.afterAccept, Loop.apply, hx'], ?_⟩
      simpa [Loop.afterAccept, Loop.apply, hne] using hp
  · intro x hx
    by_cases hxfd : fd = x
    · subst hxfd
      simp [Loop.afterAccept]
    · have hx : left s.log x ≠ none := by simpa [Loop.afterAccept, left, hxfd] using hx
      simpa [Loop.afterAccept, Loop.apply] using .inr (hi.opened x hx)
  · intro x
    by_cases hxfd : x = fd
    · subst hxfd
      simp [Loop.afterAccept, Loop.apply, timerOf]
    · simpa [Loop.afterAccept, Loop.apply, timerOf, hxfd, Ne.symm hxfd] using hi.current x

/-! ### Client input -/

/-- A client that hangs up takes its timer out of the wheel. -/
theorem Inv.hangUp (hi : Inv s log a) {fd : Nat} (hfd : fd ∈ s.opened) {r : Recv}
    (hr : hangsUp r = true) (rest : List Source) :
    ∃ e, Server.hangUp s.prog fd = .ok e ∧ e.closes = [fd] ∧
      ((s.afterClient e fd r rest).Sane →
        ∃ log' a', Inv (s.afterClient e fd r rest) log' a') := by
  obtain ⟨hsock, p, k, hp, hk, hpend⟩ := hi.timer fd hfd
  have hlive : s.prog.wheel.mem.cells p ≠ none := by
    apply hi.tracks.pending_iff_live.mp
    simp [hpend]
  obtain ⟨w', hw', ht'⟩ := hi.tracks.del hlive
  unfold Server.hangUp
  simp only [callback, hsock, ok_bind, hp, hw']
  refine ⟨_, rfl, rfl, ?_⟩
  intro hsane
  have hmem : ∀ x, x ∈ (s.afterClient
      { prog := { s.prog with wheel := w' }, closes := [fd], alarm := none } fd r rest).opened ↔
      x ∈ s.opened ∧ x ≠ fd := by
    intro x
    simp [Loop.afterClient, Loop.apply]
  have hleft : ∀ x, x ≠ fd → left (.served fd r [fd] :: s.log) x = left s.log x := by
    intro x hx
    rw [left, if_neg]
    rintro ⟨h, -⟩
    exact hx h.symm
  refine ⟨_, _, hsane, ht', ?_, ?_, ?_, hi.current, ?_⟩
  · intro x hx
    obtain ⟨hx, hne⟩ := (hmem x).mp hx
    obtain ⟨hsock', p', k', hp', hk', hpend'⟩ := hi.timer x hx
    -- the timer that is deleted is not that of another client
    have hpp : p ≠ p' := by
      rintro rfl
      exact hi.timer_ne hx hfd hne (hp'.trans hp.symm)
    exact ⟨hsock', p', k', hp', (hleft x hne).trans hk', by simpa [pending, hpp] using hpend'⟩
  · intro p' x hx
    have hpp : p ≠ p' := by
      rintro rfl
      simp [pending] at hx
    simp only [pending, hpp, if_false] at hx
    obtain ⟨fd', hfd', hp'⟩ := hi.client p' x hx
    refine ⟨fd', (hmem fd').mpr ⟨hfd', ?_⟩, hp'⟩
    rintro rfl
    exact hpp (Option.some.inj (hp.symm.trans hp'))
  · intro x hx
    have hx : left (.served fd r [fd] :: s.log) x ≠ none := hx
    have hne : x ≠ fd := by
      rintro rfl
      apply hx
      simp [left, hr]
    rw [hleft x hne] at hx
    exact (hmem x).mpr ⟨hi.opened x hx, hne⟩
  · exact ⟨⟨by simp [hk], by simp [hr]⟩, hi.legal⟩

/-- Input that does not end the connection changes nothing but the log. -/
theorem Inv.idle (hi : Inv s log a) {fd : Nat} (hfd : fd ∈ s.opened) {r : Recv}
    (hr : hangsUp r = false) {rest : List Source}
    (hsane : (s.afterClient { prog := s.prog, closes := [], alarm := none } fd r rest).Sane) :
    Inv (s.afterClient { prog := s.prog, closes := [], alarm := none } fd r rest) log a := by
  have hleft : ∀ x, left (.served fd r [] :: s.log) x = left s.log x := by
    intro x
    rw [left, if_neg (by simp [hr])]
  have hopen : (s.apply { prog := s.prog, closes := [], alarm := none }).opened = s.opened := by
    simp [Loop.apply]
  refine ⟨hsane, hi.tracks, ?_, ?_, ?_, hi.current, ?_⟩
  · intro x hx
    have hx : x ∈ s.opened := hopen ▸ hx
    obtain ⟨hsock, p, k, hp, hk, hpend⟩ := hi.timer x hx
    exact ⟨hsock, p, k, hp, (hleft x).trans hk, hpend⟩
  · intro p x hx
    obtain ⟨fd', hfd', hp⟩ := hi.client p x hx
    exact ⟨fd', hopen.symm ▸ hfd', hp⟩
  · intro x hx
    have hx : left s.log x ≠ none := hleft x ▸ hx
    exact hopen.symm ▸ hi.opened x hx
  · obtain ⟨-, -, k, -, hk, -⟩ := hi.timer fd hfd
    exact ⟨⟨by simp [hk], by simp [hr]⟩, hi.legal⟩

/-! ### Ticking -/

/-- A call of the tick belongs to an open connection that has no ticks left. -/
theorem Inv.caller (hi : Inv s log a) {c : Call} (hc : c ∈ a.calls) :
    ∃ fd ∈ s.opened, (s.prog.users fd).timer = some c.timer ∧ left s.log fd = some 0 ∧
      c.userData = some fd := by
  have hmem : c ∈ a.calls.filter (·.timer = c.timer) := by simp [hc]
  rw [hi.tracks.calls_eq c.timer] at hmem
  unfold expected at hmem
  split at hmem
  · rename_i x hx
    split at hmem
    · rename_i hzero
      obtain ⟨fd, hfd, hp, hk, hud⟩ := hi.owner hx
      rw [hzero] at hk
      have hcx := List.mem_singleton.mp hmem
      exact ⟨fd, hfd, hp, hk, by rw [hcx]; exact hud⟩
    · cases hmem
  · cases hmem

/-- The descriptors the calls of a tick close. -/
def closedBy (calls : List Call) : List Nat := calls.map fun c => c.userData.getD 0

/-- The callbacks that are called close the connections of their timers. -/
theorem Inv.callbacks (hi : Inv s log a) :
    (a.calls.mapM fun c => callback s.prog.users c.userData) = .ok (closedBy a.calls) := by
  apply mapM_ok
  intro c hc
  obtain ⟨fd, hfd, -, -, hud⟩ := hi.caller hc
  rw [hud]
  show Except.ok (s.prog.users fd).sockFd = Except.ok fd
  rw [(hi.timer fd hfd).1]

/-- A tick closes each connection that has no ticks left once, and no other. -/
theorem Inv.count_closedBy (hi : Inv s log a) (fd : Nat) :
    (closedBy a.calls).count fd = if left s.log fd = some 0 then 1 else 0 := by
  split
  · rename_i hzero
    obtain ⟨-, p, k, hp, hk, hpend⟩ := hi.timer fd (hi.opened fd (by simp [hzero]))
    obtain rfl : k = 0 := Option.some.inj (hk.symm.trans hzero)
    have hfilter : a.calls.filter (·.timer = p) =
        [{ timer := p, cbFunc := cbFunc, userData := some fd }] := by
      rw [hi.tracks.calls_eq p]
      simp [expected, hpend]
    -- among the calls of this tick, naming `fd` and being of its timer is the same
    have hsame : ∀ c ∈ a.calls, c.userData.getD 0 = fd ↔ c.timer = p := by
      intro c hc
      obtain ⟨fd', hfd', hp', -, hud⟩ := hi.caller hc
      rw [hud]
      show fd' = fd ↔ c.timer = p
      constructor
      · intro h
        rw [h, hp] at hp'
        exact (Option.some.inj hp').symm
      · intro h
        by_contra hne
        apply hi.timer_ne hfd' (hi.opened fd (by simp [hzero])) hne
        rw [hp', hp, h]
    calc (closedBy a.calls).count fd
        = a.calls.countP (fun c => c.userData.getD 0 = fd) := by
          rw [closedBy, List.count, List.countP_map]
          exact List.countP_congr (fun c _ => by simp)
      _ = a.calls.countP (·.timer = p) :=
          List.countP_congr (fun c hc => by simpa using hsame c hc)
      _ = 1 := by rw [List.countP_eq_length_filter, hfilter]; rfl
  · rename_i hne
    apply List.count_eq_zero_of_not_mem
    intro hmem
    obtain ⟨c, hc, hfd⟩ := List.mem_map.mp hmem
    obtain ⟨fd', -, -, hk, hud⟩ := hi.caller hc
    rw [hud] at hfd
    obtain rfl : fd' = fd := hfd
    exact hne hk

/-- A tick closes the connections that have no tick left. -/
theorem Inv.mem_closedBy (hi : Inv s log a) {fd : Nat} :
    fd ∈ closedBy a.calls ↔ left s.log fd = some 0 := by
  rw [← List.count_pos_iff, hi.count_closedBy]
  split <;> simp_all

/-- A tick closes connections and keeps the invariant. -/
theorem Inv.onTick (hi : Inv s log a) :
    ∃ e, onTick s.prog s.now = .ok e ∧ ∀ later e', onRearm e.prog later = .ok e' →
      (s.afterHandler e e' later).Sane → ∃ log' a', Inv (s.afterHandler e e' later) log' a' := by
  obtain ⟨w', hw', ht'⟩ := hi.tracks.tick
  unfold Server.onTick
  simp only [hw', ok_bind, hi.callbacks]
  refine ⟨_, rfl, ?_⟩
  intro later e' he' hsane
  obtain rfl := Except.ok.inj he'
  have hmem : ∀ x, x ∈ (s.afterHandler
      { prog := { s.prog with wheel := w' }, closes := closedBy a.calls, alarm := none }
      { prog := { s.prog with wheel := w' }, closes := [], alarm := some 1 } later).opened ↔
      x ∈ s.opened ∧ left s.log x ≠ some 0 := by
    intro x
    rw [ne_eq, ← hi.mem_closedBy]
    exact Loop.mem_opened_afterHandler rfl
  refine ⟨_, _, hsane, ht', ?_, ?_, ?_, hi.current, ⟨hi.count_closedBy, hi.legal⟩⟩
  · intro x hx
    obtain ⟨hx, hne⟩ := (hmem x).mp hx
    obtain ⟨hsock, p, k, hp, hk, hpend⟩ := hi.timer x hx
    have hk0 : k ≠ 0 := by
      rintro rfl
      exact hne hk
    exact ⟨hsock, p, k - 1, hp, by simp [Loop.afterHandler, Loop.afterTick, Loop.apply, left, hk, hk0],
      by simp [pending, hpend, Pending.pass, hk0]⟩
  · intro p x hx
    obtain ⟨y, hy, hpass⟩ := Option.bind_eq_some_iff.mp hx
    have hy0 : y.rounds ≠ 0 := by
      intro h
      simp [Pending.pass, h] at hpass
    obtain ⟨fd, hfd, hp, hk, -⟩ := hi.owner hy
    exact ⟨fd, (hmem fd).mpr ⟨hfd, by simpa [hk] using hy0⟩, hp⟩
  · intro x hx
    obtain ⟨y, hy⟩ := Option.ne_none_iff_exists'.mp hx
    obtain ⟨k, hk, hlast⟩ := Option.bind_eq_some_iff.mp hy
    refine (hmem x).mpr ⟨hi.opened x (by simp [hk]), ?_⟩
    rw [hk]
    intro h
    simp [Option.some.inj h] at hlast

/-! ### Whole runs -/

/-- The program, the open descriptors and the log are all the invariant reads. -/
theorem Inv.of_eq (hi : Inv s log a) (hsane : s'.Sane) (hprog : s'.prog = s.prog)
    (hopen : s'.opened = s.opened) (hlog : s'.log = s.log) : Inv s' log a := by
  constructor
  · exact hsane
  · rw [hprog]
    exact hi.tracks
  · rw [hprog, hopen, hlog]
    exact hi.timer
  · rw [hprog, hopen]
    exact hi.client
  · rw [hopen, hlog]
    exact hi.opened
  · rw [hprog, hlog]
    exact hi.current
  · rw [hlog]
    exact hi.legal

/-- Accepting a connection closes none. -/
theorem onAccept_closes {p : Server} {now : Int} {fd : Nat} {q : Ptr} {e : Effect Server}
    (h : p.onAccept now fd q = .ok e) : e.closes = [] := by
  obtain ⟨⟨w, timer⟩, -, h⟩ := bind_eq_ok.mp h
  cases timer with
  | none =>
      obtain rfl := Except.ok.inj h
      rfl
  | some _ =>
      obtain rfl := Except.ok.inj h
      rfl

/-- Whatever a client does keeps the invariant. -/
theorem Inv.onClient (hi : Inv s log a) {fd : Nat} (hfd : fd ∈ s.opened) (r : Recv)
    (rest : List Source) :
    ∃ e, onClient s.prog s.now fd r = .ok e ∧ (∀ x ∈ e.closes, x = fd) ∧
      ((s.afterClient e fd r rest).Sane → ∃ log' a', Inv (s.afterClient e fd r rest) log' a') := by
  cases hr : hangsUp r with
  | true =>
      obtain ⟨e, he, hcl, hi'⟩ := hi.hangUp hfd hr rest
      refine ⟨e, ?_, by simp [hcl], hi'⟩
      cases r with
      | fail => exact he
      | eof => exact he
      | again => cases hr
      | data => cases hr
  | false =>
      refine ⟨{ prog := s.prog, closes := [], alarm := none }, ?_, by simp,
        fun hsane => ⟨log, a, hi.idle hfd hr hsane⟩⟩
      cases r with
      | fail => cases hr
      | eof => cases hr
      | again => rfl
      | data => rfl

/-- Every move keeps the invariant. -/
theorem Inv.moves (hi : Inv s log a) (hm : Loop.Moves handlers s act s') :
    ∃ log' a', Inv s' log' a' := by
  have hsane : s'.Sane := by
    apply hi.sane.moves hm
    · intro fd q e _ he
      exact onAccept_closes (show s.prog.onAccept s.now fd q = .ok e from he)
    · intro fd r e hfd he
      obtain ⟨e', he', hcl, -⟩ := hi.onClient hfd r []
      obtain rfl : e' = e := Except.ok.inj (he'.symm.trans he)
      exact hcl
  cases hm with
  | clock _ => exact ⟨log, a, hi.of_eq hsane (by simp) (by simp) (by simp)⟩
  | raise => exact ⟨log, a, hi.of_eq hsane rfl rfl rfl⟩
  | wait _ _ _ _ => exact ⟨log, a, hi.of_eq hsane rfl rfl rfl⟩
  | acceptFailed _ => exact ⟨log, a, hi.of_eq hsane rfl rfl rfl⟩
  | @accept fd q rest e _ hfd _ hq he =>
      obtain ⟨e', he', -, hi'⟩ := hi.onAccept hfd (Option.isNone_iff_eq_none.mp hq) rest
      obtain rfl : e' = e := Except.ok.inj (he'.symm.trans he)
      exact hi' hsane
  | read _ => exact ⟨log, a, hi.of_eq hsane rfl rfl rfl⟩
  | @client fd r rest e hph he =>
      have hfd : fd ∈ s.opened := hi.sane.client fd (by rw [hph]; exact List.mem_cons_self)
      obtain ⟨e', he', -, hi'⟩ := hi.onClient hfd r rest
      obtain rfl : e' = e := Except.ok.inj (he'.symm.trans he)
      exact hi' hsane
  | skip _ => exact ⟨log, a, hi.of_eq hsane rfl rfl rfl⟩
  | quiet _ _ => exact ⟨log, a, hi.of_eq hsane rfl rfl rfl⟩
  | @tick later e e' _ _ _ he he' =>
      obtain ⟨e₁, he₁, hi'⟩ := hi.onTick
      obtain rfl : e₁ = e := Except.ok.inj (he₁.symm.trans he)
      exact hi' later e' he' hsane

/-- The invariant holds in every reachable state. -/
theorem inv_of_reachable (hr : machine.Reachable s) : ∃ log a, Inv s log a := by
  apply hr.invariant (I := fun s => ∃ log a, Inv s log a)
  · rintro s ⟨now, rfl⟩
    refine ⟨[], Dial.empty, Loop.Sane.start _ _ _, Tracks.start, ?_, ?_, ?_, fun _ => rfl, trivial⟩
    · intro fd hfd
      cases hfd
    · intro p x hx
      cases hx
    · intro fd hfd
      exact absurd rfl hfd
  · rintro s act s' ⟨log, a, hi⟩ he hs
    exact hi.moves (Loop.moves_of_step he hs)

/-- No step of the server faults. -/
theorem Inv.returns (hi : Inv s log a) (he : machine.enabled s act) :
    ∃ s', machine.step s act = .ok s' := by
  apply Loop.step_returns he
  · intro fd q hfd hq
    obtain ⟨e, heff, -⟩ := hi.onAccept hfd (Option.isNone_iff_eq_none.mp hq) []
    exact ⟨e, heff⟩
  · intro fd r rest hph
    have hfd : fd ∈ s.opened := hi.sane.client fd (by rw [hph]; exact List.mem_cons_self)
    obtain ⟨e, heff, -⟩ := hi.onClient hfd r rest
    exact ⟨e, heff⟩
  · obtain ⟨e, heff, -⟩ := hi.onTick
    exact ⟨e, heff, fun _ => ⟨_, rfl⟩⟩

/-! ## The result -/

/-- `p` hangs in one of the slots. -/
def InWheel (w : TimeWheel) (p : Ptr) : Prop :=
  ∃ t < N, ∃ l, Chain w.mem (w.slots t) l ∧ p ∈ l

/-- Open descriptors and timers in the wheel name each other, through `users[fd].timer` one way and
through `user_data` the other. The timer is the one made when the descriptor was last handed out. -/
structure Corresponds (s : Loop Server) : Prop where
  timer : ∀ fd ∈ s.opened, ∃ p c, (s.prog.users fd).timer = some p ∧ timerOf s.log fd = some p ∧
    InWheel s.prog.wheel p ∧ s.prog.wheel.mem.cells p = some c ∧ c.userData = some fd
  client : ∀ p, InWheel s.prog.wheel p → ∃ fd ∈ s.opened, (s.prog.users fd).timer = some p ∧
    ∃ c, s.prog.wheel.mem.cells p = some c ∧ c.userData = some fd

/-- What happened to a connection on `fd` in the stretch `mid` since it was accepted: it was closed
once if it hung up or six ticks have passed, and otherwise not at all; and what closed it was its own
hanging up or the sixth tick. -/
structure ClosedOnce (mid : List Record) (fd : Nat) : Prop where
  count : closedIn mid fd = if hungUp mid fd = true ∨ 6 ≤ ticksIn mid then 1 else 0
  cause : ∀ after o before, mid = after ++ o :: before → fd ∈ closesOf o →
    isHangUp fd o = true ∨ (isTick o = true ∧ ticksIn before = 5)

/-- The timers in the wheel are those that are pending. -/
theorem Inv.inWheel_iff (hi : Inv s log a) {p : Ptr} :
    InWheel s.prog.wheel p ↔ pending log p ≠ none := by
  rw [hi.tracks.pending_iff_live]
  constructor
  · rintro ⟨t, -, l, hl, hp⟩
    exact hl.live p hp
  · intro h
    obtain ⟨t, ht, hp⟩ := hi.tracks.refines.live p h
    exact ⟨t, ht, _, hi.tracks.refines.chain t ht, hp⟩

/-- The `user_data` of a pending timer, read from its cell. -/
theorem Inv.userData (hi : Inv s log a) {p : Ptr} {x : Pending} (hx : pending log p = some x) :
    ∃ c, s.prog.wheel.mem.cells p = some c ∧ c.userData = x.userData := by
  obtain ⟨t, ht, hp⟩ := hi.tracks.only p x hx
  obtain ⟨e, he, rfl⟩ := List.mem_map.mp hp
  obtain ⟨y, hy, -, -, hud⟩ := hi.tracks.entry t ht e he
  obtain rfl : x = y := Option.some.inj (hx.symm.trans hy)
  obtain ⟨c, hc, hpay⟩ := Option.map_eq_some_iff.mp (hi.tracks.refines.cell t ht e he)
  refine ⟨c, hc, ?_⟩
  rw [← hud]
  show (Linked.payload c).userData = e.userData
  rw [hpay]
  rfl

/-- Connections and timers correspond. -/
theorem Inv.corresponds (hi : Inv s log a) : Corresponds s where
  timer := by
    intro fd hfd
    obtain ⟨-, p, k, hp, -, hpend⟩ := hi.timer fd hfd
    obtain ⟨c, hc, hud⟩ := hi.userData hpend
    exact ⟨p, c, hp, (hi.current fd).symm.trans hp, hi.inWheel_iff.mpr (by simp [hpend]), hc, hud⟩
  client := by
    intro p hp
    obtain ⟨x, hx⟩ := Option.ne_none_iff_exists'.mp (hi.inWheel_iff.mp hp)
    obtain ⟨fd, hfd, htimer, -, hown⟩ := hi.owner hx
    obtain ⟨c, hc, hud⟩ := hi.userData hx
    exact ⟨fd, hfd, htimer, c, hc, hud.trans hown⟩

/-- After it was accepted a connection is closed once. -/
theorem closedOnce_of_legal {mid earlier : List Record} {fd : Nat} {q : Ptr}
    (hl : Legal (mid ++ .accepted fd q :: earlier)) (hmid : ∀ x, Record.accepted fd x ∉ mid) :
    ClosedOnce mid fd where
  count := by
    obtain ⟨hgone, halive⟩ := left_append q earlier hmid
    obtain ⟨hone, hzero⟩ := closedIn_eq q earlier hmid hl
    split
    · rename_i h
      exact hone (hgone h)
    · rename_i h
      obtain ⟨hup, hticks⟩ := not_or.mp h
      apply hzero
      rw [halive (by simpa using hup) (by omega)]
      simp
  cause := by
    rintro after o before rfl hfd
    have hmid' : ∀ x, Record.accepted fd x ∉ before := by
      intro x hx
      exact hmid x (by simp [hx])
    obtain ⟨hgone, halive⟩ := left_append q earlier hmid'
    rw [List.append_assoc] at hl
    obtain ⟨hlegit, -⟩ := legal_append hl
    cases o with
    | accepted x y => cases hfd
    | served x r closes =>
        left
        obtain ⟨-, hcloses⟩ := hlegit
        rw [closesOf, hcloses] at hfd
        cases hr : hangsUp r with
        | true =>
            rw [hr, if_pos rfl, List.mem_singleton] at hfd
            simp [isHangUp, hr, hfd]
        | false => simp [hr] at hfd
    | ticked closes =>
        right
        refine ⟨rfl, ?_⟩
        have hcount : 0 < closes.count fd := List.count_pos_iff.mpr hfd
        rw [hlegit fd] at hcount
        have hzero : left (before ++ .accepted fd q :: earlier) fd = some 0 := by
          by_contra h
          simp [h] at hcount
        by_cases hb : hungUp before fd = true ∨ 6 ≤ ticksIn before
        · rw [hgone hb] at hzero
          cases hzero
        · obtain ⟨hup, hticks⟩ := not_or.mp hb
          rw [halive (by simpa using hup) (by omega)] at hzero
          have := Option.some.inj hzero
          omega

/-- The timing wheel server, in every reachable state: open descriptors and timers in the wheel
correspond; no step faults, and the timer that a client event would delete is in the wheel; and each
connection is closed exactly once, by itself or by the sixth tick. -/
theorem wheel_server_correspondence (hr : machine.Reachable s) :
    Corresponds s ∧
    (∀ act, machine.enabled s act → ∃ s', machine.step s act = .ok s') ∧
    (∀ fd rest, s.phase = .batch (.client fd :: rest) →
      ∃ p, (s.prog.users fd).timer = some p ∧ InWheel s.prog.wheel p) ∧
    (∀ later mid fd q earlier, s.log = later ++ (mid ++ .accepted fd q :: earlier) →
      (∀ x, Record.accepted fd x ∉ mid) → ClosedOnce mid fd) := by
  obtain ⟨log, a, hi⟩ := inv_of_reachable hr
  refine ⟨hi.corresponds, fun act he => hi.returns he, ?_, ?_⟩
  · intro fd rest hph
    have hfd : fd ∈ s.opened := hi.sane.client fd (by rw [hph]; exact List.mem_cons_self)
    obtain ⟨p, c, hp, -, hin, -⟩ := hi.corresponds.timer fd hfd
    exact ⟨p, hp, hin⟩
  · intro later mid fd q earlier hlog hmid
    have hl := hi.legal
    rw [hlog] at hl
    exact closedOnce_of_legal (legal_append hl) hmid

/-- One tick of the loop: the alarm fires, its byte is read, and `timer_handler` runs. -/
def tickOnce (t : Int) : List Action :=
  [.clock t, .wait [.pipe], .read, .finish t]

/-- Descriptor 7 is handed out twice. The first connection hangs up after one tick; the second, made
right after, lives through the ticks the first timer would have fired at and is closed by the sixth of
its own. -/
theorem wheel_server_correspondence_reused :
    ∃ s, machine.Reachable s ∧
      s.log = .ticked [7] :: (List.replicate 5 (.ticked []) ++
        [.accepted 7 3, .served 7 .eof [7], .ticked [], .accepted 7 3]) ∧
      Corresponds s ∧ ClosedOnce (.ticked [7] :: List.replicate 5 (.ticked [])) 7 := by
  obtain ⟨s, hr, hlog⟩ := Machine.Reachable.of_replay (M := machine)
    ([.wait [.listen], .accept (some (7, 3)), .finish 0] ++ tickOnce 1 ++
      [.wait [.client 7], .client .eof, .finish 1, .wait [.listen], .accept (some (7, 3)),
        .finish 1] ++
      tickOnce 2 ++ tickOnce 3 ++ tickOnce 4 ++ tickOnce 5 ++ tickOnce 6 ++ tickOnce 7)
    Loop.log ⟨0, rfl⟩
    (b := .ticked [7] :: (List.replicate 5 (.ticked []) ++
        [.accepted 7 3, .served 7 .eof [7], .ticked [], .accepted 7 3])) (by decide +kernel)
  have h := wheel_server_correspondence hr
  refine ⟨s, hr, hlog, h.1, ?_⟩
  exact h.2.2.2 [] (.ticked [7] :: List.replicate 5 (.ticked [])) 7 3
    [.served 7 .eof [7], .ticked [], .accepted 7 3] hlog (by
      intro x hx
      rcases List.mem_cons.mp hx with hx | hx
      · cases hx
      · cases (List.mem_replicate.mp hx).2)

end Server
end LinuxServer.Wheel
