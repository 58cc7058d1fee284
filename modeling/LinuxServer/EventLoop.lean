import LinuxServer.Library.Machine

/-!
# The event loop of the timer servers

`TimeWheel.cpp`, `TimeHeap.cpp` and `LST_Timer.cpp` share one `main`: an `epoll_wait` loop over a
listening socket, the pipe through which the signal handler reports, and the client sockets. They
differ in what they do on an accepted connection, on client input and on a timer tick, so the loop is
modelled once, over a record of these `Handlers`.

The state carries the part of the kernel the servers depend on: which client descriptors are open,
the clock, the pending alarm and the unread bytes of the pipe. Between any two steps of the program
time may pass (`clock`) and signals may arrive (`raise`). `epoll_wait` returns a batch of distinct
sources; a client descriptor is only reported while it is open.

A handler does not close descriptors or arm alarms itself. It returns the calls it makes as an
`Effect`, and `Loop.apply` carries them out. `timer_handler` consists of two of them, cut where it
reads the clock a second time (`tick`, then `rearm`), since time can pass in between.
-/

namespace LinuxServer.EventLoop

open Library

def fdLimit : Nat := 65535

/-- The signals the loop distinguishes. -/
inductive Sig where
  | alrm
  | term
  | other
  deriving Repr, DecidableEq

/-- The descriptor an event is about. -/
inductive Source where
  | listen
  | pipe
  | client (fd : Nat)
  deriving Repr, DecidableEq

def Source.isClient : Source → Bool
  | .client _ => true
  | _ => false

/-- A client descriptor has to be among the open ones; the other two always are. -/
def Source.openIn : Source → List Nat → Bool
  | .client fd, opened => opened.contains fd
  | _, _ => true

/-- What `recv` on a client socket returns: some bytes, nothing yet (`EAGAIN`), end of file, or any
other error. The bytes themselves are only printed. -/
inductive Recv where
  | data
  | again
  | eof
  | fail
  deriving Repr, DecidableEq

/-- The outcomes on which the servers close the connection. -/
def hangsUp : Recv → Bool
  | .eof => true
  | .fail => true
  | _ => false

/-- The record `client_data`, without the address and the buffer, which no decision depends on. -/
structure ClientData where
  sockFd : Nat
  timer : Option Ptr
  deriving Repr, DecidableEq

/-- What a handler leaves behind: the new program state, the descriptors it closed, and the delay it
passed to `alarm`, if it called it. -/
structure Effect (σ : Type) where
  prog : σ
  closes : List Nat
  alarm : Option Int

structure Handlers (σ : Type) where
  /-- a connection was accepted at this time on this descriptor; `new` hands out the address -/
  accept : σ → Int → Nat → Ptr → Exec (Effect σ)
  client : σ → Int → Nat → Recv → Exec (Effect σ)
  tick : σ → Int → Exec (Effect σ)
  rearm : σ → Int → Exec (Effect σ)
  /-- the addresses `new` may hand out -/
  fresh : σ → Ptr → Bool

/-- Where the loop stands: in `epoll_wait`, or in front of the remaining events of a batch. -/
inductive Phase where
  | waiting
  | batch (rest : List Source)
  deriving Repr, DecidableEq

/-- The event the loop handles next. -/
def Phase.next : Phase → Option Source
  | .batch (src :: _) => some src
  | _ => none

/-- The client served next, if it is the turn of one. -/
def Phase.client : Phase → Option Nat
  | .batch (.client fd :: _) => some fd
  | _ => none

/-- An entry of the log. -/
inductive Record where
  | accepted (fd : Nat) (timer : Ptr)
  | served (fd : Nat) (r : Recv) (closes : List Nat)
  | ticked (closes : List Nat)
  deriving Repr, DecidableEq

structure Loop (σ : Type) where
  prog : σ
  opened : List Nat
  now : Int
  alarm : Option Int
  pipe : List Sig
  phase : Phase
  timeout : Bool
  stopServer : Bool
  /-- what happened so far, newest first -/
  log : List Record

inductive Action where
  | clock (t : Int)
  | raise (sig : Sig)
  | wait (events : List Source)
  | accept (conn : Option (Nat × Ptr))
  | read
  | client (r : Recv)
  | skip
  | finish (later : Int)
  deriving Repr, DecidableEq

/-- The events of the batch that are not handled yet. -/
def Phase.rest : Phase → List Source
  | .batch rest => rest
  | _ => []

variable {σ : Type}

namespace Loop

/-- The state in which `main` enters the loop, having set an alarm for `d` seconds. -/
def start (p : σ) (now d : Int) : Loop σ :=
  { prog := p, opened := [], now := now, alarm := some (now + d), pipe := [], phase := .waiting,
    timeout := false, stopServer := false, log := [] }

/-- Carry out the system calls of a handler. -/
def apply (s : Loop σ) (e : Effect σ) : Loop σ :=
  { s with
    prog := e.prog
    opened := s.opened.filter (· ∉ e.closes)
    alarm := match e.alarm with
      | none => s.alarm
      | some d => some (s.now + d) }

/-- Time passes. An alarm that falls due is delivered: the signal handler writes its byte. -/
def advance (s : Loop σ) (t : Int) : Loop σ :=
  match s.alarm with
  | none => { s with now := t }
  | some due =>
      if due ≤ t then { s with now := t, alarm := none, pipe := s.pipe ++ [.alrm] }
      else { s with now := t }

def enabled (H : Handlers σ) (s : Loop σ) : Action → Prop
  | .clock t => s.now ≤ t
  | .raise _ => True
  | .wait events => s.phase = .waiting ∧ s.stopServer = false ∧ events.Nodup ∧
      ∀ src ∈ events, src.openIn s.opened = true
  | .accept conn => s.phase.next = some .listen ∧
      ∀ c ∈ conn, c.1 ∉ s.opened ∧ c.1 < fdLimit ∧ H.fresh s.prog c.2 = true
  | .read => s.phase.next = some .pipe
  | .client _ => s.phase.next.any Source.isClient = true
  | .skip => s.phase.next ≠ none ∧ s.phase.next ≠ some .listen
  | .finish later => s.phase = .batch [] ∧ s.now ≤ later

/-- `timer_handler`, which reads the clock again at `later`. -/
def timerHandler (H : Handlers σ) (s : Loop σ) (later : Int) : Exec (Loop σ) := do
  let e ← H.tick s.prog s.now
  let s₁ := { (s.apply e).advance later with log := .ticked e.closes :: s.log }
  let e' ← H.rearm s₁.prog s₁.now
  return s₁.apply e'

/-- One step of the loop or of its environment. An action that does not fit the phase does nothing;
it is never enabled. -/
def step (H : Handlers σ) (s : Loop σ) (act : Action) : Exec (Loop σ) :=
  match act, s.phase with
  | .clock t, _ => .ok (s.advance t)
  | .raise sig, _ => .ok { s with pipe := s.pipe ++ [sig] }
  | .wait events, .waiting => .ok { s with phase := .batch events }
  | .accept none, .batch (.listen :: rest) => .ok { s with phase := .batch rest }
  | .accept (some (fd, a)), .batch (.listen :: rest) => do
      let e ← H.accept s.prog s.now fd a
      return { s.apply e with
        opened := fd :: (s.apply e).opened, phase := .batch rest, log := .accepted fd a :: s.log }
  | .read, .batch (.pipe :: rest) =>
      -- `recv` takes at most the 1024 bytes of `signals`
      let bytes := s.pipe.take 1024
      .ok { s with
        pipe := s.pipe.drop 1024, phase := .batch rest
        timeout := s.timeout || bytes.contains .alrm
        stopServer := s.stopServer || bytes.contains .term }
  | .client r, .batch (.client fd :: rest) => do
      let e ← H.client s.prog s.now fd r
      return { s.apply e with phase := .batch rest, log := .served fd r e.closes :: s.log }
  | .skip, .batch (_ :: rest) => .ok { s with phase := .batch rest }
  | .finish later, .batch [] =>
      if s.timeout then do
        let s' ← s.timerHandler H later
        return { s' with phase := .waiting, timeout := false }
      else .ok { s with phase := .waiting }
  | _, _ => .ok s

/-- The loop with its environment, entered with program state `p` and an alarm set for `d`. -/
def machine (H : Handlers σ) (p : σ) (d : Int) : Machine (Loop σ) Action where
  init s := ∃ now, s = start p now d
  enabled := enabled H
  step := step H

instance decidableEnabled (H : Handlers σ) (s : Loop σ) (act : Action) :
    Decidable (enabled H s act) :=
  match act with
  | .clock t => inferInstanceAs (Decidable (s.now ≤ t))
  | .raise _ => inferInstanceAs (Decidable True)
  | .wait events => inferInstanceAs (Decidable (s.phase = .waiting ∧ s.stopServer = false ∧
      events.Nodup ∧ ∀ src ∈ events, src.openIn s.opened = true))
  | .accept conn => inferInstanceAs (Decidable (s.phase.next = some .listen ∧
      ∀ c ∈ conn, c.1 ∉ s.opened ∧ c.1 < fdLimit ∧ H.fresh s.prog c.2 = true))
  | .read => inferInstanceAs (Decidable (s.phase.next = some .pipe))
  | .client _ => inferInstanceAs (Decidable (s.phase.next.any Source.isClient = true))
  | .skip => inferInstanceAs (Decidable (s.phase.next ≠ none ∧ s.phase.next ≠ some .listen))
  | .finish later => inferInstanceAs (Decidable (s.phase = .batch [] ∧ s.now ≤ later))

/-! ## What a step can do -/

variable {H : Handlers σ} {s s' : Loop σ} {act : Action}

/-- The loop after an accepted connection, and after client input. -/
def afterAccept (s : Loop σ) (e : Effect σ) (fd : Nat) (a : Ptr) (rest : List Source) : Loop σ :=
  { s.apply e with
    opened := fd :: (s.apply e).opened, phase := .batch rest, log := .accepted fd a :: s.log }

def afterClient (s : Loop σ) (e : Effect σ) (fd : Nat) (r : Recv) (rest : List Source) : Loop σ :=
  { s.apply e with phase := .batch rest, log := .served fd r e.closes :: s.log }

def afterRead (s : Loop σ) (rest : List Source) : Loop σ :=
  { s with
    pipe := s.pipe.drop 1024, phase := .batch rest
    timeout := s.timeout || (s.pipe.take 1024).contains .alrm
    stopServer := s.stopServer || (s.pipe.take 1024).contains .term }

/-- The loop between the two halves of `timer_handler`, and after it. -/
def afterTick (s : Loop σ) (e : Effect σ) (later : Int) : Loop σ :=
  { (s.apply e).advance later with log := .ticked e.closes :: s.log }

def afterHandler (s : Loop σ) (e e' : Effect σ) (later : Int) : Loop σ :=
  { (s.afterTick e later).apply e' with phase := .waiting, timeout := false }

/-- The enabled steps, one constructor for each way through the loop body. -/
inductive Moves (H : Handlers σ) (s : Loop σ) : Action → Loop σ → Prop
  | clock {t : Int} : s.now ≤ t → Moves H s (.clock t) (s.advance t)
  | raise {sig : Sig} : Moves H s (.raise sig) { s with pipe := s.pipe ++ [sig] }
  | wait {events : List Source} : s.phase = .waiting → s.stopServer = false → events.Nodup →
      (∀ src ∈ events, src.openIn s.opened = true) →
      Moves H s (.wait events) { s with phase := .batch events }
  | acceptFailed {rest : List Source} : s.phase = .batch (.listen :: rest) →
      Moves H s (.accept none) { s with phase := .batch rest }
  | accept {fd : Nat} {a : Ptr} {rest : List Source} {e : Effect σ} :
      s.phase = .batch (.listen :: rest) → fd ∉ s.opened → fd < fdLimit →
      H.fresh s.prog a = true → H.accept s.prog s.now fd a = .ok e →
      Moves H s (.accept (some (fd, a))) (s.afterAccept e fd a rest)
  | read {rest : List Source} : s.phase = .batch (.pipe :: rest) →
      Moves H s .read (s.afterRead rest)
  | client {fd : Nat} {r : Recv} {rest : List Source} {e : Effect σ} :
      s.phase = .batch (.client fd :: rest) → H.client s.prog s.now fd r = .ok e →
      Moves H s (.client r) (s.afterClient e fd r rest)
  | skip {src : Source} {rest : List Source} : s.phase = .batch (src :: rest) →
      Moves H s .skip { s with phase := .batch rest }
  | quiet {later : Int} : s.phase = .batch [] → s.timeout = false →
      Moves H s (.finish later) { s with phase := .waiting }
  | tick {later : Int} {e e' : Effect σ} : s.phase = .batch [] → s.now ≤ later →
      s.timeout = true → H.tick s.prog s.now = .ok e → H.rearm e.prog later = .ok e' →
      Moves H s (.finish later) (s.afterHandler e e' later)

section Advance
variable (s : Loop σ) (t : Int)

@[simp] theorem advance_prog : (s.advance t).prog = s.prog := by
  unfold advance
  split <;> (try split) <;> rfl

@[simp] theorem advance_opened : (s.advance t).opened = s.opened := by
  unfold advance
  split <;> (try split) <;> rfl

@[simp] theorem advance_phase : (s.advance t).phase = s.phase := by
  unfold advance
  split <;> (try split) <;> rfl

@[simp] theorem advance_now : (s.advance t).now = t := by
  unfold advance
  split <;> (try split) <;> rfl

@[simp] theorem advance_log : (s.advance t).log = s.log := by
  unfold advance
  split <;> (try split) <;> rfl

end Advance

/-- The next source of the batch. -/
theorem phase_of_next {src : Source} (h : s.phase.next = some src) :
    ∃ rest, s.phase = .batch (src :: rest) := by
  unfold Phase.next at h
  split at h
  · rename_i x rest hph
    obtain rfl : x = src := Option.some.inj h
    exact ⟨rest, hph⟩
  · cases h

/-- A step of the loop is one of its moves. -/
theorem moves_of_step (he : enabled H s act) (hs : step H s act = .ok s') : Moves H s act s' := by
  cases act with
  | clock t =>
      obtain rfl := Except.ok.inj hs
      exact .clock he
  | raise sig =>
      obtain rfl := Except.ok.inj hs
      exact .raise
  | wait events =>
      obtain ⟨hph, hstop, hnd, hopen⟩ := he
      simp only [step, hph, Except.ok.injEq] at hs
      subst hs
      exact .wait hph hstop hnd hopen
  | accept conn =>
      obtain ⟨hnext, hconn⟩ := he
      obtain ⟨rest, hph⟩ := phase_of_next hnext
      cases conn with
      | none =>
          simp only [step, hph, Except.ok.injEq] at hs
          subst hs
          exact .acceptFailed hph
      | some c =>
          obtain ⟨hfd, hlim, hfresh⟩ := hconn c rfl
          simp only [step, hph, bind_eq_ok] at hs
          obtain ⟨e, heff, hs⟩ := hs
          obtain rfl := Except.ok.inj hs
          exact .accept hph hfd hlim hfresh heff
  | read =>
      obtain ⟨rest, hph⟩ := phase_of_next he
      simp only [step, hph, Except.ok.injEq] at hs
      subst hs
      exact .read hph
  | client r =>
      obtain ⟨src, hsrc, hcl⟩ := (Option.any_eq_true ..).mp he
      obtain ⟨rest, hph⟩ := phase_of_next hsrc
      cases src with
      | client fd =>
          simp only [step, hph, bind_eq_ok] at hs
          obtain ⟨e, heff, hs⟩ := hs
          obtain rfl := Except.ok.inj hs
          exact .client hph heff
      | listen => cases hcl
      | pipe => cases hcl
  | skip =>
      obtain ⟨src, hsrc⟩ := Option.ne_none_iff_exists'.mp he.1
      obtain ⟨rest, hph⟩ := phase_of_next hsrc
      simp only [step, hph, Except.ok.injEq] at hs
      subst hs
      exact .skip hph
  | finish later =>
      obtain ⟨hph, hle⟩ := he
      simp only [step, hph] at hs
      split at hs
      · rename_i ht
        obtain ⟨s₂, hs₂, hs⟩ := bind_eq_ok.mp hs
        obtain ⟨e, heff, hs₂⟩ := bind_eq_ok.mp hs₂
        obtain ⟨e', heff', hs₂⟩ := bind_eq_ok.mp hs₂
        obtain rfl := Except.ok.inj hs₂
        obtain rfl := Except.ok.inj hs
        exact .tick hph hle ht heff (by simpa [apply] using heff')
      · rename_i ht
        obtain rfl := Except.ok.inj hs
        exact .quiet hph (by simpa using ht)

/-- A step returns as soon as the handler it calls does. -/
theorem step_returns (he : enabled H s act)
    (accept : ∀ fd a, fd ∉ s.opened → H.fresh s.prog a = true →
      ∃ e, H.accept s.prog s.now fd a = .ok e)
    (client : ∀ fd r rest, s.phase = .batch (.client fd :: rest) →
      ∃ e, H.client s.prog s.now fd r = .ok e)
    (tick : ∃ e, H.tick s.prog s.now = .ok e ∧ ∀ later, ∃ e', H.rearm e.prog later = .ok e') :
    ∃ s', step H s act = .ok s' := by
  cases act with
  | clock t => exact ⟨_, rfl⟩
  | raise sig => exact ⟨_, rfl⟩
  | wait events => exact ⟨_, by simp only [step, he.1]; rfl⟩
  | accept conn =>
      obtain ⟨rest, hph⟩ := phase_of_next he.1
      cases conn with
      | none => exact ⟨_, by simp only [step, hph]; rfl⟩
      | some c =>
          obtain ⟨hfd, -, hfresh⟩ := he.2 c rfl
          obtain ⟨e, heff⟩ := accept c.1 c.2 hfd hfresh
          exact ⟨_, by simp only [step, hph, heff, ok_bind]; rfl⟩
  | read =>
      obtain ⟨rest, hph⟩ := phase_of_next he
      exact ⟨_, by simp only [step, hph]; rfl⟩
  | client r =>
      obtain ⟨src, hsrc, hcl⟩ := (Option.any_eq_true ..).mp he
      obtain ⟨rest, hph⟩ := phase_of_next hsrc
      cases src with
      | client fd =>
          obtain ⟨e, heff⟩ := client fd r rest hph
          exact ⟨_, by simp only [step, hph, heff, ok_bind]; rfl⟩
      | listen => cases hcl
      | pipe => cases hcl
  | skip =>
      obtain ⟨src, hsrc⟩ := Option.ne_none_iff_exists'.mp he.1
      obtain ⟨rest, hph⟩ := phase_of_next hsrc
      exact ⟨_, by simp only [step, hph]; rfl⟩
  | finish later =>
      obtain ⟨e, heff, hrearm⟩ := tick
      obtain ⟨e', heff'⟩ := hrearm later
      simp only [step, he.1]
      split
      · have hback : H.rearm ((s.apply e).advance later).prog ((s.apply e).advance later).now =
            .ok e' := by simpa [apply] using heff'
        refine ⟨s.afterHandler e e' later, ?_⟩
        unfold timerHandler
        rw [heff, ok_bind]
        dsimp only
        rw [hback, ok_bind]
        rfl
      · exact ⟨_, rfl⟩

/-! ## Batches

Only its own event closes a client within a batch, and descriptors accepted meanwhile were not open
when the batch was returned. So every client event still to come is about an open descriptor. -/

structure Sane (s : Loop σ) : Prop where
  opened : s.opened.Nodup
  rest : s.phase.rest.Nodup
  client : ∀ fd, .client fd ∈ s.phase.rest → fd ∈ s.opened

/-- No connection is open at first. -/
theorem Sane.start (p : σ) (now d : Int) : Sane (start p now d) :=
  ⟨List.nodup_nil, List.nodup_nil, by simp [Loop.start, Phase.rest]⟩

/-- After the handler of the timer the connections are open that its callbacks have not closed. -/
theorem mem_opened_afterHandler {e e' : Effect σ} {later : Int} {fd : Nat} (he' : e'.closes = []) :
    fd ∈ (s.afterHandler e e' later).opened ↔ fd ∈ s.opened ∧ fd ∉ e.closes := by
  simp [afterHandler, afterTick, apply, he']

/-- The connections that a handler has not closed stay open. -/
theorem mem_opened_apply {e : Effect σ} {fd : Nat} :
    fd ∈ (s.apply e).opened ↔ fd ∈ s.opened ∧ fd ∉ e.closes := by
  simp [apply]

/-- Dropping the first event of the batch, with the open descriptors it may still refer to kept. -/
theorem Sane.drop_head (hs : Sane s) {src : Source} {rest : List Source}
    (hph : s.phase = .batch (src :: rest)) (hphase : s'.phase = .batch rest)
    (hnd : s'.opened.Nodup)
    (hkeep : ∀ fd ∈ s.opened, .client fd ≠ src → fd ∈ s'.opened) : Sane s' := by
  have hrest := hs.rest
  have hclient := hs.client
  rw [hph] at hrest hclient
  obtain ⟨hsrc, hrest⟩ := List.nodup_cons.mp hrest
  refine ⟨hnd, by rw [hphase]; exact hrest, ?_⟩
  intro fd hfd
  rw [hphase] at hfd
  apply hkeep fd (hclient fd (List.mem_cons_of_mem _ hfd))
  rintro rfl
  exact hsrc hfd

/-- A handler that closes at most the client it serves keeps the remaining batch sane. -/
theorem Sane.moves (hs : Sane s) (hm : Moves H s act s')
    (accept : ∀ fd a e, fd ∉ s.opened → H.accept s.prog s.now fd a = .ok e → e.closes = [])
    (client : ∀ fd r e, fd ∈ s.opened → H.client s.prog s.now fd r = .ok e →
      ∀ x ∈ e.closes, x = fd) : Sane s' := by
  cases hm with
  | clock _ => exact ⟨by simpa using hs.opened, by simpa using hs.rest, by simpa using hs.client⟩
  | raise => exact ⟨hs.opened, hs.rest, hs.client⟩
  | wait _ _ hnd hopen =>
      refine ⟨hs.opened, hnd, ?_⟩
      intro fd hfd
      simpa [Source.openIn] using hopen _ hfd
  | acceptFailed hph => exact hs.drop_head hph rfl hs.opened (fun fd hfd _ => hfd)
  | @accept fd a rest e hph hfd _ _ heff =>
      have hc := accept fd a e hfd heff
      have hop : (s.apply e).opened = s.opened := by simp [apply, hc]
      apply hs.drop_head hph rfl
      · show (fd :: (s.apply e).opened).Nodup
        rw [hop]
        exact List.nodup_cons.mpr ⟨hfd, hs.opened⟩
      · intro x hx _
        show x ∈ fd :: (s.apply e).opened
        rw [hop]
        exact List.mem_cons_of_mem _ hx
  | read hph => exact hs.drop_head hph rfl hs.opened (fun fd hfd _ => hfd)
  | @client fd r rest e hph heff =>
      have hfd : fd ∈ s.opened := hs.client fd (by rw [hph]; exact List.mem_cons_self)
      apply hs.drop_head hph rfl
      · exact hs.opened.filter _
      · intro x hx hne
        show x ∈ (s.apply e).opened
        rw [mem_opened_apply]
        refine ⟨hx, ?_⟩
        intro hxc
        rw [client fd r e hfd heff x hxc] at hne
        exact hne rfl
  | skip hph => exact hs.drop_head hph rfl hs.opened (fun fd hfd _ => hfd)
  | quiet _ _ => exact ⟨hs.opened, List.nodup_nil, by simp [Phase.rest]⟩
  | @tick later e e' _ _ _ _ _ =>
      refine ⟨?_, List.nodup_nil, by simp [Phase.rest, afterHandler]⟩
      show (((s.apply e).advance later).opened.filter _).Nodup
      rw [advance_opened]
      exact (hs.opened.filter _).filter _

end Loop
end LinuxServer.EventLoop
