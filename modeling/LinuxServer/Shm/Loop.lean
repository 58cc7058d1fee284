import LinuxServer.Shm.Isolation

/-!
# The main loop of the shared-memory chat server

`main` waits with `epoll_wait` for the listening socket, for the pipe through which the signal handler
reports, and for the pipes of the children, and goes through the events it gets one by one. The handlers
are those of `Shm.Basic`; here they are called in the order of the events, and the state carries what the
kernel knows about the parent: its open descriptors, which of them `epoll_wait` is going to report, and
what can be read from them.

All of them are registered with `EPOLLET`. A descriptor becomes ready when something arrives on it, and
is not ready any more once it has been reported, whether or not what arrived has been read. What arrives
meanwhile makes it ready again; what arrives while it is ready makes no difference. `EPOLL_CTL_DEL` takes
it out of the ready ones, but not out of the events already reported.

The standard streams are left out, and so are the assertions: `socketpair` succeeds.
-/

namespace LinuxServer.Shm

open Library

def maxEventNumber : Nat := 1024

/-- The length of the array `signals`. -/
def signalsSize : Nat := 1024

/-- The bytes the signal handler writes into `sig_pipefd[1]`. -/
inductive Signal where
  | chld
  | term
  | int
  deriving Repr, DecidableEq

/-- What happens on the descriptors. A connection arrives, and is accepted or aborted by the client; a
number is sent by a child and forwarded to the others. -/
inductive Record where
  | arrived
  | accepted
  | aborted
  | sent (fd idx : Nat)
  | forwarded (fd idx : Nat) (dest : List Nat)
  deriving Repr, DecidableEq

/-- Where the parent is: at `epoll_wait`, before the rest of its events, before the rest of the signals it
has read, or behind the loop. -/
inductive Loop.Phase where
  | waiting
  | batch (fds : List Nat)
  | signals (sigs : List Signal) (fds : List Nat)
  | ended
  deriving Repr, DecidableEq

structure Loop where
  server : Server
  listenfd : Nat
  epollfd : Nat
  sigPipefd : Nat × Nat
  opened : List Nat
  ready : List Nat
  /-- connections that wait to be accepted -/
  backlog : Nat
  /-- the numbers that can be read from a pipe -/
  unread : Nat → List Nat
  sigs : List Signal
  phase : Loop.Phase
  /-- newest first -/
  log : List Record

/-- What an event is about. -/
inductive Source where
  | listen
  | signals
  | pipe (fd : Nat)
  deriving Repr, DecidableEq

namespace Parent

/-- The descriptors `users[i].pipefd[0]`. -/
def pipes (p : Parent) : List Nat := p.members.map Prod.snd

/-- To whom a number read from `sockfd` is sent. -/
def others (p : Parent) (sockfd : Nat) : Exec (List Nat) := do
  let fds ← (List.range p.userCount).mapM fun j => do
    let user ← p.users.read j
    return user.pipefd.1
  return fds.filter (· ≠ sockfd)

end Parent

/-- The calls made by the handlers. -/
def Server.calls (s : Server) : Action → Exec (List Call)
  | .accept a => do
      let (_, calls) ← s.parent.onAccept a
      return calls
  | .chld reaped => do
      let (_, calls) ← s.parent.onChld reaped
      return calls
  | .term => do
      let (_, calls) ← s.parent.onTerm
      return calls

/-- After the signals comes the rest of the events. -/
def Loop.Phase.after : List Signal → List Nat → Loop.Phase
  | [], fds => .batch fds
  | sigs, fds => .signals sigs fds

/-- The events that are still to be dealt with. -/
def Loop.Phase.rest : Loop.Phase → List Nat
  | .batch fds | .signals _ fds => fds
  | .waiting | .ended => []

inductive Loop.Action where
  /-- a client connects -/
  | connect
  /-- a child sends its number -/
  | notify (fd idx : Nat)
  /-- a child closes its end of the pipe -/
  | hangUp (fd : Nat)
  /-- the signal handler runs -/
  | raise (sig : Signal)
  /-- `epoll_wait` returns; it returns nothing if it is interrupted -/
  | wait (fds : List Nat)
  | waitFailed
  /-- an `accept` that fails may leave the connection where it is -/
  | accept (a : Arrival) (kept : Bool)
  | readSignals
  | signal (reaped : List Nat)
  | forward
  | finish
  deriving Repr, DecidableEq

namespace Loop

/-- The tests on `sockfd`. -/
def sourceOf (s : Loop) (sockfd : Nat) : Source :=
  if sockfd = s.listenfd then .listen
  else if sockfd = s.sigPipefd.1 then .signals
  else .pipe sockfd

/-- What the next event is about. -/
def next (s : Loop) : Option Source :=
  match s.phase with
  | .batch (sockfd :: _) => some (s.sourceOf sockfd)
  | _ => none

def isPipe : Option Source → Bool
  | some (.pipe _) => true
  | _ => false

/-- What a system call of the parent does to its descriptors. Nothing can have arrived on a descriptor
that `addfd` registers, or else it is as if it arrived right after. -/
def call (s : Loop) : Call → Loop
  | .close fd => { s with
      opened := s.opened.erase fd
      unread := Function.update s.unread fd [] }
  | .delfd fd => { s with ready := s.ready.filter (· ≠ fd) }
  | .runChild _ _ | .addfd _ | .refuse _ | .kill _ => s

/-- One of the handlers is called: the tables change, and its calls take effect. -/
def perform (s : Loop) (act : Shm.Action) : Exec Loop := do
  let calls ← s.server.calls act
  let server ← s.server.step act
  return calls.foldl call { s with server := server }

/-- Something arrives on `fd`. -/
def trigger (s : Loop) (fd : Nat) : Loop := { s with ready := s.ready.insert fd }

/-- A connection is complete. -/
def arrive (s : Loop) : Loop :=
  { s with backlog := s.backlog + 1, log := .arrived :: s.log }.trigger s.listenfd

/-- A child has sent its number. -/
def receive (s : Loop) (fd idx : Nat) : Loop :=
  { s with
    unread := Function.update s.unread fd (s.unread fd ++ [idx])
    log := .sent fd idx :: s.log }.trigger fd

/-- The listening socket is reported. -/
def onListen (s : Loop) (a : Arrival) (kept : Bool) : Exec Loop :=
  match a with
  | .failed =>
      if kept then return s
      else return { s with backlog := s.backlog - 1, log := .aborted :: s.log }
  | .conn connfd pipefd _ =>
      let pair := if s.server.parent.userCount ≥ userLimit then [] else [pipefd.1, pipefd.2]
      perform { s with
        backlog := s.backlog - 1
        opened := connfd :: pair ++ s.opened
        log := .accepted :: s.log } (.accept a)

/-- The pipe of a child is reported. `recv` returns -1 or 0 if there is nothing to read. -/
def onPipe (s : Loop) (sockfd : Nat) : Exec Loop :=
  match s.unread sockfd with
  | [] => return s
  | child :: more => do
      let dest ← s.server.parent.others sockfd
      return { s with
        unread := Function.update s.unread sockfd more
        log := .forwarded sockfd child dest :: s.log }

/-- `case SIGCHLD`, `case SIGTERM` and `case SIGINT`. -/
def onSignal (s : Loop) (reaped : List Nat) : Signal → Exec Loop
  | .chld => s.perform (.chld reaped)
  | .term | .int => s.perform .term

def delResource (s : Loop) : Loop :=
  { s with
    opened := (((s.opened.erase s.sigPipefd.1).erase s.sigPipefd.2).erase s.listenfd).erase s.epollfd
    phase := .ended }

/-- The kernel returns descriptors that are not open. -/
def fresh (s : Loop) : Arrival → Prop
  | .failed => True
  | .conn connfd pipefd _ => (connfd :: pipefd.1 :: pipefd.2 :: s.opened).Nodup

instance (s : Loop) (a : Arrival) : Decidable (s.fresh a) :=
  match a with
  | .failed => inferInstanceAs (Decidable True)
  | .conn connfd pipefd _ =>
      inferInstanceAs (Decidable (connfd :: pipefd.1 :: pipefd.2 :: s.opened).Nodup)

/-- The signal that is dealt with next. -/
def Phase.signal : Phase → Option Signal
  | .signals (sig :: _) _ => some sig
  | _ => none

def enabled (s : Loop) : Action → Prop
  | .connect | .raise _ => s.phase ≠ .ended
  | .notify fd _ | .hangUp fd => s.phase ≠ .ended ∧ fd ∈ s.server.parent.pipes
  | .wait fds => s.phase = .waiting ∧ fds.Nodup ∧ fds.length ≤ maxEventNumber ∧ ∀ fd ∈ fds, fd ∈ s.ready
  | .waitFailed => s.phase = .waiting
  | .accept a kept => s.next = some .listen ∧ (a = .failed → kept = true ∨ 0 < s.backlog) ∧
      (a ≠ .failed → 0 < s.backlog) ∧ s.fresh a ∧ s.server.enabled (.accept a)
  | .readSignals => s.next = some .signals
  | .signal reaped => s.phase.signal ≠ none ∧ s.server.enabled (.chld reaped)
  | .forward => isPipe s.next = true
  | .finish => s.phase = .batch []

def step (s : Loop) : Action → Exec Loop
  | .connect => return s.arrive
  | .notify fd idx => return s.receive fd idx
  | .hangUp fd => return s.trigger fd
  | .raise sig => return { s with sigs := s.sigs ++ [sig] }.trigger s.sigPipefd.1
  | .wait fds => return { s with ready := s.ready.filter (· ∉ fds), phase := .batch fds }
  | .waitFailed => return s.delResource
  | .accept a kept =>
      match s.phase with
      | .batch (_ :: rest) => onListen { s with phase := .batch rest } a kept
      | _ => return s
  | .readSignals =>
      match s.phase with
      -- at most as many bytes as the buffer has, none if the pipe is empty
      | .batch (_ :: rest) => return { s with
          phase := .after (s.sigs.take signalsSize) rest
          sigs := s.sigs.drop signalsSize }
      | _ => return s
  | .signal reaped =>
      match s.phase with
      | .signals (sig :: sigs) rest => onSignal { s with phase := .after sigs rest } reaped sig
      | _ => return s
  | .forward =>
      match s.phase with
      | .batch (sockfd :: rest) => onPipe { s with phase := .batch rest } sockfd
      | _ => return s
  -- the condition of the outer loop
  | .finish => return if s.server.parent.stopServer then s.delResource else { s with phase := .waiting }

/-- The descriptors `main` opens before the loop. -/
def base (s : Loop) : List Nat := [s.listenfd, s.epollfd, s.sigPipefd.1, s.sigPipefd.2]

def machine : Machine Loop Action where
  init s := Server.machine.init s.server ∧ s.base.Nodup ∧ s.opened = s.base ∧ s.ready = [] ∧
    s.backlog = 0 ∧ s.unread = (fun _ => []) ∧ s.sigs = [] ∧ s.phase = .waiting ∧ s.log = []
  enabled := enabled
  step := step

instance (s : Loop) (act : Action) : Decidable (machine.enabled s act) :=
  match act with
  | .connect | .raise _ => inferInstanceAs (Decidable (s.phase ≠ .ended))
  | .notify fd _ | .hangUp fd =>
      inferInstanceAs (Decidable (s.phase ≠ .ended ∧ fd ∈ s.server.parent.pipes))
  | .wait fds => inferInstanceAs (Decidable (s.phase = .waiting ∧ fds.Nodup ∧
      fds.length ≤ maxEventNumber ∧ ∀ fd ∈ fds, fd ∈ s.ready))
  | .waitFailed => inferInstanceAs (Decidable (s.phase = .waiting))
  | .accept a kept =>
      have : Decidable (s.server.enabled (.accept a)) :=
        inferInstanceAs (Decidable (Server.machine.enabled s.server (.accept a)))
      inferInstanceAs (Decidable (s.next = some .listen ∧ (a = .failed → kept = true ∨ 0 < s.backlog) ∧
        (a ≠ .failed → 0 < s.backlog) ∧ s.fresh a ∧ s.server.enabled (.accept a)))
  | .readSignals => inferInstanceAs (Decidable (s.next = some .signals))
  | .signal reaped =>
      have : Decidable (s.server.enabled (.chld reaped)) :=
        inferInstanceAs (Decidable (Server.machine.enabled s.server (.chld reaped)))
      inferInstanceAs (Decidable (s.phase.signal ≠ none ∧ s.server.enabled (.chld reaped)))
  | .forward => inferInstanceAs (Decidable (isPipe s.next = true))
  | .finish => inferInstanceAs (Decidable (s.phase = .batch []))

end Loop

/-! ## What the handlers do to the pipes -/

namespace Server
variable {s s' : Server} {act : Action}

/-- What a handler does, one constructor for each way through it. -/
inductive Serves (s : Server) : Action → Server → List Call → Prop
  | failed : Serves s (.accept .failed) s []
  | full {connfd : Nat} {pipefd : Nat × Nat} {fork : Option Nat} : userLimit ≤ s.parent.userCount →
      Serves s (.accept (.conn connfd pipefd fork)) s [.refuse connfd, .close connfd]
  | unforked {connfd : Nat} {pipefd : Nat × Nat} {s' : Server} : s.parent.userCount < userLimit →
      s'.parent.members = s.parent.members → s'.children = s.children →
      s'.parent.stopServer = s.parent.stopServer →
      Serves s (.accept (.conn connfd pipefd none)) s' [.close connfd]
  | forked {connfd : Nat} {pipefd : Nat × Nat} {pid : Nat} {s' : Server} :
      s.parent.userCount < userLimit → s'.parent.members = s.parent.members ++ [(pid, pipefd.1)] →
      s'.children = { pid := pid, idx := s.parent.userCount } :: s.children →
      s'.parent.stopServer = s.parent.stopServer →
      Serves s (.accept (.conn connfd pipefd (some pid))) s'
        [.runChild pid s.parent.userCount, .close connfd, .close pipefd.2, .addfd pipefd.1]
  | reaped {gone : List (Nat × Nat)} {s' : Server} :
      s.parent.members.Perm (gone ++ s'.parent.members) →
      s'.children = s.children.filter (·.pid ∉ gone.map Prod.fst) →
      s'.parent.stopServer = (s.parent.stopServer || (s.parent.terminate && s'.parent.userCount == 0)) →
      Serves s (.chld (gone.map Prod.fst)) s' (drops gone)
  | killed {s' : Server} : s'.parent.members = s.parent.members → s'.children = s.children →
      s'.parent.stopServer = (s.parent.stopServer || s.parent.userCount == 0) →
      Serves s .term s' (s.parent.members.map fun x => .kill x.1)

end Server

section Members
variable {p : Parent} {cs : List Child} {log : List Event}

theorem members_put (p : Parent) (x : ClientData) : (p.put x).members = p.members := by
  apply List.map_congr_left
  intro i hi
  have hne : i ≠ p.userCount := Nat.ne_of_lt (List.mem_range.mp hi)
  show ((Function.update p.users.entry p.userCount x i).pid,
    (Function.update p.users.entry p.userCount x i).pipefd.1) = _
  rw [Function.update_of_ne hne]

theorem members_fork (p : Parent) (x : ClientData) (b : Block Int) :
    Parent.members { p.put x with subProcess := b, userCount := p.userCount + 1 } =
      p.members ++ [(x.pid, x.pipefd.1)] := by
  unfold Parent.members
  dsimp only
  rw [List.range_succ, List.map_append]
  congr 1
  · exact members_put p x
  · show [((Function.update p.users.entry p.userCount x p.userCount).pid,
      (Function.update p.users.entry p.userCount x p.userCount).pipefd.1)] = _
    rw [Function.update_self]

/-- To whom a number goes: to every other child. -/
theorem Table.others (ht : Table p cs log) (sockfd : Nat) :
    p.others sockfd = .ok (p.pipes.filter (· ≠ sockfd)) := by
  have hfds : ((List.range p.userCount).mapM fun j => do
      let user ← p.users.read j
      return user.pipefd.1) = .ok p.pipes := by
    unfold Parent.pipes Parent.members
    rw [List.map_map]
    apply mapM_ok
    intro i hi
    rw [Block.read_eq (ht.lt_users (List.mem_range.mp hi)), ok_bind]
    rfl
  unfold Parent.others
  rw [hfds, ok_bind]
  rfl

end Members

/-- The tables are read within their bounds, and the handlers do what `Serves` says. -/
theorem Server.Tabled.serves {s : Server} {act : Action} (ht : s.Tabled) (he : s.enabled act) :
    ∃ s' calls, s.calls act = .ok calls ∧ s.step act = .ok s' ∧ s'.Tabled ∧ s.Serves act s' calls := by
  obtain ⟨s', hs', ht', -⟩ := ht.step he
  -- a handler is called once for its calls and once for the tables
  have hboth : ∀ calls, s.calls act = .ok calls → s.Serves act s' calls →
      ∃ s' calls, s.calls act = .ok calls ∧ s.step act = .ok s' ∧ s'.Tabled ∧ s.Serves act s' calls :=
    fun calls hcalls hserves => ⟨s', calls, hcalls, hs', ht', hserves⟩
  cases act with
  | accept a =>
      obtain ⟨p', calls, heq, haccepts⟩ := Table.accepts ht (a := a) (by
        rintro connfd pipefd q rfl
        exact (he q rfl).2)
      simp only [Server.step, heq, ok_bind] at hs'
      obtain rfl := Except.ok.inj hs'
      refine hboth calls ?_ ?_
      · simp only [Server.calls, heq, ok_bind]
        rfl
      · cases haccepts with
        | failed => exact .failed
        | full hfull => exact .full hfull
        | unforked hroom => exact .unforked hroom (members_put _ _) rfl rfl
        | forked hroom => exact .forked hroom (members_fork _ _ _) rfl rfl
  | chld reaped =>
      obtain ⟨p', gone, heq, -, ⟨rfl, hperm, -⟩, hstop⟩ := Table.onChld ht he.1 he.2
      simp only [Server.step, heq, ok_bind] at hs'
      obtain rfl := Except.ok.inj hs'
      refine hboth _ ?_ (.reaped hperm rfl hstop)
      simp only [Server.calls, heq, ok_bind]
      rfl
  | term =>
      obtain ⟨p', heq, -, hmembers, hstop⟩ := Table.onTerm ht
      simp only [Server.step, heq, ok_bind] at hs'
      obtain rfl := Except.ok.inj hs'
      refine hboth _ ?_ (.killed hmembers rfl hstop)
      simp only [Server.calls, heq, ok_bind]
      rfl

end LinuxServer.Shm
