import LinuxServer.Library.Machine

/-!
# The chat server

`ChatServer.cpp` is a single loop around `poll`. Entry 0 of `fds` is the listening socket and entries
`1..user_count` are the clients; `users` holds one record per descriptor. A message is received into the
record of its sender, and every other client is given a pointer to it there, to be sent when the loop
gets to that client.

A client that leaves is replaced in `fds` by the last one, and so is its record in `users`, although
`users` is indexed by descriptor.

`poll` reports four kinds of events that the loop looks at; `POLLHUP` and `POLLNVAL` are not among them
and are left out, like the addresses. A pointer into a record is represented by the number of the record.
-/

namespace LinuxServer.Chat

open Library

def userLimit : Nat := 5

def bufferSize : Nat := 64

def fdLimit : Nat := 65535

structure Flags where
  pollin : Bool
  pollout : Bool
  pollerr : Bool
  pollrdhup : Bool
  deriving Repr, DecidableEq

def Flags.none : Flags := ⟨false, false, false, false⟩

/-- `poll` reports what was asked for, and errors. -/
def Flags.within (r e : Flags) : Prop :=
  (r.pollin → e.pollin) ∧ (r.pollout → e.pollout) ∧ (r.pollrdhup → e.pollrdhup)

instance (r e : Flags) : Decidable (r.within e) := inferInstanceAs (Decidable (_ ∧ _ ∧ _))

structure PollFd where
  fd : Nat
  events : Flags
  revents : Flags
  deriving Repr, DecidableEq

/-- The record `client_data`. -/
structure ClientData where
  writeBuf : Option Nat
  buf : Block UInt8

/-- What `recv` comes to: `ret > 0`, `EAGAIN`, another error, `ret == 0`. -/
inductive Received where
  | data (m : List UInt8)
  | again
  | failed
  | closed
  deriving Repr, DecidableEq

/-- `recv` is given room for `BUFFER_SIZE - 1` bytes. -/
def Received.fits : Received → Prop
  | .data m => 0 < m.length ∧ m.length ≤ bufferSize - 1
  | _ => True

instance (r : Received) : Decidable r.fits :=
  match r with
  | .data m => inferInstanceAs (Decidable (0 < m.length ∧ m.length ≤ bufferSize - 1))
  | .again | .failed | .closed => inferInstanceAs (Decidable True)

/-- What happens to a client. -/
inductive Event where
  | joined (fd : Nat)
  | received (fd : Nat) (m : List UInt8)
  | sent (fd : Nat) (text : List UInt8)
  | left (fd : Nat)
  deriving Repr, DecidableEq

inductive Phase where
  | polling
  | visiting (i : Nat)
  | ended
  deriving Repr, DecidableEq

structure Server where
  listenfd : Nat
  fds : Block PollFd
  users : Block ClientData
  userCount : Nat
  phase : Phase
  /-- newest first -/
  log : List Event

/-- The string at the start of a buffer or message: what precedes the first NUL. -/
def cstr (bytes : List UInt8) : List UInt8 := bytes.takeWhile (· ≠ 0)

/-- The string in a buffer. -/
def textOf (buf : Block UInt8) : List UInt8 := cstr (buf.slice 0 buf.length)

/-- The bytes that `send` gets for `strlen(buf)`, which needs a NUL to stop at. -/
def sendText (buf : Block UInt8) : Exec (List UInt8) :=
  if (textOf buf).length < buf.length then .ok (textOf buf) else .error .outOfBounds

namespace Server

def goto (s : Server) (i : Nat) : Server := { s with phase := .visiting i }

/-- The listening socket is readable. -/
def onAccept (s : Server) (i : Nat) : Option Nat → Exec Server
  | none => .ok (s.goto (i + 1))
  | some connfd =>
    if s.userCount ≥ userLimit then .ok (s.goto (i + 1))
    else do
      -- where the address is stored
      let _ ← s.users.read connfd
      let fds ← s.fds.write (s.userCount + 1)
        { fd := connfd, events := ⟨true, false, true, true⟩, revents := Flags.none }
      return { s with
        fds := fds
        userCount := s.userCount + 1
        phase := .visiting (i + 1)
        log := .joined connfd :: s.log }

/-- A client leaves. `i--` undoes the `++i` of the loop. -/
def leave (s : Server) (i : Nat) : Exec Server := do
  let p ← s.fds.read i
  let last ← s.fds.read s.userCount
  let user ← s.users.read last.fd
  let users ← s.users.write p.fd user
  let fds ← s.fds.write i last
  return { s with
    users := users
    fds := fds
    userCount := s.userCount - 1
    phase := .visiting i
    log := .left p.fd :: s.log }

/-- One turn of the inner loop: client `j` is to be sent what `connfd` has sent. -/
def offer (s : Server) (connfd j : Nat) : Exec Server := do
  let p ← s.fds.read j
  if p.fd = connfd then return s
  else
    let fds ← s.fds.write j { p with events := { p.events with pollin := false, pollout := true } }
    let user ← s.users.read p.fd
    let users ← s.users.write p.fd { user with writeBuf := some connfd }
    return { s with fds := fds, users := users }

def broadcast (s : Server) (connfd : Nat) : Exec Server :=
  (List.range s.userCount).foldlM (fun s k => s.offer connfd (k + 1)) s

/-- A client is readable. -/
def onReadable (s : Server) (i : Nat) (r : Received) : Exec Server := do
  let p ← s.fds.read i
  let user ← s.users.read p.fd
  let buf ← user.buf.writeAll 0 (List.replicate bufferSize 0)
  match r with
  | .data m =>
      let buf ← buf.writeAll 0 m
      let users ← s.users.write p.fd { user with buf := buf }
      let s ← { s with users := users, log := .received p.fd m :: s.log }.broadcast p.fd
      return s.goto (i + 1)
  | .again | .closed =>
      let users ← s.users.write p.fd { user with buf := buf }
      return { s with users := users }.goto (i + 1)
  | .failed =>
      let users ← s.users.write p.fd { user with buf := buf }
      { s with users := users }.leave i

/-- There is something to send to a client. -/
def onWritable (s : Server) (i : Nat) : Exec Server := do
  let p ← s.fds.read i
  let user ← s.users.read p.fd
  match user.writeBuf with
  | none => return s.goto (i + 1)
  | some f =>
      let sender ← s.users.read f
      let text ← sendText sender.buf
      let users ← s.users.write p.fd { user with writeBuf := none }
      let fds ← s.fds.write i { p with events := { p.events with pollin := true, pollout := false } }
      return { s with
        users := users
        fds := fds
        phase := .visiting (i + 1)
        log := .sent p.fd text :: s.log }

/-- The body of the loop over `fds`, given what `accept` and `recv` return if they are called. -/
def visit (s : Server) (i : Nat) (connfd : Option Nat) (r : Received) : Exec Server :=
  if i < s.userCount + 1 then do
    let p ← s.fds.read i
    if p.fd = s.listenfd ∧ p.revents.pollin then s.onAccept i connfd
    else if p.revents.pollerr then return s.goto (i + 1)
    else if p.revents.pollrdhup then s.leave i
    else if p.revents.pollin then s.onReadable i r
    else if p.events.pollout then s.onWritable i
    else return s.goto (i + 1)
  else .ok { s with phase := .polling }

/-- `poll` fills in `revents`. -/
def polled (s : Server) (revents : List Flags) : Server :=
  { s with
    fds := { s.fds with entry := fun k =>
      { s.fds.entry k with revents := revents[k]?.getD (s.fds.entry k).revents } }
    phase := .visiting 0 }

/-- The entries of the connected clients. -/
def entries (s : Server) : List PollFd := (List.range s.userCount).map fun k => s.fds.entry (k + 1)

def clients (s : Server) : List Nat := s.entries.map PollFd.fd

end Server

inductive Action where
  | poll (revents : List Flags)
  | pollFailed
  | visit (connfd : Option Nat) (r : Received)
  deriving Repr, DecidableEq

namespace Server

/-- `accept` returns a descriptor that is not in use. -/
def enabled (s : Server) : Action → Prop
  | .poll revents => s.phase = .polling ∧ revents.length = s.userCount + 1 ∧
      ∀ k < s.userCount + 1, ∀ r ∈ revents[k]?, r.within (s.fds.entry k).events
  | .pollFailed => s.phase = .polling
  | .visit connfd r => s.phase ≠ .polling ∧ s.phase ≠ .ended ∧ r.fits ∧
      ∀ c ∈ connfd, c ≠ s.listenfd ∧ c < fdLimit ∧ c ∉ s.clients

def step (s : Server) : Action → Exec Server
  | .poll revents => return s.polled revents
  | .pollFailed => return { s with phase := .ended }
  | .visit connfd r =>
      match s.phase with
      | .visiting i => s.visit i connfd r
      | _ => return s

/-- The unused entries of `fds` and the records of `users` are as they happen to be. -/
def machine : Machine Server Action where
  init s := s.fds.length = userLimit + 1 ∧ s.users.length = fdLimit ∧
    (∀ x, (s.users.entry x).buf.length = bufferSize) ∧
    s.fds.entry 0 = { fd := s.listenfd, events := ⟨true, false, true, false⟩, revents := Flags.none } ∧
    s.userCount = 0 ∧ s.phase = .polling ∧ s.log = []
  enabled := enabled
  step := step

instance (s : Server) (act : Action) : Decidable (machine.enabled s act) :=
  match act with
  | .poll revents => inferInstanceAs (Decidable (s.phase = .polling ∧
      revents.length = s.userCount + 1 ∧
      ∀ k < s.userCount + 1, ∀ r ∈ revents[k]?, r.within (s.fds.entry k).events))
  | .pollFailed => inferInstanceAs (Decidable (s.phase = .polling))
  | .visit connfd r => inferInstanceAs (Decidable (s.phase ≠ .polling ∧ s.phase ≠ .ended ∧ r.fits ∧
      ∀ c ∈ connfd, c ≠ s.listenfd ∧ c < fdLimit ∧ c ∉ s.clients))

end Server
end LinuxServer.Chat
