import LinuxServer.Library.Machine

/-!
# The echo server

`Echoserver.cpp` sends back what it receives, over TCP and over UDP, in one loop around `epoll_wait`. All
its descriptors are edge-triggered: the kernel puts a descriptor into its list of ready ones when something
arrives, and takes it off when it reports it. So the loop has to read until there is nothing left. It does
so for connections, but it accepts one connection and reads one datagram for each report.

Clients act at any time. A call may do less than it was asked to: `recv` may return fewer bytes than there
are, `send` may take fewer than it was given, and its result is not looked at.
-/

namespace LinuxServer.Echo

open Library

abbrev Fd := Int

abbrev Byte := UInt8

/-- `sockaddr_in`: address and port. -/
abbrev Addr := UInt32 × UInt16

/-- `MAX_EVENT_NUMBER`, `TCP_BUFFER_SIZE` and `UDP_BUFFER_SIZE`. -/
def maxEventNumber : Nat := 1024
def tcpBufferSize : Nat := 512
def udpBufferSize : Nat := 1024

/-- The descriptors that `main` opens before its loop. -/
structure Fds where
  listenFd : Fd
  udpFd : Fd
  epollFd : Fd
  listen_ne_udp : listenFd ≠ udpFd

/-- The descriptors that are given out first. -/
def smallFds : Fds := { listenFd := 3, udpFd := 4, epollFd := 5, listen_ne_udp := by decide }

/-- One connection. `arrived` and `received` are histories: what the client's side has brought here and what
`recv` has returned of it; `echoed` is what `send` has taken. -/
structure Conn where
  arrived : List Byte
  buffer : List Byte
  received : List Byte
  echoed : List Byte
  fin : Bool
  reset : Bool
  closed : Bool
  deriving Repr, DecidableEq

namespace Conn

def make : Conn :=
  { arrived := [], buffer := [], received := [], echoed := [], fin := false, reset := false, closed := false }

/-- `EPOLLIN`: `recv` would not fail with `EAGAIN`. -/
def readable (c : Conn) : Bool := !c.buffer.isEmpty || c.fin || c.reset

/-- Bytes arrive. -/
def deliver (c : Conn) (bytes : List Byte) : Conn :=
  { c with arrived := c.arrived ++ bytes, buffer := c.buffer ++ bytes }

/-- The connection is reset, and some of what is in the buffer is lost. -/
def breakOff (c : Conn) (kept : Nat) : Conn := { c with reset := true, buffer := c.buffer.take kept }

/-- `recv` returns `n` bytes, and `send` takes `k` of these. -/
def echo (c : Conn) (n k : Nat) : Conn :=
  { c with buffer := c.buffer.drop n
           received := c.received ++ c.buffer.take n
           echoed := c.echoed ++ (c.buffer.take n).take k }

end Conn

/-- The datagram that is sent back: the buffer without its last byte, however much of it was received. -/
def udpReply (bytes : List Byte) : List Byte :=
  (bytes.take (udpBufferSize - 1)).rightpad (udpBufferSize - 1) 0

/-- The process and the part of the kernel it deals with. Connections have numbers, and `desc` has those that
were accepted and are still open. `batch` is `events[i]`, .., `events[number - 1]`, and `sockFd` the
descriptor of the inner loop, if it is being run. -/
structure Server where
  made : Nat
  conns : Nat → Conn
  backlog : List Nat
  desc : Fd → Option Nat
  /-- the list of ready descriptors -/
  edge : Fd → Bool
  batch : List Fd
  sockFd : Option Fd
  /-- datagrams that wait for `recvfrom`, those it has returned, and what was sent -/
  datagrams : List (Addr × List Byte)
  taken : List (Addr × List Byte)
  replies : List (Addr × List Byte)
  /-- the process has left its loop, or was killed -/
  stopped : Bool

/-- The first five are done by clients. `wait` is `epoll_wait` with the descriptors it reports, `fail` one
that fails; `accept` and `reply` handle the listening socket and the one for datagrams; `begin` enters the
inner loop, and `recv` is one round of it. `epoll_wait` goes through some of its list, and what is not ready
any more is dropped. The other parameters are what the kernel decides: the new descriptor,
if there is one, whether the datagram is sent, how many bytes `recv` returns and how many of these `send`
takes; `none` is a `send` that raises `SIGPIPE`. -/
inductive Action where
  | connect
  | deliver (id : Nat) (bytes : List Byte)
  | finish (id : Nat)
  | breakOff (id kept : Nat)
  | datagram (addr : Addr) (bytes : List Byte)
  | wait (fds : List Fd)
  | fail
  | accept (connFd : Option Fd)
  | reply (sent : Bool)
  | begin
  | recv (n : Nat) (k : Option Nat)
  deriving Repr, DecidableEq

namespace Server
variable (F : Fds)

def start : Server :=
  { made := 0, conns := fun _ => Conn.make, backlog := [], desc := fun _ => none, edge := fun _ => false
    batch := [], sockFd := none, datagrams := [], taken := [], replies := [], stopped := false }

/-- `epoll_wait` asks each descriptor in its list again whether it is ready. -/
def ready (s : Server) (fd : Fd) : Bool :=
  if fd = F.listenFd then !s.backlog.isEmpty
  else if fd = F.udpFd then !s.datagrams.isEmpty
  else (s.desc fd).elim false fun id => (s.conns id).readable

/-- Something happens to connection `id`, which makes it ready. -/
def touch (s : Server) (id : Nat) (c : Conn) : Server :=
  { s with conns := Function.update s.conns id c
           edge := fun fd => s.edge fd || decide (s.desc fd = some id) }

def close (s : Server) (fd : Fd) : Server :=
  match s.desc fd with
  | none => s
  | some id =>
      { s with desc := Function.update s.desc fd none
               edge := Function.update s.edge fd false
               conns := Function.update s.conns id { s.conns id with closed := true } }

/-- `accept` and `addFd`: a descriptor that is ready when it is added is in the list at once. If there is no
new descriptor, nothing can be added. -/
def acceptOne (s : Server) (connFd : Option Fd) : Server :=
  match connFd, s.backlog with
  | some fd, id :: rest =>
      { s with backlog := rest
               desc := Function.update s.desc fd (some id)
               edge := Function.update s.edge fd (s.conns id).readable }
  | _, _ => s

/-- `recvfrom` and `sendto`. An empty datagram is not answered. -/
def replyOne (s : Server) (sent : Bool) : Server :=
  match s.datagrams with
  | [] => s
  | (addr, bytes) :: rest =>
      { s with datagrams := rest
               taken := s.taken ++ [(addr, bytes)]
               replies := if sent && !bytes.isEmpty then s.replies ++ [(addr, udpReply bytes)]
                 else s.replies }

/-- One round of `while (1)` for `fd`. When `recv` returns 0, the descriptor is closed and the loop goes on:
the next `recv` fails with `EBADF`, and so does the second `close`. -/
def recvOne (s : Server) (fd : Fd) (n : Nat) (k : Option Nat) : Server :=
  match s.desc fd with
  | none => { s with sockFd := none }
  | some id =>
      if !(s.conns id).buffer.isEmpty then
        { s with conns := Function.update s.conns id ((s.conns id).echo n (k.getD 0))
                 stopped := k.isNone }
      else if (s.conns id).reset then { s.close fd with sockFd := none }
      else if (s.conns id).fin then s.close fd
      else { s with sockFd := none }

/-- What `recv` and `send` may do on a connection: at most a buffer less one byte is read, and `SIGPIPE` is
only raised if the connection was reset. -/
def Permits (s : Server) (fd : Fd) (n : Nat) (k : Option Nat) : Prop :=
  ∀ id ∈ s.desc fd, (s.conns id).buffer ≠ [] →
    0 < n ∧ n < tcpBufferSize ∧ n ≤ (s.conns id).buffer.length ∧ k.getD 0 ≤ n ∧
    (k = none → (s.conns id).reset = true)

instance (s : Server) (fd : Fd) (n : Nat) (k : Option Nat) : Decidable (s.Permits fd n k) :=
  inferInstanceAs (Decidable (∀ id ∈ s.desc fd, (s.conns id).buffer ≠ [] →
    0 < n ∧ n < tcpBufferSize ∧ n ≤ (s.conns id).buffer.length ∧ k.getD 0 ≤ n ∧
    (k = none → (s.conns id).reset = true)))

/-- The kernel gives out a descriptor that is not open. -/
def Free (s : Server) (fd : Fd) : Prop :=
  s.desc fd = none ∧ fd ≠ F.listenFd ∧ fd ≠ F.udpFd ∧ fd ≠ F.epollFd

instance (s : Server) (fd : Fd) : Decidable (s.Free F fd) :=
  inferInstanceAs (Decidable (s.desc fd = none ∧ fd ≠ F.listenFd ∧ fd ≠ F.udpFd ∧ fd ≠ F.epollFd))

/-- The loop is in `epoll_wait`. -/
def Waiting (s : Server) : Prop := s.stopped = false ∧ s.sockFd = none ∧ s.batch = []

instance (s : Server) : Decidable s.Waiting :=
  inferInstanceAs (Decidable (s.stopped = false ∧ s.sockFd = none ∧ s.batch = []))

/-- The loop looks at `events[i]`, whose descriptor is `fd`. -/
def At (s : Server) (fd : Fd) : Prop :=
  s.stopped = false ∧ s.sockFd = none ∧ s.batch.head? = some fd

instance (s : Server) (fd : Fd) : Decidable (s.At fd) :=
  inferInstanceAs (Decidable (s.stopped = false ∧ s.sockFd = none ∧ s.batch.head? = some fd))

/-- A client can still send something on connection `id`. -/
def Open (s : Server) (id : Nat) : Prop :=
  id < s.made ∧ (s.conns id).fin = false ∧ (s.conns id).reset = false ∧ (s.conns id).closed = false

instance (s : Server) (id : Nat) : Decidable (s.Open id) :=
  inferInstanceAs (Decidable (id < s.made ∧ (s.conns id).fin = false ∧ (s.conns id).reset = false ∧
    (s.conns id).closed = false))

def Enabled (s : Server) : Action → Prop
  | .connect => True
  | .deliver id bytes => s.Open id ∧ bytes ≠ []
  | .finish id => s.Open id
  | .breakOff id _ => id < s.made ∧ (s.conns id).closed = false
  | .datagram _ _ => True
  | .wait fds => s.Waiting ∧ fds.Nodup ∧ (∀ fd ∈ fds, s.edge fd = true) ∧
      fds.filter (s.ready F) ≠ [] ∧ (fds.filter (s.ready F)).length ≤ maxEventNumber
  | .fail => s.Waiting
  | .accept connFd => s.At F.listenFd ∧ ∀ fd ∈ connFd, s.Free F fd
  | .reply _ => s.At F.udpFd
  | .begin => s.stopped = false ∧ s.sockFd = none ∧
      ∃ fd ∈ s.batch.head?, fd ≠ F.listenFd ∧ fd ≠ F.udpFd
  | .recv n k => s.stopped = false ∧ ∃ fd ∈ s.sockFd, s.Permits fd n k

def step (s : Server) : Action → Server
  | .connect =>
      { s with made := s.made + 1, conns := Function.update s.conns s.made Conn.make
               backlog := s.backlog ++ [s.made], edge := Function.update s.edge F.listenFd true }
  | .deliver id bytes => s.touch id ((s.conns id).deliver bytes)
  | .finish id => s.touch id { s.conns id with fin := true }
  | .breakOff id kept => s.touch id ((s.conns id).breakOff kept)
  | .datagram addr bytes =>
      { s with datagrams := s.datagrams ++ [(addr, bytes)], edge := Function.update s.edge F.udpFd true }
  | .wait fds =>
      { s with batch := fds.filter (s.ready F), edge := fun fd => s.edge fd && decide (fd ∉ fds) }
  | .fail => { s with stopped := true }
  | .accept connFd => { s.acceptOne connFd with batch := s.batch.tail }
  | .reply sent => { s.replyOne sent with batch := s.batch.tail }
  | .begin => { s with sockFd := s.batch.head?, batch := s.batch.tail }
  | .recv n k => s.sockFd.elim s fun fd => s.recvOne fd n k

instance (s : Server) (act : Action) : Decidable (s.Enabled F act) :=
  match act with
  | .connect => inferInstanceAs (Decidable True)
  | .deliver id bytes => inferInstanceAs (Decidable (s.Open id ∧ bytes ≠ []))
  | .finish id => inferInstanceAs (Decidable (s.Open id))
  | .breakOff id _ => inferInstanceAs (Decidable (id < s.made ∧ (s.conns id).closed = false))
  | .datagram _ _ => inferInstanceAs (Decidable True)
  | .wait fds => inferInstanceAs (Decidable (s.Waiting ∧ fds.Nodup ∧ (∀ fd ∈ fds, s.edge fd = true) ∧
      fds.filter (s.ready F) ≠ [] ∧ (fds.filter (s.ready F)).length ≤ maxEventNumber))
  | .fail => inferInstanceAs (Decidable s.Waiting)
  | .accept connFd => inferInstanceAs (Decidable (s.At F.listenFd ∧ ∀ fd ∈ connFd, s.Free F fd))
  | .reply _ => inferInstanceAs (Decidable (s.At F.udpFd))
  | .begin => inferInstanceAs (Decidable (s.stopped = false ∧ s.sockFd = none ∧
      ∃ fd ∈ s.batch.head?, fd ≠ F.listenFd ∧ fd ≠ F.udpFd))
  | .recv n k => inferInstanceAs (Decidable (s.stopped = false ∧ ∃ fd ∈ s.sockFd, s.Permits fd n k))

def machine : Machine Server Action where
  init s := s = start
  enabled s act := s.Enabled F act
  step s act := .ok (s.step F act)

instance (s : Server) (act : Action) : Decidable ((machine F).enabled s act) :=
  inferInstanceAs (Decidable (s.Enabled F act))

end Server
end LinuxServer.Echo
