import LinuxServer.Shm.Isolation

/-!
# What the clients are sent

A message stays in the segment of the child that received it; only the number of that segment travels,
from the child to the parent and from the parent to the other children. Each of them copies the segment
to its client when it gets there.

Here the parent and the children run in any order, one system call at a time. A number on its way is a
`Note`, which remembers what it announces: the child that received something and the bytes it received.
Nothing in the system depends on that memory.

A child clears its segment as soon as its client sends again, whether or not the others have copied it.
`delivered_intact` says that this is the only thing that can go wrong: if no child clears a segment that
is announced or being filled, every client is sent what was received.
-/

namespace LinuxServer.Shm

open Library

/-- A number on its way through the pipes. The pipes carry `idx`. -/
structure Note where
  idx : Nat
  /-- the child that sent it -/
  src : Nat
  /-- what its client had sent -/
  msg : List UInt8
  deriving Repr, DecidableEq

/-- What a call of `recv` comes to: data, `EAGAIN`, or the end of the connection and other errors. -/
inductive Outcome (α : Type) where
  | data (a : α)
  | again
  | ended
  deriving Repr, DecidableEq

/-- Where a child is in the body of its loop. -/
inductive Pc where
  | idle
  /-- after `memset` -/
  | cleared
  /-- after a `recv` from the client with `ret > 0` -/
  | received (m : List UInt8)
  /-- after a `recv` from the pipe with `ret > 0` -/
  | fetched (n : Note)
  deriving Repr, DecidableEq

/-- A child process, and its pipe: the numbers it has sent and the parent has not read, and those it
has not read itself. -/
structure Kid where
  idx : Nat
  pc : Pc
  up : List Note
  down : List Note
  stopChild : Bool
  exited : Bool
  deriving Repr, DecidableEq

/-- The parent is at `epoll_wait` or between two events, or it is about to make turn `j` of the loop
that forwards a number read from `sockfd`. -/
inductive Phase where
  | idle
  | forwarding (n : Note) (sockfd j : Nat)
  deriving Repr, DecidableEq

/-- One `send` to a client: the child that makes it, the number it answers, the bytes it sends. -/
structure Delivery where
  pid : Nat
  note : Note
  bytes : List UInt8
  deriving Repr, DecidableEq

structure System where
  server : Server
  phase : Phase
  kids : Nat → Kid
  shareMem : Block UInt8
  sent : List Delivery

/-- The system calls of a child. `notify` is its `send` to the parent, which may fail; `sigterm` is the
signal handler; a child leaves its loop on `stop_child` or if `epoll_wait` fails. -/
inductive Turn where
  | clear
  | recv (r : Outcome (List UInt8))
  | notify (ok : Bool)
  | fetch (r : Outcome Unit)
  | answer
  | sigterm
  | exit (failed : Bool)
  deriving Repr, DecidableEq

inductive Move where
  | parent (act : Action)
  /-- the parent's `recv` from the pipe of a child -/
  | take (sockfd : Nat)
  /-- one turn of the forwarding loop, whose `send` may fail -/
  | pass (ok : Bool)
  | child (pid : Nat) (t : Turn)
  deriving Repr, DecidableEq

/-! ## The children -/

namespace Kid

/-- A child that was just forked. -/
def start (idx : Nat) : Kid where
  idx := idx
  pc := .idle
  up := []
  down := []
  stopChild := false
  exited := false

/-- Which system call a child can make next, and with which results. -/
def enabled (k : Kid) : Turn → Bool
  | .clear => k.pc = .idle
  | .recv (.data m) => k.pc = .cleared && 0 < m.length && m.length ≤ bufferSize - 1
  | .recv _ => k.pc = .cleared
  | .notify _ => match k.pc with
    | .received _ => true
    | _ => false
  | .fetch (.data _) => k.pc = .idle && k.down ≠ []
  | .fetch _ => k.pc = .idle
  | .answer => match k.pc with
    | .fetched _ => true
    | _ => false
  | .sigterm => true
  | .exit failed => k.pc = .idle && (failed || k.stopChild)

/-- The loop of `run_child`, one system call at a time. Of the calls that do not fit where the child
is, none is enabled. -/
def runChild (k : Kid) (pid : Nat) (shareMem : Block UInt8) (t : Turn) :
    Exec (Kid × Block UInt8 × List Delivery) :=
  match t, k.pc with
  | .clear, .idle => do
      let shareMem ← shareMem.writeAll (k.idx * bufferSize) (List.replicate bufferSize 0)
      return ({ k with pc := .cleared }, shareMem, [])
  | .recv (.data m), .cleared => do
      let shareMem ← shareMem.writeAll (k.idx * bufferSize) m
      return ({ k with pc := .received m }, shareMem, [])
  | .recv .again, .cleared => return ({ k with pc := .idle }, shareMem, [])
  | .recv .ended, .cleared => return ({ k with pc := .idle, stopChild := true }, shareMem, [])
  | .notify ok, .received m =>
      let note := { idx := k.idx, src := pid, msg := m }
      return ({ k with pc := .idle, up := if ok then k.up ++ [note] else k.up }, shareMem, [])
  | .fetch (.data _), .idle =>
      match k.down with
      | [] => return (k, shareMem, [])
      | n :: down => return ({ k with pc := .fetched n, down := down }, shareMem, [])
  | .fetch .again, .idle => return (k, shareMem, [])
  | .fetch .ended, .idle => return ({ k with stopChild := true }, shareMem, [])
  | .answer, .fetched n => do
      let bytes ← shareMem.readAll (n.idx * bufferSize) bufferSize
      return ({ k with pc := .idle }, shareMem, [{ pid := pid, note := n, bytes := bytes }])
  | .sigterm, _ => return ({ k with stopChild := true }, shareMem, [])
  -- the numbers it has not read are lost with its end of the pipe
  | .exit _, .idle => return ({ k with down := [], exited := true }, shareMem, [])
  | _, _ => return (k, shareMem, [])

end Kid

/-! ## The system -/

/-- The child whose pipe the parent knows as `fd`, among the pipes that are open. -/
def Parent.peer (p : Parent) (fd : Nat) : Option Nat :=
  (((List.range p.userCount).map p.users.entry).find? (·.pipefd.1 = fd)).map ClientData.pid

namespace System

/-- The processes when the children are `new`, and were `old` before. -/
def adopt (old new : List Child) (kids : Nat → Kid) (pid : Nat) : Kid :=
  match (new.filter (·.pid ∉ pids old)).find? (·.pid = pid) with
  | some c => Kid.start c.idx
  | none => kids pid

def running (s : System) (pid : Nat) : Prop :=
  pid ∈ pids s.server.children ∧ (s.kids pid).exited = false

instance (s : System) (pid : Nat) : Decidable (s.running pid) :=
  inferInstanceAs (Decidable (_ ∧ _))

def setKid (s : System) (pid : Nat) (k : Kid) : System :=
  { s with kids := Function.update s.kids pid k }

/-- The system after a system call of the child `pid`. -/
def resume (s : System) (pid : Nat) (k : Kid) (shareMem : Block UInt8) (sent : List Delivery) :
    System :=
  { s.setKid pid k with shareMem := shareMem, sent := sent ++ s.sent }

/-- `send` on a descriptor of the parent: nothing arrives at a child that has left. -/
def push (s : System) (fd : Nat) (n : Note) : System :=
  match s.server.parent.peer fd with
  | none => s
  | some pid =>
      if (s.kids pid).exited then s
      else s.setKid pid { s.kids pid with down := (s.kids pid).down ++ [n] }

/-- The `recv` of the branch that serves the pipes of the children. -/
def take (s : System) (sockfd : Nat) : System :=
  match s.server.parent.peer sockfd with
  | none => s
  | some pid =>
      match (s.kids pid).up with
      | [] => s
      | n :: up => { s.setKid pid { s.kids pid with up := up } with phase := .forwarding n sockfd 0 }

/-- One turn of the loop over `users`. -/
def pass (s : System) (ok : Bool) : Exec System :=
  match s.phase with
  | .idle => .ok s
  | .forwarding n sockfd j =>
      if j < s.server.parent.userCount then do
        let user ← s.server.parent.users.read j
        let next := { s with phase := .forwarding n sockfd (j + 1) }
        return if user.pipefd.1 ≠ sockfd && ok then next.push user.pipefd.1 n else next
      else .ok { s with phase := .idle }

/-- The kernel gives an open descriptor to no one else; `waitpid` returns children that have left. -/
def kernel (s : System) : Action → Prop
  | .accept (.conn _ pipefd _) => s.server.parent.peer pipefd.1 = none
  | .accept .failed => True
  | .chld reaped => ∀ pid ∈ reaped, (s.kids pid).exited = true
  | .term => True

def enabled (s : System) : Move → Prop
  | .parent act => s.phase = .idle ∧ s.server.enabled act ∧ s.kernel act
  | .take _ => s.phase = .idle
  | .pass _ => s.phase ≠ .idle
  | .child pid t => s.running pid ∧ (s.kids pid).enabled t = true

def step (s : System) : Move → Exec System
  | .parent act => do
      let server ← s.server.step act
      return { s with
        server := server
        kids := adopt s.server.children server.children s.kids }
  | .take sockfd => return s.take sockfd
  | .pass ok => s.pass ok
  | .child pid t => do
      let (k, shareMem, sent) ← (s.kids pid).runChild pid s.shareMem t
      return s.resume pid k shareMem sent

/-- The shared memory may hold anything when the server starts. -/
def machine : Machine System Move where
  init s := s.server = { parent := Parent.make, children := [], log := [] } ∧ s.phase = .idle ∧
    s.shareMem.length = userLimit * bufferSize ∧ s.sent = []
  enabled := enabled
  step := step

instance (s : System) (act : Action) : Decidable (s.kernel act) :=
  match act with
  | .accept (.conn _ pipefd _) => inferInstanceAs (Decidable (s.server.parent.peer pipefd.1 = none))
  | .accept .failed | .term => inferInstanceAs (Decidable True)
  | .chld reaped => inferInstanceAs (Decidable (∀ pid ∈ reaped, (s.kids pid).exited = true))

instance (s : System) (m : Move) : Decidable (machine.enabled s m) :=
  match m with
  | .parent act =>
      have : Decidable (s.server.enabled act) :=
        inferInstanceAs (Decidable (Server.machine.enabled s.server act))
      inferInstanceAs (Decidable (s.phase = .idle ∧ s.server.enabled act ∧ s.kernel act))
  | .take _ => inferInstanceAs (Decidable (s.phase = .idle))
  | .pass _ => inferInstanceAs (Decidable (s.phase ≠ .idle))
  | .child pid t => inferInstanceAs (Decidable (s.running pid ∧ (s.kids pid).enabled t = true))

end System

/-! ## Announced segments -/

/-- The bytes of a message as its receivers expect them. -/
def pad (m : List UInt8) : List UInt8 := m ++ List.replicate (bufferSize - m.length) 0

namespace Pc

/-- The number a child is about to answer. -/
def note : Pc → List Note
  | .fetched n => [n]
  | _ => []

/-- What the child has stored in its segment and not announced yet. -/
def stored : Pc → Option (List UInt8)
  | .cleared => some []
  | .received m => some m
  | _ => none

end Pc

/-- The numbers that sit in the pipe of a child or in the child. -/
def Kid.notes (k : Kid) : List Note := k.up ++ k.down ++ k.pc.note

/-- The notifications of a child are on their way from it, to it, or being dealt with. -/
@[grind =] theorem Kid.mem_notes {k : Kid} {n : Note} :
    n ∈ k.notes ↔ n ∈ k.up ∨ n ∈ k.down ∨ k.pc = .fetched n := by
  unfold Kid.notes
  cases hpc : k.pc with
  | fetched m => simp [Pc.note, eq_comm]
  | idle => simp [Pc.note]
  | cleared => simp [Pc.note]
  | received m => simp [Pc.note]

namespace System

def segment (s : System) (i : Nat) : List UInt8 := s.shareMem.slice (i * bufferSize) bufferSize

/-- The number the parent holds, as long as there is a child left to pass it to. -/
def held (s : System) : List Note :=
  match s.phase with
  | .idle => []
  | .forwarding n sockfd j =>
      if ∃ i < s.server.parent.userCount, j ≤ i ∧ (s.server.parent.users.entry i).pipefd.1 ≠ sockfd
      then [n] else []

/-- The numbers that may still be answered. -/
def inFlight (s : System) : List Note :=
  s.held ++ (pids s.server.children).flatMap fun pid => (s.kids pid).notes

/-- Every client was sent what the notification it was sent for announced. -/
def Faithful (s : System) : Prop := ∀ d ∈ s.sent, d.bytes = pad d.note.msg

/-- A child clears its segment only if the number of that segment is not in flight and no other child
is filling it. -/
def Undisturbed (s : System) : Move → Prop
  | .child pid .clear =>
      (∀ n ∈ s.inFlight, n.idx ≠ (s.kids pid).idx) ∧
      ∀ q ∈ pids s.server.children, q ≠ pid → (s.kids q).pc.stored ≠ none →
        (s.kids q).idx ≠ (s.kids pid).idx
  | _ => True

instance (s : System) (m : Move) : Decidable (s.Undisturbed m) :=
  match m with
  | .child pid .clear => inferInstanceAs (Decidable (
      (∀ n ∈ s.inFlight, n.idx ≠ (s.kids pid).idx) ∧
      ∀ q ∈ pids s.server.children, q ≠ pid → (s.kids q).pc.stored ≠ none →
        (s.kids q).idx ≠ (s.kids pid).idx))
  | .parent _ | .take _ | .pass _ | .child _ (.recv _) | .child _ (.notify _) | .child _ (.fetch _)
  | .child _ .answer | .child _ .sigterm | .child _ (.exit _) => inferInstanceAs (Decidable True)

/-! ## The invariant -/

/-- A segment holds what is announced or about to be, and only one of these. -/
structure Intact (s : System) : Prop where
  inFlight : ∀ n ∈ s.inFlight, s.segment n.idx = pad n.msg
  stored : ∀ pid ∈ pids s.server.children, ∀ m, (s.kids pid).pc.stored = some m →
    s.segment (s.kids pid).idx = pad m
  apart : ∀ pid ∈ pids s.server.children, (s.kids pid).pc.stored ≠ none →
    ∀ n ∈ s.inFlight, n.idx ≠ (s.kids pid).idx
  alone : ∀ pid ∈ pids s.server.children, ∀ q ∈ pids s.server.children, q ≠ pid →
    (s.kids pid).pc.stored ≠ none → (s.kids q).pc.stored ≠ none → (s.kids q).idx ≠ (s.kids pid).idx
  sent : s.Faithful

variable {s s' : System} {pid fd : Nat} {n : Note} {k : Kid}

/-- The notifications on their way are those that the parent has, and those of the children. -/
theorem mem_inFlight : n ∈ s.inFlight ↔
    n ∈ s.held ∨ ∃ pid ∈ pids s.server.children, n ∈ (s.kids pid).notes := by
  simp [inFlight]

/-- An idle parent has no notification. -/
@[simp] theorem held_idle (h : s.phase = .idle) : s.held = [] := by
  simp [held, h]

@[simp] theorem kids_setKid_self : (s.setKid pid k).kids pid = k := Function.update_self ..

/-- The other children stay. -/
theorem kids_setKid_of_ne {q : Nat} (h : q ≠ pid) : (s.setKid pid k).kids q = s.kids q :=
  Function.update_of_ne h ..

/-- Nothing new is announced or stored, and nothing is written. -/
theorem Intact.mono (h : s.Intact) (hmem : s'.shareMem = s.shareMem) (hsent : s'.sent = s.sent)
    (hfl : ∀ n ∈ s'.inFlight, n ∈ s.inFlight)
    (hkids : ∀ pid ∈ pids s'.server.children, (s'.kids pid).pc.stored ≠ none →
      pid ∈ pids s.server.children ∧ (s'.kids pid).idx = (s.kids pid).idx ∧
      (s'.kids pid).pc = (s.kids pid).pc) : s'.Intact := by
  have hseg : ∀ i, s'.segment i = s.segment i := by
    intro i
    unfold segment
    rw [hmem]
  constructor
  · intro n hn
    rw [hseg]
    exact h.inFlight n (hfl n hn)
  · intro pid hp m hm
    obtain ⟨hp', hidx, hpc⟩ := hkids pid hp (by simp [hm])
    rw [hseg, hidx]
    exact h.stored pid hp' m (hpc ▸ hm)
  · intro pid hp hne n hn
    obtain ⟨hp', hidx, hpc⟩ := hkids pid hp hne
    rw [hidx]
    exact h.apart pid hp' (hpc ▸ hne) n (hfl n hn)
  · intro pid hp q hq hqp hne hneq
    obtain ⟨hp', hidx, hpc⟩ := hkids pid hp hne
    obtain ⟨hq', hidxq, hpcq⟩ := hkids q hq hneq
    rw [hidx, hidxq]
    exact h.alone pid hp' q hq' hqp (hpc ▸ hne) (hpcq ▸ hneq)
  · intro d hd
    rw [hsent] at hd
    exact h.sent d hd

/-- The parent goes on, and holds nothing that was not in flight. -/
theorem Intact.setPhase (h : s.Intact) {p : Phase}
    (hheld : ∀ n ∈ ({ s with phase := p } : System).held, n ∈ s.inFlight) :
    ({ s with phase := p } : System).Intact := by
  refine h.mono rfl rfl ?_ (fun q hq _ => ⟨hq, rfl, rfl⟩)
  intro n hn
  rcases mem_inFlight.mp hn with hn | hn
  · exact hheld n hn
  · exact mem_inFlight.mpr (.inr hn)

/-- What is in flight after one child has moved, and perhaps the parent with it. -/
theorem mem_inFlight_setKid {p : Phase}
    (hn : n ∈ (({ s with phase := p } : System).setKid pid k).inFlight) :
    n ∈ ({ s with phase := p } : System).held ∨ n ∈ k.notes ∨ n ∈ s.inFlight := by
  rcases mem_inFlight.mp hn with hn | ⟨q, hq, hn⟩
  · exact .inl hn
  · by_cases hqp : q = pid
    · subst hqp
      rw [kids_setKid_self] at hn
      exact .inr (.inl hn)
    · rw [kids_setKid_of_ne hqp] at hn
      exact .inr (.inr (mem_inFlight.mpr (.inr ⟨q, hq, hn⟩)))

/-- So does a child, and has stored nothing since. -/
theorem Intact.setKid (h : s.Intact) {p : Phase}
    (hheld : ∀ n ∈ ({ s with phase := p } : System).held, n ∈ s.inFlight)
    (hnotes : ∀ n ∈ k.notes, n ∈ s.inFlight)
    (hk : k.pc.stored ≠ none → k.idx = (s.kids pid).idx ∧ k.pc = (s.kids pid).pc) :
    (({ s with phase := p } : System).setKid pid k).Intact := by
  refine h.mono rfl rfl ?_ ?_
  · intro n hn
    rcases mem_inFlight_setKid hn with hn | hn | hn
    · exact hheld n hn
    · exact hnotes n hn
    · exact hn
  · intro q hq hne
    refine ⟨hq, ?_⟩
    by_cases hqp : q = pid
    · subst hqp
      rw [kids_setKid_self] at hne ⊢
      exact hk hne
    · rw [kids_setKid_of_ne hqp]
      exact ⟨rfl, rfl⟩

/-! ## The parent -/

/-- A child of the new list was there before, or was just forked. -/
theorem adopt_cases {old new : List Child} (hp : pid ∈ pids new) (kids : Nat → Kid) :
    (pid ∈ pids old ∧ adopt old new kids pid = kids pid) ∨
    ∃ idx, adopt old new kids pid = Kid.start idx := by
  unfold adopt
  cases hf : (new.filter (·.pid ∉ pids old)).find? (·.pid = pid) with
  | some c => exact .inr ⟨c.idx, rfl⟩
  | none =>
      refine .inl ⟨?_, rfl⟩
      by_contra hold
      obtain ⟨c, hc, rfl⟩ := List.mem_map.mp hp
      have hmem : c ∈ new.filter (·.pid ∉ pids old) := List.mem_filter.mpr ⟨hc, by simpa using hold⟩
      simpa using List.find?_eq_none.mp hf c hmem

/-- Children that come and go take nothing from the others. -/
theorem Intact.adopt (h : s.Intact) (hmem : s'.shareMem = s.shareMem) (hsent : s'.sent = s.sent)
    (hidle : s'.phase = .idle)
    (hkids : s'.kids = adopt s.server.children s'.server.children s.kids) : s'.Intact := by
  refine h.mono hmem hsent ?_ ?_
  · intro n hn
    rcases mem_inFlight.mp hn with hn | ⟨pid, hp, hn⟩
    · rw [held_idle hidle] at hn
      cases hn
    · rw [hkids] at hn
      rcases adopt_cases hp s.kids with ⟨hold, heq⟩ | ⟨idx, heq⟩
      · rw [heq] at hn
        exact mem_inFlight.mpr (.inr ⟨pid, hold, hn⟩)
      · rw [heq] at hn
        cases hn
  · intro pid hp hne
    rw [hkids] at hne ⊢
    rcases adopt_cases hp s.kids with ⟨hold, heq⟩ | ⟨idx, heq⟩
    · exact ⟨hold, by rw [heq], by rw [heq]⟩
    · rw [heq] at hne
      exact absurd rfl hne

/-- The other end of a pipe is a child. -/
theorem peer_mem (ht : s.server.Tabled) (hp : s.server.parent.peer fd = some pid) :
    pid ∈ pids s.server.children := by
  obtain ⟨user, hu, rfl⟩ := Option.map_eq_some_iff.mp hp
  obtain ⟨i, hi, rfl⟩ := List.mem_map.mp (List.mem_of_find?_eq_some hu)
  exact ht.members.mem_iff.mp (List.mem_map_of_mem hi)

/-- A parent that forwards a notification has it as long as there are children to pass it on to. -/
theorem mem_held_forwarding {m : Note} {sockfd j : Nat}
    (h : m ∈ ({ s with phase := .forwarding n sockfd j } : System).held) :
    m = n ∧ ∃ i < s.server.parent.userCount, j ≤ i ∧
      (s.server.parent.users.entry i).pipefd.1 ≠ sockfd := by
  unfold held at h
  dsimp only at h
  split at h
  · rename_i hex
    exact ⟨List.mem_singleton.mp h, hex⟩
  · cases h

/-- The parent reads notifications. -/
theorem Intact.take (h : s.Intact) (ht : s.server.Tabled) (sockfd : Nat) : (s.take sockfd).Intact := by
  unfold System.take
  split
  · exact h
  · rename_i pid hp
    have hpid := peer_mem ht hp
    split
    · exact h
    · rename_i n up hup
      have hin : ∀ m ∈ (s.kids pid).notes, m ∈ s.inFlight :=
        fun m hm => mem_inFlight.mpr (.inr ⟨pid, hpid, hm⟩)
      refine h.setKid (p := .forwarding n sockfd 0) ?_ ?_ (fun _ => ⟨rfl, rfl⟩)
      · intro m hm
        obtain ⟨rfl, -⟩ := mem_held_forwarding hm
        exact hin m (by simp [Kid.notes, hup])
      · intro m hm
        apply hin
        simp only [Kid.notes, hup, List.mem_append] at hm ⊢
        grind

/-- The parent forwards a notification. -/
theorem Intact.pass (h : s.Intact) (ht : s.server.Tabled) {ok : Bool} (hs : s.pass ok = .ok s') :
    s'.Intact := by
  unfold System.pass at hs
  split at hs
  · obtain rfl := Except.ok.inj hs
    exact h
  · rename_i n sockfd j hph
    split at hs
    · rename_i hj
      have hread : s.server.parent.users.read j = .ok (s.server.parent.users.entry j) := by
        apply Block.read_eq
        have := ht.limit
        rw [ht.users]
        omega
      rw [hread, ok_bind] at hs
      obtain rfl := Except.ok.inj hs
      -- as long as someone is left to be told, `n` has been in flight all along
      have hheld : (∃ i < s.server.parent.userCount, j ≤ i ∧
          (s.server.parent.users.entry i).pipefd.1 ≠ sockfd) → n ∈ s.inFlight := by
        intro hex
        refine mem_inFlight.mpr (.inl ?_)
        simp [held, hph, hex]
      have hnext : ∀ m ∈ ({ s with phase := .forwarding n sockfd (j + 1) } : System).held,
          m ∈ s.inFlight := by
        intro m hm
        obtain ⟨rfl, i, hi, hji, hne⟩ := mem_held_forwarding hm
        exact hheld ⟨i, hi, by omega, hne⟩
      split
      · rename_i hsend
        have hn : n ∈ s.inFlight := hheld ⟨j, hj, le_refl j, by simp_all⟩
        unfold push
        split
        · exact h.setPhase hnext
        · rename_i pid hp
          split
          · exact h.setPhase hnext
          · refine h.setKid hnext ?_ (fun _ => ⟨rfl, rfl⟩)
            intro m hm
            have : m = n ∨ m ∈ (s.kids pid).notes := by
              simp only [Kid.notes, List.mem_append, List.mem_singleton] at hm ⊢
              grind
            rcases this with rfl | hm
            · exact hn
            · exact mem_inFlight.mpr (.inr ⟨pid, peer_mem ht hp, hm⟩)
      · exact h.setPhase hnext
    · obtain rfl := Except.ok.inj hs
      exact h.setPhase (by simp)

/-! ## The children -/

/-- What a system call of a child can do. -/
theorem runChild_cases {mem mem' : Block UInt8} {k' : Kid} {t : Turn} {sent : List Delivery}
    (he : k.enabled t = true) (hs : k.runChild pid mem t = .ok (k', mem', sent)) :
    (mem' = mem ∧ sent = [] ∧ (∀ n ∈ k'.notes, n ∈ k.notes) ∧ k'.idx = k.idx ∧
      (k'.pc.stored ≠ none → k'.pc = k.pc)) ∨
    (t = .clear ∧ k' = { k with pc := .cleared } ∧ sent = [] ∧
      mem' = mem.overlay (k.idx * bufferSize) (List.replicate bufferSize 0)) ∨
    (∃ m, m.length ≤ bufferSize - 1 ∧ k.pc = .cleared ∧ k' = { k with pc := .received m } ∧
      sent = [] ∧ mem' = mem.overlay (k.idx * bufferSize) m) ∨
    (∃ m, k.pc = .received m ∧ mem' = mem ∧ sent = [] ∧
      k' = { k with pc := .idle, up := k.up ++ [{ idx := k.idx, src := pid, msg := m }] }) ∨
    (∃ n, k.pc = .fetched n ∧ k' = { k with pc := .idle } ∧ mem' = mem ∧
      sent = [{ pid := pid, note := n, bytes := mem.slice (n.idx * bufferSize) bufferSize }]) := by
  unfold Kid.runChild at hs
  cases t with
  | clear =>
      have hpc : k.pc = .idle := by simpa [Kid.enabled] using he
      simp only [hpc] at hs
      obtain ⟨b, hb, hs⟩ := bind_eq_ok.mp hs
      obtain ⟨rfl, rfl, rfl⟩ : _ ∧ _ ∧ _ := by simpa using hs
      exact .inr (.inl ⟨rfl, rfl, rfl, Block.eq_overlay_of_writeAll hb⟩)
  | recv r =>
      cases r with
      | data m =>
          have hpc : k.pc = .cleared ∧ m.length ≤ bufferSize - 1 := by
            simp only [Kid.enabled, Bool.and_eq_true, decide_eq_true_eq] at he
            exact ⟨he.1.1, he.2⟩
          simp only [hpc.1] at hs
          obtain ⟨b, hb, hs⟩ := bind_eq_ok.mp hs
          obtain ⟨rfl, rfl, rfl⟩ : _ ∧ _ ∧ _ := by simpa using hs
          exact .inr (.inr (.inl ⟨m, hpc.2, hpc.1, rfl, rfl, Block.eq_overlay_of_writeAll hb⟩))
      | again | ended =>
          have hpc : k.pc = .cleared := by simpa [Kid.enabled] using he
          simp only [hpc] at hs
          obtain ⟨rfl, rfl, rfl⟩ : _ ∧ _ ∧ _ := by simpa using hs
          exact .inl ⟨rfl, rfl, by grind, rfl, fun h => absurd rfl h⟩
  | notify ok =>
      cases hpc : k.pc with
      | received m =>
          simp only [hpc] at hs
          obtain ⟨rfl, rfl, rfl⟩ : _ ∧ _ ∧ _ := by simpa using hs
          cases ok with
          | true => exact .inr (.inr (.inr (.inl ⟨m, rfl, rfl, rfl, rfl⟩)))
          | false => exact .inl ⟨rfl, rfl, by grind, rfl, fun h => absurd rfl h⟩
      | idle | cleared | fetched n => simp [Kid.enabled, hpc] at he
  | fetch r =>
      cases r with
      | data u =>
          have hpc : k.pc = .idle := by
            simp only [Kid.enabled, Bool.and_eq_true, decide_eq_true_eq] at he
            exact he.1
          simp only [hpc] at hs
          split at hs
          · obtain ⟨rfl, rfl, rfl⟩ : _ ∧ _ ∧ _ := by simpa using hs
            exact .inl ⟨rfl, rfl, fun n hn => hn, rfl, fun _ => rfl⟩
          · rename_i n down hdown
            obtain ⟨rfl, rfl, rfl⟩ : _ ∧ _ ∧ _ := by simpa using hs
            exact .inl ⟨rfl, rfl, by grind, rfl, fun h => absurd rfl h⟩
      | again | ended =>
          have hpc : k.pc = .idle := by simpa [Kid.enabled] using he
          simp only [hpc] at hs
          obtain ⟨rfl, rfl, rfl⟩ : _ ∧ _ ∧ _ := by simpa using hs
          exact .inl ⟨rfl, rfl, by grind, rfl, by simp [hpc]⟩
  | answer =>
      cases hpc : k.pc with
      | fetched n =>
          simp only [hpc] at hs
          obtain ⟨bytes, hb, hs⟩ := bind_eq_ok.mp hs
          obtain ⟨rfl, rfl, rfl⟩ : _ ∧ _ ∧ _ := by simpa using hs
          rw [Block.eq_slice_of_readAll hb]
          exact .inr (.inr (.inr (.inr ⟨n, rfl, rfl, rfl, rfl⟩)))
      | idle | cleared | received m => simp [Kid.enabled, hpc] at he
  | sigterm =>
      obtain ⟨rfl, rfl, rfl⟩ : _ ∧ _ ∧ _ := by simpa using hs
      exact .inl ⟨rfl, rfl, by grind, rfl, fun _ => rfl⟩
  | exit failed =>
      have hpc : k.pc = .idle := by
        simp only [Kid.enabled, Bool.and_eq_true, decide_eq_true_eq] at he
        exact he.1
      simp only [hpc] at hs
      obtain ⟨rfl, rfl, rfl⟩ : _ ∧ _ ∧ _ := by simpa using hs
      exact .inl ⟨rfl, rfl, by grind, rfl, fun _ => hpc.symm⟩

/-! ### Storing -/

/-- Writing one segment does not touch another one. -/
theorem segment_overlay_of_ne {mem : Block UInt8} {i j : Nat} {xs : List UInt8}
    (hlen : xs.length ≤ bufferSize) (h : j ≠ i) :
    (mem.overlay (i * bufferSize) xs).slice (j * bufferSize) bufferSize =
      mem.slice (j * bufferSize) bufferSize := by
  apply Block.slice_overlay_of_disjoint
  have := segments_disjoint h
  simp only [bufferSize] at *
  omega

/-- A child stores something in its segment, which concerns no one else. -/
theorem Intact.store (h : s.Intact) {pc : Pc} {xs m : List UInt8}
    (hpid : pid ∈ pids s.server.children) (hlen : xs.length ≤ bufferSize)
    (hfl : ∀ n ∈ s.inFlight, n.idx ≠ (s.kids pid).idx)
    (hothers : ∀ q ∈ pids s.server.children, q ≠ pid → (s.kids q).pc.stored ≠ none →
      (s.kids q).idx ≠ (s.kids pid).idx)
    (hpc : pc.stored = some m)
    (hseg : xs ++ (s.segment (s.kids pid).idx).drop xs.length = pad m) :
    (s.resume pid { s.kids pid with pc := pc }
      (s.shareMem.overlay ((s.kids pid).idx * bufferSize) xs) []).Intact := by
  generalize hs' : s.resume pid _ _ [] = s'
  have hself : s'.segment (s.kids pid).idx = pad m := by
    rw [← hseg, ← hs']
    exact Block.slice_overlay_self hlen
  have hother : ∀ i, i ≠ (s.kids pid).idx → s'.segment i = s.segment i := by
    intro i hi
    rw [← hs']
    exact segment_overlay_of_ne hlen hi
  have hkid : s'.kids pid = { s.kids pid with pc := pc } := by
    rw [← hs']
    exact kids_setKid_self
  have hne : ∀ q, q ≠ pid → s'.kids q = s.kids q := by
    intro q hq
    rw [← hs']
    exact kids_setKid_of_ne hq
  have hserver : s'.server = s.server := by rw [← hs']; rfl
  -- a child that has stored something has no number to answer
  have hfetched : ∀ n, pc ≠ .fetched n := by
    rintro n rfl
    cases hpc
  have hin : ∀ n ∈ s'.inFlight, n ∈ s.inFlight := by
    intro n hn
    rw [← hs'] at hn
    rcases mem_inFlight_setKid (s := s) hn with hn | hn | hn
    · exact mem_inFlight.mpr (.inl hn)
    · exact mem_inFlight.mpr (.inr ⟨pid, hpid, by grind⟩)
    · exact hn
  constructor
  · intro n hn
    rw [hother _ (hfl n (hin n hn))]
    exact h.inFlight n (hin n hn)
  · intro q hq m' hm'
    rw [hserver] at hq
    by_cases hqp : q = pid
    · subst hqp
      rw [hkid] at hm' ⊢
      rw [hself]
      rw [hpc] at hm'
      rw [Option.some.inj hm']
    · rw [hne q hqp] at hm' ⊢
      rw [hother _ (hothers q hq hqp (by simp [hm']))]
      exact h.stored q hq m' hm'
  · intro q hq hstored n hn
    rw [hserver] at hq
    by_cases hqp : q = pid
    · subst hqp
      rw [hkid]
      exact hfl n (hin n hn)
    · rw [hne q hqp] at hstored ⊢
      exact h.apart q hq hstored n (hin n hn)
  · intro q hq r hr hrq hq' hr'
    rw [hserver] at hq hr
    by_cases hqp : q = pid
    · subst hqp
      rw [hne r hrq] at hr' ⊢
      rw [hkid]
      exact hothers r hr hrq hr'
    · rw [hne q hqp] at hq' ⊢
      by_cases hrp : r = pid
      · subst hrp
        rw [hkid]
        exact (hothers q hq hqp hq').symm
      · rw [hne r hrp] at hr' ⊢
        exact h.alone q hq r hr hrq hq' hr'
  · rw [← hs']
    exact h.sent

/-- A child announces what it has stored. -/
theorem Intact.announce (h : s.Intact) {m : List UInt8} (hpid : pid ∈ pids s.server.children)
    (hpc : (s.kids pid).pc = .received m) :
    (s.setKid pid { s.kids pid with
      pc := .idle
      up := (s.kids pid).up ++ [{ idx := (s.kids pid).idx, src := pid, msg := m }] }).Intact := by
  have hstored : (s.kids pid).pc.stored = some m := by rw [hpc]; rfl
  have hne : (s.kids pid).pc.stored ≠ none := by simp [hstored]
  -- without the new number, the child has merely become idle
  generalize hk : ({ s.kids pid with
    pc := .idle
    up := (s.kids pid).up ++ [{ idx := (s.kids pid).idx, src := pid, msg := m }] } : Kid) = k
  have hidle : k.pc.stored = none := by rw [← hk]; rfl
  have hin : ∀ n ∈ (s.setKid pid k).inFlight,
      n = { idx := (s.kids pid).idx, src := pid, msg := m } ∨ n ∈ s.inFlight := by
    intro n hn
    rcases mem_inFlight_setKid (s := s) hn with hn | hn | hn
    · exact .inr (mem_inFlight.mpr (.inl hn))
    · rw [← hk] at hn
      have hcases : n = { idx := (s.kids pid).idx, src := pid, msg := m } ∨
          n ∈ (s.kids pid).notes := by grind
      exact hcases.imp_right fun hn => mem_inFlight.mpr (.inr ⟨pid, hpid, hn⟩)
    · exact .inr hn
  have hold : ∀ q, ((s.setKid pid k).kids q).pc.stored ≠ none →
      q ≠ pid ∧ (s.setKid pid k).kids q = s.kids q := by
    intro q hq
    have hqp : q ≠ pid := by
      rintro rfl
      rw [kids_setKid_self] at hq
      exact hq hidle
    exact ⟨hqp, kids_setKid_of_ne hqp⟩
  constructor
  · intro n hn
    rcases hin n hn with rfl | hn
    · exact h.stored pid hpid m hstored
    · exact h.inFlight n hn
  · intro q hq m' hm'
    obtain ⟨-, heq⟩ := hold q (by simp [hm'])
    rw [heq] at hm' ⊢
    exact h.stored q hq m' hm'
  · intro q hq hq' n hn
    obtain ⟨hqp, heq⟩ := hold q hq'
    rw [heq] at hq' ⊢
    rcases hin n hn with rfl | hn
    · exact h.alone q hq pid hpid hqp.symm hq' hne
    · exact h.apart q hq hq' n hn
  · intro q hq r hr hrq hq' hr'
    obtain ⟨-, heq⟩ := hold q hq'
    obtain ⟨-, heqr⟩ := hold r hr'
    rw [heq] at hq' ⊢
    rw [heqr] at hr' ⊢
    exact h.alone q hq r hr hrq hq' hr'
  · exact h.sent

/-- A turn of a child that meets the condition. -/
theorem Intact.child (h : s.Intact) {t : Turn} (he : s.enabled (.child pid t))
    (hC : s.Undisturbed (.child pid t)) (hs : s.step (.child pid t) = .ok s') : s'.Intact := by
  obtain ⟨⟨hpid, -⟩, hen⟩ := he
  obtain ⟨⟨k, mem, sent⟩, hrun, hs⟩ := bind_eq_ok.mp hs
  obtain rfl := Except.ok.inj hs
  have hnotes : ∀ n ∈ (s.kids pid).notes, n ∈ s.inFlight :=
    fun n hn => mem_inFlight.mpr (.inr ⟨pid, hpid, hn⟩)
  have hheld : ∀ n ∈ s.held, n ∈ s.inFlight := fun n hn => mem_inFlight.mpr (.inl hn)
  rcases runChild_cases hen hrun with ⟨rfl, rfl, hfew, hidx, hpc⟩ | ⟨rfl, rfl, rfl, rfl⟩ |
    ⟨m, hlen, hpc, rfl, rfl, rfl⟩ | ⟨m, hpc, rfl, rfl, rfl⟩ | ⟨n, hpc, rfl, rfl, rfl⟩
  -- nothing is stored; `memset`; `recv`; the announcement; the answer
  · exact h.setKid hheld (fun n hn => hnotes n (hfew n hn)) (fun hne => ⟨hidx, hpc hne⟩)
  · refine h.store (m := []) hpid (by simp) hC.1 hC.2 rfl ?_
    simp [pad, segment]
  · have hcleared : (s.kids pid).pc.stored = some [] := by rw [hpc]; rfl
    have hne : (s.kids pid).pc.stored ≠ none := by simp [hcleared]
    refine h.store (m := m) hpid (by omega) (h.apart pid hpid hne)
      (fun q hq hqp => h.alone pid hpid q hq hqp hne) rfl ?_
    rw [h.stored pid hpid [] hcleared]
    simp [pad]
  · exact h.announce hpid hpc
  · have hin : n ∈ s.inFlight := hnotes n (by grind)
    have hquiet : (s.setKid pid { s.kids pid with pc := .idle }).Intact :=
      h.setKid hheld (fun n hn => hnotes n (by grind)) (fun hne => absurd rfl hne)
    refine ⟨hquiet.inFlight, hquiet.stored, hquiet.apart, hquiet.alone, ?_⟩
    intro d hd
    rcases List.mem_cons.mp hd with rfl | hd
    · simpa only [segment] using h.inFlight n hin
    · exact h.sent d hd

/-! ## Whole runs -/

theorem server_push : (s.push fd n).server = s.server := by
  unfold push
  grind [setKid]

theorem server_take {sockfd : Nat} : (s.take sockfd).server = s.server := by
  unfold System.take
  grind [setKid]

theorem server_pass {ok : Bool} (hs : s.pass ok = .ok s') : s'.server = s.server := by
  unfold System.pass at hs
  split at hs
  · rw [← Except.ok.inj hs]
  · split at hs
    · obtain ⟨user, -, hs⟩ := bind_eq_ok.mp hs
      rw [← Except.ok.inj hs]
      split
      · rw [server_push]
      · rfl
    · rw [← Except.ok.inj hs]

/-- One move of the system. -/
theorem Intact.step {mv : Move} (h : s.Intact) (ht : s.server.Tabled) (he : s.enabled mv)
    (hC : s.Undisturbed mv) (hs : s.step mv = .ok s') : s'.server.Tabled ∧ s'.Intact := by
  cases mv with
  | parent act =>
      obtain ⟨hidle, hserver, -⟩ := he
      obtain ⟨server, heq, ht', -⟩ := ht.step hserver
      obtain ⟨server', hs', hs⟩ := bind_eq_ok.mp hs
      obtain rfl : server = server' := Except.ok.inj (heq.symm.trans hs')
      obtain rfl := Except.ok.inj hs
      exact ⟨ht', h.adopt rfl rfl hidle rfl⟩
  | take sockfd =>
      obtain rfl := Except.ok.inj hs
      exact ⟨by rw [server_take]; exact ht, h.take ht sockfd⟩
  | pass ok => exact ⟨server_pass hs ▸ ht, h.pass ht hs⟩
  | child pid t =>
      refine ⟨?_, h.child he hC hs⟩
      obtain ⟨⟨k, mem, sent⟩, -, hs⟩ := bind_eq_ok.mp hs
      obtain rfl := Except.ok.inj hs
      exact ht

/-- Nothing is on its way at first. -/
theorem Intact.init (hi : machine.init s) : s.server.Tabled ∧ s.Intact := by
  obtain ⟨hserver, hphase, -, hsent⟩ := hi
  have hnone : ∀ n, n ∉ s.inFlight := by
    intro n hn
    rcases mem_inFlight.mp hn with hn | ⟨q, hq, -⟩
    · rw [held_idle hphase] at hn
      cases hn
    · rw [hserver] at hq
      cases hq
  have hchildren : ∀ pid, pid ∉ pids s.server.children := by
    intro pid hp
    rw [hserver] at hp
    cases hp
  refine ⟨?_, ?_, ?_, ?_, ?_, ?_⟩
  · unfold Server.Tabled
    rw [hserver]
    exact Table.make
  · exact fun n hn => absurd hn (hnone n)
  · exact fun pid hp => absurd hp (hchildren pid)
  · exact fun pid hp => absurd hp (hchildren pid)
  · exact fun pid hp => absurd hp (hchildren pid)
  · intro d hd
    rw [hsent] at hd
    cases hd

/-- **Whatever a child answers reaches its client as it was received**, in every run in which a child
clears its segment only while the number of that segment is not in flight and no other child is filling
it. -/
theorem delivered_intact {h : List (System × Move)} (hr : machine.Run h s)
    (hC : Machine.Always Undisturbed h) : Machine.Throughout Faithful h s := by
  have hI := hr.guarded (fun s hi => Intact.init hi)
    (fun s mv s' hs he hC heq => hs.2.step hs.1 he hC heq) hC
  exact ⟨fun x hx => (hI.1 x hx).2.sent, hI.2.2.sent⟩

/-- The state the server starts in, with the shared memory all zero. -/
def start : System where
  server := { parent := Parent.make, children := [], log := [] }
  phase := .idle
  kids := fun _ => Kid.start 0
  shareMem := Block.fill (userLimit * bufferSize) 0
  sent := []

/-- Two clients arrive, and the first one's `A` is passed on to the second one's child. -/
def hello : List Move :=
  [.parent (.accept (.conn 20 (21, 22) (some 10))), .parent (.accept (.conn 23 (24, 25) (some 11))),
    .child 10 .clear, .child 10 (.recv (.data [65])), .child 10 (.notify true),
    .take 21, .pass true, .pass true, .pass true]

/-- The second client gets `A`, and later `B`. -/
theorem delivered_intact_patient :
    ∃ h s, machine.Run h s ∧ s.sent.map (fun d => (d.note.msg, d.bytes.take 2)) =
        [([66], [66, 0]), ([65], [65, 0])] ∧
      Machine.Throughout Faithful h s := by
  obtain ⟨h, s, hr, -, hs⟩ := Machine.Run.of_replay (M := machine.restrict Undisturbed) (s := start)
    (hello ++ [.child 11 (.fetch (.data ())), .child 11 .answer,
      .child 10 .clear, .child 10 (.recv (.data [66])), .child 10 (.notify true),
      .take 21, .pass true, .pass true, .pass true, .child 11 (.fetch (.data ())), .child 11 .answer])
    (fun s => s.sent.map fun d => (d.note.msg, d.bytes.take 2)) ⟨rfl, rfl, rfl, rfl⟩
    (b := [([66], [66, 0]), ([65], [65, 0])]) (by decide +kernel)
  obtain ⟨hr, hC⟩ := hr.of_restrict
  exact ⟨h, s, hr, hs, delivered_intact hr hC⟩

/-- The first client sends again before the second one's child has answered: for `A`, the second client
gets `B`. -/
theorem delivered_intact_hasty_fails :
    ∃ h s, machine.Run h s ∧
      h.map Prod.snd = hello ++ [.child 10 .clear, .child 10 (.recv (.data [66])),
        .child 11 (.fetch (.data ())), .child 11 .answer] ∧
      s.sent.map (fun d => (d.note, d.bytes.take 2)) = [({ idx := 0, src := 10, msg := [65] }, [66, 0])] ∧
      ¬ s.Faithful := by
  obtain ⟨h, s, hr, has, hs⟩ := Machine.Run.of_replay (M := machine) (s := start)
    (hello ++ [.child 10 .clear, .child 10 (.recv (.data [66])),
      .child 11 (.fetch (.data ())), .child 11 .answer])
    (fun s => s.sent.map fun d => (d.note, d.bytes.take 2)) ⟨rfl, rfl, rfl, rfl⟩
    (b := [({ idx := 0, src := 10, msg := [65] }, [66, 0])]) (by decide +kernel)
  refine ⟨h, s, hr, has, hs, ?_⟩
  intro hf
  obtain ⟨d, hd, heq⟩ : ∃ d ∈ s.sent,
      (d.note, d.bytes.take 2) = ({ idx := 0, src := 10, msg := [65] }, [66, 0]) := by
    apply List.mem_map.mp
    rw [hs]
    exact List.mem_singleton_self _
  obtain ⟨hnote, hbytes⟩ := Prod.mk.inj heq
  rw [hf d hd, hnote] at hbytes
  exact absurd hbytes (by decide)

end System
end LinuxServer.Shm
