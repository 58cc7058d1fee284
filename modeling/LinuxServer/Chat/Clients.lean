import LinuxServer.Chat.Runs

/-!
# The tables of the chat server

Over whole runs, whatever `poll`, `accept`, `recv` and `send` come to:

* `table_exact`: entries `1..user_count` of `fds` are the clients that were accepted and not closed since,
  each of them once, and a client that leaves takes nothing but its own entry with it.
* `none_deaf`: a client is waited for with one of `POLLIN` and `POLLOUT`, and with the latter only if
  there is something to send to it, so that the former comes back.

The first is about `fds` alone. The second relates it to `users`, which a departure also writes to, but
only to the record of the client that is leaving.
-/

namespace LinuxServer.Chat

open Library

/-- The clients that were accepted and not closed since. -/
def connected : List Event → List Nat
  | [] => []
  | .joined x :: log => x :: connected log
  | .left x :: log => (connected log).erase x
  | .received _ _ :: log | .sent _ _ :: log => connected log

/-- Exactly one of `POLLIN` and `POLLOUT` is asked for, and `POLLOUT` only with something to send. -/
def PollFd.Hears (p : PollFd) (user : ClientData) : Prop :=
  p.events.pollin = !p.events.pollout ∧ (p.events.pollout = true → user.writeBuf ≠ none)

namespace Server

/-- No client goes deaf. -/
def Hearing (s : Server) : Prop := ∀ p ∈ s.entries, p.Hears (s.users.entry p.fd)

variable {s s' : Server} {i x : Nat} {act : Action} {mv : Room.Move}

/-! ## One entry less -/

section Leave
variable (h₀ : 0 < i) (hi : i ≤ s.userCount)
include h₀ hi

/-- The others keep their entries and records. -/
theorem frame_without (ht : Table s) {q : PollFd} (hq : q ∈ (s.without i).entries) :
    q ∈ s.entries ∧ q.fd ≠ (s.fds.entry i).fd ∧ (s.without i).users.entry q.fd = s.users.entry q.fd := by
  have hold : q ∈ s.entries := (entries_without h₀ hi).mem_iff.mpr (List.mem_cons_of_mem _ hq)
  have hclient : q.fd ∈ (s.without i).clients := mem_clients.mpr ⟨q, hq, rfl⟩
  have hne := ((ht.without_room h₀ hi).2.1 q.fd |>.mp hclient).2
  exact ⟨hold, hne, Function.update_of_ne hne ..⟩

/-- When a client leaves it is no longer connected. -/
theorem connected_without (hperm : s.clients.Perm (connected s.log)) :
    (s.without i).clients.Perm (connected (s.without i).log) := by
  have hclients : s.clients.Perm ((s.fds.entry i).fd :: (s.without i).clients) :=
    (entries_without h₀ hi).map PollFd.fd
  have herase := (hperm.symm.trans hclients).erase (s.fds.entry i).fd
  rw [List.erase_cons_head] at herase
  exact herase.symm

end Leave

/-- What a departure takes with it, in a step that logs one. -/
structure Departs (s : Server) (i x : Nat) (s' : Server) : Prop where
  fd : (s.fds.entry i).fd = x
  entries : s.entries.Perm (s.fds.entry i :: s'.entries)
  others : ∀ q ∈ s'.entries, q.fd ≠ x ∧ s'.users.entry q.fd = s.users.entry q.fd

/-- A client that leaves is that of the entry. -/
theorem Visits.departs (ht : Table s) (hv : s.Visits i mv s') (hlog : s'.log = .left x :: s.log) :
    s.Departs i x s' := by
  cases hv with
  | skip p => exact absurd hlog (by simp)
  | join => exact absurd hlog (by simp [joined])
  | hangUp h₀ hi =>
      obtain rfl : (s.fds.entry i).fd = x := by simpa [without] using hlog
      exact ⟨rfl, entries_without h₀ hi, fun q hq => (frame_without h₀ hi ht hq).2⟩
  | fail h₀ hi =>
      obtain rfl : (s.fds.entry i).fd = x := by simpa [without, wiped, store] using hlog
      refine ⟨rfl, entries_without (s := s.wiped _) h₀ hi, ?_⟩
      intro q hq
      obtain ⟨-, hne, hsame⟩ := frame_without (s := s.wiped _) h₀ hi (ht.wiped _) hq
      exact ⟨hne, hsame.trans (Function.update_of_ne hne ..)⟩
  | say => exact absurd hlog (by simp [goto, offered, heard])
  | wipe => exact absurd hlog (by simp [goto, wiped, store])
  | unserved => exact absurd hlog (by simp [goto])
  | serve => exact absurd hlog (by simp [served])

/-! ## The clients in the table -/

/-- The entries are those who are connected, whatever happens at an entry. -/
theorem Visits.connected (ht : Table s) (hv : s.Visits i mv s')
    (hperm : s.clients.Perm (connected s.log)) : s'.clients.Perm (connected s'.log) := by
  cases hv with
  | skip p => exact hperm
  | @join c =>
      have hclients : (s.joined i c).clients = s.clients ++ [c] := by
        simp [clients, entries_joined, PollFd.make]
      rw [hclients]
      exact List.perm_append_comm.trans (hperm.cons c)
  | hangUp h₀ hi => exact connected_without h₀ hi hperm
  | fail h₀ hi => exact connected_without (s := s.wiped _) h₀ hi hperm
  | @say m h₀ hi hm =>
      have hclients := clients_offered (s := s.heard (s.fds.entry i).fd m) (s.fds.entry i).fd
      exact (List.Perm.of_eq hclients).trans hperm
  | wipe => exact hperm
  | unserved => exact hperm
  | serve h₀ hi => exact (List.Perm.of_eq (ht.clients_served h₀ hi)).trans hperm

/-- The entries are those who are connected, whatever the server does. -/
theorem Moves.connected (ht : Table s) (hm : s.Moves act s')
    (hperm : s.clients.Perm (connected s.log)) : s'.clients.Perm (connected s'.log) := by
  cases hm with
  | @poll revents =>
      have hclients : (s.polled revents).clients = s.clients :=
        congrArg Room.members (room_polled revents)
      exact (List.Perm.of_eq hclients).trans hperm
  | pollFailed => exact hperm
  | visit hp hv => exact hv.connected ht hperm

/-! ## `POLLIN` and `POLLOUT` -/

/-- What a client says does not change what it has to write. -/
theorem writeBuf_store {y : Nat} {b : Block UInt8} :
    ((s.store x b).users.entry y).writeBuf = (s.users.entry y).writeBuf := by
  by_cases hy : y = x
  · simp [store, hy]
  · simp [store, hy]

/-- Clearing a buffer makes nobody deaf. -/
theorem Hearing.wiped (h : s.Hearing) : (s.wiped x).Hearing := by
  intro p hp
  obtain ⟨hone, hptr⟩ := h p hp
  refine ⟨hone, ?_⟩
  rw [Server.wiped, writeBuf_store]
  exact hptr

/-- A client that leaves makes nobody deaf. -/
theorem Hearing.without (ht : Table s) (h : s.Hearing) (h₀ : 0 < i) (hi : i ≤ s.userCount) :
    (s.without i).Hearing := by
  intro q hq
  obtain ⟨hold, -, hsame⟩ := frame_without h₀ hi ht hq
  rw [hsame]
  exact h q hold

/-- Whoever is told of a message has something to be sent, namely that message. -/
theorem Hearing.offered (h : s.Hearing) : (s.offered x s.userCount).Hearing := by
  intro q hq
  rw [entries_offered] at hq
  obtain ⟨p, hp, rfl⟩ := List.mem_map.mp hq
  by_cases hx : p.fd = x
  · have huser : (s.offered x s.userCount).users.entry p.fd = s.users.entry p.fd := by
      show promised s.users.entry s.fds.entry x s.userCount p.fd = _
      rw [promised_apply, if_neg (by tauto)]
    rw [if_pos hx, huser]
    exact h p hp
  · obtain ⟨k, hk, rfl⟩ := List.mem_map.mp hp
    have hclient : ∃ j < s.userCount, (s.fds.entry (j + 1)).fd = (s.fds.entry (k + 1)).fd :=
      ⟨k, List.mem_range.mp hk, rfl⟩
    have huser : ((s.offered x s.userCount).users.entry (s.fds.entry (k + 1)).fd).writeBuf = some x := by
      show (promised s.users.entry s.fds.entry x s.userCount _).writeBuf = _
      rw [promised_apply, if_pos ⟨hx, hclient⟩]
    rw [if_neg hx]
    refine ⟨rfl, fun _ => ?_⟩
    show ((s.offered x s.userCount).users.entry (s.fds.entry (k + 1)).fd).writeBuf ≠ none
    rw [huser]
    exact Option.some_ne_none x

/-- A client that was served is waited for to read again. -/
theorem Hearing.served (ht : Table s) (h : s.Hearing) (h₀ : 0 < i) (hi : i ≤ s.userCount)
    {text : List UInt8} : (s.served i text).Hearing := by
  intro q hq
  rw [ht.entries_served h₀ hi] at hq
  obtain ⟨p, hp, rfl⟩ := List.mem_map.mp hq
  by_cases hx : p.fd = (s.fds.entry i).fd
  · rw [if_pos hx]
    exact ⟨rfl, fun hout => Bool.noConfusion hout⟩
  · rw [if_neg hx]
    have huser : (s.served i text).users.entry p.fd = s.users.entry p.fd := Function.update_of_ne hx ..
    rw [huser]
    exact h p hp

/-- Nothing that happens at an entry makes a client deaf. -/
theorem Visits.hearing (ht : Table s) (hv : s.Visits i mv s') (h : s.Hearing) : s'.Hearing := by
  cases hv with
  | skip p => exact h
  | @join c =>
      intro q hq
      rw [entries_joined] at hq
      rcases List.mem_append.mp hq with hq | hq
      · exact h q hq
      · rw [List.mem_singleton.mp hq]
        exact ⟨rfl, fun hout => Bool.noConfusion hout⟩
  | hangUp h₀ hi => exact h.without ht h₀ hi
  | fail h₀ hi => exact h.wiped.without (ht.wiped _) h₀ hi
  | @say m h₀ hi hm =>
      have hheard : (s.heard (s.fds.entry i).fd m).Hearing := by
        intro p hp
        obtain ⟨hone, hptr⟩ := h p hp
        refine ⟨hone, ?_⟩
        show _ → ((s.store _ _).users.entry p.fd).writeBuf ≠ none
        rw [writeBuf_store]
        exact hptr
      exact hheard.offered
  | wipe => exact h.wiped
  | unserved => exact h
  | serve h₀ hi => exact h.served ht h₀ hi

/-- Nothing that the server does makes a client deaf. -/
theorem Moves.hearing (ht : Table s) (hm : s.Moves act s') (h : s.Hearing) : s'.Hearing := by
  cases hm with
  | @poll revents =>
      intro q hq
      obtain ⟨k, hk, rfl⟩ := List.mem_map.mp hq
      exact h (s.fds.entry (k + 1)) (List.mem_map_of_mem hk)
  | pollFailed => exact h
  | visit hp hv => exact hv.hearing ht h

/-! ## Whole runs -/

/-- The invariants hold in every reachable state. -/
theorem tables_of_reachable (hr : machine.Reachable s) :
    Table s ∧ s.clients.Perm (Chat.connected s.log) ∧ s.Hearing := by
  refine hr.invariant (I := fun s => Table s ∧ s.clients.Perm (Chat.connected s.log) ∧ s.Hearing) ?_ ?_
  · intro s hi
    obtain ⟨ht, hclients⟩ := init_table hi
    obtain ⟨-, -, -, -, hcount, -, hlog⟩ := hi
    have hentries : s.entries = [] := by simp [entries, hcount]
    refine ⟨ht, ?_, ?_⟩
    · rw [hclients, hlog]
      exact List.Perm.nil
    · intro p hp
      rw [hentries] at hp
      cases hp
  · intro s act s' hI he hs
    obtain ⟨ht, hperm, hhear⟩ := hI
    have hm := ht.moves_of_step he hs
    exact ⟨(hm.simulates ht).table, hm.connected ht hperm, hm.hearing ht hhear⟩

/-- **The connection table is exact in every reachable state**, and no index into `fds` leaves it. A step
fails only where the string to be sent does not end within its buffer, and a step that makes a client
leave takes its entry out and touches neither the entry nor the record of another. -/
theorem table_exact (hr : machine.Reachable s) :
    (s.userCount ≤ userLimit ∧ (s.fds.entry 0).fd = s.listenfd ∧ s.clients.Nodup ∧
      s.clients.Perm (Chat.connected s.log)) ∧
    (s.fds.length = userLimit + 1 ∧ (∀ k ≤ s.userCount, k < s.fds.length) ∧
      (s.userCount < userLimit → s.userCount + 1 < s.fds.length)) ∧
    ∀ act, machine.enabled s act →
      ((∃ s', machine.step s act = .ok s') ∨ ∃ i, s.phase = .visiting i ∧ s.Unended i) ∧
      ∀ s' x, machine.step s act = .ok s' → s'.log = .left x :: s.log →
        ∃ i, s.phase = .visiting i ∧ s.Departs i x s' := by
  obtain ⟨ht, hperm, -⟩ := tables_of_reachable hr
  refine ⟨⟨ht.limit, ht.listenfd, ht.nodup, hperm⟩, ⟨ht.fds, fun k hk => ht.lt_fds hk, ?_⟩, ?_⟩
  · intro hroom
    rw [ht.fds]
    omega
  · intro act he
    refine ⟨?_, ?_⟩
    · rcases ht.moves he with ⟨s', hs', -⟩ | ⟨-, hu⟩
      · exact .inl ⟨s', hs'⟩
      · exact .inr hu
    · intro s' x hs hlog
      cases ht.moves_of_step he hs with
      | poll => exact absurd hlog (by simp [polled])
      | pollFailed => exact absurd hlog (by simp)
      | visit hp hv => exact ⟨_, hp, hv.departs ht hlog⟩

/-- The first of three clients leaves, and the last one takes its place. Then another arrives on the
descriptor that has become free. -/
theorem table_exact_reused :
    ∃ s, machine.Reachable s ∧ s.clients = [7, 6, 5] ∧
      s.log = [.joined 5, .left 5, .joined 7, .joined 6, .joined 5] ∧
      s.clients.Perm (Chat.connected s.log) := by
  obtain ⟨s, hr, hs⟩ := Machine.Reachable.of_replay (M := machine)
    (arrival 5 0 ++ arrival 6 1 ++ arrival 7 2 ++
      [.poll [readable, hungUp, Flags.none, Flags.none], quiet, quiet, quiet, quiet, quiet] ++
      arrival 5 2)
    (fun s => (s.clients, s.log)) init_start
    (b := ([7, 6, 5], [.joined 5, .left 5, .joined 7, .joined 6, .joined 5])) (by decide +kernel)
  obtain ⟨hclients, hlog⟩ := Prod.mk.inj hs
  exact ⟨s, hr, hclients, hlog, (table_exact hr).1.2.2.2⟩

end Server
end LinuxServer.Chat
