import LinuxServer.Chat.Room
import LinuxServer.Library.Arrays

/-!
# The chat server is a chat room

`Server.room` reads off the tables who is in the room, who waits for whose buffer, and what the buffers
say. Every step of the server is a move of that room (`Server.move`, `Table.step`), as long as the tables
are in order and the strings it sends end within their buffers.

A visit to an entry takes one of a few ways through the body of the loop (`Server.Visits`), each of which
leaves tables that can be written down. The moves of the room are read off these.
-/

namespace LinuxServer.Chat

open Library

namespace Server

/-- The client `c` is to be sent something. -/
def waiting (s : Server) (c : Nat) : Prop := ∃ p ∈ s.entries, p.fd = c ∧ p.events.pollout = true

instance (s : Server) (c : Nat) : Decidable (s.waiting c) :=
  inferInstanceAs (Decidable (∃ p ∈ s.entries, p.fd = c ∧ p.events.pollout = true))

def room (s : Server) : Room where
  members := s.clients
  slot c := if s.waiting c then (s.users.entry c).writeBuf else none
  text x := textOf (s.users.entry x).buf
  log := s.log

/-- What a visit to entry `i` is to the room. In the place of a client that leaves, its buffer included,
comes the last one, whose buffer was wiped if it is the same. -/
def moveAt (s : Server) (i : Nat) (connfd : Option Nat) (r : Received) : Room.Move :=
  let p := s.fds.entry i
  let last := s.fds.entry s.userCount
  if i < s.userCount + 1 then
    if p.fd = s.listenfd ∧ p.revents.pollin then
      match connfd with
      | some c => if s.userCount ≥ userLimit then .skip else .join c
      | none => .skip
    else if p.revents.pollerr then .skip
    else if p.revents.pollrdhup then .leave p.fd (textOf (s.users.entry last.fd).buf)
    else if p.revents.pollin then
      match r with
      | .data m => .say p.fd m
      | .again | .closed => .wipe p.fd
      | .failed => .leave p.fd (if last.fd = p.fd then [] else textOf (s.users.entry last.fd).buf)
    else if p.events.pollout then .serve p.fd
    else .skip
  else .skip

def move (s : Server) : Action → Room.Move
  | .visit connfd r =>
      match s.phase with
      | .visiting i => s.moveAt i connfd r
      | _ => .skip
  | _ => .skip

end Server

/-- The tables are in order. -/
structure Table (s : Server) : Prop where
  fds : s.fds.length = userLimit + 1
  users : s.users.length = fdLimit
  limit : s.userCount ≤ userLimit
  buf : ∀ x, (s.users.entry x).buf.length = bufferSize
  listenfd : (s.fds.entry 0).fd = s.listenfd
  listen : (s.fds.entry 0).events.pollout = false ∧ (s.fds.entry 0).events.pollrdhup = false ∧
    (s.fds.entry 0).revents.pollrdhup = false
  nodup : s.clients.Nodup
  client : ∀ c ∈ s.clients, c ≠ s.listenfd ∧ c < fdLimit
  pointer : ∀ c f, s.room.slot c = some f → f < fdLimit
  short : ∀ x m, .received x m ∈ s.log → m.length < bufferSize

/-- The strings that are to be sent end within their buffers. -/
def Room.Terminated (r : Room) : Prop :=
  ∀ c ∈ r.members, ∀ f, r.slot c = some f → (r.text f).length < bufferSize

variable {s s' : Server} {i c : Nat}

namespace Server

/-- The clients are the descriptors of the entries. -/
theorem mem_clients : c ∈ s.clients ↔ ∃ p ∈ s.entries, p.fd = c := by
  simp [clients]

/-- The entries are those behind the one of the listening socket. -/
theorem entry_mem (h₀ : 0 < i) (hi : i ≤ s.userCount) : s.fds.entry i ∈ s.entries := by
  refine List.mem_map.mpr ⟨i - 1, List.mem_range.mpr (by omega), ?_⟩
  rw [Nat.sub_add_cancel h₀]

/-- Only a client has something to write. -/
theorem mem_clients_of_slot {f : Nat} (h : s.room.slot c = some f) : c ∈ s.clients := by
  by_contra hc
  have hnot : ¬ s.waiting c := by
    rintro ⟨p, hp, heq, -⟩
    exact hc (mem_clients.mpr ⟨p, hp, heq⟩)
  simp [room, hnot] at h

end Server

namespace Table

/-- Two clients have different descriptors. -/
theorem entry_inj (ht : Table s) {p q : PollFd} (hp : p ∈ s.entries) (hq : q ∈ s.entries)
    (h : p.fd = q.fd) : p = q :=
  List.inj_on_of_nodup_map ht.nodup hp hq h

/-- No descriptor has two entries. -/
theorem index_inj (ht : Table s) {j k : Nat} (hj : j < s.userCount) (hk : k < s.userCount)
    (h : (s.fds.entry (j + 1)).fd = (s.fds.entry (k + 1)).fd) : j = k := by
  have hnodup := ht.nodup
  unfold Server.clients Server.entries at hnodup
  rw [List.map_map] at hnodup
  exact List.inj_on_of_nodup_map hnodup (List.mem_range.mpr hj) (List.mem_range.mpr hk) h

/-- A client is waited for with `POLLOUT` exactly if it has something to write. -/
theorem waiting_iff (ht : Table s) {p : PollFd} (hp : p ∈ s.entries) :
    s.waiting p.fd ↔ p.events.pollout = true := by
  constructor
  · rintro ⟨q, hq, heq, hout⟩
    rwa [← ht.entry_inj hq hp heq]
  · intro h
    exact ⟨p, hp, rfl, h⟩

/-- The descriptor of a client is an index of `users`. -/
theorem lt_users (ht : Table s) {p : PollFd} (hp : p ∈ s.entries) : p.fd < s.users.length := by
  rw [ht.users]
  exact (ht.client p.fd (Server.mem_clients.mpr ⟨p, hp, rfl⟩)).2

/-- The indices of the clients are indices of `fds`. -/
theorem lt_fds (ht : Table s) (hi : i ≤ s.userCount) : i < s.fds.length := by
  have := ht.limit
  rw [ht.fds]
  omega

/-- The server goes on to another entry. -/
theorem setPhase (ht : Table s) (p : Phase) : Table { s with phase := p } :=
  ⟨ht.fds, ht.users, ht.limit, ht.buf, ht.listenfd, ht.listen, ht.nodup, ht.client, ht.pointer, ht.short⟩

end Table

/-- The server has gone from `s` to `s'`, and the room has made the move `mv`. -/
structure Simulates (s s' : Server) (mv : Room.Move) : Prop where
  enabled : s.room.enabled mv
  table : Table s'
  room : s'.room.Same (s.room.step mv)

theorem Room.Same.refl (r : Room) : r.Same r := ⟨fun _ => Iff.rfl, fun _ _ => rfl, rfl, rfl⟩

/-- Going on to another entry says nothing to the room. -/
theorem Simulates.skip (ht : Table s) (p : Phase) : Simulates s { s with phase := p } .skip :=
  ⟨trivial, ht.setPhase p, Room.Same.refl _⟩

theorem entries_update (e : Nat → PollFd) (k : Nat) (p : PollFd) :
    (fun j => Function.update e (k + 1) p (j + 1)) = Function.update (fun j => e (j + 1)) k p := by
  funext j
  by_cases hj : j = k
  · simp [hj]
  · simp [hj]

/-! ## A client arrives -/

/-- The entry of a new client. -/
def PollFd.make (c : Nat) : PollFd :=
  { fd := c, events := ⟨true, false, true, true⟩, revents := Flags.none }

/-- The tables after `c` was accepted. -/
def Server.joined (s : Server) (i c : Nat) : Server :=
  { s with
    fds := { s.fds with entry := Function.update s.fds.entry (s.userCount + 1) (PollFd.make c) }
    userCount := s.userCount + 1
    phase := .visiting (i + 1)
    log := .joined c :: s.log }

/-- There is room for a new client in both arrays. -/
theorem Table.accept_eq (ht : Table s) (hroom : s.userCount < userLimit) (hlt : c < fdLimit) :
    s.onAccept i (some c) = .ok (s.joined i c) := by
  have hread : c < s.users.length := by rw [ht.users]; exact hlt
  have hwrite : s.userCount + 1 < s.fds.length := by rw [ht.fds]; omega
  unfold Server.onAccept
  dsimp only
  rw [if_neg (by omega), Block.read_eq hread, ok_bind, Block.write_eq hwrite, ok_bind]
  rfl

/-- The entry of a new client is the last one. -/
theorem entries_joined : (s.joined i c).entries = s.entries ++ [PollFd.make c] := by
  unfold Server.entries Server.joined
  dsimp only
  rw [entries_update, range_succ_map_update]

/-- Accepting a connection is a client that joins. -/
theorem Table.accept (ht : Table s) (hroom : s.userCount < userLimit) (hl : c ≠ s.listenfd)
    (hlt : c < fdLimit) (hnew : c ∉ s.clients) : Simulates s (s.joined i c) (.join c) := by
  have hclients : (s.joined i c).clients = s.clients ++ [c] := by
    simp [Server.clients, entries_joined, PollFd.make]
  have hwaiting : ∀ d, (s.joined i c).waiting d ↔ s.waiting d := by
    intro d
    simp [Server.waiting, entries_joined, PollFd.make]
  have hslot : ∀ d, (s.joined i c).room.slot d = s.room.slot d := by
    intro d
    simp only [Server.room, hwaiting]
    rfl
  refine ⟨hnew, ?_, ?_⟩
  · refine ⟨ht.fds, ht.users, hroom, ht.buf, ht.listenfd, ht.listen, ?_, ?_, ?_, ?_⟩
    · rw [hclients]
      exact List.nodup_append.mpr ⟨ht.nodup, by simp, by grind⟩
    · intro d hd
      rw [hclients] at hd
      rcases List.mem_append.mp hd with hd | hd
      · exact ht.client d hd
      · rw [List.mem_singleton.mp hd]
        exact ⟨hl, hlt⟩
    · intro d f hf
      rw [hslot] at hf
      exact ht.pointer d f hf
    · intro x m hm
      exact ht.short x m (by simpa [Server.joined] using hm)
  · refine ⟨?_, ?_, rfl, rfl⟩
    · intro d
      show d ∈ (s.joined i c).clients ↔ d ∈ c :: s.clients
      rw [hclients]
      simp [or_comm]
    · intro d hd
      rw [hslot]
      show s.room.slot d = Function.update s.room.slot c none d
      by_cases hdc : d = c
      · subst hdc
        rw [Function.update_self]
        exact Option.eq_none_iff_forall_ne_some.mpr
          fun f hf => hnew (Server.mem_clients_of_slot hf)
      · rw [Function.update_of_ne hdc]

/-! ## A client leaves -/

/-- The tables after entry `i` was removed. -/
def Server.without (s : Server) (i : Nat) : Server :=
  { s with
    users := { s.users with
      entry := Function.update s.users.entry (s.fds.entry i).fd
        (s.users.entry (s.fds.entry s.userCount).fd) }
    fds := { s.fds with entry := Function.update s.fds.entry i (s.fds.entry s.userCount) }
    userCount := s.userCount - 1
    phase := .visiting i
    log := .left (s.fds.entry i).fd :: s.log }

section Leave
variable (ht : Table s) (h₀ : 0 < i) (hi : i ≤ s.userCount)
include ht h₀ hi

theorem Table.leave_eq : s.leave i = .ok (s.without i) := by
  have hmem : s.fds.entry i ∈ s.entries := Server.entry_mem h₀ hi
  have hlast : s.fds.entry s.userCount ∈ s.entries := Server.entry_mem (by omega) (le_refl _)
  unfold Server.leave
  rw [Block.read_eq (ht.lt_fds hi), ok_bind, Block.read_eq (ht.lt_fds (le_refl _)), ok_bind,
    Block.read_eq (ht.lt_users hlast), ok_bind, Block.write_eq (ht.lt_users hmem), ok_bind,
    Block.write_eq (ht.lt_fds hi), ok_bind]
  rfl

omit ht in
/-- The last entry takes the place of the one that leaves. -/
theorem entries_without : s.entries.Perm (s.fds.entry i :: (s.without i).entries) := by
  obtain ⟨n, hn⟩ : ∃ n, s.userCount = n + 1 := ⟨s.userCount - 1, by omega⟩
  obtain ⟨k, rfl⟩ : ∃ k, i = k + 1 := ⟨i - 1, by omega⟩
  have hswap := range_map_swap_last (fun j => s.fds.entry (j + 1)) (show k ≤ n by omega)
  unfold Server.entries Server.without
  dsimp only
  rw [entries_update, hn]
  exact hswap

/-- Everyone else stays, and waits as before. -/
theorem Table.without_room : (s.without i).clients.Nodup ∧
    (∀ c, c ∈ (s.without i).clients ↔ c ∈ s.clients ∧ c ≠ (s.fds.entry i).fd) ∧
    ∀ c ∈ (s.without i).clients, (s.without i).room.slot c = s.room.slot c := by
  have hperm := entries_without h₀ hi
  have hnodup := (hperm.map PollFd.fd).nodup_iff.mp ht.nodup
  obtain ⟨hnot, hnodup⟩ := List.nodup_cons.mp hnodup
  have hmem : ∀ c, c ∈ (s.without i).clients ↔ c ∈ s.clients ∧ c ≠ (s.fds.entry i).fd := by
    intro c
    have := (hperm.map PollFd.fd).mem_iff (a := c)
    rw [List.map_cons, List.mem_cons] at this
    constructor
    · intro hc
      exact ⟨this.mpr (.inr hc), fun h => hnot (h ▸ hc)⟩
    · intro hc
      exact (this.mp hc.1).resolve_left hc.2
  refine ⟨hnodup, hmem, ?_⟩
  intro c hc
  have hne := ((hmem c).mp hc).2
  have hwaiting : (s.without i).waiting c ↔ s.waiting c := by
    unfold Server.waiting
    simp only [hperm.mem_iff, List.mem_cons]
    grind
  have huser : (s.without i).users.entry c = s.users.entry c := Function.update_of_ne hne ..
  simp only [Server.room, hwaiting, huser]

/-- Closing a connection is a client that leaves. -/
theorem Table.leave : Simulates s (s.without i) (.leave (s.fds.entry i).fd
    (textOf (s.users.entry (s.fds.entry s.userCount).fd).buf)) := by
  obtain ⟨hnodup, hmem, hslot⟩ := ht.without_room h₀ hi
  have hentry : s.fds.entry i ∈ s.entries := Server.entry_mem h₀ hi
  refine ⟨Server.mem_clients.mpr ⟨_, hentry, rfl⟩, ?_, ?_⟩
  · constructor
    · exact ht.fds
    · exact ht.users
    · have := ht.limit
      show s.userCount - 1 ≤ userLimit
      omega
    · intro x
      show (Function.update s.users.entry _ _ x).buf.length = bufferSize
      by_cases hx : x = (s.fds.entry i).fd
      · rw [hx, Function.update_self]
        exact ht.buf _
      · rw [Function.update_of_ne hx]
        exact ht.buf x
    · show (Function.update s.fds.entry i _ 0).fd = s.listenfd
      rw [Function.update_of_ne (by omega)]
      exact ht.listenfd
    · show (Function.update s.fds.entry i _ 0).events.pollout = false ∧
        (Function.update s.fds.entry i _ 0).events.pollrdhup = false ∧
        (Function.update s.fds.entry i _ 0).revents.pollrdhup = false
      rw [Function.update_of_ne (by omega)]
      exact ht.listen
    · exact hnodup
    · intro c hc
      exact ht.client c ((hmem c).mp hc).1
    · intro c f hf
      rw [hslot c (Server.mem_clients_of_slot hf)] at hf
      exact ht.pointer c f hf
    · intro x m hm
      exact ht.short x m (by simpa [Server.without] using hm)
  · refine ⟨?_, hslot, ?_, rfl⟩
    · intro c
      simpa [Room.step, Server.room] using hmem c
    · funext x
      show textOf (Function.update s.users.entry _ _ x).buf = Function.update s.room.text _ _ x
      by_cases hx : x = (s.fds.entry i).fd
      · rw [hx, Function.update_self, Function.update_self]
      · rw [Function.update_of_ne hx, Function.update_of_ne hx]
        rfl

end Leave

/-! ## Buffers -/

/-- A C string ends at the first zero byte. -/
theorem cstr_append_zero (m rest : List UInt8) : cstr (m ++ 0 :: rest) = cstr m := by
  induction m with
  | nil => simp [cstr]
  | cons b m ih =>
      unfold cstr at ih ⊢
      rw [List.cons_append, List.takeWhile_cons, List.takeWhile_cons, ih]

theorem length_cstr_le (m : List UInt8) : (cstr m).length ≤ m.length :=
  (List.takeWhile_prefix _).length_le

/-- What `memset` and `recv` leave in a buffer. -/
theorem textOf_recv {b : Block UInt8} {m : List UInt8} (hb : b.length = bufferSize)
    (hm : m.length < bufferSize) :
    textOf ((b.overlay 0 (List.replicate bufferSize 0)).overlay 0 m) = cstr m := by
  have hzero : (b.overlay 0 (List.replicate bufferSize 0)).slice 0 bufferSize =
      List.replicate bufferSize 0 := by
    rw [Block.slice_overlay_self (by simp), List.drop_eq_nil_of_le (by simp), List.append_nil]
  obtain ⟨k, hk⟩ : ∃ k, bufferSize - m.length = k + 1 := ⟨bufferSize - m.length - 1, by omega⟩
  unfold textOf
  rw [Block.length_overlay, Block.length_overlay, hb, Block.slice_overlay_self (by omega), hzero,
    List.drop_replicate, hk, List.replicate_succ]
  exact cstr_append_zero m _

/-- After `memset` the text is empty. -/
theorem textOf_memset {b : Block UInt8} (hb : b.length = bufferSize) :
    textOf (b.overlay 0 (List.replicate bufferSize 0)) = [] := by
  unfold textOf
  rw [Block.length_overlay, hb, Block.slice_overlay_self (by simp)]
  rfl

/-- Another content in the buffer of `x`. -/
def Server.store (s : Server) (x : Nat) (b : Block UInt8) : Server :=
  { s with users := { s.users with
      entry := Function.update s.users.entry x { s.users.entry x with buf := b } } }

/-- Writing to a buffer changes what its owner says, and nothing else. -/
theorem Server.room_store {x : Nat} {b : Block UInt8} :
    (s.store x b).room = { s.room with text := Function.update s.room.text x (textOf b) } := by
  have hslot : (s.store x b).room.slot = s.room.slot := by
    funext c
    show (if s.waiting c then ((s.store x b).users.entry c).writeBuf else none) = _
    by_cases hcx : c = x
    · subst hcx
      simp [Server.store, Server.room]
    · simp [Server.store, Server.room, hcx]
  have htext : (s.store x b).room.text = Function.update s.room.text x (textOf b) := by
    funext y
    by_cases hyx : y = x
    · subst hyx
      simp [Server.store, Server.room]
    · simp [Server.store, Server.room, hyx]
  exact Room.ext rfl hslot htext rfl

theorem Table.store (ht : Table s) {x : Nat} {b : Block UInt8} (hb : b.length = bufferSize) :
    Table (s.store x b) := by
  refine ⟨ht.fds, ht.users, ht.limit, ?_, ht.listenfd, ht.listen, ht.nodup, ht.client, ?_, ht.short⟩
  · intro y
    by_cases hyx : y = x
    · simp [Server.store, hyx, hb]
    · simp [Server.store, hyx, ht.buf y]
  · intro c f hf
    rw [Server.room_store] at hf
    exact ht.pointer c f hf

/-! ## The broadcast -/

/-- The entry of a client that is to be sent something. -/
def PollFd.toWrite (p : PollFd) : PollFd :=
  { p with events := { p.events with pollin := false, pollout := true } }

/-- The entries after `n` turns of the inner loop. -/
def marked (e : Nat → PollFd) (x : Nat) : Nat → Nat → PollFd
  | 0 => e
  | n + 1 =>
      if (e (n + 1)).fd = x then marked e x n
      else Function.update (marked e x n) (n + 1) (e (n + 1)).toWrite

/-- The records after `n` turns of the inner loop. -/
def promised (u : Nat → ClientData) (e : Nat → PollFd) (x : Nat) : Nat → Nat → ClientData
  | 0 => u
  | n + 1 =>
      if (e (n + 1)).fd = x then promised u e x n
      else Function.update (promised u e x n) (e (n + 1)).fd
        { promised u e x n (e (n + 1)).fd with writeBuf := some x }

section Loop
variable {e : Nat → PollFd} {u : Nat → ClientData} {x n : Nat}

/-- The loop that marks entries leaves out the one of `x`. -/
theorem marked_apply (j : Nat) : marked e x n j =
    if 0 < j ∧ j ≤ n ∧ (e j).fd ≠ x then (e j).toWrite else e j := by
  induction n with
  | zero => rw [marked, if_neg (by omega)]
  | succ n ih =>
      rw [marked]
      by_cases hj : j = n + 1
      · subst hj
        grind [Function.update_self]
      · grind [Function.update_of_ne]

/-- Everyone in the first `n` entries but `x` is promised what `x` has said. -/
theorem promised_apply (f : Nat) : promised u e x n f =
    if f ≠ x ∧ ∃ k < n, (e (k + 1)).fd = f then { u f with writeBuf := some x } else u f := by
  induction n with
  | zero => simp [promised]
  | succ n ih =>
      have hlater : ∀ g, g ≠ (e (n + 1)).fd →
          ((∃ k < n + 1, (e (k + 1)).fd = g) ↔ ∃ k < n, (e (k + 1)).fd = g) := by
        intro g hg
        constructor
        · rintro ⟨k, hk, heq⟩
          have hkn : k ≠ n := fun h => hg (h ▸ heq.symm)
          exact ⟨k, by omega, heq⟩
        · rintro ⟨k, hk, heq⟩
          exact ⟨k, by omega, heq⟩
      rw [promised]
      by_cases hx : (e (n + 1)).fd = x
      · rw [if_pos hx, ih]
        simp only [ne_eq]
        exact if_congr (and_congr_right fun hf => (hlater f (hx ▸ hf)).symm) rfl rfl
      · rw [if_neg hx]
        by_cases hf : f = (e (n + 1)).fd
        · subst hf
          rw [Function.update_self, if_pos ⟨hx, n, by omega, rfl⟩, ih]
          split
          · rfl
          · rfl
        · rw [Function.update_of_ne hf, ih]
          exact if_congr (and_congr_right fun _ => (hlater f hf).symm) rfl rfl

end Loop

/-- The tables after `n` turns of the inner loop. -/
def Server.offered (s : Server) (x n : Nat) : Server :=
  { s with
    fds := { s.fds with entry := marked s.fds.entry x n }
    users := { s.users with entry := promised s.users.entry s.fds.entry x n } }

/-- One turn of the loop that offers the text to the others. -/
theorem Table.offer (ht : Table s) {x n : Nat} (hn : n < s.userCount) :
    (s.offered x n).offer x (n + 1) = .ok (s.offered x (n + 1)) := by
  have hread : (s.offered x n).fds.entry (n + 1) = s.fds.entry (n + 1) := by
    show marked s.fds.entry x n (n + 1) = _
    rw [marked_apply, if_neg (by omega)]
  have hlt : n + 1 < (s.offered x n).fds.length := ht.lt_fds hn
  have hmem : s.fds.entry (n + 1) ∈ s.entries := Server.entry_mem (by omega) hn
  have hltu : (s.fds.entry (n + 1)).fd < (s.offered x n).users.length := ht.lt_users hmem
  unfold Server.offer
  rw [Block.read_eq hlt, ok_bind, hread]
  by_cases hx : (s.fds.entry (n + 1)).fd = x
  · rw [if_pos hx]
    simp only [Server.offered, marked, promised, if_pos hx]
    rfl
  · rw [if_neg hx, Block.write_eq hlt, ok_bind, Block.read_eq hltu, ok_bind, Block.write_eq hltu,
      ok_bind]
    simp only [Server.offered, marked, promised, if_neg hx]
    rfl

/-- The whole loop offers the text to all clients but `x`. -/
theorem Table.broadcast (ht : Table s) (x : Nat) :
    s.broadcast x = .ok (s.offered x s.userCount) := by
  have hloop : ∀ n ≤ s.userCount,
      (List.range n).foldlM (fun s k => s.offer x (k + 1)) s = .ok (s.offered x n) := by
    intro n
    induction n with
    | zero => exact fun _ => rfl
    | succ n ih =>
        intro hn
        rw [List.range_succ, List.foldlM_append, ih (by omega), ok_bind]
        rw [List.foldlM_cons, ht.offer hn, ok_bind]
        rfl
  exact hloop s.userCount (le_refl _)

/-- All entries but the one of `x` wait to write. -/
theorem entries_offered (x : Nat) : (s.offered x s.userCount).entries =
    s.entries.map fun p => if p.fd = x then p else p.toWrite := by
  unfold Server.entries
  rw [List.map_map]
  apply List.map_congr_left
  intro k hk
  have hk : k < s.userCount := List.mem_range.mp hk
  show marked s.fds.entry x s.userCount (k + 1) = _
  rw [marked_apply]
  by_cases hx : (s.fds.entry (k + 1)).fd = x
  · rw [if_neg (by tauto)]
    simp [hx]
  · rw [if_pos ⟨by omega, hk, hx⟩]
    simp [hx]

/-- Nobody comes or goes while a text is offered. -/
theorem clients_offered (x : Nat) : (s.offered x s.userCount).clients = s.clients := by
  unfold Server.clients
  rw [entries_offered, List.map_map]
  apply List.map_congr_left
  intro p _
  show (if p.fd = x then p else p.toWrite).fd = p.fd
  split
  · rfl
  · rfl

/-- All clients but `x` have the buffer of `x` to write. -/
theorem Table.slot_offered (ht : Table s) (x : Nat) (hc : c ∈ s.clients) :
    (s.offered x s.userCount).room.slot c = if c = x then s.room.slot c else some x := by
  obtain ⟨p, hp, rfl⟩ := Server.mem_clients.mp hc
  have hclient : ∃ k < s.userCount, (s.fds.entry (k + 1)).fd = p.fd := by
    obtain ⟨k, hk, rfl⟩ := List.mem_map.mp hp
    exact ⟨k, List.mem_range.mp hk, rfl⟩
  have hmem : (if p.fd = x then p else p.toWrite) ∈ (s.offered x s.userCount).entries := by
    rw [entries_offered]
    exact List.mem_map_of_mem hp
  have husers : (s.offered x s.userCount).users.entry p.fd =
      if p.fd = x then s.users.entry p.fd else { s.users.entry p.fd with writeBuf := some x } := by
    show promised s.users.entry s.fds.entry x s.userCount p.fd = _
    rw [promised_apply]
    by_cases hx : p.fd = x
    · simp [hx]
    · simp [hx, hclient]
  by_cases hx : p.fd = x
  · rw [if_pos hx] at hmem husers ⊢
    have hwaiting : (s.offered x s.userCount).waiting p.fd ↔ s.waiting p.fd := by
      rw [ht.waiting_iff hp]
      constructor
      · rintro ⟨q, hq, heq, hout⟩
        rw [entries_offered] at hq
        obtain ⟨q, hmem, rfl⟩ := List.mem_map.mp hq
        have : q.fd = p.fd := by
          rw [← heq]
          split
          · rfl
          · rfl
        rw [this, if_pos hx] at hout
        rwa [ht.entry_inj hp hmem this.symm]
      · exact fun h => ⟨p, hmem, rfl, h⟩
    simp only [Server.room, hwaiting, husers]
  · rw [if_neg hx] at hmem husers ⊢
    have hwaiting : (s.offered x s.userCount).waiting p.fd := ⟨_, hmem, rfl, rfl⟩
    simp only [Server.room, hwaiting, husers, if_true]

/-- What the clients say does not change while it is offered. -/
theorem text_offered (x : Nat) : (s.offered x s.userCount).room.text = s.room.text := by
  funext f
  show textOf (promised s.users.entry s.fds.entry x s.userCount f).buf = textOf (s.users.entry f).buf
  rw [promised_apply]
  split
  · rfl
  · rfl

theorem Table.offered (ht : Table s) {x : Nat} (hx : x < fdLimit) : Table (s.offered x s.userCount) := by
  have hzero : (s.offered x s.userCount).fds.entry 0 = s.fds.entry 0 := by
    show marked s.fds.entry x s.userCount 0 = _
    rw [marked_apply, if_neg (by omega)]
  refine ⟨ht.fds, ht.users, ht.limit, ?_, ?_, ?_, ?_, ?_, ?_, ht.short⟩
  · intro y
    show (promised s.users.entry s.fds.entry x s.userCount y).buf.length = bufferSize
    rw [promised_apply]
    split
    · exact ht.buf y
    · exact ht.buf y
  · rw [hzero]
    exact ht.listenfd
  · rw [hzero]
    exact ht.listen
  · rw [clients_offered]
    exact ht.nodup
  · rw [clients_offered]
    exact ht.client
  · intro c f hf
    have hc := Server.mem_clients_of_slot hf
    rw [clients_offered] at hc
    rw [ht.slot_offered x hc] at hf
    split at hf
    · exact ht.pointer c f hf
    · exact Option.some.inj hf ▸ hx

/-! ## A client is read from -/

/-- The buffer of `x` after `memset`. -/
def Server.cleared (s : Server) (x : Nat) : Block UInt8 :=
  (s.users.entry x).buf.overlay 0 (List.replicate bufferSize 0)

def Server.wiped (s : Server) (x : Nat) : Server := s.store x (s.cleared x)

/-- `x` has sent `m`, which the others have not been told yet. -/
def Server.heard (s : Server) (x : Nat) (m : List UInt8) : Server :=
  { s.store x ((s.cleared x).overlay 0 m) with log := .received x m :: s.log }

/-- Clearing a buffer keeps the table. -/
theorem Table.wiped (ht : Table s) (x : Nat) : Table (s.wiped x) := ht.store (ht.buf x)

/-- A client whose buffer was cleared says nothing. -/
theorem Table.room_wiped (ht : Table s) (x : Nat) :
    (s.wiped x).room = { s.room with text := Function.update s.room.text x [] } := by
  rw [Server.wiped, Server.room_store, Server.cleared, textOf_memset (ht.buf x)]

/-- Reading from a client keeps the table. -/
theorem Table.heard (ht : Table s) (x : Nat) {m : List UInt8} (hm : m.length < bufferSize) :
    Table (s.heard x m) := by
  have hst := ht.store (x := x) (b := (s.cleared x).overlay 0 m) (ht.buf x)
  refine ⟨hst.fds, hst.users, hst.limit, hst.buf, hst.listenfd, hst.listen, hst.nodup, hst.client,
    hst.pointer, ?_⟩
  intro y m' hm'
  rcases List.mem_cons.mp hm' with heq | hm'
  · cases heq
    exact hm
  · exact ht.short y m' hm'

/-- A client says what was read from it. -/
theorem Table.room_heard (ht : Table s) (x : Nat) {m : List UInt8} (hm : m.length < bufferSize) :
    (s.heard x m).room = { s.room with
      text := Function.update s.room.text x (cstr m), log := .received x m :: s.log } := by
  show { (s.store x ((s.cleared x).overlay 0 m)).room with log := .received x m :: s.log } = _
  rw [Server.room_store, Server.cleared, textOf_recv (ht.buf x) hm]

theorem Received.length_lt {m : List UInt8} (h : (Received.data m).fits) : m.length < bufferSize :=
  lt_of_le_of_lt h.2 (by decide)

section Read
variable (ht : Table s) (h₀ : 0 < i) (hi : i ≤ s.userCount)
include ht h₀ hi

/-- Data from a client is offered to all others. -/
theorem Table.say_eq {m : List UInt8} (hm : m.length < bufferSize) :
    s.onReadable i (.data m) = .ok (((s.heard (s.fds.entry i).fd m).offered (s.fds.entry i).fd
      s.userCount).goto (i + 1)) := by
  have hlt := ht.lt_users (Server.entry_mem h₀ hi)
  unfold Server.onReadable
  rw [Block.read_eq (ht.lt_fds hi), ok_bind, Block.read_eq hlt, ok_bind,
    Block.writeAll_eq (by simp [ht.buf]), ok_bind]
  dsimp only
  rw [Block.writeAll_eq (by simpa [ht.buf] using hm.le), ok_bind, Block.write_eq hlt, ok_bind]
  show (s.heard (s.fds.entry i).fd m).broadcast (s.fds.entry i).fd >>= _ = _
  rw [(ht.heard _ hm).broadcast, ok_bind]
  rfl

/-- Reading data is a client that says something. -/
theorem Table.say {m : List UInt8} (hm : m.length < bufferSize) :
    Simulates s (((s.heard (s.fds.entry i).fd m).offered (s.fds.entry i).fd s.userCount).goto (i + 1))
      (.say (s.fds.entry i).fd m) := by
  have hmem : s.fds.entry i ∈ s.entries := Server.entry_mem h₀ hi
  have hclient : (s.fds.entry i).fd ∈ s.clients := Server.mem_clients.mpr ⟨_, hmem, rfl⟩
  have hlt := ht.lt_users hmem
  generalize (s.fds.entry i).fd = x at *
  have htable := ht.heard x hm
  have hroom := ht.room_heard x hm
  refine ⟨hclient, (htable.offered (ht.users ▸ hlt)).setPhase _, ?_, ?_, ?_, rfl⟩
  · intro c
    show c ∈ ((s.heard x m).offered x (s.heard x m).userCount).clients ↔ c ∈ s.clients
    rw [clients_offered]
    rfl
  · intro c hc
    have hc : c ∈ (s.heard x m).clients := clients_offered (s := s.heard x m) x ▸ hc
    show ((s.heard x m).offered x (s.heard x m).userCount).room.slot c =
      if c = x then s.room.slot c else some x
    rw [htable.slot_offered x hc, hroom]
  · show ((s.heard x m).offered x (s.heard x m).userCount).room.text =
      Function.update s.room.text x (cstr m)
    rw [text_offered, hroom]

/-- `EAGAIN`, and the end of a connection, which is not treated as such. -/
theorem Table.wipe_eq {r : Received} (hr : r = .again ∨ r = .closed) :
    s.onReadable i r = .ok ((s.wiped (s.fds.entry i).fd).goto (i + 1)) := by
  have hlt := ht.lt_users (Server.entry_mem h₀ hi)
  unfold Server.onReadable
  rw [Block.read_eq (ht.lt_fds hi), ok_bind, Block.read_eq hlt, ok_bind,
    Block.writeAll_eq (by simp [ht.buf]), ok_bind]
  rcases hr with rfl | rfl
  · dsimp only
    rw [Block.write_eq hlt, ok_bind]
    rfl
  · dsimp only
    rw [Block.write_eq hlt, ok_bind]
    rfl

/-- A read that gives no data only clears the buffer. -/
theorem Table.wipe : Simulates s ((s.wiped (s.fds.entry i).fd).goto (i + 1))
    (.wipe (s.fds.entry i).fd) := by
  have hmem : s.fds.entry i ∈ s.entries := Server.entry_mem h₀ hi
  refine ⟨Server.mem_clients.mpr ⟨_, hmem, rfl⟩, (ht.wiped _).setPhase _, ?_⟩
  show (s.wiped _).room.Same _
  rw [ht.room_wiped]
  exact Room.Same.refl _

/-- A read that fails clears the buffer and closes the connection. -/
theorem Table.fail_eq : s.onReadable i .failed = .ok ((s.wiped (s.fds.entry i).fd).without i) := by
  have hlt := ht.lt_users (Server.entry_mem h₀ hi)
  unfold Server.onReadable
  rw [Block.read_eq (ht.lt_fds hi), ok_bind, Block.read_eq hlt, ok_bind,
    Block.writeAll_eq (by simp [ht.buf]), ok_bind]
  dsimp only
  rw [Block.write_eq hlt, ok_bind]
  exact (ht.wiped (s.fds.entry i).fd).leave_eq h₀ hi

/-- Another error: the client is removed, with an empty buffer. -/
theorem Table.fail : Simulates s ((s.wiped (s.fds.entry i).fd).without i) (.leave (s.fds.entry i).fd
    (if (s.fds.entry s.userCount).fd = (s.fds.entry i).fd then []
      else textOf (s.users.entry (s.fds.entry s.userCount).fd).buf)) := by
  -- the buffer is cleared first, and then the client leaves
  obtain ⟨hen, htab, hroom⟩ := (ht.wiped (s.fds.entry i).fd).leave h₀ hi
  generalize hx : (s.fds.entry i).fd = x at *
  have hafter : textOf ((s.wiped x).users.entry (s.fds.entry s.userCount).fd).buf =
      if (s.fds.entry s.userCount).fd = x then []
      else textOf (s.users.entry (s.fds.entry s.userCount).fd).buf := by
    show (s.wiped x).room.text _ = _
    rw [ht.room_wiped]
    exact Function.update_apply ..
  -- the buffer is written twice
  have hstep : ∀ after, (s.wiped x).room.step (.leave x after) = s.room.step (.leave x after) := by
    intro after
    rw [ht.room_wiped]
    simp only [Room.step, Function.update_idem]
  rw [← hafter]
  have hfd : ((s.wiped x).fds.entry i).fd = x := hx
  rw [hfd] at hen hroom
  refine ⟨hen, htab, ?_⟩
  rw [← hstep]
  exact hroom

end Read

/-! ## A client is served -/

/-- The entry of a client that has been sent something. -/
def PollFd.toRead (p : PollFd) : PollFd :=
  { p with events := { p.events with pollin := true, pollout := false } }

/-- The tables after the client of entry `i` was sent `text`. -/
def Server.served (s : Server) (i : Nat) (text : List UInt8) : Server :=
  { s with
    users := { s.users with
      entry := Function.update s.users.entry (s.fds.entry i).fd
        { s.users.entry (s.fds.entry i).fd with writeBuf := none } }
    fds := { s.fds with entry := Function.update s.fds.entry i (s.fds.entry i).toRead }
    phase := .visiting (i + 1)
    log := .sent (s.fds.entry i).fd text :: s.log }

section Serve
variable (ht : Table s) (h₀ : 0 < i) (hi : i ≤ s.userCount) {text : List UInt8}
include ht h₀ hi

/-- An entry that was served waits to read again. -/
theorem Table.entries_served : (s.served i text).entries =
    s.entries.map fun p => if p.fd = (s.fds.entry i).fd then (s.fds.entry i).toRead else p := by
  obtain ⟨k, rfl⟩ : ∃ k, i = k + 1 := ⟨i - 1, by omega⟩
  unfold Server.entries
  rw [List.map_map]
  apply List.map_congr_left
  intro j hj
  have hj : j < s.userCount := List.mem_range.mp hj
  show Function.update s.fds.entry (k + 1) _ (j + 1) = _
  by_cases hjk : j = k
  · simp [hjk]
  · have hne : (s.fds.entry (j + 1)).fd ≠ (s.fds.entry (k + 1)).fd :=
      fun h => hjk (ht.index_inj hj (by omega) h)
    simp [hjk, hne]

/-- Nobody comes or goes when a client is served. -/
theorem Table.clients_served : (s.served i text).clients = s.clients := by
  unfold Server.clients
  rw [ht.entries_served h₀ hi, List.map_map]
  apply List.map_congr_left
  intro p _
  by_cases hp : p.fd = (s.fds.entry i).fd
  · simp [hp, PollFd.toRead]
  · simp [hp]

/-- A client that was served has nothing to write. -/
theorem Table.slot_served : (s.served i text).room.slot =
    Function.update s.room.slot (s.fds.entry i).fd none := by
  funext c
  by_cases hc : c = (s.fds.entry i).fd
  · subst hc
    simp [Server.room, Server.served]
  · have hwaiting : (s.served i text).waiting c ↔ s.waiting c := by
      unfold Server.waiting
      rw [ht.entries_served h₀ hi]
      constructor
      · rintro ⟨q, hq, heq, hout⟩
        obtain ⟨p, hp, rfl⟩ := List.mem_map.mp hq
        by_cases hpx : p.fd = (s.fds.entry i).fd
        · rw [if_pos hpx] at heq
          exact absurd heq.symm hc
        · rw [if_neg hpx] at heq hout
          exact ⟨p, hp, heq, hout⟩
      · rintro ⟨p, hp, heq, hout⟩
        have hpx : p.fd ≠ (s.fds.entry i).fd := heq ▸ hc
        exact ⟨p, List.mem_map.mpr ⟨p, hp, if_neg hpx⟩, heq, hout⟩
    have huser : (s.served i text).users.entry c = s.users.entry c := Function.update_of_ne hc ..
    rw [Function.update_of_ne hc]
    simp only [Server.room, hwaiting, huser]

/-- Serving a client keeps the table. -/
theorem Table.served : Table (s.served i text) := by
  have hzero : (s.served i text).fds.entry 0 = s.fds.entry 0 := Function.update_of_ne (by omega) ..
  refine ⟨ht.fds, ht.users, ht.limit, ?_, ?_, ?_, ?_, ?_, ?_, ?_⟩
  · intro y
    by_cases hy : y = (s.fds.entry i).fd
    · simp [Server.served, hy, ht.buf]
    · simp [Server.served, hy, ht.buf]
  · rw [hzero]
    exact ht.listenfd
  · rw [hzero]
    exact ht.listen
  · rw [ht.clients_served h₀ hi]
    exact ht.nodup
  · rw [ht.clients_served h₀ hi]
    exact ht.client
  · intro c f hf
    rw [ht.slot_served h₀ hi] at hf
    by_cases hc : c = (s.fds.entry i).fd
    · simp [hc] at hf
    · rw [Function.update_of_ne hc] at hf
      exact ht.pointer c f hf
  · intro x m hm
    exact ht.short x m (by simpa [Server.served] using hm)

omit ht h₀ hi in
theorem text_served : (s.served i text).room.text = s.room.text := by
  funext y
  by_cases hy : y = (s.fds.entry i).fd
  · simp [Server.room, Server.served, hy]
  · simp [Server.room, Server.served, hy]

/-- What a client has to write is what `write_buf` points at. -/
theorem Table.slot_eq (hout : (s.fds.entry i).events.pollout = true) :
    s.room.slot (s.fds.entry i).fd = (s.users.entry (s.fds.entry i).fd).writeBuf :=
  if_pos ((ht.waiting_iff (Server.entry_mem h₀ hi)).mpr hout)

/-- Without a `write_buf` there is nothing to write. -/
theorem Table.unserved (hout : (s.fds.entry i).events.pollout = true)
    (hptr : (s.users.entry (s.fds.entry i).fd).writeBuf = none) :
    Simulates s (s.goto (i + 1)) (.serve (s.fds.entry i).fd) := by
  have hmem : s.fds.entry i ∈ s.entries := Server.entry_mem h₀ hi
  refine ⟨Server.mem_clients.mpr ⟨_, hmem, rfl⟩, ht.setPhase _, ?_⟩
  rw [Room.step_serve_none ((ht.slot_eq h₀ hi hout).trans hptr)]
  exact Room.Same.refl _

/-- Writing to a client is a client that is served. -/
theorem Table.serve (hout : (s.fds.entry i).events.pollout = true) {f : Nat}
    (hptr : (s.users.entry (s.fds.entry i).fd).writeBuf = some f) :
    Simulates s (s.served i (s.room.text f)) (.serve (s.fds.entry i).fd) := by
  have hmem : s.fds.entry i ∈ s.entries := Server.entry_mem h₀ hi
  refine ⟨Server.mem_clients.mpr ⟨_, hmem, rfl⟩, ht.served h₀ hi, ?_⟩
  rw [Room.step_serve ((ht.slot_eq h₀ hi hout).trans hptr)]
  refine ⟨?_, ?_, text_served, rfl⟩
  · intro c
    show c ∈ (s.served i _).clients ↔ c ∈ s.clients
    rw [ht.clients_served h₀ hi]
  · intro c _
    rw [ht.slot_served h₀ hi]

end Serve

/-! ## The loop -/

/-- What a visit to entry `i` makes of the tables, one constructor for each way through the body of the
loop, beside the move of the room. -/
inductive Server.Visits (s : Server) (i : Nat) : Room.Move → Server → Prop
  | skip (p : Phase) : Visits s i .skip { s with phase := p }
  | join {c : Nat} : s.userCount < userLimit → c ≠ s.listenfd → c < fdLimit → c ∉ s.clients →
      Visits s i (.join c) (s.joined i c)
  | hangUp : 0 < i → i ≤ s.userCount →
      Visits s i (.leave (s.fds.entry i).fd (textOf (s.users.entry (s.fds.entry s.userCount).fd).buf))
        (s.without i)
  | fail : 0 < i → i ≤ s.userCount →
      Visits s i (.leave (s.fds.entry i).fd
        (if (s.fds.entry s.userCount).fd = (s.fds.entry i).fd then []
          else textOf (s.users.entry (s.fds.entry s.userCount).fd).buf))
        ((s.wiped (s.fds.entry i).fd).without i)
  | say {m : List UInt8} : 0 < i → i ≤ s.userCount → m.length < bufferSize →
      Visits s i (.say (s.fds.entry i).fd m)
        (((s.heard (s.fds.entry i).fd m).offered (s.fds.entry i).fd s.userCount).goto (i + 1))
  | wipe : 0 < i → i ≤ s.userCount →
      Visits s i (.wipe (s.fds.entry i).fd) ((s.wiped (s.fds.entry i).fd).goto (i + 1))
  | unserved : 0 < i → i ≤ s.userCount → (s.fds.entry i).events.pollout = true →
      (s.users.entry (s.fds.entry i).fd).writeBuf = none →
      Visits s i (.serve (s.fds.entry i).fd) (s.goto (i + 1))
  | serve {f : Nat} : 0 < i → i ≤ s.userCount → (s.fds.entry i).events.pollout = true →
      (s.users.entry (s.fds.entry i).fd).writeBuf = some f →
      Visits s i (.serve (s.fds.entry i).fd) (s.served i (s.room.text f))

/-- Whatever the loop does at an entry is a move of the room. -/
theorem Server.Visits.simulates {mv : Room.Move} (ht : Table s) (hv : s.Visits i mv s') :
    Simulates s s' mv := by
  cases hv with
  | skip p => exact .skip ht p
  | join hroom hl hlt hnew => exact ht.accept hroom hl hlt hnew
  | hangUp h₀ hi => exact ht.leave h₀ hi
  | fail h₀ hi => exact ht.fail h₀ hi
  | say h₀ hi hm => exact ht.say h₀ hi hm
  | wipe h₀ hi => exact ht.wipe h₀ hi
  | unserved h₀ hi hout hptr => exact ht.unserved h₀ hi hout hptr
  | serve h₀ hi hout hptr => exact ht.serve h₀ hi hout hptr

/-- What the client of entry `i` is to be sent does not end within its buffer. -/
def Server.Unended (s : Server) (i : Nat) : Prop :=
  0 < i ∧ i ≤ s.userCount ∧ (s.fds.entry i).events.pollout = true ∧
    ∃ f, (s.users.entry (s.fds.entry i).fd).writeBuf = some f ∧
      sendText (s.users.entry f).buf = .error .outOfBounds

/-- Then what is to be sent in the room is not terminated. -/
theorem Table.not_terminated (ht : Table s) (hu : s.Unended i) : ¬ s.room.Terminated := by
  obtain ⟨h₀, hi, hout, f, hptr, hsend⟩ := hu
  intro hterm
  have hmem : s.fds.entry i ∈ s.entries := Server.entry_mem h₀ hi
  have hshort : (textOf (s.users.entry f).buf).length < bufferSize :=
    hterm _ (Server.mem_clients.mpr ⟨_, hmem, rfl⟩) f ((ht.slot_eq h₀ hi hout).trans hptr)
  rw [sendText, ht.buf, if_pos hshort] at hsend
  cases hsend

/-- A visit goes as it should, or it runs into a string that does not end within its buffer. -/
def Server.Goes (s : Server) (i : Nat) (x : Exec Server) (mv : Room.Move) : Prop :=
  (∃ s', x = .ok s' ∧ s.Visits i mv s') ∨ (x = .error .outOfBounds ∧ s.Unended i)

/-- An entry that can be written to is served. -/
theorem Table.serve_goes (ht : Table s) (h₀ : 0 < i) (hi : i ≤ s.userCount)
    (hout : (s.fds.entry i).events.pollout = true) :
    s.Goes i (s.onWritable i) (.serve (s.fds.entry i).fd) := by
  have hmem : s.fds.entry i ∈ s.entries := Server.entry_mem h₀ hi
  have hlt := ht.lt_users hmem
  unfold Server.onWritable
  rw [Block.read_eq (ht.lt_fds hi), ok_bind, Block.read_eq hlt, ok_bind]
  cases hptr : (s.users.entry (s.fds.entry i).fd).writeBuf with
  | none => exact .inl ⟨_, rfl, .unserved h₀ hi hout hptr⟩
  | some f =>
      have hslot := (ht.slot_eq h₀ hi hout).trans hptr
      have hf : f < s.users.length := ht.users ▸ ht.pointer _ f hslot
      dsimp only
      rw [Block.read_eq hf, ok_bind]
      by_cases hshort : (textOf (s.users.entry f).buf).length < (s.users.entry f).buf.length
      · have hsend : sendText (s.users.entry f).buf = .ok (s.room.text f) := if_pos hshort
        refine .inl ⟨_, ?_, .serve h₀ hi hout hptr⟩
        rw [hsend, ok_bind, Block.write_eq hlt, ok_bind, Block.write_eq (ht.lt_fds hi), ok_bind]
        rfl
      · have hsend : sendText (s.users.entry f).buf = .error .outOfBounds := if_neg hshort
        exact .inr ⟨by rw [hsend, error_bind], h₀, hi, hout, f, hptr, hsend⟩

/-- One turn of the loop over the entries is a move of the room. -/
theorem Table.visit (ht : Table s) {connfd : Option Nat} {r : Received}
    (hr : r.fits) (hc : ∀ c ∈ connfd, c ≠ s.listenfd ∧ c < fdLimit ∧ c ∉ s.clients) :
    s.Goes i (s.visit i connfd r) (s.moveAt i connfd r) := by
  unfold Server.visit Server.moveAt
  dsimp only
  by_cases hi : i < s.userCount + 1
  case neg =>
    rw [if_neg hi, if_neg hi]
    exact .inl ⟨_, rfl, .skip _⟩
  have hi' : i ≤ s.userCount := by omega
  rw [if_pos hi, if_pos hi, Block.read_eq (ht.lt_fds hi'), ok_bind]
  by_cases hlisten : (s.fds.entry i).fd = s.listenfd ∧ (s.fds.entry i).revents.pollin = true
  · rw [if_pos hlisten, if_pos hlisten]
    cases connfd with
    | none => exact .inl ⟨_, rfl, .skip _⟩
    | some c =>
        obtain ⟨hl, hlt, hnew⟩ := hc c rfl
        dsimp only
        split
        · rename_i hfull
          refine .inl ⟨s.goto (i + 1), ?_, .skip _⟩
          unfold Server.onAccept
          exact if_pos hfull
        · rename_i hfree
          have hroom : s.userCount < userLimit := by omega
          exact .inl ⟨_, ht.accept_eq hroom hlt, .join hroom hl hlt hnew⟩
  · rw [if_neg hlisten, if_neg hlisten]
    split
    · exact .inl ⟨_, rfl, .skip _⟩
    · split
      · rename_i hup
        -- the listening socket is not asked about the other end
        have h₀ : 0 < i := by
          rcases Nat.eq_zero_or_pos i with rfl | h₀
          · rw [ht.listen.2.2] at hup
            cases hup
          · exact h₀
        exact .inl ⟨_, ht.leave_eq h₀ hi', .hangUp h₀ hi'⟩
      · split
        · rename_i hin
          -- the listening socket would have been served above
          have h₀ : 0 < i := by
            rcases Nat.eq_zero_or_pos i with rfl | h₀
            · exact absurd ⟨ht.listenfd, hin⟩ hlisten
            · exact h₀
          cases r with
          | data m =>
              have hm := Received.length_lt hr
              exact .inl ⟨_, ht.say_eq h₀ hi' hm, .say h₀ hi' hm⟩
          | again => exact .inl ⟨_, ht.wipe_eq h₀ hi' (.inl rfl), .wipe h₀ hi'⟩
          | closed => exact .inl ⟨_, ht.wipe_eq h₀ hi' (.inr rfl), .wipe h₀ hi'⟩
          | failed => exact .inl ⟨_, ht.fail_eq h₀ hi', .fail h₀ hi'⟩
        · split
          · rename_i hout
            have h₀ : 0 < i := by
              rcases Nat.eq_zero_or_pos i with rfl | h₀
              · rw [ht.listen.1] at hout
                cases hout
              · exact h₀
            exact ht.serve_goes h₀ hi' hout
          · exact .inl ⟨_, rfl, .skip _⟩

/-- `poll` does not touch what the room depends on. -/
theorem Server.room_polled (revents : List Flags) : (s.polled revents).room = s.room := by
  have hclients : (s.polled revents).clients = s.clients := by
    unfold Server.clients Server.entries
    rw [List.map_map, List.map_map]
    rfl
  have hwaiting : ∀ c, (s.polled revents).waiting c ↔ s.waiting c := by
    intro c
    unfold Server.waiting Server.entries
    simp only [List.mem_map, exists_exists_and_eq_and]
    rfl
  apply Room.ext
  · exact hclients
  · funext c
    simp only [Server.room, hwaiting]
    rfl
  · rfl
  · rfl

/-- What `poll` reports does not change the table. -/
theorem Table.polled (ht : Table s) {revents : List Flags}
    (hr : ∀ r ∈ revents[0]?, r.within (s.fds.entry 0).events) : Table (s.polled revents) := by
  have hclients : (s.polled revents).clients = s.clients :=
    congrArg Room.members (Server.room_polled revents)
  refine ⟨ht.fds, ht.users, ht.limit, ht.buf, ht.listenfd, ⟨ht.listen.1, ht.listen.2.1, ?_⟩,
    hclients ▸ ht.nodup, hclients ▸ ht.client, ?_, ht.short⟩
  · show (revents[0]?.getD (s.fds.entry 0).revents).pollrdhup = false
    cases hrev : revents[0]? with
    | none => exact ht.listen.2.2
    | some r =>
        have hwithin := (hr r hrev).2.2
        rw [ht.listen.2.1] at hwithin
        simpa using hwithin
  · rw [Server.room_polled]
    exact ht.pointer

/-- One step of the server, as `Visits` has it for the loop over `fds`. -/
inductive Server.Moves (s : Server) : Action → Server → Prop
  | poll {revents : List Flags} : (∀ r ∈ revents[0]?, r.within (s.fds.entry 0).events) →
      Moves s (.poll revents) (s.polled revents)
  | pollFailed : Moves s .pollFailed { s with phase := .ended }
  | visit {i : Nat} {connfd : Option Nat} {r : Received} {s' : Server} : s.phase = .visiting i →
      s.Visits i (s.moveAt i connfd r) s' → Moves s (.visit connfd r) s'

/-- A step can only fail at a string that does not end within its buffer. -/
theorem Table.moves {act : Action} (ht : Table s) (he : Server.machine.enabled s act) :
    (∃ s', Server.machine.step s act = .ok s' ∧ s.Moves act s') ∨
      (Server.machine.step s act = .error .outOfBounds ∧ ∃ i, s.phase = .visiting i ∧ s.Unended i) := by
  cases act with
  | poll revents => exact .inl ⟨_, rfl, .poll (he.2.2 0 (by omega))⟩
  | pollFailed => exact .inl ⟨_, rfl, .pollFailed⟩
  | visit connfd r =>
      obtain ⟨hpolling, hended, hr, hc⟩ := he
      cases hp : s.phase with
      | polling => exact absurd hp hpolling
      | ended => exact absurd hp hended
      | visiting i =>
          have heq : Server.machine.step s (.visit connfd r) = s.visit i connfd r := by
            show (match s.phase with
              | .visiting i => s.visit i connfd r
              | _ => return s) = _
            rw [hp]
          rw [heq]
          rcases ht.visit hr hc with ⟨s', hs', hv⟩ | ⟨hs', hu⟩
          · exact .inl ⟨s', hs', .visit hp hv⟩
          · exact .inr ⟨hs', i, rfl, hu⟩

/-- A step of the server is one of its moves. -/
theorem Table.moves_of_step {act : Action} (ht : Table s) (he : Server.machine.enabled s act)
    (hs : Server.machine.step s act = .ok s') : s.Moves act s' := by
  rcases ht.moves he with hreturns | ⟨hfail, -⟩
  · exact Machine.of_returns hreturns hs
  · rw [hs] at hfail
    cases hfail

/-- Every move of the server is a move of the room. -/
theorem Server.Moves.simulates {act : Action} (ht : Table s) (hm : s.Moves act s') :
    Simulates s s' (s.move act) := by
  cases hm with
  | poll hr =>
      refine ⟨trivial, ht.polled hr, ?_⟩
      rw [Server.room_polled]
      exact Room.Same.refl _
  | pollFailed => exact .skip ht _
  | visit hp hv =>
      unfold Server.move
      rw [hp]
      exact hv.simulates ht

/-- **Every step of the server is a move of the room.** -/
theorem Table.step {act : Action} (ht : Table s) (hterm : s.room.Terminated)
    (he : Server.machine.enabled s act) :
    ∃ s', Server.machine.step s act = .ok s' ∧ Simulates s s' (s.move act) := by
  rcases ht.moves he with ⟨s', hs', hm⟩ | ⟨-, i, -, hu⟩
  · exact ⟨s', hs', hm.simulates ht⟩
  · exact absurd hterm (ht.not_terminated hu)

end LinuxServer.Chat
