import LinuxServer.Chat.Refinement

/-!
# What the clients are told

Over whole runs of the chat server:

* `none_lost_iff`: no message is lost exactly if no client sends anything while something is to be sent
  to another, and no buffer is cleared or replaced that a client is still to be sent.
* `genuine_iff`: whatever is sent to a client is what another one said last, exactly if no such buffer is
  cleared or replaced.

The server does neither wait for its clients to be served before it reads from others, nor for the
clients that depend on a buffer before it gives that buffer away.
-/

namespace LinuxServer.Chat

open Library

namespace Room

instance (r : Room) (x : Nat) (after : List UInt8) : Decidable (r.Spares x after) :=
  inferInstanceAs (Decidable (∀ c ∈ r.members, c ≠ x → r.slot c = some x → r.text x = after))

instance (r : Room) (mv : Move) : Decidable (r.Careful mv) :=
  match mv with
  | .leave x after => inferInstanceAs (Decidable (r.Spares x after))
  | .wipe x => inferInstanceAs (Decidable (r.Spares x []))
  | .skip | .join _ | .say _ _ | .serve _ => inferInstanceAs (Decidable True)

instance (r : Room) (mv : Move) : Decidable (r.Patient mv) :=
  match mv with
  | .say x _ => inferInstanceAs (Decidable (∀ c ∈ r.members, c ≠ x → r.slot c = none))
  | .skip => inferInstanceAs (Decidable (r.Careful .skip))
  | .join c => inferInstanceAs (Decidable (r.Careful (.join c)))
  | .leave x after => inferInstanceAs (Decidable (r.Careful (.leave x after)))
  | .wipe x => inferInstanceAs (Decidable (r.Careful (.wipe x)))
  | .serve c => inferInstanceAs (Decidable (r.Careful (.serve c)))

variable {r : Room} {c : Nat} {m : List UInt8}

/-! ## Strings end within their buffers -/

theorem mem_owed {log : List Event} (h : m ∈ owed c log) : ∃ x, .received x m ∈ log := by
  induction log with
  | nil => cases h
  | cons ev log ih =>
      have hlog : m ∈ owed c log → ∃ x, .received x m ∈ ev :: log := by
        intro h
        obtain ⟨x, hx⟩ := ih h
        exact ⟨x, List.mem_cons_of_mem _ hx⟩
      cases ev with
      | joined x =>
          rw [owed] at h
          split at h
          · cases h
          · exact hlog h
      | received x m' =>
          rw [owed] at h
          split at h
          · exact hlog h
          · rcases List.mem_append.mp h with h | h
            · exact hlog h
            · rw [List.mem_singleton.mp h]
              exact ⟨x, List.mem_cons_self⟩
      | sent x t => exact hlog h
      | left x => exact hlog h

section Terminated
variable (hshort : ∀ x m, .received x m ∈ r.log → m.length < bufferSize)
include hshort

theorem length_cstr_owed (h : m ∈ owed c r.log) : (cstr m).length < bufferSize := by
  obtain ⟨x, hx⟩ := mem_owed h
  exact lt_of_le_of_lt (length_cstr_le m) (hshort x m hx)

theorem Complete.terminated (hr : r.Complete) : r.Terminated := by
  intro c hc f hf
  have hall := hr c hc
  rw [hf] at hall
  have hmem : r.text f ∈ (owed c r.log).map cstr := by
    rw [hall]
    simp
  obtain ⟨m, hm, heq⟩ := List.mem_map.mp hmem
  rw [← heq]
  exact length_cstr_owed hshort hm

theorem Sound.terminated (hr : r.Sound) : r.Terminated := by
  intro c hc f hf
  obtain ⟨m, hm, heq⟩ := hr.2 c hc f hf
  rw [heq]
  exact length_cstr_owed hshort (List.mem_of_getLast? hm)

end Terminated
end Room

/-! ## Whole runs -/

namespace Server

/-- Every client was sent, once and in order, what the others said since it joined, save the last message
if that is still to be sent. -/
def NoneLost (s : Server) : Prop := s.room.Complete

/-- What a client was sent, and what it is to be sent, is what another one said last, since it joined. -/
def AllGenuine (s : Server) : Prop := s.room.Sound

def Patient (s : Server) (act : Action) : Prop := s.room.Patient (s.move act)

def Careful (s : Server) (act : Action) : Prop := s.room.Careful (s.move act)

instance (s : Server) (act : Action) : Decidable (s.Patient act) :=
  inferInstanceAs (Decidable (s.room.Patient (s.move act)))

instance (s : Server) (act : Action) : Decidable (s.Careful act) :=
  inferInstanceAs (Decidable (s.room.Careful (s.move act)))

variable {s s' : Server} {act : Action}

theorem init_table (hi : machine.init s) : Table s ∧ s.clients = [] := by
  obtain ⟨hfds, husers, hbuf, hzero, hcount, -, hlog⟩ := hi
  have hentries : s.entries = [] := by simp [entries, hcount]
  have hclients : s.clients = [] := by simp [clients, hentries]
  refine ⟨⟨hfds, husers, by omega, hbuf, ?_, ?_, ?_, ?_, ?_, ?_⟩, hclients⟩
  · rw [hzero]
  · rw [hzero]
    exact ⟨rfl, rfl, rfl⟩
  · rw [hclients]
    exact List.nodup_nil
  · intro c hc
    rw [hclients] at hc
    cases hc
  · intro c f hf
    have := mem_clients_of_slot hf
    rw [hclients] at this
    cases this
  · intro x m hm
    rw [hlog] at hm
    cases hm

/-- A property of rooms that every move keeps exactly under `C` holds throughout a run of the server
exactly if all its moves meet `C`. -/
theorem room_exact {P : Room → Prop} {C : Room → Room.Move → Prop} {h : List (Server × Action)}
    (hr : machine.Run h s)
    (hstart : ∀ r : Room, r.members = [] → r.log = [] → P r)
    (hterm : ∀ r : Room, (∀ x m, .received x m ∈ r.log → m.length < bufferSize) → P r →
      r.Terminated)
    (hsame : ∀ r r' : Room, r.Same r' → (P r ↔ P r'))
    (hmove : ∀ (r : Room) (mv : Room.Move), r.enabled mv → r.Apart → P r → (P (r.step mv) ↔ C r mv)) :
    (Machine.Throughout (fun s => P s.room) h s ↔ Machine.Always (fun s act => C s.room (s.move act)) h) ∧
    (Machine.Always (fun s act => C s.room (s.move act)) h →
      ∀ act, machine.enabled s act → ∃ s', machine.step s act = .ok s') := by
  have hinit : ∀ s, machine.init s → (Table s ∧ s.room.Apart) ∧ P s.room := by
    intro s hi
    obtain ⟨ht, hclients⟩ := init_table hi
    refine ⟨⟨ht, ?_⟩, hstart _ hclients hi.2.2.2.2.2.2⟩
    intro c hc
    have hc : c ∈ s.clients := hc
    rw [hclients] at hc
    cases hc
  refine hr.exact_of_iff hinit ?_
  -- one step, as a move of the room
  intro s act ⟨ht, ha⟩ hP he
  obtain ⟨s', hs', hen, ht', hroom⟩ := ht.step (hterm _ ht.short hP) he
  refine ⟨s', hs', ⟨ht', hroom.apart (ha.step hen)⟩, ?_⟩
  exact (hsame _ _ hroom).trans (hmove _ _ hen ha hP)

/-- A start with empty tables. -/
def start : Server where
  listenfd := 3
  fds := Block.fill (userLimit + 1)
    { fd := 3, events := ⟨true, false, true, false⟩, revents := Flags.none }
  users := Block.fill fdLimit { writeBuf := none, buf := Block.fill bufferSize 0 }
  userCount := 0
  phase := .polling
  log := []

theorem init_start : machine.init start := ⟨rfl, rfl, fun _ => rfl, rfl, rfl, rfl, rfl⟩

/-- A visit in which nothing is accepted or received. -/
def quiet : Action := .visit none .again

def readable : Flags := ⟨true, false, false, false⟩

def hungUp : Flags := ⟨false, false, false, true⟩

/-- The pass in which a client arrives on `fd`, after `n` others. -/
def arrival (fd n : Nat) : List Action :=
  .poll (readable :: List.replicate n Flags.none) :: .visit (some fd) .again ::
    List.replicate (n + 2) quiet

/-- **No message is lost in a run exactly if** no client sends anything while something is to be sent to
another client, and no buffer changes that a client is to be sent. Such a run does not fault. -/
theorem none_lost_iff {h : List (Server × Action)} (hr : machine.Run h s) :
    (Machine.Throughout NoneLost h s ↔ Machine.Always Patient h) ∧
    (Machine.Always Patient h → ∀ act, machine.enabled s act → ∃ s', machine.step s act = .ok s') := by
  refine room_exact hr ?_ (fun r hshort hP => hP.terminated hshort) (fun r r' h => h.complete)
    (fun r mv _ ha hP => Room.complete_step ha hP mv)
  intro r hmembers _ c hc
  rw [hmembers] at hc
  cases hc

/-- Of three clients, the first one says `a`. When the others have been sent it, the second one says
`b`. -/
theorem none_lost_in_turn :
    ∃ h s, machine.Run h s ∧
      (owed 7 s.log, sentTo 7 s.log) = ([[97], [98]], [[97], [98]]) ∧
      Machine.Throughout NoneLost h s := by
  obtain ⟨h, s, hr, -, hs⟩ := Machine.Run.of_replay (M := machine.restrict Patient)
    (arrival 5 0 ++ arrival 6 1 ++ arrival 7 2 ++
      [.poll [Flags.none, readable, Flags.none, Flags.none], quiet, .visit none (.data [97]),
        quiet, quiet, quiet] ++
      [.poll [Flags.none, Flags.none, readable, Flags.none], quiet, quiet, .visit none (.data [98]),
        quiet, quiet])
    (fun s => (owed 7 s.log, sentTo 7 s.log)) init_start
    (b := ([[97], [98]], [[97], [98]])) (by decide +kernel)
  obtain ⟨hr, hC⟩ := hr.of_restrict
  exact ⟨h, s, hr, hs, (none_lost_iff hr).1.mpr hC⟩

/-- The first two of three clients speak in one pass: the third is only sent what the second one said. -/
theorem none_lost_at_once_fails :
    ∃ h s, machine.Run h s ∧
      h.map Prod.snd = arrival 5 0 ++ arrival 6 1 ++ arrival 7 2 ++
        [.poll [Flags.none, readable, readable, Flags.none], quiet, .visit none (.data [97]),
          .visit none (.data [98]), quiet] ∧
      7 ∈ s.clients ∧ owed 7 s.log = [[97], [98]] ∧ sentTo 7 s.log = [[98]] ∧ ¬ s.NoneLost := by
  obtain ⟨h, s, hr, has, hs⟩ := Machine.Run.of_replay (M := machine)
    (arrival 5 0 ++ arrival 6 1 ++ arrival 7 2 ++
      [.poll [Flags.none, readable, readable, Flags.none], quiet, .visit none (.data [97]),
        .visit none (.data [98]), quiet])
    (fun s => (s.clients, owed 7 s.log, sentTo 7 s.log, s.room.slot 7)) init_start
    (b := ([5, 6, 7], [[97], [98]], [[98]], none)) (by decide +kernel)
  obtain ⟨hclients, howed, hsent, hslot⟩ : _ ∧ _ ∧ _ ∧ _ := by simpa only [Prod.mk.injEq] using hs
  have hmem : 7 ∈ s.clients := by rw [hclients]; decide
  refine ⟨h, s, hr, has, hmem, howed, hsent, ?_⟩
  intro hnone
  have hall : (owed 7 s.log).map cstr = sentTo 7 s.log ++ (s.room.slot 7).toList.map s.room.text :=
    hnone 7 hmem
  rw [howed, hsent, hslot] at hall
  simpa using congrArg List.length hall

/-- **Whatever is sent to a client in a run is what another one said last, exactly if** no buffer changes
that a client is to be sent. Such a run does not fault. -/
theorem genuine_iff {h : List (Server × Action)} (hr : machine.Run h s) :
    (Machine.Throughout AllGenuine h s ↔ Machine.Always Careful h) ∧
    (Machine.Always Careful h → ∀ act, machine.enabled s act → ∃ s', machine.step s act = .ok s') := by
  refine room_exact hr ?_ (fun r hshort hP => hP.terminated hshort) (fun r r' h => h.sound)
    (fun r mv hen ha hP => Room.sound_step hen ha hP)
  intro r hmembers hlog
  refine ⟨by rw [hlog]; trivial, ?_⟩
  intro c hc
  rw [hmembers] at hc
  cases hc

/-- Of two clients, the first one says `a` and leaves when the second one has been sent it. -/
theorem genuine_before_leaving :
    ∃ h s, machine.Run h s ∧
      s.log = [.left 5, .sent 6 [97], .received 5 [97], .joined 6, .joined 5] ∧
      Machine.Throughout AllGenuine h s := by
  obtain ⟨h, s, hr, -, hs⟩ := Machine.Run.of_replay (M := machine.restrict Careful)
    (arrival 5 0 ++ arrival 6 1 ++
      [.poll [Flags.none, readable, Flags.none], quiet, .visit none (.data [97]), quiet, quiet] ++
      [.poll [Flags.none, hungUp, Flags.none], quiet, quiet, quiet, quiet])
    Server.log init_start
    (b := [.left 5, .sent 6 [97], .received 5 [97], .joined 6, .joined 5]) (by decide +kernel)
  obtain ⟨hr, hC⟩ := hr.of_restrict
  exact ⟨h, s, hr, hs, (genuine_iff hr).1.mpr hC⟩

/-- Two clients speak in one pass, and the first one leaves in the next: its record is replaced by that of
the second, which is then sent its own `b`. -/
theorem genuine_leaving_fails :
    ∃ h s, machine.Run h s ∧
      h.map Prod.snd = arrival 5 0 ++ arrival 6 1 ++
        [.poll [Flags.none, readable, readable], quiet, .visit none (.data [97]),
          .visit none (.data [98]), quiet] ++
        [.poll [Flags.none, hungUp, Flags.none], quiet, quiet, quiet] ∧
      s.log = [.sent 6 [98], .left 5, .received 6 [98], .received 5 [97], .joined 6, .joined 5] ∧
      ¬ s.AllGenuine := by
  obtain ⟨h, s, hr, has, hs⟩ := Machine.Run.of_replay (M := machine)
    (arrival 5 0 ++ arrival 6 1 ++
      [.poll [Flags.none, readable, readable], quiet, .visit none (.data [97]),
        .visit none (.data [98]), quiet] ++
      [.poll [Flags.none, hungUp, Flags.none], quiet, quiet, quiet])
    Server.log init_start
    (b := [.sent 6 [98], .left 5, .received 6 [98], .received 5 [97], .joined 6, .joined 5])
    (by decide +kernel)
  refine ⟨h, s, hr, has, hs, ?_⟩
  rintro ⟨hgenuine, -⟩
  have hlog : s.room.log = s.log := rfl
  rw [hlog, hs] at hgenuine
  obtain ⟨⟨m, hm, heq⟩, -⟩ := hgenuine
  -- the only message for the second client was `a`
  obtain rfl : [97] = m := Option.some.inj hm
  exact absurd heq (by decide)

end Server
end LinuxServer.Chat
