import LinuxServer.Chat.Clients

/-!
# A pass over the clients

When `poll` returns, the loop goes over `fds` with an index, and with `user_count` as its bound. Both
change on the way: a client that leaves makes room for the last one, which is looked at next, and one that
arrives is looked at before the pass is over.

`examined_once` says that a pass comes to its end all the same, and that it looks at each entry that was
polled once and with its own `revents`. What the pass has yet to look at is the list `Server.ahead`, and a
turn takes one entry off it (`Table.turn`).

A string that does not end within its buffer is read on, up to the next NUL that happens to follow. The
pass does not depend on what is sent then.
-/

namespace LinuxServer.Chat

open Library

namespace Server

/-- The descriptor of entry `k`, and what `poll` said about it. -/
def watch (s : Server) (k : Nat) : Nat × Flags := ((s.fds.entry k).fd, (s.fds.entry k).revents)

/-- What the loop looks at from entry `i` on. -/
def ahead (s : Server) (i : Nat) : List (Nat × Flags) := between s.watch i (s.userCount + 1)

/-- One turn of the loop. -/
inductive Turn (s : Server) (i : Nat) (connfd : Option Nat) (r : Received) : Server → Prop
  | goes {s' : Server} : s.visit i connfd r = .ok s' → Turn s i connfd r s'
  | overrun (text : List UInt8) : s.visit i connfd r = .error .outOfBounds → s.Unended i →
      Turn s i connfd r (s.served i text)

/-- The pass that begins in `s₀`, after `n` turns, in which the body of the loop looked at `seen`. The last
turn is the one in which the condition of the loop fails. -/
inductive Pass (s₀ : Server) : Nat → List (Nat × Flags) → Server → Prop
  | start : Pass s₀ 0 [] s₀
  | turn {n i : Nat} {seen : List (Nat × Flags)} {connfd : Option Nat} {r : Received} {s s' : Server} :
      Pass s₀ n seen s → s.phase = .visiting i → machine.enabled s (.visit connfd r) →
      s.Turn i connfd r s' →
      Pass s₀ (n + 1) (seen ++ if i < s.userCount + 1 then [s.watch i] else []) s'

/-- What a turn does to the entries: nothing, or a client has been added at the end, or the last one has
been put in place of entry `i`. -/
inductive Shifts (s : Server) (i : Nat) (s' : Server) : Prop
  | on : s'.phase = .visiting (i + 1) → s'.userCount = s.userCount → s'.watch = s.watch → Shifts s i s'
  | joined (c : Nat) : i = 0 → c ≠ s.listenfd → c ∉ s.clients → s'.phase = .visiting (i + 1) →
      s'.userCount = s.userCount + 1 →
      s'.watch = Function.update s.watch (s.userCount + 1) (c, Flags.none) → Shifts s i s'
  | left : 0 < i → s'.phase = .visiting i → s'.userCount + 1 = s.userCount →
      s'.watch = Function.update s.watch i (s.watch s.userCount) → Shifts s i s'

variable {s s' s₀ : Server} {i n c : Nat} {connfd : Option Nat} {r : Received}
  {seen : List (Nat × Flags)}

/-! ## One turn -/

theorem watch_update (k : Nat) (p : PollFd) {t : Server}
    (ht : t.fds.entry = Function.update s.fds.entry k p) :
    t.watch = Function.update s.watch k (p.fd, p.revents) := by
  funext j
  unfold watch
  rw [ht]
  by_cases hj : j = k
  · rw [hj, Function.update_self, Function.update_self]
  · rw [Function.update_of_ne hj, Function.update_of_ne hj]

theorem watch_offered (x n : Nat) : (s.offered x n).watch = s.watch := by
  funext j
  show ((marked s.fds.entry x n j).fd, (marked s.fds.entry x n j).revents) = _
  rw [marked_apply]
  split
  · rfl
  · rfl

theorem watch_served (text : List UInt8) : (s.served i text).watch = s.watch := by
  rw [watch_update i (s.fds.entry i).toRead rfl]
  exact Function.update_eq_self i s.watch

/-- If the room does not notice a turn, the loop just goes on. -/
theorem visit_skip (ht : Table s) (hi : i < s.userCount + 1) (hmv : s.moveAt i connfd r = .skip)
    (hv : s.visit i connfd r = .ok s') : s' = s.goto (i + 1) := by
  unfold visit at hv
  unfold moveAt at hmv
  dsimp only at hmv
  rw [if_pos hi, Block.read_eq (ht.lt_fds (Nat.le_of_lt_succ hi)), ok_bind] at hv
  rw [if_pos hi] at hmv
  split at hmv
  · rename_i hlisten
    rw [if_pos hlisten] at hv
    cases connfd with
    | none => exact (Except.ok.inj hv).symm
    | some c =>
        dsimp only at hmv
        split at hmv
        · rename_i hfull
          rw [onAccept, if_pos hfull] at hv
          exact (Except.ok.inj hv).symm
        · cases hmv
  · rename_i hlisten
    rw [if_neg hlisten] at hv
    split at hmv
    · rename_i herr
      rw [if_pos herr] at hv
      exact (Except.ok.inj hv).symm
    · rename_i herr
      rw [if_neg herr] at hv
      split at hmv
      · cases hmv
      · rename_i hhup
        rw [if_neg hhup] at hv
        split at hmv
        · cases r <;> cases hmv
        · rename_i hin
          rw [if_neg hin] at hv
          split at hmv
          · cases hmv
          · rename_i hout
            rw [if_neg hout] at hv
            exact (Except.ok.inj hv).symm

/-- It is the listening socket that clients are accepted from. -/
theorem index_of_join (ht : Table s) (hmv : s.moveAt i connfd r = .join c) : i = 0 := by
  unfold moveAt at hmv
  dsimp only at hmv
  split at hmv
  · rename_i hi
    split at hmv
    · rename_i hlisten
      by_contra h₀
      have hmem : s.fds.entry i ∈ s.entries := entry_mem (Nat.pos_of_ne_zero h₀) (by omega)
      exact (ht.client _ (mem_clients.mpr ⟨_, hmem, rfl⟩)).1 hlisten.1
    · split at hmv
      · cases hmv
      · split at hmv
        · cases hmv
        · split at hmv
          · cases r <;> cases hmv
          · split at hmv
            · cases hmv
            · cases hmv
  · cases hmv

/-- **A turn at an entry** keeps the tables in order. -/
theorem turn_shifts (ht : Table s) (hi : i < s.userCount + 1) (hr : r.fits)
    (hc : ∀ c ∈ connfd, c ≠ s.listenfd ∧ c < fdLimit ∧ c ∉ s.clients)
    (hturn : s.Turn i connfd r s') : Table s' ∧ s.Shifts i s' := by
  cases hturn with
  | overrun text _ hu =>
      exact ⟨ht.served hu.1 hu.2.1, .on rfl rfl (watch_served text)⟩
  | goes hv =>
      rcases ht.visit hr hc with ⟨t, hv', hvis⟩ | ⟨herr, -⟩
      case inr =>
        rw [herr] at hv
        cases hv
      obtain rfl := Except.ok.inj (hv.symm.trans hv')
      refine ⟨(hvis.simulates ht).table, ?_⟩
      have hcount : 0 < i → s.userCount - 1 + 1 = s.userCount := by omega
      generalize hmv : s.moveAt i connfd r = mv at hvis
      cases hvis with
      | skip p =>
          rw [visit_skip ht hi hmv hv]
          exact .on rfl rfl rfl
      | @join c _ hl _ hnew =>
          exact .joined c (index_of_join ht hmv) hl hnew rfl rfl (watch_update _ (PollFd.make c) rfl)
      | hangUp h₀ hi =>
          exact .left h₀ rfl (hcount h₀) (watch_update i (s.fds.entry s.userCount) rfl)
      | fail h₀ hi =>
          exact .left h₀ rfl (hcount h₀) (watch_update i (s.fds.entry s.userCount) rfl)
      | say h₀ hi hm => exact .on rfl rfl (watch_offered _ _)
      | wipe h₀ hi => exact .on rfl rfl rfl
      | unserved h₀ hi hout hptr => exact .on rfl rfl rfl
      | serve h₀ hi hout hptr => exact .on rfl rfl (watch_served _)

theorem turn_exists (ht : Table s) (he : machine.enabled s (.visit connfd r)) (i : Nat) :
    ∃ t, s.Turn i connfd r t := by
  obtain ⟨-, -, hr, hc⟩ := he
  rcases ht.visit hr hc with ⟨t, hv, -⟩ | ⟨herr, hu⟩
  · exact ⟨t, .goes hv⟩
  · exact ⟨_, .overrun [] herr hu⟩

/-- A turn takes an entry off those ahead, and may add one. -/
theorem Shifts.ahead (hi : i < s.userCount + 1) (hs : s.Shifts i s') :
    ∃ (j : Nat) (new : List Nat), s'.phase = .visiting j ∧ 0 < j ∧ j ≤ s'.userCount + 1 ∧
      s.userCount + 1 + new.length + j = s'.userCount + 1 + i + 1 ∧
      (s.ahead i ++ new.map (·, Flags.none)).Perm (s.watch i :: s'.ahead j) ∧
      (new = [] ∨ i = 0 ∧ ∃ c, new = [c] ∧ c ≠ s.listenfd ∧ c ∉ s.clients) := by
  cases hs with
  | on hphase hcount hwatch =>
      refine ⟨i + 1, [], hphase, by omega, by omega, by simp; omega, ?_, .inl rfl⟩
      unfold Server.ahead
      rw [hwatch, hcount, between_cons _ hi]
      simp
  | joined c h₀ hl hnew hphase hcount hwatch =>
      refine ⟨i + 1, [c], hphase, by omega, by omega, by simp; omega, ?_, .inr ⟨h₀, c, rfl, hl, hnew⟩⟩
      unfold Server.ahead
      rw [hwatch, hcount, between_cons _ hi, between_update_last _ (by omega)]
      simp
  | left h₀ hphase hcount hwatch =>
      refine ⟨i, [], hphase, h₀, by omega, by simp; omega, ?_, .inl rfl⟩
      unfold Server.ahead
      rw [hwatch, hcount]
      simpa using between_swap_last s.watch (Nat.le_of_lt_succ hi)

/-! ## A whole pass -/

/-- The account of a pass that began in `s₀`: what was seen and what is ahead is what was there at the
start and the clients `new`, and there is as much left as there are turns to go. -/
structure Account (s₀ : Server) (n : Nat) (seen : List (Nat × Flags)) (s : Server) (i : Nat)
    (new : List Nat) : Prop where
  first : i = 0 → s = s₀ ∧ new = []
  one : new.length ≤ 1
  fresh : ∀ c ∈ new, c ≠ s₀.listenfd ∧ c ∉ s₀.clients
  inside : i ≤ s.userCount + 1
  turns : n + (s.userCount + 1) = s₀.userCount + 1 + new.length + i
  seen : (seen ++ s.ahead i).Perm (s₀.ahead 0 ++ new.map (·, Flags.none))

theorem Account.turn {new : List Nat} (ha : Account s₀ n seen s i new) (hi : i < s.userCount + 1)
    (hs : s.Shifts i s') :
    ∃ j new', s'.phase = .visiting j ∧ Account s₀ (n + 1) (seen ++ [s.watch i]) s' j new' := by
  obtain ⟨j, add, hphase, hj, hle, hcount, hperm, hadd⟩ := hs.ahead hi
  refine ⟨j, new ++ add, hphase, ?_, ?_, ?_, hle, ?_, ?_⟩
  · intro h
    omega
  · rcases hadd with rfl | ⟨h₀, c, rfl, -⟩
    · simpa using ha.one
    · rw [(ha.first h₀).2]
      simp
  · intro c hc
    rcases List.mem_append.mp hc with hc | hc
    · exact ha.fresh c hc
    · rcases hadd with rfl | ⟨h₀, d, rfl, hl, hnew⟩
      · cases hc
      · rw [List.mem_singleton.mp hc, ← (ha.first h₀).1]
        exact ⟨hl, hnew⟩
  · have := ha.turns
    simp only [List.length_append]
    omega
  · calc (seen ++ [s.watch i]) ++ s'.ahead j
      _ = seen ++ (s.watch i :: s'.ahead j) := by simp
      _ |>.Perm (seen ++ (s.ahead i ++ add.map (·, Flags.none))) := hperm.symm.append_left _
      _ = (seen ++ s.ahead i) ++ add.map (·, Flags.none) := by simp
      _ |>.Perm ((s₀.ahead 0 ++ new.map (·, Flags.none)) ++ add.map (·, Flags.none)) :=
        ha.seen.append_right _
      _ = s₀.ahead 0 ++ (new ++ add).map (·, Flags.none) := by simp

/-- What a pass that is over has seen. -/
def Covers (s₀ : Server) (seen : List (Nat × Flags)) : Prop :=
  ∃ new : List Nat, new.length ≤ 1 ∧ (∀ c ∈ new, c ≠ s₀.listenfd ∧ c ∉ s₀.clients) ∧
    seen.Perm (s₀.ahead 0 ++ new.map (·, Flags.none))

theorem Account.le {new : List Nat} (ha : Account s₀ n seen s i new) : n ≤ s₀.userCount + 2 := by
  have := ha.turns
  have := ha.one
  have := ha.inside
  omega

theorem Account.over {new : List Nat} (ha : Account s₀ n seen s i new) (hi : ¬ i < s.userCount + 1) :
    s₀.Covers seen := by
  obtain rfl : i = s.userCount + 1 := Nat.le_antisymm ha.inside (Nat.le_of_not_lt hi)
  have hseen := ha.seen
  rw [ahead, between_self, List.append_nil] at hseen
  exact ⟨new, ha.one, ha.fresh, hseen⟩

theorem Pass.account (ht : Table s₀) (hphase : s₀.phase = .visiting 0) (hp : s₀.Pass n seen s) :
    Table s ∧ n ≤ s₀.userCount + 3 ∧ ((∃ i new, s.phase = .visiting i ∧ Account s₀ n seen s i new) ∨
      (s.phase = .polling ∧ s₀.Covers seen)) := by
  induction hp with
  | start =>
      refine ⟨ht, by omega, .inl ⟨0, [], hphase, fun _ => ⟨rfl, rfl⟩, by simp, ?_, by omega, by simp, by simp⟩⟩
      intro c hc
      cases hc
  | @turn n i seen connfd r s s' hp hi he hturn ih =>
      obtain ⟨ht, -, hacc⟩ := ih
      rcases hacc with ⟨i', new, hi', ha⟩ | ⟨hpolling, -⟩
      case inr =>
        rw [hi] at hpolling
        cases hpolling
      obtain rfl : i = i' := Phase.visiting.inj (hi.symm.trans hi')
      obtain ⟨-, -, hr, hc⟩ := he
      by_cases hlt : i < s.userCount + 1
      · obtain ⟨ht', hs⟩ := turn_shifts ht hlt hr hc hturn
        obtain ⟨j, new', hj, ha'⟩ := ha.turn hlt hs
        rw [if_pos hlt]
        exact ⟨ht', Nat.le_succ_of_le ha'.le, .inl ⟨j, new', hj, ha'⟩⟩
      · -- the condition of the loop fails
        have hn := ha.le
        rw [if_neg hlt, List.append_nil]
        cases hturn with
        | overrun text herr _ =>
            rw [visit, if_neg hlt] at herr
            cases herr
        | goes hv =>
            rw [visit, if_neg hlt] at hv
            obtain rfl := Except.ok.inj hv
            exact ⟨ht.setPhase _, by omega, .inr ⟨rfl, ha.over hlt⟩⟩

/-- A pass can be carried on to its end. -/
theorem Pass.complete (ht : Table s₀) (hphase : s₀.phase = .visiting 0) :
    ∃ n seen s, s₀.Pass n seen s ∧ s.phase = .polling := by
  -- by induction on the number of turns that may be left
  suffices h : ∀ k n seen s, s₀.Pass n seen s → s₀.userCount + 4 ≤ n + k →
      ∃ n seen s, s₀.Pass n seen s ∧ s.phase = .polling from h (s₀.userCount + 4) 0 [] s₀ .start (by omega)
  intro k
  induction k with
  | zero =>
      intro n seen s hp hn
      have := (hp.account ht hphase).2.1
      omega
  | succ k ih =>
      intro n seen s hp hn
      obtain ⟨hts, -, ⟨i, new, hi, -⟩ | ⟨hpolling, -⟩⟩ := hp.account ht hphase
      · have he : machine.enabled s quiet := ⟨by simp [hi], by simp [hi], trivial, by simp⟩
        obtain ⟨t, hturn⟩ := turn_exists hts he i
        exact ih _ _ _ (hp.turn hi he hturn) (by omega)
      · exact ⟨n, seen, s, hp, hpolling⟩

/-- What was polled. -/
theorem ahead_polled (ht : Table s) {revents : List Flags} (hlen : revents.length = s.userCount + 1) :
    (s.polled revents).ahead 0 = (s.listenfd :: s.clients).zip revents := by
  have hfds : s.listenfd :: s.clients = (List.range (s.userCount + 1)).map fun k => (s.fds.entry k).fd := by
    rw [List.range_succ_eq_map, List.map_cons, ht.listenfd, List.map_map]
    unfold clients entries
    rw [List.map_map]
    rfl
  rw [hfds, ahead, between_zero]
  show (List.range (s.userCount + 1)).map _ = _
  apply List.ext_getElem
  · simp [hlen]
  · intro k hk hk'
    have hkr : k < revents.length := by
      rw [hlen]
      simpa using hk
    simp [watch, polled, hkr]

/-- **A pass over `fds` comes to its end, and looks at every entry that was polled once, with its own
`revents`.** The only other entry it looks at is that of a client accepted in the pass, for which nothing
has been reported. This is so whatever is accepted and received, and however many clients leave. -/
theorem examined_once (ht : Table s) {revents : List Flags} (he : machine.enabled s (.poll revents))
    (hp : (s.polled revents).Pass n seen s') :
    n ≤ s.userCount + 3 ∧
    (s'.phase = .polling ∨ ∃ i, s'.phase = .visiting i ∧ ∀ connfd r,
      machine.enabled s' (.visit connfd r) → ∃ t, s'.Turn i connfd r t) ∧
    (s'.phase = .polling → (seen.map Prod.fst).Nodup ∧ ∃ new : List Nat, new.length ≤ 1 ∧
      seen.Perm ((s.listenfd :: s.clients).zip revents ++ new.map (·, Flags.none))) := by
  obtain ⟨-, hlen, hwithin⟩ := he
  have ht₀ : Table (s.polled revents) := ht.polled (hwithin 0 (by omega))
  have hclients : (s.polled revents).clients = s.clients := congrArg Room.members (room_polled revents)
  obtain ⟨ht', hn, hacc⟩ := hp.account ht₀ rfl
  refine ⟨hn, ?_, ?_⟩
  · rcases hacc with ⟨i, new, hi, -⟩ | ⟨hpolling, -⟩
    · exact .inr ⟨i, hi, fun connfd r he => turn_exists ht' he i⟩
    · exact .inl hpolling
  · intro hpolling
    rcases hacc with ⟨i, new, hi, -⟩ | ⟨-, new, hone, hfresh, hseen⟩
    · rw [hpolling] at hi
      cases hi
    rw [ahead_polled ht hlen] at hseen
    refine ⟨?_, new, hone, hseen⟩
    -- the descriptors are those of the listening socket, the clients and the new client
    have hfst : ((s.listenfd :: s.clients).zip revents ++ new.map (·, Flags.none)).map Prod.fst =
        (s.listenfd :: s.clients) ++ new := by
      rw [List.map_append, List.map_fst_zip (by simp [hlen, clients, entries]), List.map_map]
      simp [Function.comp_def]
    rw [(hseen.map Prod.fst).nodup_iff, hfst]
    refine List.nodup_append.mpr ⟨List.nodup_cons.mpr ⟨?_, ht.nodup⟩, ?_, ?_⟩
    · intro hmem
      exact (ht.client _ hmem).1 rfl
    · cases new with
      | nil => exact List.nodup_nil
      | cons c rest =>
          obtain rfl : rest = [] := List.length_eq_zero_iff.mp (by simpa using hone)
          exact List.nodup_singleton c
    · intro c hc d hd hcd
      obtain ⟨hl, hnew⟩ := hfresh d hd
      rw [hclients] at hnew
      rcases List.mem_cons.mp hc with rfl | hc
      · exact hl hcd.symm
      · exact hnew (hcd ▸ hc)

/-- Of two clients, the first one leaves and the second one has said something: the second one is looked at
in the place of the first. -/
theorem examined_once_moved :
    ∃ s n seen s', machine.Reachable s ∧ s.clients = [5, 6] ∧
      (s.polled [Flags.none, hungUp, readable]).Pass n seen s' ∧ s'.phase = .polling ∧ n ≤ 5 ∧
      (5, hungUp) ∈ seen ∧ (6, readable) ∈ seen ∧ (seen.map Prod.fst).Nodup := by
  obtain ⟨s, hr, hs⟩ := Machine.Reachable.of_replay (M := machine) (arrival 5 0 ++ arrival 6 1)
    (fun s => (s.clients, decide (machine.enabled s (.poll [Flags.none, hungUp, readable])))) init_start
    (b := ([5, 6], true)) (by decide +kernel)
  obtain ⟨hclients, he⟩ := Prod.mk.inj hs
  have he := of_decide_eq_true he
  have ht := (tables_of_reachable hr).1
  obtain ⟨n, seen, s', hp, hpolling⟩ := Pass.complete (ht.polled (he.2.2 0 (by omega))) rfl
  obtain ⟨hn, -, hover⟩ := examined_once ht he hp
  obtain ⟨hnodup, new, -, hperm⟩ := hover hpolling
  have hcount : s.userCount = 2 := by simpa [clients, entries] using congrArg List.length hclients
  rw [hclients] at hperm
  refine ⟨s, n, seen, s', hr, hclients, hp, hpolling, by omega, ?_, ?_, hnodup⟩
  · exact hperm.mem_iff.mpr (by simp)
  · exact hperm.mem_iff.mpr (by simp)

end Server
end LinuxServer.Chat
