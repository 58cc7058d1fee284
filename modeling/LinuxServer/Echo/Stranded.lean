import LinuxServer.Echo.Streams

/-!
# One call for each report

The loop accepts one connection when the listening socket is reported, and reads one datagram when the
socket for datagrams is. Both are edge-triggered, so what arrives together with something else is reported
once with it, and one of the two is left behind. `stranded` says that this is never made up for.

`udp_replies` is about the datagrams that are sent back.
-/

namespace LinuxServer.Echo.Server

open Library

variable {F : Fds} {s s' : Server} {act : Action} {fd : Fd}

/-! ## Queues and reports -/

/-- What waits in the queue of a socket that is not a connection. -/
def queue (F : Fds) (s : Server) (fd : Fd) : Nat :=
  if fd = F.listenFd then s.backlog.length else s.datagrams.length

/-- How often the loop will still look at `fd`, as far as it is decided. -/
def reports (s : Server) (fd : Fd) : Nat :=
  (if s.edge fd then 1 else 0) + if fd ∈ s.batch then 1 else 0

/-- Whether the action puts something into the queue of `fd`. -/
def arrives (F : Fds) (fd : Fd) : Action → Nat
  | .connect => if fd = F.listenFd then 1 else 0
  | .datagram _ _ => if fd = F.listenFd then 0 else 1
  | _ => 0

/-- Whether the loop looks at `fd`. -/
def served (F : Fds) (fd : Fd) : Action → Nat
  | .accept _ => if fd = F.listenFd then 1 else 0
  | .reply _ => if fd = F.listenFd then 0 else 1
  | _ => 0

/-- A round of the inner loop leaves the queues alone, and what is known about other descriptors. -/
theorem recvOne_frame (s : Server) (fd : Fd) (n : Nat) (k : Option Nat) :
    (s.recvOne fd n k).backlog = s.backlog ∧ (s.recvOne fd n k).datagrams = s.datagrams ∧
      (s.recvOne fd n k).batch = s.batch ∧
      ∀ f, f ≠ fd → (s.recvOne fd n k).edge f = s.edge f := by
  have hclose : (s.close fd).backlog = s.backlog ∧ (s.close fd).datagrams = s.datagrams ∧
      (s.close fd).batch = s.batch ∧ ∀ f, f ≠ fd → (s.close fd).edge f = s.edge f := by
    unfold close
    split
    · exact ⟨rfl, rfl, rfl, fun _ _ => rfl⟩
    · exact ⟨rfl, rfl, rfl, fun f hf => Function.update_of_ne hf ..⟩
  unfold recvOne
  split
  · exact ⟨rfl, rfl, rfl, fun _ _ => rfl⟩
  · split
    · exact ⟨rfl, rfl, rfl, fun _ _ => rfl⟩
    · split
      · exact hclose
      · split
        · exact hclose
        · exact ⟨rfl, rfl, rfl, fun _ _ => rfl⟩

variable (fd) in
/-- A queue gets shorter by at most one when it is looked at. -/
theorem queue_step (he : s.Enabled F act) :
    s.queue F fd + arrives F fd act ≤ (s.step F act).queue F fd + served F fd act := by
  cases act with
  | connect =>
      simp only [queue, step, arrives, served, List.length_append, List.length_singleton]
      split <;> omega
  | deliver id bytes => exact le_rfl
  | finish id => exact le_rfl
  | breakOff id kept => exact le_rfl
  | datagram addr bytes =>
      simp only [queue, step, arrives, served, List.length_append, List.length_singleton]
      split <;> omega
  | wait fds => exact le_rfl
  | fail => exact le_rfl
  | accept connFd =>
      have hlen : s.backlog.length ≤ (s.acceptOne connFd).backlog.length + 1 ∧
          (s.acceptOne connFd).datagrams = s.datagrams := by
        unfold acceptOne
        split
        · rename_i hb
          rw [hb]
          exact ⟨le_rfl, rfl⟩
        · exact ⟨Nat.le_succ _, rfl⟩
      simp only [queue, step, arrives, served, hlen.2]
      split <;> omega
  | reply sent =>
      have hlen : s.datagrams.length ≤ (s.replyOne sent).datagrams.length + 1 ∧
          (s.replyOne sent).backlog = s.backlog := by
        unfold replyOne
        split
        · exact ⟨Nat.le_succ _, rfl⟩
        · rename_i hd
          rw [hd]
          exact ⟨le_rfl, rfl⟩
      simp only [queue, step, arrives, served, hlen.2]
      split <;> omega
  | begin => exact le_rfl
  | recv n k =>
      obtain ⟨-, f, hbusy, -⟩ := he
      have hbusy : s.sockFd = some f := hbusy
      obtain ⟨hback, hdata, -⟩ := s.recvOne_frame f n k
      have hstep : s.step F (.recv n k) = s.recvOne f n k := by
        simp only [step, hbusy, Option.elim_some]
      simp only [queue, hstep, hback, hdata, arrives, served, le_refl]

theorem reports_of_edge (hedge : s'.edge fd = s.edge fd) (hbatch : fd ∈ s'.batch ↔ fd ∈ s.batch) :
    s'.reports fd = s.reports fd := by
  simp only [reports, hedge, hbatch]

variable (fd) in
/-- Something arrives, and `f` is in the list of ready descriptors. -/
theorem reports_arrival {f : Fd} (hedge : s'.edge = Function.update s.edge f true)
    (hbatch : s'.batch = s.batch) : s'.reports fd ≤ s.reports fd + if fd = f then 1 else 0 := by
  by_cases hf : fd = f
  · simp only [reports, hedge, hbatch, hf, Function.update_self, if_true]
    split <;> omega
  · simp only [reports, hedge, hbatch, Function.update_of_ne hf, if_neg hf, Nat.add_zero, le_refl]

variable (fd) in
/-- `epoll_wait` takes the descriptors `fds` off the list, and reports some of them. -/
theorem reports_wait {fds : List Fd} {p : Fd → Bool} (hnil : s.batch = [])
    (hall : ∀ f ∈ fds, s.edge f = true) (hedge : s'.edge = fun f => s.edge f && decide (f ∉ fds))
    (hbatch : s'.batch = fds.filter p) : s'.reports fd ≤ s.reports fd := by
  by_cases hmem : fd ∈ fds
  · simp only [reports, hedge, hbatch, hnil, hall fd hmem, hmem]
    by_cases hp : p fd = true <;> simp [hmem, hp]
  · simp [reports, hedge, hbatch, hnil, hmem]

/-- When `events[i]` has been dealt with there is one report less of its descriptor. -/
theorem mem_tail_iff (hnd : s.batch.Nodup) {f : Fd} (hat : s.batch.head? = some f) :
    fd ∈ s.batch.tail ↔ fd ∈ s.batch ∧ fd ≠ f := by
  obtain ⟨rest, hrest⟩ := List.head?_eq_some_iff.mp hat
  rw [hrest] at hnd ⊢
  obtain ⟨hnot, -⟩ := List.nodup_cons.mp hnd
  rw [List.tail_cons, List.mem_cons]
  constructor
  · intro hmem
    refine ⟨.inr hmem, ?_⟩
    rintro rfl
    exact hnot hmem
  · rintro ⟨rfl | hmem, hne⟩
    · exact absurd rfl hne
    · exact hmem

/-- There is at most one report more when something arrives, and one less when the loop has looked. -/
theorem reports_step (h : Inv F s) (he : s.Enabled F act) (hfd : fd = F.listenFd ∨ fd = F.udpFd) :
    (s.step F act).reports fd + served F fd act ≤ s.reports fd + arrives F fd act := by
  have hdesc : s.desc fd = none := by
    by_contra hd
    obtain ⟨hl, hu⟩ := h.names fd hd
    exact hfd.elim hl hu
  have htouch : ∀ id c, (s.touch id c).reports fd = s.reports fd := by
    intro id c
    refine reports_of_edge ?_ Iff.rfl
    simp [touch, hdesc]
  cases act with
  | connect =>
      exact reports_arrival fd rfl rfl
  | deliver id bytes => exact (htouch _ _).le
  | finish id => exact (htouch _ _).le
  | breakOff id kept => exact (htouch _ _).le
  | datagram addr bytes =>
      have hle : (s.step F (.datagram addr bytes)).reports fd ≤ s.reports fd + if fd = F.udpFd then 1 else 0 :=
        reports_arrival fd rfl rfl
      have hone : (if fd = F.udpFd then 1 else 0) ≤ arrives F fd (.datagram addr bytes) := by
        by_cases hl : fd = F.listenFd
        · rw [hl, if_neg F.listen_ne_udp]
          exact Nat.zero_le _
        · rw [arrives, if_neg hl]
          split <;> omega
      exact hle.trans (Nat.add_le_add_left hone _)
  | wait fds =>
      obtain ⟨⟨-, -, hbatch⟩, -, hedge, -⟩ := he
      have hle : (s.step F (.wait fds)).reports fd ≤ s.reports fd := reports_wait fd hbatch hedge rfl rfl
      exact hle
  | fail => exact le_rfl
  | accept connFd =>
      obtain ⟨⟨-, hidle, hat⟩, hfree⟩ := he
      have hedge : (s.acceptOne connFd).edge fd = s.edge fd := by
        unfold acceptOne
        split
        · rename_i f id rest hb
          obtain ⟨-, hl, hu, -⟩ := hfree f rfl
          refine Function.update_of_ne ?_ ..
          rintro rfl
          exact hfd.elim hl hu
        · rfl
      have hmem : F.listenFd ∈ s.batch := List.mem_of_head? hat
      simp only [reports, step, arrives, served, hedge, mem_tail_iff h.batch hat]
      by_cases hl : fd = F.listenFd
      · simp [hl, hmem]
      · simp [hl]
  | reply sent =>
      obtain ⟨-, hidle, hat⟩ := he
      have hedge : (s.replyOne sent).edge fd = s.edge fd := by
        unfold replyOne
        split <;> rfl
      have hmem : F.udpFd ∈ s.batch := List.mem_of_head? hat
      simp only [reports, step, arrives, served, hedge, mem_tail_iff h.batch hat]
      by_cases hl : fd = F.listenFd
      · simp [hl, F.listen_ne_udp]
      · simp [hfd.resolve_left hl, F.listen_ne_udp.symm, hmem]
  | begin =>
      obtain ⟨-, hidle, f, hat, hl, hu⟩ := he
      have hmem : fd ∈ s.batch.tail ↔ fd ∈ s.batch := by
        rw [mem_tail_iff h.batch hat]
        refine and_iff_left ?_
        rintro rfl
        exact hfd.elim hl hu
      have heq : (s.step F .begin).reports fd = s.reports fd := reports_of_edge rfl hmem
      exact heq.le
  | recv n k =>
      obtain ⟨-, f, hbusy, -⟩ := he
      have hbusy : s.sockFd = some f := hbusy
      obtain ⟨-, -, hbatch, hedge⟩ := s.recvOne_frame f n k
      have hstep : s.step F (.recv n k) = s.recvOne f n k := by
        simp only [step, hbusy, Option.elim_some]
      obtain ⟨-, hl, hu⟩ := h.busy f hbusy
      have hne : fd ≠ f := by
        rintro rfl
        exact hfd.elim hl hu
      rw [hstep]
      refine (reports_of_edge (hedge fd hne) ?_).le
      rw [hbatch]

/-- **What is left behind stays behind.** When connections wait to be accepted and the listening socket is
not going to be looked at, there will always be as many of them, whatever arrives and however long the
server runs; and the same is true of datagrams. -/
theorem stranded (hr : (machine F).Reachable s) (hl : (machine F).Later s s') :
    (s.reports F.listenFd = 0 → s.backlog.length ≤ s'.backlog.length) ∧
    (s.reports F.udpFd = 0 → s.datagrams.length ≤ s'.datagrams.length) := by
  obtain ⟨h, hr⟩ := hr
  have hmain : ∀ fd, fd = F.listenFd ∨ fd = F.udpFd → s.reports fd = 0 → s.queue F fd ≤ s'.queue F fd := by
    intro fd hfd hz
    have hmono := hl.monotone (I := Inv F)
      (f := fun s => (s.queue F fd : Int) - s.reports fd) (inv_of_run hr) ?_
    · have := hmono.2
      omega
    · intro t act t' ht he hs
      obtain rfl := Except.ok.inj hs
      have hq := queue_step fd he
      have hrep := reports_step ht he hfd
      exact ⟨ht.step he, by omega⟩
  constructor
  · intro hz
    have := hmain F.listenFd (.inl rfl) hz
    rwa [queue, queue, if_pos rfl, if_pos rfl] at this
  · intro hz
    have := hmain F.udpFd (.inr rfl) hz
    rwa [queue, queue, if_neg F.listen_ne_udp.symm, if_neg F.listen_ne_udp.symm] at this

/-- Two clients connect at once, and one of them waits, also after a third has been served. -/
theorem stranded_second : ∃ s s', (machine smallFds).Reachable s ∧ (machine smallFds).Later s s' ∧
    s.backlog = [1] ∧ s'.made = 3 ∧ 1 ≤ s'.backlog.length := by
  obtain ⟨s, hr, hb⟩ := Machine.Reachable.of_replay (M := machine smallFds)
    [.connect, .connect, .wait [3], .accept (some 6)]
    (fun s => (s.backlog, s.reports 3, ((machine smallFds).replay s
      [.connect, .wait [3], .accept (some 7)]).map Server.made)) rfl (b := ([1], 0, some 3))
    (by decide +kernel)
  simp only [Prod.mk.injEq] at hb
  obtain ⟨hback, hrep, hlater⟩ := hb
  obtain ⟨s', hs', hmade⟩ := Option.map_eq_some_iff.mp hlater
  have hl := Machine.Later.of_replay hs'
  have hlen := (stranded hr hl).1 hrep
  rw [hback] at hlen
  exact ⟨s, s', hr, hl, hback, hmade, hlen⟩

/-! ## Datagrams -/

/-- `sendto` does not fail. -/
def Replies : Action → Prop
  | .reply sent => sent = true
  | _ => True

/-- The datagrams that clients have sent, in the order in which they have arrived. -/
def asked (h : List (Server × Action)) : List (Addr × List Byte) :=
  h.filterMap fun x => match x.2 with
    | .datagram addr bytes => some (addr, bytes)
    | _ => none

def answers (l : List (Addr × List Byte)) : List (Addr × List Byte) :=
  (l.filter fun d => !d.2.isEmpty).map fun d => (d.1, udpReply d.2)

theorem answers_append (l : List (Addr × List Byte)) (addr : Addr) (bytes : List Byte) :
    answers (l ++ [(addr, bytes)]) =
      answers l ++ if bytes.isEmpty then [] else [(addr, udpReply bytes)] := by
  unfold answers
  rw [List.filter_append, List.map_append]
  cases bytes <;> rfl

theorem length_udpReply (bytes : List Byte) : (udpReply bytes).length = udpBufferSize - 1 := by
  simp [udpReply, udpBufferSize]

/-- Only a datagram of exactly this size comes back as it was. -/
theorem udpReply_eq_self (bytes : List Byte) : udpReply bytes = bytes ↔ bytes.length = udpBufferSize - 1 := by
  constructor
  · intro h
    rw [← h, length_udpReply]
  · intro h
    rw [udpReply, ← h, List.take_length, List.rightpad, Nat.sub_self, List.replicate_zero,
      List.append_nil]

/-- What a step does to the datagrams. -/
theorem datagrams_step (he : s.Enabled F act) :
    (∃ addr bytes, act = .datagram addr bytes ∧ (s.step F act).taken = s.taken ∧
      (s.step F act).replies = s.replies ∧
      (s.step F act).datagrams = s.datagrams ++ [(addr, bytes)]) ∨
    (asked [(s, act)] = [] ∧ (s.step F act).taken = s.taken ∧ (s.step F act).replies = s.replies ∧
      (s.step F act).datagrams = s.datagrams) ∨
    ∃ sent, act = .reply sent ∧ (s.step F act).datagrams = (s.replyOne sent).datagrams ∧
      (s.step F act).taken = (s.replyOne sent).taken ∧
      (s.step F act).replies = (s.replyOne sent).replies := by
  cases act with
  | datagram addr bytes => exact .inl ⟨addr, bytes, rfl, rfl, rfl, rfl⟩
  | reply sent => exact .inr (.inr ⟨sent, rfl, rfl, rfl, rfl⟩)
  | accept connFd =>
      refine .inr (.inl ?_)
      simp only [step, acceptOne]
      split <;> exact ⟨rfl, rfl, rfl, rfl⟩
  | recv n k =>
      obtain ⟨-, f, hbusy, -⟩ := he
      have hbusy : s.sockFd = some f := hbusy
      have hstep : s.step F (.recv n k) = s.recvOne f n k := by
        simp only [step, hbusy, Option.elim_some]
      rw [hstep]
      refine .inr (.inl ⟨rfl, ?_⟩)
      unfold recvOne close
      repeat' split
      all_goals exact ⟨rfl, rfl, rfl⟩
  | _ => exact .inr (.inl ⟨rfl, rfl, rfl, rfl⟩)

/-- **Datagrams are answered in order, by one of 1023 bytes each.** What was sent is part of the answers to
the datagrams that were read, which are the first ones that have arrived; if `sendto` does not fail, every
one of these that was not empty has its answer. Only a datagram of 1023 bytes comes back as it was. -/
theorem udp_replies {h : List (Server × Action)} (hr : (machine F).Run h s) :
    s.taken <+: asked h ∧ s.replies.Sublist (answers s.taken) ∧
    (Machine.Always (fun _ act => Replies act) h → s.replies = answers s.taken) ∧
    ∀ d ∈ s.taken, (udpReply d.2).length = udpBufferSize - 1 ∧
      (udpReply d.2 = d.2 ↔ d.2.length = udpBufferSize - 1) := by
  have hall : asked h = s.taken ++ s.datagrams ∧ s.replies.Sublist (answers s.taken) ∧
      (Machine.Always (fun _ act => Replies act) h → s.replies = answers s.taken) := by
    induction hr with
    | start hi =>
        subst hi
        exact ⟨rfl, List.Sublist.refl _, fun _ => rfl⟩
    | @step h s a s' hr he hs ih =>
        obtain rfl := Except.ok.inj hs
        obtain ⟨hasked, hsub, hfull⟩ := ih
        have happ : asked (h ++ [(s, a)]) = asked h ++ asked [(s, a)] := List.filterMap_append ..
        have hpast : Machine.Always (fun _ act => Replies act) (h ++ [(s, a)]) →
            s.replies = answers s.taken ∧ Replies a := by
          intro hA
          rw [Machine.always_append] at hA
          exact ⟨hfull hA.1, hA.2 (s, a) (by simp)⟩
        rcases datagrams_step he with ⟨addr, bytes, rfl, ht, hrep, hd⟩ | ⟨hnone, ht, hrep, hd⟩ |
          ⟨sent, rfl, hd, ht, hrep⟩
        · rw [happ, hasked, ht, hrep, hd, ← List.append_assoc]
          exact ⟨rfl, hsub, fun hA => (hpast hA).1⟩
        · rw [happ, hasked, hnone, ht, hrep, hd, List.append_nil]
          exact ⟨rfl, hsub, fun hA => (hpast hA).1⟩
        · rw [happ, hasked, hd, ht, hrep]
          unfold replyOne
          split
          · rename_i hnil
            rw [hnil]
            exact ⟨List.append_nil _, hsub, fun hA => (hpast hA).1⟩
          · rename_i addr bytes rest hcons
            rw [hcons, answers_append]
            refine ⟨by simp [asked], ?_, ?_⟩
            · cases sent <;> cases bytes <;> simp_all [hsub.trans (List.sublist_append_left _ _)]
            · intro hA
              obtain ⟨hr', hsent⟩ := hpast hA
              have hsent : sent = true := hsent
              cases bytes <;> simp [hsent, hr']
  obtain ⟨hasked, hsub, hfull⟩ := hall
  exact ⟨⟨_, hasked.symm⟩, hsub, hfull, fun d _ => ⟨length_udpReply d.2, udpReply_eq_self d.2⟩⟩

/-- The first datagram comes back longer than it was, and the empty one is not answered. -/
theorem udp_replies_padded : ∃ s, (machine smallFds).Reachable s ∧
    s.taken = [((0, 7), [1, 2]), ((0, 8), [])] ∧ s.replies = [((0, 7), udpReply [1, 2])] ∧
    udpReply [1, 2] ≠ [1, 2] := by
  obtain ⟨h, s, hr, hh, hb⟩ := Machine.Run.of_replay (M := machine smallFds)
    [.datagram (0, 7) [1, 2], .wait [4], .reply true, .datagram (0, 8) [], .wait [4], .reply true]
    (fun s => s.taken) rfl (b := [((0, 7), [1, 2]), ((0, 8), [])]) (by decide +kernel)
  obtain ⟨-, -, hall, hsize⟩ := udp_replies hr
  have hsent : Machine.Always (fun _ act => Replies act) h := by
    intro x hx
    have hmem : x.2 ∈ h.map Prod.snd := List.mem_map_of_mem hx
    rw [hh] at hmem
    simp only [List.mem_cons, List.not_mem_nil, or_false] at hmem
    rcases hmem with hx | hx | hx | hx | hx | hx <;> rw [hx] <;> trivial
  refine ⟨s, ⟨h, hr⟩, hb, ?_, ?_⟩
  · rw [hall hsent, hb]
    rfl
  · intro hf
    have := (hsize _ (by rw [hb]; exact List.mem_cons_self)).2.mp hf
    exact absurd this (by decide)

end LinuxServer.Echo.Server
