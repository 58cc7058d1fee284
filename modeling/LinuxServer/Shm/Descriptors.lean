import LinuxServer.Shm.Loop

/-!
# The descriptors of the parent

A step of the main loop takes one of a few ways through its body (`Moves`). What holds between any two of
them (`Sane`): the tables are in order, the open descriptors are the four of `main`, the pipes of the
children and whatever was leaked, and `stop_server` is not raised before the signals of a batch have been
read.

`accounted_iff` says what is leaked: the two ends of the pipe for a child that could not be forked, and
nothing else. The branch for that case closes the connection, but not the pipe.
-/

namespace LinuxServer.Shm

open Library

/-! ## One step of the loop -/

namespace Loop
variable {s s' : Loop} {act : Action} {leaked : List Nat}

/-- A connection was taken from the backlog, and `fds` are still open of what was opened for it. -/
def enlist (s : Loop) (server : Server) (rest fds : List Nat) : Loop :=
  { s with
    server := server
    backlog := s.backlog - 1
    opened := fds ++ s.opened
    phase := .batch rest
    log := .accepted :: s.log }

/-- The pipes `fds` were taken out of `epollfd` and closed. -/
def drop (s : Loop) (fds : List Nat) : Loop :=
  { s with
    opened := s.opened.diff fds
    ready := s.ready.filter (· ∉ fds)
    unread := fun fd => if fd ∈ fds then [] else s.unread fd }

/-- The number `child` was read from `sockfd` and sent to the others. -/
def pass (s : Loop) (sockfd child : Nat) (more rest : List Nat) : Loop :=
  { s with
    unread := Function.update s.unread sockfd more
    phase := .batch rest
    log := .forwarded sockfd child (s.server.parent.pipes.filter (· ≠ sockfd)) :: s.log }

/-- The enabled steps, one constructor for each way through the loop body. -/
inductive Moves (s : Loop) : Action → Loop → Prop
  | connect : s.phase ≠ .ended → Moves s .connect s.arrive
  | notify {fd idx : Nat} : s.phase ≠ .ended → fd ∈ s.server.parent.pipes →
      Moves s (.notify fd idx) (s.receive fd idx)
  | hangUp {fd : Nat} : s.phase ≠ .ended → Moves s (.hangUp fd) (s.trigger fd)
  | raise {sig : Signal} : s.phase ≠ .ended →
      Moves s (.raise sig) ({ s with sigs := s.sigs ++ [sig] }.trigger s.sigPipefd.1)
  | wait {fds : List Nat} : s.phase = .waiting → fds.Nodup → (∀ fd ∈ fds, fd ∈ s.ready) →
      Moves s (.wait fds) { s with ready := s.ready.filter (· ∉ fds), phase := .batch fds }
  | waitFailed : s.phase = .waiting → Moves s .waitFailed s.delResource
  | kept {rest : List Nat} : s.phase = .batch (s.listenfd :: rest) →
      Moves s (.accept .failed true) { s with phase := .batch rest }
  | aborted {rest : List Nat} : s.phase = .batch (s.listenfd :: rest) → 0 < s.backlog →
      Moves s (.accept .failed false) { s with
        backlog := s.backlog - 1, phase := .batch rest, log := .aborted :: s.log }
  | refused {rest : List Nat} {connfd : Nat} {pipefd : Nat × Nat} {fork : Option Nat} {kept : Bool} :
      s.phase = .batch (s.listenfd :: rest) → 0 < s.backlog → userLimit ≤ s.server.parent.userCount →
      Moves s (.accept (.conn connfd pipefd fork) kept) (s.enlist s.server rest [])
  | unforked {rest : List Nat} {connfd : Nat} {pipefd : Nat × Nat} {kept : Bool} {server : Server} :
      s.phase = .batch (s.listenfd :: rest) → 0 < s.backlog → s.server.parent.userCount < userLimit →
      pipefd.1 ≠ pipefd.2 → pipefd.1 ∉ s.opened → pipefd.2 ∉ s.opened →
      server.Tabled → server.parent.members = s.server.parent.members →
      server.children = s.server.children → server.parent.stopServer = s.server.parent.stopServer →
      Moves s (.accept (.conn connfd pipefd none) kept) (s.enlist server rest [pipefd.1, pipefd.2])
  | forked {rest : List Nat} {connfd : Nat} {pipefd : Nat × Nat} {pid : Nat} {kept : Bool}
      {server : Server} :
      s.phase = .batch (s.listenfd :: rest) → 0 < s.backlog → s.server.parent.userCount < userLimit →
      pipefd.1 ∉ s.opened →
      server.Tabled → server.parent.members = s.server.parent.members ++ [(pid, pipefd.1)] →
      server.children = { pid := pid, idx := s.server.parent.userCount } :: s.server.children →
      server.parent.stopServer = s.server.parent.stopServer →
      Moves s (.accept (.conn connfd pipefd (some pid)) kept) (s.enlist server rest [pipefd.1])
  | readSignals {rest : List Nat} : s.phase = .batch (s.sigPipefd.1 :: rest) →
      Moves s .readSignals { s with
        phase := .after (s.sigs.take signalsSize) rest, sigs := s.sigs.drop signalsSize }
  | reaped {sigs : List Signal} {rest : List Nat} {gone : List (Nat × Nat)} {server : Server} :
      s.phase = .signals (.chld :: sigs) rest →
      server.Tabled → s.server.parent.members.Perm (gone ++ server.parent.members) →
      server.children = s.server.children.filter (·.pid ∉ gone.map Prod.fst) →
      server.parent.stopServer = (s.server.parent.stopServer ||
        (s.server.parent.terminate && server.parent.userCount == 0)) →
      Moves s (.signal (gone.map Prod.fst))
        ({ s with server := server, phase := .after sigs rest }.drop (gone.map Prod.snd))
  | killed {sig : Signal} {sigs : List Signal} {rest : List Nat} {reaped : List Nat} {server : Server} :
      s.phase = .signals (sig :: sigs) rest → sig ≠ .chld →
      server.Tabled → server.parent.members = s.server.parent.members →
      server.children = s.server.children →
      server.parent.stopServer = (s.server.parent.stopServer || s.server.parent.userCount == 0) →
      Moves s (.signal reaped) { s with server := server, phase := .after sigs rest }
  | empty {sockfd : Nat} {rest : List Nat} : s.phase = .batch (sockfd :: rest) → sockfd ≠ s.listenfd →
      sockfd ≠ s.sigPipefd.1 → s.unread sockfd = [] →
      Moves s .forward { s with phase := .batch rest }
  | forward {sockfd child : Nat} {more rest : List Nat} : s.phase = .batch (sockfd :: rest) →
      sockfd ≠ s.listenfd → sockfd ≠ s.sigPipefd.1 → s.unread sockfd = child :: more →
      Moves s .forward (s.pass sockfd child more rest)
  | stop : s.phase = .batch [] → s.server.parent.stopServer = true → Moves s .finish s.delResource
  | again : s.phase = .batch [] → s.server.parent.stopServer = false →
      Moves s .finish { s with phase := .waiting }

/-- What holds in every state. The open descriptors are those of `main`, the pipes of the children, and
`leaked`. The signals are read once for each batch, and a raised `stop_server` is noticed at its end. -/
structure Sane (s : Loop) (leaked : List Nat) : Prop where
  tabled : s.server.Tabled
  nodup : s.opened.Nodup
  opened : s.phase ≠ .ended → s.opened.Perm (s.base ++ s.server.parent.pipes ++ leaked)
  unread : ∀ fd, s.unread fd ≠ [] → fd ∈ s.server.parent.pipes
  rest : s.phase.rest.Nodup
  once : ∀ sigs fds, s.phase = .signals sigs fds → s.sigPipefd.1 ∉ fds
  stop : s.server.parent.stopServer = true → s.phase ≠ .waiting ∧ s.sigPipefd.1 ∉ s.phase.rest

/-- The descriptors that are left after the signals are dealt with. -/
theorem Phase.rest_after (sigs : List Signal) (fds : List Nat) : (Phase.after sigs fds).rest = fds := by
  cases sigs with
  | nil => rfl
  | cons sig sigs => rfl

theorem Phase.after_ne (sigs : List Signal) (fds : List Nat) :
    Phase.after sigs fds ≠ .waiting ∧ Phase.after sigs fds ≠ .ended := by
  cases sigs with
  | nil => exact ⟨Phase.noConfusion, Phase.noConfusion⟩
  | cons sig sigs => exact ⟨Phase.noConfusion, Phase.noConfusion⟩

/-- The listening socket is the next descriptor of the batch. -/
theorem phase_of_listen (h : s.next = some .listen) : ∃ rest, s.phase = .batch (s.listenfd :: rest) := by
  unfold next sourceOf at h
  split at h
  · rename_i sockfd rest hp
    split at h
    · rename_i heq
      exact ⟨rest, heq ▸ hp⟩
    · split at h
      · cases h
      · cases h
  · cases h

/-- The pipe of the signals is the next descriptor of the batch. -/
theorem phase_of_signals (h : s.next = some .signals) :
    ∃ rest, s.phase = .batch (s.sigPipefd.1 :: rest) := by
  unfold next sourceOf at h
  split at h
  · rename_i sockfd rest hp
    split at h
    · cases h
    · split at h
      · rename_i heq
        exact ⟨rest, heq ▸ hp⟩
      · cases h
  · cases h

/-- The pipe of a child is the next descriptor of the batch. -/
theorem phase_of_pipe (h : isPipe s.next = true) : ∃ sockfd rest, s.phase = .batch (sockfd :: rest) ∧
    sockfd ≠ s.listenfd ∧ sockfd ≠ s.sigPipefd.1 := by
  unfold next sourceOf at h
  split at h
  · rename_i sockfd rest hp
    split at h
    · cases h
    · rename_i hl
      split at h
      · cases h
      · rename_i hsig
        exact ⟨sockfd, rest, hp, hl, hsig⟩
  · cases h

/-- A signal byte is dealt with. -/
theorem phase_of_signal (h : s.phase.signal ≠ none) :
    ∃ sig sigs rest, s.phase = .signals (sig :: sigs) rest := by
  unfold Phase.signal at h
  split at h
  · rename_i sig sigs rest hp
    exact ⟨sig, sigs, rest, hp⟩
  · exact absurd rfl h

/-! ### The calls -/

/-- Closing one of the descriptors opened for a connection, from which nothing can be read. -/
theorem call_close {server : Server} {rest fds : List Nat} {fd : Nat} (hmem : fd ∈ fds)
    (h : s.unread fd = []) :
    (s.enlist server rest fds).call (.close fd) = s.enlist server rest (fds.erase fd) := by
  have hsame : Function.update s.unread fd [] = s.unread := by
    rw [← h]
    exact Function.update_eq_self fd s.unread
  simp only [call, enlist, hsame, List.erase_append_left _ hmem]

/-- The calls of a reap close the pipes of the children that are gone. -/
theorem foldl_drops (s : Loop) (gone : List (Nat × Nat)) :
    (drops gone).foldl call s = s.drop (gone.map Prod.snd) := by
  induction gone generalizing s with
  | nil => simp [drops, drop]
  | cons x gone ih =>
      have hcons : (drops (x :: gone)).foldl call s =
          (drops gone).foldl call ((s.call (.delfd x.2)).call (.close x.2)) := rfl
      rw [hcons, ih, List.map_cons]
      generalize gone.map Prod.snd = fds
      have hready : (s.ready.filter (· ≠ x.2)).filter (· ∉ fds) = s.ready.filter (· ∉ x.2 :: fds) := by
        rw [List.filter_filter]
        apply List.filter_congr
        intro fd _
        simp [Bool.and_comm]
      have hunread : (fun fd => if fd ∈ fds then [] else Function.update s.unread x.2 [] fd) =
          fun fd => if fd ∈ x.2 :: fds then [] else s.unread fd := by
        funext fd
        by_cases hfd : fd = x.2
        · simp [hfd]
        · simp [hfd]
      simp only [drop, call, hready, hunread, List.diff_cons]

/-- Killing closes nothing. -/
theorem foldl_kills (s : Loop) (xs : List (Nat × Nat)) :
    (xs.map fun x => Call.kill x.1).foldl call s = s := by
  induction xs with
  | nil => rfl
  | cons x xs ih => exact ih

/-- A step of the server with the calls that it makes. -/
theorem perform_eq {act : Shm.Action} {server : Server} {calls : List Call}
    (hcalls : s.server.calls act = .ok calls) (hstep : s.server.step act = .ok server) :
    s.perform act = .ok (calls.foldl call { s with server := server }) := by
  unfold perform
  rw [hcalls, ok_bind, hstep, ok_bind]
  rfl

namespace Sane

/-- Nothing can be read from a descriptor that is closed. -/
theorem unread_of_not_opened (hs : Sane s leaked) (hend : s.phase ≠ .ended) {fd : Nat}
    (h : fd ∉ s.opened) : s.unread fd = [] := by
  by_contra hne
  apply h
  rw [(hs.opened hend).mem_iff]
  have := hs.unread fd hne
  simp [this]

/-- The listening socket is reported, and `accept` returns a connection. -/
theorem accept (hs : Sane s leaked) {rest : List Nat} {connfd : Nat} {pipefd : Nat × Nat}
    {fork : Option Nat} {kept : Bool} (hp : s.phase = .batch (s.listenfd :: rest)) (hb : 0 < s.backlog)
    (hfresh : s.fresh (.conn connfd pipefd fork))
    (he : s.server.enabled (.accept (.conn connfd pipefd fork))) :
    ∃ s', s.step (.accept (.conn connfd pipefd fork) kept) = .ok s' ∧
      Moves s (.accept (.conn connfd pipefd fork) kept) s' := by
  obtain ⟨server, calls, hcalls, hstep, ht, hserves⟩ := hs.tabled.serves he
  have hend : s.phase ≠ .ended := by
    rw [hp]
    exact Phase.noConfusion
  have hfresh : (connfd :: pipefd.1 :: pipefd.2 :: s.opened).Nodup := hfresh
  have hc : s.unread connfd = [] := hs.unread_of_not_opened hend (by grind)
  have h2 : s.unread pipefd.2 = [] := hs.unread_of_not_opened hend (by grind)
  have heq : ∀ pair s', (if s.server.parent.userCount ≥ userLimit then [] else [pipefd.1, pipefd.2]) =
      pair → calls.foldl call (s.enlist server rest (connfd :: pair)) = s' →
      s.step (.accept (.conn connfd pipefd fork) kept) = .ok s' := by
    intro pair s' hpair h
    unfold step
    rw [hp, ← h, ← hpair]
    exact perform_eq hcalls hstep
  cases hserves with
  | full hfull =>
      refine ⟨_, heq [] _ (if_pos hfull) ?_, .refused hp hb hfull⟩
      show call (s.enlist s.server rest [connfd]) (.close connfd) = _
      rw [call_close List.mem_cons_self hc, List.erase_cons_head]
  | unforked hroom hmembers hchildren hstop =>
      refine ⟨_, heq [pipefd.1, pipefd.2] _ (if_neg (by omega)) ?_, .unforked hp hb hroom
        (by grind) (by grind) (by grind) ht hmembers hchildren hstop⟩
      show call (s.enlist server rest [connfd, pipefd.1, pipefd.2]) (.close connfd) = _
      rw [call_close List.mem_cons_self hc, List.erase_cons_head]
  | forked hroom hmembers hchildren hstop =>
      refine ⟨_, heq [pipefd.1, pipefd.2] _ (if_neg (by omega)) ?_, .forked hp hb hroom
        (by grind) ht hmembers hchildren hstop⟩
      have hne : pipefd.1 ≠ pipefd.2 := by grind
      show call (call (s.enlist server rest [connfd, pipefd.1, pipefd.2]) (.close connfd))
        (.close pipefd.2) = _
      rw [call_close List.mem_cons_self hc, List.erase_cons_head, call_close (by simp) h2]
      simp [hne]

/-- A signal is dealt with. -/
theorem signal (hs : Sane s leaked) {sig : Signal} {sigs : List Signal} {rest reaped : List Nat}
    (hp : s.phase = .signals (sig :: sigs) rest) (he : s.server.enabled (.chld reaped)) :
    ∃ s', s.step (.signal reaped) = .ok s' ∧ Moves s (.signal reaped) s' := by
  have hstep : s.step (.signal reaped) = onSignal { s with phase := .after sigs rest } reaped sig := by
    unfold step
    rw [hp]
  rw [hstep]
  by_cases hchld : sig = .chld
  · subst hchld
    obtain ⟨server, calls, hcalls, hserver, ht, hserves⟩ := hs.tabled.serves he
    have hperform := perform_eq (s := { s with phase := .after sigs rest }) hcalls hserver
    cases hserves with
    | reaped hperm hchildren hstop =>
        rw [foldl_drops] at hperform
        exact ⟨_, hperform, .reaped hp ht hperm hchildren hstop⟩
  · have heq : onSignal { s with phase := .after sigs rest } reaped sig =
        perform { s with phase := .after sigs rest } .term := by
      cases sig with
      | chld => exact absurd rfl hchld
      | term => rfl
      | int => rfl
    obtain ⟨server, calls, hcalls, hserver, ht, hserves⟩ :=
      hs.tabled.serves (show s.server.enabled .term from trivial)
    have hperform := perform_eq (s := { s with phase := .after sigs rest }) hcalls hserver
    cases hserves with
    | killed hmembers hchildren hstop =>
        rw [foldl_kills] at hperform
        exact ⟨_, heq.trans hperform, .killed hp hchld ht hmembers hchildren hstop⟩

/-- Every step that is allowed can be made, and is one of the moves. -/
theorem moves (hs : Sane s leaked) (he : machine.enabled s act) :
    ∃ s', machine.step s act = .ok s' ∧ Moves s act s' := by
  cases act with
  | connect => exact ⟨_, rfl, .connect he⟩
  | notify fd idx => exact ⟨_, rfl, .notify he.1 he.2⟩
  | hangUp fd => exact ⟨_, rfl, .hangUp he.1⟩
  | raise sig => exact ⟨_, rfl, .raise he⟩
  | wait fds => exact ⟨_, rfl, .wait he.1 he.2.1 he.2.2.2⟩
  | waitFailed => exact ⟨_, rfl, .waitFailed he⟩
  | accept a kept =>
      obtain ⟨hnext, hfailed, hb, hfresh, henabled⟩ := he
      obtain ⟨rest, hp⟩ := phase_of_listen hnext
      cases a with
      | failed =>
          have hstep : machine.step s (.accept .failed kept) =
              onListen { s with phase := .batch rest } .failed kept := by
            show s.step (.accept .failed kept) = _
            unfold step
            rw [hp]
          rw [hstep]
          cases kept with
          | true => exact ⟨_, rfl, .kept hp⟩
          | false => exact ⟨_, rfl, .aborted hp (by simpa using hfailed rfl)⟩
      | conn connfd pipefd fork => exact hs.accept hp (hb Arrival.noConfusion) hfresh henabled
  | readSignals =>
      obtain ⟨rest, hp⟩ := phase_of_signals he
      refine ⟨_, ?_, .readSignals hp⟩
      show s.step .readSignals = _
      unfold step
      rw [hp]
      rfl
  | signal reaped =>
      obtain ⟨hsig, hreaped⟩ := he
      obtain ⟨sig, sigs, rest, hp⟩ := phase_of_signal hsig
      exact hs.signal hp hreaped
  | forward =>
      obtain ⟨sockfd, rest, hp, hl, hsig⟩ := phase_of_pipe he
      have hstep : machine.step s .forward = onPipe { s with phase := .batch rest } sockfd := by
        show s.step .forward = _
        unfold step
        rw [hp]
      rw [hstep]
      unfold onPipe
      dsimp only
      cases hunread : s.unread sockfd with
      | nil => exact ⟨_, rfl, .empty hp hl hsig hunread⟩
      | cons child more =>
          refine ⟨_, ?_, .forward hp hl hsig hunread⟩
          dsimp only
          rw [Table.others hs.tabled, ok_bind]
          rfl
  | finish =>
      cases hstop : s.server.parent.stopServer with
      | true =>
          refine ⟨_, ?_, .stop he hstop⟩
          show s.step .finish = _
          simp only [step, hstop]
          rfl
      | false =>
          refine ⟨_, ?_, .again he hstop⟩
          show s.step .finish = _
          simp only [step, hstop]
          rfl

/-! ### The invariant -/

/-- The next descriptor of the batch. -/
theorem advance (hs : Sane s leaked) {sockfd : Nat} {rest : List Nat}
    (hp : s.phase = .batch (sockfd :: rest)) : Sane { s with phase := .batch rest } leaked := by
  have hrest := hs.rest
  have hstop := hs.stop
  rw [hp] at hrest hstop
  refine ⟨hs.tabled, hs.nodup, fun _ => hs.opened (by rw [hp]; exact Phase.noConfusion), hs.unread,
    (List.nodup_cons.mp hrest).2, fun _ _ h => Phase.noConfusion h, ?_⟩
  intro h
  exact ⟨Phase.noConfusion, fun hmem => (hstop h).2 (List.mem_cons_of_mem _ hmem)⟩

/-- The signals have been read, and the pipe is not reported again in this batch. -/
theorem afterSignals (hs : Sane s leaked) (sigs : List Signal) {rest : List Nat}
    (hend : s.phase ≠ .ended) (hrest : rest.Nodup) (hsig : s.sigPipefd.1 ∉ rest) :
    Sane { s with phase := .after sigs rest } leaked := by
  refine ⟨hs.tabled, hs.nodup, fun _ => hs.opened hend, hs.unread, ?_, ?_, ?_⟩
  · show (Phase.after sigs rest).rest.Nodup
    rw [Phase.rest_after]
    exact hrest
  · intro sigs' fds h
    have heq : (Phase.after sigs rest).rest = fds := congrArg Phase.rest h
    rw [Phase.rest_after] at heq
    exact heq ▸ hsig
  · intro _
    refine ⟨(Phase.after_ne sigs rest).1, ?_⟩
    show s.sigPipefd.1 ∉ (Phase.after sigs rest).rest
    rw [Phase.rest_after]
    exact hsig

/-- The next signal byte. -/
theorem nextSignal (hs : Sane s leaked) {sig : Signal} {sigs : List Signal} {rest : List Nat}
    (hp : s.phase = .signals (sig :: sigs) rest) :
    Sane { s with phase := .after sigs rest } leaked ∧
      s.sigPipefd.1 ∉ (Phase.after sigs rest).rest := by
  have hrest := hs.rest
  rw [hp] at hrest
  have hsig := hs.once _ _ hp
  refine ⟨hs.afterSignals sigs (by rw [hp]; exact Phase.noConfusion) hrest hsig, ?_⟩
  rw [Phase.rest_after]
  exact hsig

/-- Other tables, with the same children and pipes. -/
theorem exchange (hs : Sane s leaked) {server : Server} (ht : server.Tabled)
    (hmembers : server.parent.members = s.server.parent.members)
    (hstop : server.parent.stopServer = true → s.phase ≠ .waiting ∧ s.sigPipefd.1 ∉ s.phase.rest) :
    Sane { s with server := server } leaked := by
  have hpipes : server.parent.pipes = s.server.parent.pipes := congrArg (List.map Prod.snd) hmembers
  refine ⟨ht, hs.nodup, ?_, ?_, hs.rest, hs.once, hstop⟩
  · show _ → s.opened.Perm (s.base ++ server.parent.pipes ++ leaked)
    rw [hpipes]
    exact hs.opened
  · show ∀ fd, s.unread fd ≠ [] → fd ∈ server.parent.pipes
    rw [hpipes]
    exact hs.unread

/-- The descriptors that are closed at the end. -/
theorem delResource (hs : Sane s leaked) : Sane s.delResource leaked :=
  ⟨hs.tabled, (((hs.nodup.erase _).erase _).erase _).erase _, fun h => absurd rfl h, hs.unread,
    List.nodup_nil, fun _ _ h => Phase.noConfusion h, fun _ => ⟨Phase.noConfusion, List.not_mem_nil⟩⟩

/-- The pipes of the children `gone` are closed, and no other descriptors. -/
theorem drop (hs : Sane s leaked) (hend : s.phase ≠ .ended) {server : Server}
    {gone : List (Nat × Nat)} (ht : server.Tabled)
    (hperm : s.server.parent.members.Perm (gone ++ server.parent.members))
    (hsig : s.sigPipefd.1 ∉ s.phase.rest) (hwait : s.phase ≠ .waiting) :
    Sane ({ s with server := server }.drop (gone.map Prod.snd)) leaked := by
  have hpipes : s.server.parent.pipes.Perm (gone.map Prod.snd ++ server.parent.pipes) := by
    have := hperm.map Prod.snd
    rwa [List.map_append] at this
  refine ⟨ht, hs.nodup.diff, ?_, ?_, hs.rest, hs.once, fun _ => ⟨hwait, hsig⟩⟩
  · intro _
    show (s.opened.diff (gone.map Prod.snd)).Perm (s.base ++ server.parent.pipes ++ leaked)
    rw [List.perm_iff_count]
    intro fd
    have hopened := (hs.opened hend).count_eq fd
    have hcount := hpipes.count_eq fd
    simp only [List.count_append] at hopened hcount
    rw [List.count_diff]
    simp only [List.count_append]
    omega
  · intro fd hfd
    by_cases hgone : fd ∈ gone.map Prod.snd
    · exact absurd (if_pos hgone) hfd
    · have hfd : s.unread fd ≠ [] := by
        intro h
        exact hfd ((if_neg hgone).trans h)
      exact (List.mem_append.mp (hpipes.mem_iff.mp (hs.unread fd hfd))).resolve_left hgone

/-- A child tells the parent that its client has sent something. -/
theorem receive (hs : Sane s leaked) {fd idx : Nat} (hfd : fd ∈ s.server.parent.pipes) :
    Sane (s.receive fd idx) leaked := by
  refine ⟨hs.tabled, hs.nodup, hs.opened, ?_, hs.rest, hs.once, hs.stop⟩
  intro x hx
  by_cases hxfd : x = fd
  · exact hxfd ▸ hfd
  · exact hs.unread x (by simpa [Loop.receive, trigger, hxfd] using hx)

/-- The parent passes it on to the other children. -/
theorem pass (hs : Sane s leaked) {sockfd child : Nat} {more rest : List Nat}
    (hp : s.phase = .batch (sockfd :: rest)) (hunread : s.unread sockfd = child :: more) :
    Sane (s.pass sockfd child more rest) leaked := by
  have ha := hs.advance hp
  refine ⟨ha.tabled, ha.nodup, ha.opened, ?_, ha.rest, ha.once, ha.stop⟩
  intro fd hfd
  by_cases hsock : fd = sockfd
  · exact hs.unread fd (by simp [hsock, hunread])
  · exact hs.unread fd (by simpa [Loop.pass, hsock] using hfd)

section Fork
variable (hs : Sane s leaked) {rest : List Nat} (hp : s.phase = .batch (s.listenfd :: rest))
  {pipefd : Nat × Nat} {server : Server}
include hs hp

/-- `fork` fails: the two ends of the pipe stay open. -/
theorem unforked (hne : pipefd.1 ≠ pipefd.2) (h1 : pipefd.1 ∉ s.opened) (h2 : pipefd.2 ∉ s.opened)
    (ht : server.Tabled) (hmembers : server.parent.members = s.server.parent.members)
    (hstop : server.parent.stopServer = s.server.parent.stopServer) :
    Sane (s.enlist server rest [pipefd.1, pipefd.2]) (leaked ++ [pipefd.1, pipefd.2]) := by
  have ha := hs.advance hp
  have hx := ha.exchange ht hmembers fun h => ha.stop (hstop ▸ h)
  refine ⟨ht, ?_, ?_, hx.unread, hx.rest, hx.once, hx.stop⟩
  · show (pipefd.1 :: pipefd.2 :: s.opened).Nodup
    have := hs.nodup
    grind
  · intro _
    have hopened := ((hx.opened Phase.noConfusion).cons pipefd.2).cons pipefd.1
    show (pipefd.1 :: pipefd.2 :: s.opened).Perm
      (s.base ++ server.parent.pipes ++ (leaked ++ [pipefd.1, pipefd.2]))
    rw [← List.append_assoc]
    exact hopened.trans (show ([pipefd.1, pipefd.2] ++ _).Perm _ from List.perm_append_comm)

/-- The pipe of a new child is open. -/
theorem forked {pid : Nat} (h1 : pipefd.1 ∉ s.opened) (ht : server.Tabled)
    (hmembers : server.parent.members = s.server.parent.members ++ [(pid, pipefd.1)])
    (hstop : server.parent.stopServer = s.server.parent.stopServer) :
    Sane (s.enlist server rest [pipefd.1]) leaked := by
  have ha := hs.advance hp
  have hpipes : server.parent.pipes = s.server.parent.pipes ++ [pipefd.1] := by
    unfold Parent.pipes
    rw [hmembers, List.map_append]
    rfl
  refine ⟨ht, List.nodup_cons.mpr ⟨h1, hs.nodup⟩, ?_, ?_, ha.rest, ha.once, ?_⟩
  · intro _
    show (pipefd.1 :: s.opened).Perm (s.base ++ server.parent.pipes ++ leaked)
    have hopened : s.opened.Perm (s.base ++ s.server.parent.pipes ++ leaked) :=
      ha.opened Phase.noConfusion
    rw [hpipes, List.perm_iff_count]
    intro fd
    have := hopened.count_eq fd
    simp only [List.count_append, List.count_cons, List.count_nil] at this ⊢
    omega
  · intro fd hfd
    show fd ∈ server.parent.pipes
    rw [hpipes]
    exact List.mem_append_left _ (hs.unread fd hfd)
  · intro h
    exact ha.stop (hstop ▸ h)

end Fork
end Sane

/-- The descriptors that are left open when `fork` fails. -/
def leaks (s : Loop) : Action → List Nat
  | .accept (.conn _ pipefd none) _ =>
      if s.server.parent.userCount ≥ userLimit then [] else [pipefd.1, pipefd.2]
  | _ => []

/-- A step that fails at nothing leaks nothing. -/
theorem Sane.unleaked (hs : Sane s' leaked) (h : s.leaks act = []) :
    Sane s' (leaked ++ s.leaks act) := by
  rw [h, List.append_nil]
  exact hs

/-- Every move keeps account of the descriptors. -/
theorem Moves.sane (hm : Moves s act s') (hs : Sane s leaked) : Sane s' (leaked ++ s.leaks act) := by
  cases hm with
  | connect | hangUp | raise =>
      refine Sane.unleaked ?_ rfl
      exact ⟨hs.tabled, hs.nodup, hs.opened, hs.unread, hs.rest, hs.once, hs.stop⟩
  | notify hend hfd => exact (hs.receive hfd).unleaked rfl
  | wait hp hnd =>
      refine Sane.unleaked ?_ rfl
      exact ⟨hs.tabled, hs.nodup, fun _ => hs.opened (by rw [hp]; exact Phase.noConfusion), hs.unread,
        hnd, fun _ _ h => Phase.noConfusion h, fun h => absurd hp (hs.stop h).1⟩
  | waitFailed | stop => exact hs.delResource.unleaked rfl
  | kept hp | empty hp => exact (hs.advance hp).unleaked rfl
  | aborted hp =>
      have ha := hs.advance hp
      refine Sane.unleaked ?_ rfl
      exact ⟨ha.tabled, ha.nodup, ha.opened, ha.unread, ha.rest, ha.once, ha.stop⟩
  | @refused _ _ _ fork _ hp hb hfull =>
      have ha := hs.advance hp
      refine Sane.unleaked ?_ ?_
      · exact ⟨ha.tabled, ha.nodup, ha.opened, ha.unread, ha.rest, ha.once, ha.stop⟩
      · cases fork with
        | none => exact if_pos hfull
        | some pid => rfl
  | unforked hp hb hroom hne h1 h2 ht hmembers hchildren hstop =>
      rw [leaks, if_neg (by omega)]
      exact hs.unforked hp hne h1 h2 ht hmembers hstop
  | forked hp hb hroom h1 ht hmembers hchildren hstop =>
      exact (hs.forked hp h1 ht hmembers hstop).unleaked rfl
  | readSignals hp =>
      have hrest := hs.rest
      rw [hp] at hrest
      obtain ⟨hsig, hrest⟩ := List.nodup_cons.mp hrest
      have ha := hs.afterSignals (s.sigs.take signalsSize) (by rw [hp]; exact Phase.noConfusion) hrest
        hsig
      refine Sane.unleaked ?_ rfl
      exact ⟨ha.tabled, ha.nodup, ha.opened, ha.unread, ha.rest, ha.once, ha.stop⟩
  | @reaped sigs rest gone server hp ht hperm hchildren hstop =>
      obtain ⟨ha, hsig⟩ := hs.nextSignal hp
      refine Sane.unleaked ?_ rfl
      exact ha.drop (Phase.after_ne sigs rest).2 ht hperm hsig (Phase.after_ne sigs rest).1
  | @killed sig sigs rest reaped server hp hchld ht hmembers hchildren hstop =>
      obtain ⟨ha, hsig⟩ := hs.nextSignal hp
      refine Sane.unleaked ?_ rfl
      exact ha.exchange ht hmembers fun _ => ⟨(Phase.after_ne sigs rest).1, hsig⟩
  | forward hp hl hsig hunread => exact (hs.pass hp hunread).unleaked rfl
  | again hp hstop =>
      refine Sane.unleaked ?_ rfl
      refine ⟨hs.tabled, hs.nodup, fun _ => hs.opened (by rw [hp]; exact Phase.noConfusion), hs.unread,
        List.nodup_nil, fun _ _ h => Phase.noConfusion h, ?_⟩
      intro h
      exact Bool.noConfusion (hstop.symm.trans h)

/-! ## Whole runs -/

/-- What failed forks have left open. -/
def leakedBy (h : List (Loop × Action)) : List Nat := h.flatMap fun x => x.1.leaks x.2

theorem sane_init (hi : machine.init s) : Sane s [] := by
  obtain ⟨hserver, hbase, hopened, -, -, hunread, -, hphase, -⟩ := hi
  have hcount : s.server.parent.userCount = 0 := by
    rw [hserver]
    rfl
  have hpipes : s.server.parent.pipes = [] := by simp [Parent.pipes, Parent.members, hcount]
  have hstop : s.server.parent.stopServer = false := by
    rw [hserver]
    rfl
  refine ⟨?_, hopened ▸ hbase, ?_, ?_, ?_, ?_, ?_⟩
  · rw [hserver]
    exact Table.make
  · intro _
    rw [hopened, hpipes, List.append_nil, List.append_nil]
  · intro fd hfd
    exact absurd (congrFun hunread fd) hfd
  · rw [hphase]
    exact List.nodup_nil
  · intro sigs fds h
    rw [hphase] at h
    cases h
  · intro h
    rw [hstop] at h
    cases h

/-- The descriptors are accounted for in every run. -/
theorem sane_of_run {h : List (Loop × Action)} (hr : machine.Run h s) : Sane s (leakedBy h) := by
  induction hr with
  | start hi => exact sane_init hi
  | @step h s act s' hr he hs ih =>
      have hm : Moves s act s' := Machine.of_returns (ih.moves he) hs
      have hleaked : leakedBy (h ++ [(s, act)]) = leakedBy h ++ s.leaks act := by
        simp [leakedBy]
      rw [hleaked]
      exact hm.sane ih

/-- The open descriptors are those of `main` and one for each child. -/
def Accounted (s : Loop) : Prop := s.opened.Perm (s.base ++ s.server.parent.pipes)

/-- `fork` does not fail. It is only called if there is room for another child. -/
def NoneFails (s : Loop) : Action → Prop
  | .accept (.conn _ _ none) _ => userLimit ≤ s.server.parent.userCount
  | _ => True

instance (s : Loop) (act : Action) : Decidable (s.NoneFails act) :=
  match act with
  | .accept (.conn _ _ none) _ => inferInstanceAs (Decidable (userLimit ≤ s.server.parent.userCount))
  | .accept (.conn _ _ (some _)) _ | .accept .failed _ | .connect | .notify _ _ | .hangUp _ | .raise _
  | .wait _ | .waitFailed | .readSignals | .signal _ | .forward | .finish =>
      inferInstanceAs (Decidable True)

/-- A step leaks nothing exactly if it fails at nothing. -/
theorem leaks_eq_nil : s.leaks act = [] ↔ s.NoneFails act := by
  unfold leaks NoneFails
  split
  · split
    · simp_all
    · simp_all
  · simp

/-- **Before the loop ends, the open descriptors are those of `main` and one for each child, exactly if**
no `fork` has failed. -/
theorem accounted_iff {h : List (Loop × Action)} (hr : machine.Run h s) (hend : s.phase ≠ .ended) :
    s.Accounted ↔ Machine.Always NoneFails h := by
  have hopened := (sane_of_run hr).opened hend
  have hleaked : s.Accounted ↔ leakedBy h = [] := by
    constructor
    · intro hperm
      have hlength := hperm.length_eq.symm.trans hopened.length_eq
      simp only [List.length_append] at hlength
      exact List.eq_nil_of_length_eq_zero (by omega)
    · intro hnil
      rw [hnil, List.append_nil] at hopened
      exact hopened
  rw [hleaked, leakedBy, List.flatMap_eq_nil_iff]
  exact forall₂_congr fun x _ => leaks_eq_nil

/-- The state `main` enters the loop in. -/
def start : Loop where
  server := { parent := Parent.make, children := [], log := [] }
  listenfd := 3
  epollfd := 4
  sigPipefd := (5, 6)
  opened := [3, 4, 5, 6]
  ready := []
  backlog := 0
  unread := fun _ => []
  sigs := []
  phase := .waiting
  log := []

theorem init_start : machine.init start :=
  ⟨rfl, by decide, rfl, rfl, rfl, rfl, rfl, rfl, rfl⟩

/-- Two clients come, and the first one leaves. -/
theorem accounted_one_leaves :
    ∃ h s, machine.Run h s ∧ s.phase = .waiting ∧ s.server.parent.pipes = [9] ∧ s.Accounted := by
  obtain ⟨h, s, hr, -, hs⟩ := Machine.Run.of_replay (M := machine.restrict NoneFails)
    [.connect, .wait [3], .accept (.conn 7 (8, 9) (some 20)) false, .finish,
      .connect, .wait [3], .accept (.conn 7 (9, 10) (some 21)) false, .finish,
      .raise .chld, .wait [5], .readSignals, .signal [20], .finish]
    (fun s => (s.phase, s.server.parent.pipes)) init_start (b := (.waiting, [9])) (by decide +kernel)
  obtain ⟨hphase, hpipes⟩ := Prod.mk.inj hs
  obtain ⟨hr, hC⟩ := hr.of_restrict
  refine ⟨h, s, hr, hphase, hpipes, (accounted_iff hr ?_).mpr hC⟩
  rw [hphase]
  exact Phase.noConfusion

/-- A client comes, and `fork` fails: both ends of the pipe stay open. -/
theorem accounted_fork_fails :
    ∃ h s, machine.Run h s ∧
      h.map Prod.snd = [.connect, .wait [3], .accept (.conn 7 (8, 9) none) false, .finish] ∧
      s.phase = .waiting ∧ s.opened = [8, 9, 3, 4, 5, 6] ∧ ¬ s.Accounted := by
  obtain ⟨h, s, hr, has, hs⟩ := Machine.Run.of_replay (M := machine)
    [.connect, .wait [3], .accept (.conn 7 (8, 9) none) false, .finish]
    (fun s => (s.phase, s.opened, s.base ++ s.server.parent.pipes)) init_start
    (b := (.waiting, [8, 9, 3, 4, 5, 6], [3, 4, 5, 6])) (by decide +kernel)
  obtain ⟨hphase, hopened, hall⟩ : _ ∧ _ ∧ _ := by simpa only [Prod.mk.injEq] using hs
  refine ⟨h, s, hr, has, hphase, hopened, ?_⟩
  intro hperm
  unfold Accounted at hperm
  rw [hopened, hall] at hperm
  simpa using hperm.length_eq

end Loop
end LinuxServer.Shm
