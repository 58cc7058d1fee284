import LinuxServer.Shm.Descriptors

/-!
# Lost wake-ups

For each event on the listening socket the parent accepts one connection, and for each event on a pipe it
reads one number. With `EPOLLET` this is right only as long as every connection and every number comes
with an event of its own: what is left unread is not reported again.

`edges` counts the events that are still to come for a descriptor, reported or not. In a `Settled` state
there are at least as many of them as there are things to read, and every number that was sent has been
forwarded or can still be read. `settled_iff` says when a run stays in such states: nothing arrives on a
descriptor that is ready anyway, unless it has an event to spare; no `accept` fails and leaves its
connection behind; and no child is reaped before its last number has been read.
-/

namespace LinuxServer.Shm

open Library

/-- A number sent by a child, and the pipe it was sent on. -/
def Record.sentOf : Record → Option (Nat × Nat)
  | .sent fd idx => some (fd, idx)
  | _ => none

def Record.forwardedOf : Record → Option (Nat × Nat)
  | .forwarded fd idx _ => some (fd, idx)
  | _ => none

namespace Loop

variable {s s' : Loop} {act : Action} {leaked : List Nat} {fd : Nat}

/-- The events that are still to be dealt with for `fd`. -/
def edges (s : Loop) (fd : Nat) : Nat := (if fd ∈ s.ready then 1 else 0) + s.phase.rest.count fd

def sent (s : Loop) : List (Nat × Nat) := s.log.filterMap Record.sentOf

def forwarded (s : Loop) : List (Nat × Nat) := s.log.filterMap Record.forwardedOf

/-- Whatever can be read will be reported, and whatever arrived has been read or can be read. -/
structure Settled (s : Loop) : Prop where
  backlog : s.backlog ≤ s.edges s.listenfd
  unread : ∀ fd, (s.unread fd).length ≤ s.edges fd
  arrived : s.log.count .arrived = s.log.count .accepted + s.log.count .aborted + s.backlog
  sent : ∀ fd idx, s.sent.count (fd, idx) = s.forwarded.count (fd, idx) + (s.unread fd).count idx

/-- Where nothing is pending, nothing has been missed. -/
structure NoneMissed (s : Loop) : Prop where
  backlog : s.edges s.listenfd = 0 → s.backlog = 0
  unread : ∀ fd ∈ s.server.parent.pipes, s.edges fd = 0 → s.unread fd = []
  all : s.ready = [] → s.phase.rest = [] → s.sent.Perm s.forwarded ∧
    s.log.count .arrived = s.log.count .accepted + s.log.count .aborted

/-- Every arrival has an event of its own, `accept` leaves no connection behind, and a child that is
reaped has nothing left in its pipe. -/
def Timely (s : Loop) : Action → Prop
  | .connect => s.listenfd ∈ s.ready → s.backlog < s.edges s.listenfd
  | .notify fd _ => fd ∈ s.ready → (s.unread fd).length < s.edges fd
  | .accept .failed true => s.backlog < s.edges s.listenfd
  | .signal reaped => s.phase.signal = some .chld →
      ∀ x ∈ s.server.parent.members, x.1 ∈ reaped → s.unread x.2 = []
  | _ => True

instance (s : Loop) (act : Action) : Decidable (s.Timely act) :=
  match act with
  | .connect => inferInstanceAs (Decidable (s.listenfd ∈ s.ready → s.backlog < s.edges s.listenfd))
  | .notify fd _ => inferInstanceAs (Decidable (fd ∈ s.ready → (s.unread fd).length < s.edges fd))
  | .accept .failed true => inferInstanceAs (Decidable (s.backlog < s.edges s.listenfd))
  | .signal reaped => inferInstanceAs (Decidable (s.phase.signal = some .chld →
      ∀ x ∈ s.server.parent.members, x.1 ∈ reaped → s.unread x.2 = []))
  | .accept .failed false | .accept (.conn _ _ _) _ | .hangUp _ | .raise _ | .wait _ | .waitFailed
  | .readSignals | .forward | .finish => inferInstanceAs (Decidable True)

theorem Settled.noneMissed (h : s.Settled) : s.NoneMissed where
  backlog := by
    intro hnone
    have := h.backlog
    omega
  unread := by
    intro fd _ hnone
    have := h.unread fd
    exact List.eq_nil_of_length_eq_zero (by omega)
  all := by
    intro hready hrest
    have hnone : ∀ fd, s.edges fd = 0 := by
      intro fd
      simp [edges, hready, hrest]
    constructor
    · rw [List.perm_iff_count]
      rintro ⟨fd, idx⟩
      have hlength := h.unread fd
      rw [hnone fd] at hlength
      rw [h.sent fd idx, List.eq_nil_of_length_eq_zero (Nat.le_zero.mp hlength)]
      rfl
    · have := h.backlog
      rw [hnone] at this
      have := h.arrived
      omega

/-! ## Events -/

theorem edges_trigger (s : Loop) (fd x : Nat) :
    (s.trigger fd).edges x = if x = fd ∧ fd ∉ s.ready then s.edges x + 1 else s.edges x := by
  by_cases hx : x = fd
  · by_cases hr : fd ∈ s.ready
    · simp [edges, trigger, hx, hr]
    · simp [edges, trigger, hx, hr]
      omega
  · simp [edges, trigger, hx]

theorem edges_congr (hready : s.ready = s'.ready) (hrest : s.phase.rest = s'.phase.rest) (x : Nat) :
    s.edges x = s'.edges x := by
  unfold edges
  rw [hready, hrest]

/-- An event is taken from the batch. -/
theorem edges_advance {sockfd : Nat} {rest : List Nat} (hp : s.phase = .batch (sockfd :: rest)) (x : Nat) :
    s.edges x = edges { s with phase := .batch rest } x + if x = sockfd then 1 else 0 := by
  unfold edges
  rw [hp]
  show _ + (sockfd :: rest).count x = _ + rest.count x + _
  rw [List.count_cons]
  grind

/-- `epoll_wait` reports what is ready. -/
theorem edges_wait {fds : List Nat} (hp : s.phase = .waiting) (hnd : fds.Nodup)
    (hready : ∀ fd ∈ fds, fd ∈ s.ready) (x : Nat) :
    edges { s with ready := s.ready.filter (· ∉ fds), phase := .batch fds } x = s.edges x := by
  unfold edges
  rw [hp]
  show (if x ∈ s.ready.filter (· ∉ fds) then 1 else 0) + fds.count x = _ + 0
  by_cases hx : x ∈ fds
  · simp [hx, hready x hx, List.count_eq_one_of_mem hnd hx]
  · simp [hx, List.count_eq_zero_of_not_mem hx]

theorem edges_drop {fds : List Nat} (h : fd ∉ fds) : (s.drop fds).edges fd = s.edges fd := by
  simp [edges, drop, h]

theorem edges_after {sig : Signal} {sigs : List Signal} {rest : List Nat}
    (hp : s.phase = .signals (sig :: sigs) rest) (x : Nat) :
    edges { s with phase := .after sigs rest } x = s.edges x := by
  refine edges_congr ?_ ?_ x
  · rfl
  · rw [hp]
    exact Phase.rest_after sigs rest

/-! ## One step -/

/-- The listening socket, the signal pipe and the pipes of the children are different. -/
theorem Sane.apart (hs : Sane s leaked) (hend : s.phase ≠ .ended) :
    s.listenfd ≠ s.sigPipefd.1 ∧ s.unread s.listenfd = [] ∧ s.unread s.sigPipefd.1 = [] ∧
      s.listenfd ∉ s.server.parent.pipes := by
  have hnodup := (hs.opened hend).nodup_iff.mp hs.nodup
  obtain ⟨hnodup, -⟩ := List.nodup_append.mp hnodup
  obtain ⟨hbase, -, hdisj⟩ := List.nodup_append.mp hnodup
  have hnot : ∀ x ∈ s.base, x ∉ s.server.parent.pipes := fun x hx hx' => hdisj x hx x hx' rfl
  have hunread : ∀ x ∈ s.base, s.unread x = [] := by
    intro x hx
    by_contra hne
    exact hnot x hx (hs.unread x hne)
  refine ⟨?_, hunread _ (by simp [base]), hunread _ (by simp [base]), hnot _ (by simp [base])⟩
  intro heq
  simp [base, heq] at hbase

namespace Settled

/-- Nothing arrives and nothing is read, and no event is taken from a descriptor that needs it. -/
theorem mono (h : s.Settled) (hl : s'.listenfd = s.listenfd) (hb : s'.backlog = s.backlog)
    (hu : s'.unread = s.unread) (hlog : s'.log = s.log)
    (hedges : ∀ x, x = s.listenfd ∨ s.unread x ≠ [] → s.edges x ≤ s'.edges x) : s'.Settled := by
  refine ⟨?_, ?_, ?_, ?_⟩
  · rw [hb, hl]
    exact h.backlog.trans (hedges _ (.inl rfl))
  · intro fd
    rw [hu]
    by_cases hnil : s.unread fd = []
    · rw [hnil]
      exact Nat.zero_le _
    · exact (h.unread fd).trans (hedges fd (.inr hnil))
  · rw [hlog, hb]
    exact h.arrived
  · intro fd idx
    unfold Loop.sent Loop.forwarded
    rw [hlog, hu]
    exact h.sent fd idx

/-- A connection is taken from the backlog, with the event that was for it. -/
theorem take (h : s.Settled) {rest : List Nat} (hp : s.phase = .batch (s.listenfd :: rest))
    (hb : 0 < s.backlog) (hl : s.unread s.listenfd = []) {r : Record} (hr : r = .accepted ∨ r = .aborted)
    (hl' : s'.listenfd = s.listenfd) (hb' : s'.backlog = s.backlog - 1) (hu' : s'.unread = s.unread)
    (hready' : s'.ready = s.ready) (hphase' : s'.phase = .batch rest) (hlog' : s'.log = r :: s.log) :
    s'.Settled := by
  have hedges : ∀ x, s.edges x = s'.edges x + if x = s.listenfd then 1 else 0 := by
    intro x
    rw [edges_advance hp]
    unfold edges
    rw [hready', hphase']
  refine ⟨?_, ?_, ?_, ?_⟩
  · have hmore := hedges s.listenfd
    have hbound := h.backlog
    rw [if_pos rfl] at hmore
    rw [hb', hl']
    omega
  · intro fd
    rw [hu']
    by_cases hfd : fd = s.listenfd
    · rw [hfd, hl]
      exact Nat.zero_le _
    · have hsame := hedges fd
      rw [if_neg hfd, Nat.add_zero] at hsame
      exact hsame ▸ h.unread fd
  · have harrived := h.arrived
    rw [hlog', hb']
    rcases hr with rfl | rfl
    · rw [List.count_cons_of_ne (by decide), List.count_cons_self, List.count_cons_of_ne (by decide)]
      omega
    · rw [List.count_cons_of_ne (by decide), List.count_cons_of_ne (by decide), List.count_cons_self]
      omega
  · intro fd idx
    have hsent := h.sent fd idx
    unfold Loop.sent Loop.forwarded at hsent ⊢
    rw [hlog', hu']
    rcases hr with rfl | rfl
    · exact hsent
    · exact hsent

theorem connect_iff (h : s.Settled) : s.arrive.Settled ↔ s.Timely .connect := by
  have hedges : ∀ x, s.arrive.edges x =
      if x = s.listenfd ∧ s.listenfd ∉ s.ready then s.edges x + 1 else s.edges x :=
    edges_trigger _ s.listenfd
  constructor
  · intro h' hready
    have hbound : s.backlog + 1 ≤ s.arrive.edges s.listenfd := h'.backlog
    rw [hedges, if_neg (by tauto)] at hbound
    exact hbound
  · intro htime
    refine ⟨?_, ?_, ?_, h.sent⟩
    · show s.backlog + 1 ≤ s.arrive.edges s.listenfd
      rw [hedges]
      split
      · exact Nat.succ_le_succ h.backlog
      · rename_i hready
        exact htime (by_contra fun hnot => hready ⟨rfl, hnot⟩)
    · intro x
      refine (h.unread x).trans ?_
      rw [hedges x]
      split
      · exact Nat.le_succ _
      · exact le_refl _
    · have harrived := h.arrived
      show (Record.arrived :: s.log).count .arrived = (Record.arrived :: s.log).count .accepted +
        (Record.arrived :: s.log).count .aborted + (s.backlog + 1)
      rw [List.count_cons_self, List.count_cons_of_ne (by decide), List.count_cons_of_ne (by decide)]
      omega

theorem notify_iff (h : s.Settled) (idx : Nat) :
    (s.receive fd idx).Settled ↔ s.Timely (.notify fd idx) := by
  have hedges : ∀ x, (s.receive fd idx).edges x =
      if x = fd ∧ fd ∉ s.ready then s.edges x + 1 else s.edges x := edges_trigger _ fd
  have hunread : (s.receive fd idx).unread = Function.update s.unread fd (s.unread fd ++ [idx]) := rfl
  have hmore : ∀ x, s.edges x ≤ (s.receive fd idx).edges x := by
    intro x
    rw [hedges]
    split
    · exact Nat.le_succ _
    · exact le_refl _
  constructor
  · intro h' hready
    have hbound := h'.unread fd
    rw [hedges, if_neg (by tauto), hunread, Function.update_self, List.length_append] at hbound
    exact hbound
  · intro htime
    refine ⟨h.backlog.trans (hmore _), ?_, ?_, ?_⟩
    · intro x
      rw [hunread]
      by_cases hx : x = fd
      · rw [hx, Function.update_self, List.length_append, hedges]
        split
        · exact Nat.succ_le_succ (h.unread fd)
        · rename_i hready
          exact htime (by_contra fun hnot => hready ⟨rfl, hnot⟩)
      · rw [Function.update_of_ne hx]
        exact (h.unread x).trans (hmore x)
    · have hcount : ∀ r, Record.sent fd idx ≠ r → (s.receive fd idx).log.count r = s.log.count r :=
        fun r hr => List.count_cons_of_ne hr
      rw [hcount _ Record.noConfusion, hcount _ Record.noConfusion, hcount _ Record.noConfusion]
      exact h.arrived
    · intro x i
      have hsent := h.sent x i
      have hold : (s.receive fd idx).sent = (fd, idx) :: s.sent := rfl
      have hnew : (s.receive fd idx).forwarded = s.forwarded := rfl
      rw [hold, hnew, hunread, List.count_cons]
      by_cases hx : x = fd
      · subst hx
        rw [Function.update_self, List.count_append, List.count_singleton]
        by_cases hi : idx = i
        · simp [hi]
          omega
        · simp [hi]
          omega
      · rw [Function.update_of_ne hx, if_neg (by simpa using fun h => absurd h.symm hx)]
        exact hsent

/-- `accept` fails, and its event is gone. -/
theorem kept_iff (h : s.Settled) {rest : List Nat} (hp : s.phase = .batch (s.listenfd :: rest))
    (hl : s.unread s.listenfd = []) :
    Settled { s with phase := .batch rest } ↔ s.Timely (.accept .failed true) := by
  have hedges := edges_advance hp
  have hone := hedges s.listenfd
  rw [if_pos rfl] at hone
  constructor
  · intro h'
    have hbound : s.backlog ≤ edges { s with phase := .batch rest } s.listenfd := h'.backlog
    show s.backlog < s.edges s.listenfd
    omega
  · intro htime
    have htime : s.backlog < s.edges s.listenfd := htime
    refine ⟨?_, ?_, h.arrived, h.sent⟩
    · show s.backlog ≤ edges { s with phase := .batch rest } s.listenfd
      omega
    · intro x
      by_cases hx : x = s.listenfd
      · show (s.unread x).length ≤ _
        rw [hx, hl]
        exact Nat.zero_le _
      · have hsame := hedges x
        rw [if_neg hx, Nat.add_zero] at hsame
        exact hsame ▸ h.unread x

/-- A number is read and forwarded, with the event that was for it. -/
theorem pass (h : s.Settled) {sockfd child : Nat} {more rest : List Nat}
    (hp : s.phase = .batch (sockfd :: rest)) (hl : sockfd ≠ s.listenfd)
    (hunread : s.unread sockfd = child :: more) : (s.pass sockfd child more rest).Settled := by
  have hedges : ∀ x, s.edges x = (s.pass sockfd child more rest).edges x + if x = sockfd then 1 else 0 :=
    edges_advance hp
  have hafter : (s.pass sockfd child more rest).unread = Function.update s.unread sockfd more := rfl
  refine ⟨?_, ?_, ?_, ?_⟩
  · have hsame := hedges s.listenfd
    rw [if_neg (Ne.symm hl), Nat.add_zero] at hsame
    show s.backlog ≤ (s.pass sockfd child more rest).edges s.listenfd
    exact hsame ▸ h.backlog
  · intro x
    have hbound := h.unread x
    rw [hedges x] at hbound
    rw [hafter]
    by_cases hx : x = sockfd
    · subst hx
      rw [hunread, if_pos rfl, List.length_cons] at hbound
      rw [Function.update_self]
      omega
    · rw [if_neg hx, Nat.add_zero] at hbound
      rwa [Function.update_of_ne hx]
  · have hcount : ∀ r, (∀ dest, Record.forwarded sockfd child dest ≠ r) →
        (s.pass sockfd child more rest).log.count r = s.log.count r :=
      fun r hr => List.count_cons_of_ne (hr _)
    rw [hcount _ fun _ => Record.noConfusion, hcount _ fun _ => Record.noConfusion,
      hcount _ fun _ => Record.noConfusion]
    exact h.arrived
  · intro x i
    have hsent := h.sent x i
    have hold : (s.pass sockfd child more rest).sent = s.sent := rfl
    have hnew : (s.pass sockfd child more rest).forwarded = (sockfd, child) :: s.forwarded := rfl
    rw [hold, hnew, hafter, hsent, List.count_cons]
    by_cases hx : x = sockfd
    · subst hx
      rw [hunread, Function.update_self, List.count_cons]
      by_cases hi : child = i
      · simp [hi]
        omega
      · simp [hi]
    · rw [Function.update_of_ne hx, if_neg (by simpa using fun h => absurd h.symm hx), Nat.add_zero]

end Settled

/-- Among the children, those with the pids of `gone` are those of `gone`. -/
theorem mem_gone {server server' : Server} {gone : List (Nat × Nat)} (ht : server.Tabled)
    (hperm : server.parent.members.Perm (gone ++ server'.parent.members)) {x : Nat × Nat} :
    x ∈ gone ↔ x ∈ server.parent.members ∧ x.1 ∈ gone.map Prod.fst := by
  have hpids : (server.parent.members.map Prod.fst).Nodup :=
    (Table.members_pids ht).nodup_iff.mpr ht.nodup
  have hall := (hperm.map Prod.fst).nodup_iff.mp hpids
  rw [List.map_append] at hall
  obtain ⟨-, -, hdisj⟩ := List.nodup_append.mp hall
  constructor
  · intro hx
    exact ⟨hperm.mem_iff.mpr (List.mem_append_left _ hx), List.mem_map_of_mem hx⟩
  · rintro ⟨hx, hpid⟩
    rcases List.mem_append.mp (hperm.mem_iff.mp hx) with hx | hx
    · exact hx
    · exact absurd rfl (hdisj x.1 hpid x.1 (List.mem_map_of_mem hx))

/-- Children are reaped, and what they have left in their pipes is gone. -/
theorem Settled.drop_iff (h : s.Settled) {server : Server} {sigs : List Signal} {rest : List Nat}
    {gone : List (Nat × Nat)} (hs : Sane s leaked) (hp : s.phase = .signals (.chld :: sigs) rest)
    (hperm : s.server.parent.members.Perm (gone ++ server.parent.members)) :
    ({ s with server := server, phase := .after sigs rest }.drop (gone.map Prod.snd)).Settled ↔
      s.Timely (.signal (gone.map Prod.fst)) := by
  have hend : s.phase ≠ .ended := by
    rw [hp]
    exact Phase.noConfusion
  obtain ⟨-, -, -, hlisten⟩ := hs.apart hend
  have hpipes : ∀ x ∈ gone.map Prod.snd, x ∈ s.server.parent.pipes := by
    intro x hx
    refine (hperm.map Prod.snd).mem_iff.mpr ?_
    rw [List.map_append]
    exact List.mem_append_left _ hx
  have hedges : ∀ x ∉ gone.map Prod.snd,
      edges ({ s with server := server, phase := .after sigs rest }.drop (gone.map Prod.snd)) x =
        s.edges x := by
    intro x hx
    rw [edges_drop hx]
    exact edges_after hp x
  constructor
  · intro h' _ x hx hpid
    have hx := (mem_gone hs.tabled hperm).mpr ⟨hx, hpid⟩
    -- an unread number would have been sent, but not forwarded
    refine List.eq_nil_iff_forall_not_mem.mpr fun i hi => ?_
    have hpos := List.count_pos_iff.mpr hi
    have hbefore := h.sent x.2 i
    have hafter : s.sent.count (x.2, i) = s.forwarded.count (x.2, i) +
        (if x.2 ∈ gone.map Prod.snd then [] else s.unread x.2).count i := h'.sent x.2 i
    rw [if_pos (List.mem_map_of_mem hx), List.count_nil] at hafter
    omega
  · intro htime
    have hnone : ∀ x ∈ gone.map Prod.snd, s.unread x = [] := by
      intro x hx
      obtain ⟨y, hy, rfl⟩ := List.mem_map.mp hx
      obtain ⟨hy, hpid⟩ := (mem_gone hs.tabled hperm).mp hy
      exact htime (by rw [hp]; rfl) y hy hpid
    have hsame : (fun x => if x ∈ gone.map Prod.snd then [] else s.unread x) = s.unread := by
      funext x
      split
      · rename_i hx
        exact (hnone x hx).symm
      · rfl
    refine h.mono rfl rfl hsame rfl ?_
    rintro x (rfl | hx)
    · exact (hedges _ fun hx => hlisten (hpipes _ hx)).ge
    · exact (hedges _ fun hgone => hx (hnone x hgone)).ge

/-- A step keeps to `Settled` states exactly if it is timely. -/
theorem Moves.settled_iff (hm : Moves s act s') (hs : Sane s leaked) (h : s.Settled) :
    s'.Settled ↔ s.Timely act := by
  cases hm with
  | connect => exact h.connect_iff
  | notify => exact h.notify_iff _
  | hangUp | raise =>
      refine iff_of_true (h.mono rfl rfl rfl rfl ?_) trivial
      intro x _
      refine (edges_trigger _ _ x).ge.trans' ?_
      split
      · exact Nat.le_succ _
      · exact le_refl _
  | wait hp hnd hready =>
      exact iff_of_true (h.mono rfl rfl rfl rfl fun x _ => (edges_wait hp hnd hready x).ge) trivial
  | waitFailed hp =>
      refine iff_of_true (h.mono rfl rfl rfl rfl fun x _ => ?_) trivial
      refine le_of_eq (edges_congr ?_ ?_ x)
      · rfl
      · rw [hp]
        rfl
  | kept hp =>
      obtain ⟨-, hl, -⟩ := hs.apart (by rw [hp]; exact Phase.noConfusion)
      exact h.kept_iff hp hl
  | aborted hp hb =>
      obtain ⟨-, hl, -⟩ := hs.apart (by rw [hp]; exact Phase.noConfusion)
      exact iff_of_true (h.take hp hb hl (.inr rfl) rfl rfl rfl rfl rfl rfl) trivial
  | refused hp hb | unforked hp hb | forked hp hb =>
      obtain ⟨-, hl, -⟩ := hs.apart (by rw [hp]; exact Phase.noConfusion)
      exact iff_of_true (h.take hp hb hl (.inl rfl) rfl rfl rfl rfl rfl rfl) trivial
  | readSignals hp =>
      obtain ⟨hne, -, hsig, -⟩ := hs.apart (by rw [hp]; exact Phase.noConfusion)
      refine iff_of_true (h.mono rfl rfl rfl rfl ?_) trivial
      intro x hx
      have hother : x ≠ s.sigPipefd.1 := by
        rintro rfl
        rcases hx with heq | hx
        · exact hne heq.symm
        · exact hx hsig
      have hadvance := edges_advance hp x
      rw [if_neg hother, Nat.add_zero] at hadvance
      rw [hadvance]
      refine le_of_eq (edges_congr ?_ ?_ x)
      · rfl
      · exact (Phase.rest_after _ _).symm
  | reaped hp ht hperm => exact h.drop_iff hs hp hperm
  | @killed sig _ _ _ _ hp hchld =>
      refine iff_of_true (h.mono rfl rfl rfl rfl fun x _ => (edges_after hp x).ge) ?_
      intro hsig
      rw [hp] at hsig
      exact absurd (Option.some.inj hsig) hchld
  | @empty sockfd _ hp hl _ hunread =>
      refine iff_of_true (h.mono rfl rfl rfl rfl ?_) trivial
      intro x hx
      have hother : x ≠ sockfd := by
        rintro rfl
        rcases hx with heq | hx
        · exact hl heq
        · exact hx hunread
      have hadvance := edges_advance hp x
      rw [if_neg hother, Nat.add_zero] at hadvance
      exact hadvance.le
  | forward hp hl _ hunread => exact iff_of_true (h.pass hp hl hunread) trivial
  | stop hp | again hp =>
      refine iff_of_true (h.mono rfl rfl rfl rfl fun x _ => ?_) trivial
      refine le_of_eq (edges_congr ?_ ?_ x)
      · rfl
      · rw [hp]
        rfl

/-! ## Whole runs -/

theorem settled_init (hi : machine.init s) : s.Settled := by
  obtain ⟨-, -, -, -, hbacklog, hunread, -, -, hlog⟩ := hi
  refine ⟨?_, ?_, ?_, ?_⟩
  · rw [hbacklog]
    exact Nat.zero_le _
  · intro fd
    rw [hunread]
    exact Nat.zero_le _
  · rw [hlog, hbacklog]
    rfl
  · intro fd idx
    unfold sent forwarded
    rw [hlog, hunread]
    rfl

/-- **A run stays in states in which whatever can be read is going to be reported, exactly if** all its
steps are timely. Then nothing is missed: where no event is pending, no connection waits and no number is
unread, and when none is pending at all, every number that was sent has been forwarded. -/
theorem none_missed_of_timely {h : List (Loop × Action)} (hr : machine.Run h s) :
    (Machine.Throughout Settled h s ↔ Machine.Always Timely h) ∧
    (Machine.Always Timely h → Machine.Throughout NoneMissed h s) := by
  have hstart : ∀ s, machine.init s → (∃ leaked, Sane s leaked) ∧ s.Settled :=
    fun s hi => ⟨⟨[], sane_init hi⟩, settled_init hi⟩
  have hstep : ∀ s act, (∃ leaked, Sane s leaked) → s.Settled → machine.enabled s act →
      ∃ s', machine.step s act = .ok s' ∧ (∃ leaked, Sane s' leaked) ∧ (s'.Settled ↔ s.Timely act) := by
    rintro s act ⟨leaked, hsane⟩ hset he
    obtain ⟨s', hs', hm⟩ := hsane.moves he
    exact ⟨s', hs', ⟨_, hm.sane hsane⟩, hm.settled_iff hsane hset⟩
  obtain ⟨hiff, -⟩ := hr.exact_of_iff hstart hstep
  refine ⟨hiff, fun hC => ?_⟩
  obtain ⟨hpast, hnow⟩ := hiff.mpr hC
  exact ⟨fun x hx => (hpast x hx).noneMissed, hnow.noneMissed⟩

/-- Two clients come one after the other, and the child of the first one sends a number while an earlier
one is being read. -/
theorem none_missed_in_turn :
    ∃ h s, machine.Run h s ∧ s.phase = .waiting ∧ s.ready = [] ∧ s.sent = [(8, 0), (8, 0)] ∧
      Machine.Throughout NoneMissed h s := by
  obtain ⟨h, s, hr, -, hs⟩ := Machine.Run.of_replay (M := machine.restrict Timely)
    [.connect, .wait [3], .accept (.conn 7 (8, 9) (some 20)) false, .finish,
      .connect, .wait [3], .accept (.conn 7 (9, 10) (some 21)) false, .finish,
      .notify 8 0, .wait [8], .notify 8 0, .forward, .finish, .wait [8], .forward, .finish]
    (fun s => (s.phase, s.ready, s.sent)) init_start (b := (.waiting, [], [(8, 0), (8, 0)]))
    (by decide +kernel)
  obtain ⟨hphase, hready, hsent⟩ : _ ∧ _ ∧ _ := by simpa only [Prod.mk.injEq] using hs
  obtain ⟨hr, hC⟩ := hr.of_restrict
  exact ⟨h, s, hr, hphase, hready, hsent, (none_missed_of_timely hr).2 hC⟩

/-- Two clients come before `epoll_wait` returns. The second one is not accepted, and nothing reminds the
parent of it. -/
theorem none_missed_together_fails :
    ∃ h s, machine.Run h s ∧
      h.map Prod.snd = [.connect, .connect, .wait [3],
        .accept (.conn 7 (8, 9) (some 20)) false, .finish] ∧
      s.phase = .waiting ∧ s.ready = [] ∧ s.backlog = 1 ∧ ¬ s.NoneMissed := by
  obtain ⟨h, s, hr, has, hs⟩ := Machine.Run.of_replay (M := machine)
    [.connect, .connect, .wait [3], .accept (.conn 7 (8, 9) (some 20)) false, .finish]
    (fun s => (s.phase, s.ready, s.backlog)) init_start (b := (.waiting, [], 1)) (by decide +kernel)
  obtain ⟨hphase, hready, hbacklog⟩ : _ ∧ _ ∧ _ := by simpa only [Prod.mk.injEq] using hs
  refine ⟨h, s, hr, has, hphase, hready, hbacklog, ?_⟩
  intro hmissed
  have hnone := hmissed.backlog (by simp [edges, hready, hphase, Phase.rest])
  omega

end Loop
end LinuxServer.Shm
