import LinuxServer.Shm.Descriptors

/-!
# To whom a number goes

The parent reads a number from the pipe of a child and sends it to all the others. It knows the sender
by the descriptor only, while a batch of events may name descriptors that have been closed since, and
opened again for someone else.

`fan_out` says that this does no harm: the pipes in the table are different, what is read from one of
them was sent by the child it belongs to now (`sent_of_unread`), and a descriptor that is not in the table
yields nothing.
-/

namespace LinuxServer.Shm

open Library

namespace Loop
variable {s s' : Loop} {act : Action} {leaked : List Nat} {h : List (Loop × Action)} {pid fd idx : Nat}

/-- The number `idx` was sent on `fd` in the course of `h`, and ever since then the pipe has been that of
the child `pid`. -/
def SentBy (h : List (Loop × Action)) (s : Loop) (pid fd idx : Nat) : Prop :=
  ∃ h₁ s₁ h₂, h = h₁ ++ (s₁, .notify fd idx) :: h₂ ∧
    Machine.Throughout (fun t : Loop => (pid, fd) ∈ t.server.parent.members)
      ((s₁, Action.notify fd idx) :: h₂) s

theorem SentBy.member (hb : SentBy h s pid fd idx) : (pid, fd) ∈ s.server.parent.members := by
  obtain ⟨-, -, -, -, -, hnow⟩ := hb
  exact hnow

theorem SentBy.step (hb : SentBy h s pid fd idx) (act : Action)
    (hmem : (pid, fd) ∈ s'.server.parent.members) : SentBy (h ++ [(s, act)]) s' pid fd idx := by
  obtain ⟨h₁, s₁, h₂, rfl, hpast, hnow⟩ := hb
  refine ⟨h₁, s₁, h₂ ++ [(s, act)], by simp, ?_, hmem⟩
  intro x hx
  rw [← List.cons_append] at hx
  rcases List.mem_append.mp hx with hx | hx
  · exact hpast x hx
  · rw [List.mem_singleton.mp hx]
    exact hnow

theorem mem_pipes : fd ∈ s.server.parent.pipes ↔ ∃ pid, (pid, fd) ∈ s.server.parent.members := by
  simp [Parent.pipes]

/-- What can be read after a step could be read before it, from a pipe that has not changed hands, or it
was sent in this step. -/
theorem Moves.unread (hm : Moves s act s') (hidx : idx ∈ s'.unread fd) :
    (idx ∈ s.unread fd ∧ ∀ pid, (pid, fd) ∈ s.server.parent.members →
      (pid, fd) ∈ s'.server.parent.members) ∨
    (act = .notify fd idx ∧ fd ∈ s.server.parent.pipes ∧ s'.server = s.server) := by
  cases hm with
  | connect | hangUp | raise | wait | waitFailed | kept | aborted | refused | readSignals | empty | stop
  | again => exact .inl ⟨hidx, fun _ hmem => hmem⟩
  | @notify fd' idx' hend hfd =>
      have hidx : idx ∈ Function.update s.unread fd' (s.unread fd' ++ [idx']) fd := hidx
      by_cases hsame : fd = fd'
      · subst hsame
        rw [Function.update_self] at hidx
        rcases List.mem_append.mp hidx with hidx | hidx
        · exact .inl ⟨hidx, fun _ hmem => hmem⟩
        · rw [List.mem_singleton.mp hidx]
          exact .inr ⟨rfl, hfd, rfl⟩
      · rw [Function.update_of_ne hsame] at hidx
        exact .inl ⟨hidx, fun _ hmem => hmem⟩
  | unforked _ _ _ _ _ _ _ hmembers | killed _ _ _ hmembers =>
      refine .inl ⟨hidx, fun pid hmem => ?_⟩
      rw [← hmembers] at hmem
      exact hmem
  | @forked _ _ _ _ _ server _ _ _ _ _ hmembers =>
      refine .inl ⟨hidx, fun pid hmem => ?_⟩
      show _ ∈ server.parent.members
      rw [hmembers]
      exact List.mem_append_left _ hmem
  | @reaped sigs rest gone server hp ht hperm =>
      have hidx : idx ∈ if fd ∈ gone.map Prod.snd then [] else s.unread fd := hidx
      -- nothing can be read from a pipe that was closed
      split at hidx
      · cases hidx
      · rename_i hgone
        refine .inl ⟨hidx, fun pid hmem => ?_⟩
        rcases List.mem_append.mp (hperm.mem_iff.mp hmem) with hmem | hmem
        · exact absurd (List.mem_map.mpr ⟨_, hmem, rfl⟩) hgone
        · exact hmem
  | @forward sockfd child more rest hp hl hsig hunread =>
      have hidx : idx ∈ Function.update s.unread sockfd more fd := hidx
      refine .inl ⟨?_, fun _ hmem => hmem⟩
      by_cases hsame : fd = sockfd
      · subst hsame
        rw [Function.update_self] at hidx
        rw [hunread]
        exact List.mem_cons_of_mem _ hidx
      · rwa [Function.update_of_ne hsame] at hidx

/-- Whatever can be read from a pipe was sent by the child it belongs to. -/
theorem sent_of_unread (hr : machine.Run h s) :
    ∀ fd idx, idx ∈ s.unread fd → ∃ pid, SentBy h s pid fd idx := by
  induction hr with
  | start hi =>
      obtain ⟨-, -, -, -, -, hunread, -⟩ := hi
      intro fd idx hidx
      rw [hunread] at hidx
      cases hidx
  | @step h s act s' hr he hs ih =>
      have hm : Moves s act s' := Machine.of_returns ((sane_of_run hr).moves he) hs
      intro fd idx hidx
      rcases hm.unread hidx with ⟨hold, hkeep⟩ | ⟨rfl, hfd, hserver⟩
      · obtain ⟨pid, hb⟩ := ih fd idx hold
        exact ⟨pid, hb.step act (hkeep pid hb.member)⟩
      · obtain ⟨pid, hmem⟩ := mem_pipes.mp hfd
        have hnow : (pid, fd) ∈ s'.server.parent.members := by
          rw [hserver]
          exact hmem
        refine ⟨pid, h, s, [], rfl, ?_, hnow⟩
        intro x hx
        rw [List.mem_singleton.mp hx]
        exact hmem

/-- The pipes in the table are different, and so are the children. -/
theorem Sane.distinct (hs : Sane s leaked) (hend : s.phase ≠ .ended) :
    s.server.parent.pipes.Nodup ∧ (s.server.parent.members.map Prod.fst).Nodup := by
  have hopened := (hs.opened hend).nodup_iff.mp hs.nodup
  refine ⟨(List.nodup_append.mp (List.nodup_append.mp hopened).1).2.1, ?_⟩
  exact (Table.members_pids hs.tabled).nodup_iff.mpr hs.tabled.nodup

/-- The pipes of the others are those with other descriptors. -/
theorem Sane.others (hs : Sane s leaked) (hend : s.phase ≠ .ended)
    (hmem : (pid, fd) ∈ s.server.parent.members) :
    s.server.parent.pipes.filter (· ≠ fd) =
      (s.server.parent.members.filter (·.1 ≠ pid)).map Prod.snd := by
  obtain ⟨hpipes, hpids⟩ := hs.distinct hend
  rw [Parent.pipes, List.filter_map]
  congr 1
  apply List.filter_congr
  rintro ⟨q, fd'⟩ hmem'
  have hiff : fd' = fd ↔ q = pid := by
    constructor
    · intro h
      exact congrArg Prod.fst (List.inj_on_of_nodup_map hpipes hmem' hmem h)
    · intro h
      exact congrArg Prod.snd (List.inj_on_of_nodup_map hpids hmem' hmem h)
  simp [hiff]

/-- **A number that is read from a pipe was sent by the child it belongs to, and goes to the pipe of every
other child once, and nowhere else.** If the pipe in question has been closed earlier in the batch, and not
been opened again for another child, nothing is sent. -/
theorem fan_out (hr : machine.Run h s) {sockfd : Nat} {rest : List Nat}
    (hp : s.phase = .batch (sockfd :: rest)) (he : machine.enabled s .forward) :
    (s.server.parent.members.map Prod.fst).Perm (pids s.server.children) ∧
    ∃ s', machine.step s .forward = .ok s' ∧ s'.server = s.server ∧
      (sockfd ∉ s.server.parent.pipes → s.unread sockfd = []) ∧
      (s.unread sockfd = [] → s'.log = s.log) ∧
      ∀ idx more, s.unread sockfd = idx :: more →
        ∃ pid dest, SentBy h s pid sockfd idx ∧ pid ∈ pids s.server.children ∧
          s'.log = .forwarded sockfd idx dest :: s.log ∧ s'.unread sockfd = more ∧
          dest = (s.server.parent.members.filter (·.1 ≠ pid)).map Prod.snd ∧
          dest.Nodup ∧ sockfd ∉ dest := by
  have hs := sane_of_run hr
  have hend : s.phase ≠ .ended := by
    rw [hp]
    exact Phase.noConfusion
  have hpids : (s.server.parent.members.map Prod.fst).Perm (pids s.server.children) :=
    Table.members_pids hs.tabled
  refine ⟨hpids, ?_⟩
  have hclosed : sockfd ∉ s.server.parent.pipes → s.unread sockfd = [] := by
    intro hnot
    by_contra hne
    exact hnot (hs.unread sockfd hne)
  obtain ⟨s', hs', hm⟩ := hs.moves he
  refine ⟨s', hs', ?_⟩
  cases hm with
  | empty hp' _ _ hunread =>
      obtain ⟨rfl, rfl⟩ := List.cons.inj (Phase.batch.inj (hp.symm.trans hp'))
      refine ⟨rfl, hclosed, fun _ => rfl, ?_⟩
      intro idx more hread
      rw [hunread] at hread
      cases hread
  | @forward _ child more _ hp' _ _ hunread =>
      obtain ⟨rfl, rfl⟩ := List.cons.inj (Phase.batch.inj (hp.symm.trans hp'))
      refine ⟨rfl, hclosed, ?_, ?_⟩
      · intro hnone
        rw [hunread] at hnone
        cases hnone
      · intro idx more' hread
        obtain ⟨rfl, rfl⟩ := List.cons.inj (hunread.symm.trans hread)
        obtain ⟨pid, hb⟩ := sent_of_unread hr sockfd child (by simp [hunread])
        refine ⟨pid, s.server.parent.pipes.filter (· ≠ sockfd), hb, ?_, rfl,
          Function.update_self .., hs.others hend hb.member, ?_, by simp⟩
        · exact hpids.mem_iff.mp (List.mem_map.mpr ⟨_, hb.member, rfl⟩)
        · exact (hs.distinct hend).1.filter _

/-- The pipe of a child that has sent 0 is reported together with its end. When the parent gets to the
pipe, it belongs to another child, which has sent 2. -/
theorem fan_out_reused :
    ∃ h s s', machine.Run h s ∧
      h.map Prod.snd = [.connect, .wait [3], .accept (.conn 7 (8, 9) (some 20)) false, .finish,
        .connect, .wait [3], .accept (.conn 7 (9, 10) (some 21)) false, .finish,
        .notify 8 0, .raise .chld, .connect, .wait [5, 3, 8], .readSignals, .signal [20],
        .accept (.conn 7 (8, 10) (some 22)) false, .notify 8 2] ∧
      s.phase = .batch [8] ∧ s.server.parent.members = [(21, 9), (22, 8)] ∧
      machine.step s .forward = .ok s' ∧ s'.log = .forwarded 8 2 [9] :: s.log := by
  obtain ⟨h, s, hr, has, hs⟩ := Machine.Run.of_replay (M := machine)
    [.connect, .wait [3], .accept (.conn 7 (8, 9) (some 20)) false, .finish,
      .connect, .wait [3], .accept (.conn 7 (9, 10) (some 21)) false, .finish,
      .notify 8 0, .raise .chld, .connect, .wait [5, 3, 8], .readSignals, .signal [20],
      .accept (.conn 7 (8, 10) (some 22)) false, .notify 8 2]
    (fun s => (s.phase, s.server.parent.members, s.unread 8, decide (machine.enabled s .forward)))
    init_start (b := (.batch [8], [(21, 9), (22, 8)], [2], true)) (by decide +kernel)
  obtain ⟨hphase, hmembers, hunread, he⟩ : _ ∧ _ ∧ _ ∧ _ := by simpa only [Prod.mk.injEq] using hs
  obtain ⟨-, s', hs', -, -, -, hsent⟩ := fan_out hr hphase (of_decide_eq_true he)
  obtain ⟨pid, dest, hb, -, hlog, -, hdest, -⟩ := hsent 2 [] hunread
  have hpid : pid = 22 := by
    have := hb.member
    rw [hmembers] at this
    simpa using this
  rw [hpid, hmembers] at hdest
  refine ⟨h, s, s', hr, has, hphase, hmembers, hs', ?_⟩
  rw [hlog, hdest]
  rfl

end Loop
end LinuxServer.Shm
