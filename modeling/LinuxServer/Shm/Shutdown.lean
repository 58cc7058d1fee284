import LinuxServer.Shm.Descriptors

/-!
# Shutting down

The parent leaves its loop when `stop_server` has been raised, which happens once there are no children
left: on a signal to terminate if there are none, and otherwise when the last one has been reaped after
such a signal. But it finishes its batch of events first, and the listening socket may be among them.

`stopped_iff` says that this is the only way for a child to be left behind.
-/

namespace LinuxServer.Shm.Loop

open Library

variable {s s' : Loop} {act : Action} {leaked : List Nat}

/-- No child is forked when `stop_server` has been raised. -/
def NoneLate (s : Loop) : Action → Prop
  | .accept (.conn _ _ (some _)) _ => s.server.parent.userCount < userLimit →
      s.server.parent.stopServer = false
  | _ => True

instance (s : Loop) (act : Action) : Decidable (s.NoneLate act) :=
  match act with
  | .accept (.conn _ _ (some _)) _ => inferInstanceAs (Decidable
      (s.server.parent.userCount < userLimit → s.server.parent.stopServer = false))
  | .accept (.conn _ _ none) _ | .accept .failed _ | .connect | .notify _ _ | .hangUp _ | .raise _
  | .wait _ | .waitFailed | .readSignals | .signal _ | .forward | .finish =>
      inferInstanceAs (Decidable True)

/-- `stop_server` is raised, and there are no children. -/
def Clear (s : Loop) : Prop := s.server.parent.stopServer = true → s.server.children = []

/-- `stop_server` is raised, the signals of this batch have been dealt with, and there are children. -/
structure Abandons (s : Loop) : Prop where
  stop : s.server.parent.stopServer = true
  children : s.server.children ≠ []
  phase : ∀ sigs fds, s.phase ≠ .signals sigs fds

theorem children_eq_nil {server : Server} (ht : server.Tabled) (h : server.parent.userCount = 0) :
    server.children = [] :=
  List.eq_nil_of_length_eq_zero ((Table.count_eq ht).symm.trans h)

theorem Moves.clear (hm : Moves s act s') (hs : Sane s leaked) (hC : s.NoneLate act) (h : s.Clear) :
    s'.Clear := by
  cases hm with
  | connect | notify | hangUp | raise | wait | waitFailed | kept | aborted | refused | readSignals
  | empty | forward | stop | again => exact h
  | unforked _ _ _ _ _ _ _ _ hchildren hstop =>
      intro hstop'
      exact hchildren.trans (h (hstop.symm.trans hstop'))
  | forked _ _ hroom _ _ _ _ hstop =>
      intro hstop'
      exact Bool.noConfusion ((hC hroom).symm.trans (hstop.symm.trans hstop'))
  | reaped _ ht _ hchildren hstop =>
      intro hstop'
      rcases Bool.or_eq_true_iff.mp (hstop.symm.trans hstop') with hold | hlast
      · refine hchildren.trans ?_
        rw [h hold]
        rfl
      · exact children_eq_nil ht (beq_iff_eq.mp (Bool.and_eq_true_iff.mp hlast).2)
  | killed _ _ _ _ hchildren hstop =>
      intro hstop'
      refine hchildren.trans ?_
      rcases Bool.or_eq_true_iff.mp (hstop.symm.trans hstop') with hold | hnone
      · exact h hold
      · exact children_eq_nil hs.tabled (beq_iff_eq.mp hnone)

/-- A child that is forked too late. -/
theorem Moves.abandons (hm : Moves s act s') (hC : ¬ s.NoneLate act) : s'.Abandons := by
  cases hm with
  | connect | notify | hangUp | raise | wait | waitFailed | kept | aborted | unforked | readSignals
  | reaped | killed | empty | forward | stop | again => exact absurd trivial hC
  | @refused _ _ _ fork _ _ _ hfull =>
      refine absurd ?_ hC
      cases fork with
      | none => trivial
      | some pid => exact fun hroom => absurd hroom (Nat.not_lt.mpr hfull)
  | forked _ _ hroom _ _ _ hchildren hstop =>
      refine ⟨?_, ?_, fun _ _ => Phase.noConfusion⟩
      · refine hstop.trans ?_
        by_contra h
        exact hC fun _ => Bool.eq_false_iff.mpr h
      · show _ ≠ _
        rw [show (s.enlist _ _ _).server.children = _ from hchildren]
        exact List.cons_ne_nil _ _

/-- Nothing is reaped in the rest of the batch. -/
theorem Abandons.step (h : s.Abandons) (hs : Sane s leaked) (hm : Moves s act s') : s'.Abandons := by
  obtain ⟨hstop, hchildren, hphase⟩ := h
  obtain ⟨hwait, hsig⟩ := hs.stop hstop
  cases hm with
  | connect | notify | hangUp | raise => exact ⟨hstop, hchildren, hphase⟩
  | wait hp | waitFailed hp => exact absurd hp hwait
  | kept | aborted | refused | empty | forward => exact ⟨hstop, hchildren, fun _ _ => Phase.noConfusion⟩
  | unforked _ _ _ _ _ _ _ _ hchildren' hstop' =>
      refine ⟨hstop'.trans hstop, ?_, fun _ _ => Phase.noConfusion⟩
      intro hnil
      exact hchildren (hchildren'.symm.trans hnil)
  | forked _ _ _ _ _ _ hchildren' hstop' =>
      refine ⟨hstop'.trans hstop, ?_, fun _ _ => Phase.noConfusion⟩
      intro hnil
      exact List.cons_ne_nil _ _ (hchildren'.symm.trans hnil)
  | readSignals hp =>
      rw [hp] at hsig
      exact absurd List.mem_cons_self hsig
  | reaped hp | killed hp => exact absurd hp (hphase _ _)
  | stop => exact ⟨hstop, hchildren, fun _ _ => Phase.noConfusion⟩
  | again _ hno => exact Bool.noConfusion (hno.symm.trans hstop)

theorem clear_or_abandons {h : List (Loop × Action)} (hr : machine.Run h s) :
    (Machine.Always NoneLate h → s.Clear) ∧ (¬ Machine.Always NoneLate h → s.Abandons) := by
  induction hr with
  | @start s hi =>
      refine ⟨fun _ => ?_, fun hnot => absurd (fun _ hx => absurd hx List.not_mem_nil) hnot⟩
      intro _
      rw [hi.1]
  | @step h s act s' hr he hs ih =>
      have hsane := sane_of_run hr
      have hm : Moves s act s' := Machine.of_returns (hsane.moves he) hs
      have hlast : Machine.Always NoneLate [(s, act)] ↔ s.NoneLate act := by simp [Machine.Always]
      rw [Machine.always_append, hlast]
      refine ⟨fun hC => hm.clear hsane hC.2 (ih.1 hC.1), ?_⟩
      intro hnot
      by_cases hC : Machine.Always NoneLate h
      · exact hm.abandons fun hact => hnot ⟨hC, hact⟩
      · exact (ih.2 hC).step hsane hm

/-- **With `stop_server` raised, until the loop has ended because of it, there are no children left
exactly if** none was forked since it was raised. -/
theorem stopped_iff {h : List (Loop × Action)} (hr : machine.Run h s)
    (hstop : s.server.parent.stopServer = true) :
    (s.server.parent.userCount = 0 ∧ s.server.children = []) ↔ Machine.Always NoneLate h := by
  obtain ⟨hclear, habandons⟩ := clear_or_abandons hr
  constructor
  · rintro ⟨-, hnil⟩
    by_contra hnot
    exact (habandons hnot).children hnil
  · intro hC
    have hnil := hclear hC hstop
    refine ⟨?_, hnil⟩
    rw [Table.count_eq (sane_of_run hr).tabled, hnil]
    rfl

/-- The only client is there when the signal comes, and leaves. Another one comes in the meantime, and is
waited for. -/
theorem stopped_iff_waits :
    ∃ h s, machine.Run h s ∧ s.phase = .ended ∧ s.server.parent.stopServer = true ∧
      s.server.log = [.reaped 21, .reaped 20, .forked 21, .forked 20] ∧
      s.server.parent.userCount = 0 ∧ s.server.children = [] := by
  obtain ⟨h, s, hr, -, hs⟩ := Machine.Run.of_replay (M := machine.restrict NoneLate)
    [.connect, .wait [3], .accept (.conn 7 (8, 9) (some 20)) false, .finish,
      .raise .term, .connect, .wait [5, 3], .readSignals, .signal [],
        .accept (.conn 7 (9, 10) (some 21)) false, .finish,
      .raise .chld, .wait [5], .readSignals, .signal [20], .finish,
      .raise .chld, .wait [5], .readSignals, .signal [21], .finish]
    (fun s => (s.phase, s.server.parent.stopServer, s.server.log)) init_start
    (b := (.ended, true, [.reaped 21, .reaped 20, .forked 21, .forked 20])) (by decide +kernel)
  obtain ⟨hend, hstop, hlog⟩ : _ ∧ _ ∧ _ := by simpa only [Prod.mk.injEq] using hs
  obtain ⟨hr, hC⟩ := hr.of_restrict
  exact ⟨h, s, hr, hend, hstop, hlog, (stopped_iff hr hstop).mpr hC⟩

/-- There are no clients when the signal comes, but one arrives in the same batch. -/
theorem stopped_iff_late_fails :
    ∃ h s, machine.Run h s ∧
      h.map Prod.snd = [.raise .term, .connect, .wait [5, 3], .readSignals, .signal [],
        .accept (.conn 7 (8, 9) (some 20)) false, .finish] ∧
      s.phase = .ended ∧ s.server.parent.stopServer = true ∧
      s.server.parent.userCount = 1 ∧ s.server.children = [⟨20, 0⟩] := by
  obtain ⟨h, s, hr, has, hs⟩ := Machine.Run.of_replay (M := machine)
    [.raise .term, .connect, .wait [5, 3], .readSignals, .signal [],
      .accept (.conn 7 (8, 9) (some 20)) false, .finish]
    (fun s => (s.phase, s.server.parent.stopServer, s.server.parent.userCount, s.server.children))
    init_start (b := (.ended, true, 1, [⟨20, 0⟩])) (by decide +kernel)
  obtain ⟨hend, hstop, hcount, hchildren⟩ : _ ∧ _ ∧ _ ∧ _ := by simpa only [Prod.mk.injEq] using hs
  exact ⟨h, s, hr, has, hend, hstop, hcount, hchildren⟩

end LinuxServer.Shm.Loop
