import LinuxServer.Library.Memory
import Mathlib.Logic.Relation
import Mathlib.Order.Defs.PartialOrder

/-!
# Machines and their runs

A `Machine` is a program seen from outside: which states it may start in, which actions its
environment may offer in a state, and what each action does. A step may fault, in which case the
run has no next state.

`Run h s` keeps the history of a run, oldest move first, so that a condition on the moves (and not
only on the states) of a run can be stated. Three rules cover what is proved about runs here:
`Run.invariant` for properties that every step preserves, `Run.guarded` for properties that only
survive moves meeting a condition, and `Run.exact` for the case where that condition is also
necessary. `Reachable.preserved` and `Run.exact_of_iff` are the first and the last of them for steps
that return. `Later.monotone` is about one state of a run and the states after it.
-/

namespace LinuxServer.Library

structure Machine (σ α : Type) where
  init : σ → Prop
  enabled : σ → α → Prop
  step : σ → α → Exec σ

namespace Machine
variable {σ α : Type} {M : Machine σ α} {h : List (σ × α)} {s s' : σ} {a : α}

/-- `M.Run h s`: starting in an initial state and making the moves `h`, the machine is in `s`.
A move is recorded with the state it was made in. -/
inductive Run (M : Machine σ α) : List (σ × α) → σ → Prop
  | start {s : σ} : M.init s → Run M [] s
  | step {h : List (σ × α)} {s : σ} {a : α} {s' : σ} : Run M h s → M.enabled s a →
      M.step s a = .ok s' → Run M (h ++ [(s, a)]) s'

def Reachable (M : Machine σ α) (s : σ) : Prop := ∃ h, M.Run h s

/-- Every move of a history meets `C`. -/
def Always (C : σ → α → Prop) (h : List (σ × α)) : Prop := ∀ x ∈ h, C x.1 x.2

theorem always_append {C : σ → α → Prop} {h₁ h₂ : List (σ × α)} :
    Always C (h₁ ++ h₂) ↔ Always C h₁ ∧ Always C h₂ := by
  simp [Always, or_imp, forall_and]

/-- Every state a run went through, its last one included, satisfies `P`. -/
def Throughout (P : σ → Prop) (h : List (σ × α)) (s : σ) : Prop := (∀ x ∈ h, P x.1) ∧ P s

/-- The rule for runs whose steps meet a condition: the invariant holds in every state of the run. -/
theorem Run.guarded {C : σ → α → Prop} {I : σ → Prop} (hr : M.Run h s)
    (start : ∀ s, M.init s → I s)
    (step : ∀ s a s', I s → M.enabled s a → C s a → M.step s a = .ok s' → I s')
    (hC : Always C h) : Throughout I h s := by
  induction hr with
  | start hi => exact ⟨by simp, start _ hi⟩
  | @step h s a s' hr he hs ih =>
      rw [always_append] at hC
      obtain ⟨hpast, hnow⟩ := ih hC.1
      have hCa : C s a := hC.2 (s, a) (by simp)
      refine ⟨?_, step s a s' hnow he hCa hs⟩
      intro x hx
      rcases List.mem_append.mp hx with hx | hx
      · exact hpast x hx
      · obtain rfl := List.mem_singleton.mp hx
        exact hnow

/-- The rule for runs: what holds at the start and is kept by every step holds at the end. -/
theorem Run.invariant {I : σ → Prop} (hr : M.Run h s) (start : ∀ s, M.init s → I s)
    (step : ∀ s a s', I s → M.enabled s a → M.step s a = .ok s' → I s') : I s := by
  have hg := hr.guarded (C := fun _ _ => True) start
    (fun s a s' hI he _ hs => step s a s' hI he hs) (fun _ _ => trivial)
  exact hg.2

/-- The rule for reachable states. -/
theorem Reachable.invariant {I : σ → Prop} (hr : M.Reachable s) (start : ∀ s, M.init s → I s)
    (step : ∀ s a s', I s → M.enabled s a → M.step s a = .ok s' → I s') : I s := by
  obtain ⟨h, hr⟩ := hr
  exact hr.invariant start step

/-- If moves meeting `C` preserve `I`, which implies `P`, and any other move out of `I` breaks `P`,
then a run stays within `P` exactly when all its moves meet `C`. -/
theorem Run.exact {C : σ → α → Prop} {I P : σ → Prop} (hr : M.Run h s)
    (start : ∀ s, M.init s → I s) (good : ∀ s, I s → P s)
    (step : ∀ s a s', I s → M.enabled s a → C s a → M.step s a = .ok s' → I s')
    (bad : ∀ s a s', I s → M.enabled s a → M.step s a = .ok s' → P s' → C s a) :
    Throughout P h s ↔ Always C h := by
  constructor
  · intro hP
    induction hr with
    | start hi => simp [Always]
    | @step h s a s' hr he hs ih =>
        have hpast : Throughout P h s :=
          ⟨fun x hx => hP.1 x (List.mem_append_left _ hx), hP.1 (s, a) (by simp)⟩
        -- the earlier moves meet `C`, so `I` held when the last one was made
        have hC := ih hpast
        have hI : I s := (hr.guarded start step hC).2
        rw [always_append]
        refine ⟨hC, ?_⟩
        intro x hx
        obtain rfl := List.mem_singleton.mp hx
        exact bad s a s' hI he hs hP.2
  · intro hC
    obtain ⟨hpast, hnow⟩ := hr.guarded start step hC
    exact ⟨fun x hx => good x.1 (hpast x hx), good s hnow⟩

/-! ## Steps that return

The lemma about a step usually says that it returns, and with what. -/

/-- A step has one result. -/
theorem of_returns {Q : σ → Prop} (h : ∃ t, M.step s a = .ok t ∧ Q t) (hs : M.step s a = .ok s') :
    Q s' := by
  obtain ⟨t, ht, hQ⟩ := h
  obtain rfl : t = s' := Except.ok.inj (ht.symm.trans hs)
  exact hQ

/-- The rule for reachable states if no step fails. -/
theorem Reachable.preserved {I : σ → Prop} (hr : M.Reachable s) (start : ∀ s, M.init s → I s)
    (step : ∀ s a, I s → M.enabled s a → ∃ s', M.step s a = .ok s' ∧ I s') : I s :=
  hr.invariant start fun s a _ hI he hs => of_returns (step s a hI he) hs

/-- If `I` is an invariant, and a move out of `P` leads back to it exactly if it meets `C`, then a run
stays within `P` exactly when all its moves meet `C`, and then it can go on. -/
theorem Run.exact_of_iff {C : σ → α → Prop} {I P : σ → Prop} (hr : M.Run h s)
    (start : ∀ s, M.init s → I s ∧ P s)
    (step : ∀ s a, I s → P s → M.enabled s a →
      ∃ s', M.step s a = .ok s' ∧ I s' ∧ (P s' ↔ C s a)) :
    (Throughout P h s ↔ Always C h) ∧
    (Always C h → ∀ a, M.enabled s a → ∃ s', M.step s a = .ok s') := by
  have hgood : ∀ s a s', I s ∧ P s → M.enabled s a → C s a → M.step s a = .ok s' → I s' ∧ P s' := by
    intro s a s' ⟨hI, hP⟩ he hC hs
    obtain ⟨hI', hiff⟩ := of_returns (step s a hI hP he) hs
    exact ⟨hI', hiff.mpr hC⟩
  constructor
  · refine hr.exact start (fun s hs => hs.2) hgood ?_
    intro s a s' ⟨hI, hP⟩ he hs hP'
    exact (of_returns (step s a hI hP he) hs).2.mp hP'
  · intro hC a he
    obtain ⟨hI, hP⟩ := (hr.guarded start hgood hC).2
    obtain ⟨s', hs', -⟩ := step s a hI hP he
    exact ⟨s', hs'⟩

/-- The machine in which only moves that meet `C` are offered. -/
def restrict (M : Machine σ α) (C : σ → α → Prop) : Machine σ α where
  init := M.init
  enabled s a := M.enabled s a ∧ C s a
  step := M.step

/-- A run of the restricted machine is a run whose moves all meet the condition. -/
theorem Run.of_restrict {C : σ → α → Prop} (hr : (M.restrict C).Run h s) :
    M.Run h s ∧ Always C h := by
  induction hr with
  | start hi => exact ⟨.start hi, by simp [Always]⟩
  | @step h s a s' hr he hs ih =>
      refine ⟨ih.1.step he.1 hs, ?_⟩
      rw [always_append]
      refine ⟨ih.2, ?_⟩
      intro x hx
      obtain rfl := List.mem_singleton.mp hx
      exact he.2

/-! ## Later states -/

/-- The machine is in `s'` some steps after it was in `s`, or at once. -/
def Later (M : Machine σ α) : σ → σ → Prop :=
  Relation.ReflTransGen fun s s' => ∃ a, M.enabled s a ∧ M.step s a = .ok s'

/-- What no step makes less is never less later on. -/
theorem Later.monotone {β : Type} [Preorder β] {I : σ → Prop} {f : σ → β} (hl : M.Later s s') (hs : I s)
    (step : ∀ s a s', I s → M.enabled s a → M.step s a = .ok s' → I s' ∧ f s ≤ f s') :
    I s' ∧ f s ≤ f s' := by
  induction hl with
  | refl => exact ⟨hs, le_rfl⟩
  | tail _ hstep ih =>
      obtain ⟨a, he, hs'⟩ := hstep
      obtain ⟨hI, hle⟩ := step _ a _ ih.1 he hs'
      exact ⟨hI, ih.2.trans hle⟩

/-! ## Replaying a schedule

Given the actions of its environment a machine is deterministic, so a particular run is given by its
schedule and found by computation. -/

/-- The fault of a step, if there is one. -/
def fault (M : Machine σ α) (s : σ) (a : α) : Option Fault :=
  match M.step s a with
  | .ok _ => none
  | .error e => some e

theorem step_of_fault {e : Fault} (h : M.fault s a = some e) : M.step s a = .error e := by
  unfold fault at h
  split at h
  · cases h
  · rename_i e' he
    rw [he, Option.some.inj h]

section Replay
variable [∀ s a, Decidable (M.enabled s a)]

/-- Make the moves `as` from `s`; `none` if one of them is not enabled or faults. -/
def replay (M : Machine σ α) [∀ s a, Decidable (M.enabled s a)] : σ → List α → Option σ
  | s, [] => some s
  | s, a :: as =>
    if M.enabled s a then
      match M.step s a with
      | .ok s' => replay M s' as
      | .error _ => none
    else none

/-- The moves that are replayed continue a run. -/
theorem Run.replay {as : List α} (hr : M.Run h s) (hp : M.replay s as = some s') :
    ∃ h', M.Run (h ++ h') s' ∧ h'.map Prod.snd = as := by
  induction as generalizing h s with
  | nil =>
      obtain rfl : s = s' := Option.some.inj hp
      exact ⟨[], by simpa using hr, rfl⟩
  | cons a as ih =>
      rw [Machine.replay] at hp
      split at hp
      · rename_i he
        split at hp
        · rename_i t ht
          obtain ⟨h', hr', has⟩ := ih (hr.step he ht) hp
          refine ⟨(s, a) :: h', ?_, by simp [has]⟩
          rw [List.append_assoc] at hr'
          exact hr'
        · cases hp
      · cases hp

/-- A state that is reached by some more moves is a later one. -/
theorem Later.of_replay {as : List α} (hp : M.replay s as = some s') : M.Later s s' := by
  induction as generalizing s with
  | nil =>
      obtain rfl : s = s' := Option.some.inj hp
      exact .refl
  | cons a as ih =>
      rw [Machine.replay] at hp
      split at hp
      · rename_i he
        split at hp
        · rename_i t ht
          exact .head ⟨a, he, ht⟩ (ih hp)
        · cases hp
      · cases hp

/-- A schedule that can be replayed is a run, about whose last state `f` says what was computed. -/
theorem Run.of_replay (as : List α) {β : Type} (f : σ → β) {b : β} (hi : M.init s)
    (hp : (M.replay s as).map f = some b) :
    ∃ h s', M.Run h s' ∧ h.map Prod.snd = as ∧ f s' = b := by
  obtain ⟨s', hs', hf⟩ := Option.map_eq_some_iff.mp hp
  obtain ⟨h, hr, has⟩ := (Run.start hi).replay hs'
  exact ⟨h, s', hr, has, hf⟩

theorem Reachable.of_replay (as : List α) {β : Type} (f : σ → β) {b : β} (hi : M.init s)
    (hp : (M.replay s as).map f = some b) : ∃ s', M.Reachable s' ∧ f s' = b := by
  obtain ⟨h, s', hr, -, hf⟩ := Run.of_replay as f hi hp
  exact ⟨s', ⟨h, hr⟩, hf⟩

instance (M : Machine σ α) (C : σ → α → Prop) [∀ s a, Decidable (M.enabled s a)]
    [∀ s a, Decidable (C s a)] (s : σ) (a : α) : Decidable ((M.restrict C).enabled s a) :=
  inferInstanceAs (Decidable (M.enabled s a ∧ C s a))

end Replay

end Machine
end LinuxServer.Library
