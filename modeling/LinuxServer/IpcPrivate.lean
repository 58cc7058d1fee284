import LinuxServer.Seml

/-!
# A semaphore between parent and child

`IPC_Private.cpp` makes a semaphore without a key, sets it to 1, and forks. Parent and child then enter
their critical sections under it, the parent waits for the child, and removes the semaphore.

As in `seml.cpp` all operations carry `SEM_UNDO`, but here nothing can find the semaphore from outside, and
it is set before there is a second process. The results of the calls are not looked at: a process goes on
after a `semop` that fails. Either process may be killed anywhere.
-/

namespace LinuxServer.IpcPrivate

open Library Seml

/-- Where a process is in `main`: before `semget`, `semctl`, `fork`, before and behind the first `pv`, behind
the second one, behind `waitpid`. -/
inductive Pc where
  | unborn
  | start
  | opened
  | set
  | waiting
  | critical
  | released
  | reaped
  | exited
  deriving Repr, DecidableEq

inductive Who where
  | parent
  | child
  deriving Repr, DecidableEq

/-- The number under which the kernel keeps what there is to undo. -/
def Who.pid : Who → Nat
  | .parent => 0
  | .child => 1

structure Pair where
  parent : Pc
  child : Pc
  sem : Option Semaphore

/-- The system calls, with their success; `exit` is that of the child. -/
inductive Call where
  | semget (ok : Bool)
  | setVal (ok : Bool)
  | fork (ok : Bool)
  | down (who : Who) (ok : Bool)
  | up (who : Who) (ok : Bool)
  | exit
  | waitpid
  | remove
  | kill (who : Who)
  deriving Repr, DecidableEq

namespace Pair

def pc (s : Pair) : Who → Pc
  | .parent => s.parent
  | .child => s.child

def goto (s : Pair) : Who → Pc → Pair
  | .parent, pc => { s with parent := pc }
  | .child, pc => { s with child := pc }

/-- A process is gone, and the kernel undoes its operations. -/
def gone (s : Pair) (who : Who) : Pair :=
  { s.goto who .exited with sem := s.sem.map (·.release who.pid) }

def run (s : Pair) : Call → Pair
  | .semget ok => { s with parent := .opened, sem := if ok then some Semaphore.make else none }
  | .setVal ok => { s with parent := .set, sem := if ok then s.sem.map fun _ => .setVal 1 else s.sem }
  | .fork ok => if ok then { s with parent := .waiting, child := .waiting } else s.gone .parent
  | .down who ok =>
      { s.goto who .critical with sem := if ok then s.sem.map (·.down who.pid) else s.sem }
  | .up who ok => { s.goto who .released with sem := if ok then s.sem.map (·.up who.pid) else s.sem }
  | .exit => s.gone .child
  | .waitpid => { s with parent := .reaped }
  | .remove => { s with parent := .exited, sem := none }
  | .kill who => s.gone who

/-- Whether a call can be made and can return so. A `semop` for -1 only succeeds when the value is not 0. -/
def makes (s : Pair) : Call → Bool
  | .semget _ => s.parent = .start
  | .setVal ok => s.parent = .opened && (!ok || s.sem.isSome)
  | .fork _ => s.parent = .set
  | .down who ok => s.pc who = .waiting && (!ok || s.sem.any (0 < ·.value))
  | .up who ok => s.pc who = .critical && (!ok || s.sem.isSome)
  | .exit => s.child = .released
  | .waitpid => s.parent = .released && s.child = .exited
  | .remove => s.parent = .reaped
  | .kill who => s.pc who ≠ .unborn && s.pc who ≠ .exited

def machine : Machine Pair Call where
  init s := s = { parent := .start, child := .unborn, sem := none }
  enabled s c := s.makes c = true
  step s c := .ok (s.run c)

instance (s : Pair) (c : Call) : Decidable (machine.enabled s c) :=
  inferInstanceAs (Decidable (s.makes c = true))

/-- No call on the semaphore fails. -/
def Works (_ : Pair) : Call → Prop
  | .semget ok => ok = true
  | .setVal ok => ok = true
  | .down _ ok => ok = true
  | .up _ ok => ok = true
  | _ => True

instance (s : Pair) (c : Call) : Decidable (s.Works c) :=
  match c with
  | .semget ok => inferInstanceAs (Decidable (ok = true))
  | .setVal ok => inferInstanceAs (Decidable (ok = true))
  | .down _ ok => inferInstanceAs (Decidable (ok = true))
  | .up _ ok => inferInstanceAs (Decidable (ok = true))
  | .fork _ | .exit | .waitpid | .remove | .kill _ => inferInstanceAs (Decidable True)

/-! ## The invariant -/

/-- A process that still needs the semaphore. -/
def Pc.needs : Pc → Bool
  | .set | .waiting | .critical | .released | .reaped => true
  | _ => false

def Pc.inside : Pc → Nat
  | .critical => 1
  | _ => 0

/-- The semaphore counts the processes outside, and knows what to undo. -/
structure Counts (sem : Semaphore) (parent child : Pc) : Prop where
  value : sem.value + Pc.inside parent + Pc.inside child = 1
  parent : sem.undo 0 = Pc.inside parent
  child : sem.undo 1 = Pc.inside child

structure Inv (s : Pair) : Prop where
  start : s.parent = .start → s.sem = none
  opened : s.parent = .opened → s.sem.isSome
  before : s.parent = .start ∨ s.parent = .opened ∨ s.parent = .set → s.child = .unborn
  after : s.parent = .waiting ∨ s.parent = .critical ∨ s.parent = .released ∨ s.parent = .reaped →
    s.child ≠ .unborn
  reaped : s.parent = .reaped → s.child = .exited
  places : s.parent ≠ .unborn ∧ s.child ≠ .start ∧ s.child ≠ .opened ∧ s.child ≠ .set ∧
    s.child ≠ .reaped
  counts : Pc.needs s.parent = true ∨ Pc.needs s.child = true →
    ∃ sem, s.sem = some sem ∧ Counts sem s.parent s.child

variable {s : Pair} {c : Call} {sem : Semaphore} {a b : Pc}

theorem Inv.of_start : Inv { parent := .start, child := .unborn, sem := none } := by
  constructor <;> simp [Pc.needs]

theorem Counts.setVal (ha : Pc.inside a = 0) (hb : Pc.inside b = 0) : Counts (.setVal 1) a b :=
  ⟨by simp [Semaphore.setVal, ha, hb], by simp [Semaphore.setVal, ha], by simp [Semaphore.setVal, hb]⟩

/-- Places that make no difference to the semaphore. -/
theorem Counts.move {a' b' : Pc} (h : Counts sem a b) (ha : Pc.inside a' = Pc.inside a)
    (hb : Pc.inside b' = Pc.inside b) : Counts sem a' b' :=
  ⟨by rw [ha, hb]; exact h.value, by rw [ha]; exact h.parent, by rw [hb]; exact h.child⟩

theorem Counts.down_parent {a' : Pc} (h : Counts sem a b) (ha : Pc.inside a = 0) (ha' : Pc.inside a' = 1)
    (hv : 0 < sem.value) : Counts (sem.down 0) a' b := by
  obtain ⟨hval, hp, hc⟩ := h
  refine ⟨?_, ?_, ?_⟩
  · show sem.value - 1 + _ + _ = 1
    omega
  · simp [Semaphore.down, hp, ha, ha']
  · simp [Semaphore.down, hc]

theorem Counts.down_child {b' : Pc} (h : Counts sem a b) (hb : Pc.inside b = 0) (hb' : Pc.inside b' = 1)
    (hv : 0 < sem.value) : Counts (sem.down 1) a b' := by
  obtain ⟨hval, hp, hc⟩ := h
  refine ⟨?_, ?_, ?_⟩
  · show sem.value - 1 + _ + _ = 1
    omega
  · simp [Semaphore.down, hp]
  · simp [Semaphore.down, hc, hb, hb']

/-- Whether a process leaves by itself or is gone, the semaphore is the same afterwards. -/
theorem Counts.release_parent {a' : Pc} (h : Counts sem a b) (ha' : Pc.inside a' = 0) :
    Counts (sem.release 0) a' b := by
  obtain ⟨hval, hp, hc⟩ := h
  refine ⟨?_, ?_, ?_⟩
  · show (sem.value + sem.undo 0).toNat + _ + _ = 1
    omega
  · simp [Semaphore.release, ha']
  · simp [Semaphore.release, hc]

theorem Counts.release_child {b' : Pc} (h : Counts sem a b) (hb' : Pc.inside b' = 0) :
    Counts (sem.release 1) a b' := by
  obtain ⟨hval, hp, hc⟩ := h
  refine ⟨?_, ?_, ?_⟩
  · show (sem.value + sem.undo 1).toNat + _ + _ = 1
    omega
  · simp [Semaphore.release, hp]
  · simp [Semaphore.release, hb']

theorem Counts.up_eq (h : Counts sem a b) (who : Who)
    (hin : Pc.inside (match who with | .parent => a | .child => b) = 1) :
    sem.up who.pid = sem.release who.pid := by
  obtain ⟨-, hp, hc⟩ := h
  have hundo : sem.undo who.pid = 1 := by
    cases who
    · rw [Who.pid, hp, hin]
      rfl
    · rw [Who.pid, hc, hin]
      rfl
  rw [Semaphore.up, Semaphore.release, hundo]
  rfl

/-- A process is gone. Its place does not matter any more, and the other one finds the semaphore as it
should be. -/
theorem Inv.gone (h : Inv s) (who : Who) (hb : s.pc who ≠ .unborn) : Inv (s.gone who) := by
  have hp := h.places
  cases who with
  | parent =>
      refine ⟨nofun, nofun, ?_, ?_, nofun, ⟨nofun, hp.2⟩, ?_⟩
      · rintro (hs | hs | hs) <;> cases hs
      · rintro (hs | hs | hs | hs) <;> cases hs
      · rintro (hn | hn)
        · cases hn
        · obtain ⟨sem, hsem, hc⟩ := h.counts (.inr hn)
          exact ⟨sem.release 0, congrArg (Option.map (Semaphore.release · 0)) hsem, hc.release_parent rfl⟩
  | child =>
      have hb : s.child ≠ .unborn := hb
      have hstart : ¬ (s.parent = .start ∨ s.parent = .opened ∨ s.parent = .set) := fun hs => hb (h.before hs)
      refine ⟨?_, ?_, fun hs => absurd hs hstart, nofun, fun _ => rfl, ⟨hp.1, nofun, nofun, nofun, nofun⟩, ?_⟩
      · exact fun hs => absurd (.inl hs) hstart
      · exact fun hs => absurd (.inr (.inl hs)) hstart
      · rintro (hn | hn)
        · have hn : Pc.needs s.parent = true := hn
          obtain ⟨sem, hsem, hc⟩ := h.counts (.inl hn)
          exact ⟨sem.release 1, congrArg (Option.map (Semaphore.release · 1)) hsem, hc.release_child rfl⟩
        · cases hn

theorem Inv.run (h : Inv s) (hm : s.makes c = true) (hw : s.Works c) : Inv (s.run c) := by
  have hp := h.places
  cases c with
  | semget ok =>
      have hst : s.parent = .start := by simpa [makes] using hm
      obtain rfl : ok = true := hw
      have hch := h.before (.inl hst)
      refine ⟨nofun, fun _ => rfl, fun _ => hch, ?_, nofun, ⟨nofun, hp.2⟩, ?_⟩
      · rintro (hs | hs | hs | hs) <;> cases hs
      · rintro (hn | hn)
        · cases hn
        · rw [show (s.run (.semget true)).child = .unborn from hch] at hn
          cases hn
  | setVal ok =>
      obtain rfl : ok = true := hw
      have hst : s.parent = .opened := by
        simp only [makes, Bool.and_eq_true, decide_eq_true_eq] at hm
        exact hm.1
      have hch := h.before (.inr (.inl hst))
      obtain ⟨sem, hsem⟩ := Option.isSome_iff_exists.mp (h.opened hst)
      refine ⟨nofun, nofun, fun _ => hch, ?_, nofun, ⟨nofun, hp.2⟩, ?_⟩
      · rintro (hs | hs | hs | hs) <;> cases hs
      · intro _
        refine ⟨Semaphore.setVal 1, ?_, Counts.setVal rfl ?_⟩
        · simp [Pair.run, hsem]
        · rw [show (s.run (.setVal true)).child = .unborn from hch]
          rfl
  | fork ok =>
      have hst : s.parent = .set := by simpa [makes] using hm
      cases ok with
      | false =>
          refine h.gone .parent ?_
          rw [show s.pc .parent = .set from hst]
          decide
      | true =>
          obtain ⟨sem, hsem, hc⟩ := h.counts (.inl (by rw [hst]; rfl))
          rw [hst, h.before (.inr (.inr hst))] at hc
          refine ⟨nofun, nofun, ?_, fun _ => nofun, nofun, ⟨nofun, nofun, nofun, nofun, nofun⟩, ?_⟩
          · rintro (hs | hs | hs) <;> cases hs
          · exact fun _ => ⟨sem, hsem, hc.move rfl rfl⟩
  | down who ok =>
      obtain rfl : ok = true := hw
      simp only [makes, Bool.not_true, Bool.false_or, Bool.and_eq_true, decide_eq_true_eq] at hm
      obtain ⟨hpc, hv⟩ := hm
      cases who with
      | parent =>
          have hpc : s.parent = .waiting := hpc
          obtain ⟨sem, hsem, hc⟩ := h.counts (.inl (by rw [hpc]; rfl))
          rw [hpc] at hc
          have hv : 0 < sem.value := by simpa [hsem] using hv
          refine ⟨nofun, nofun, ?_, fun _ => h.after (.inl hpc), nofun, ⟨nofun, hp.2⟩, ?_⟩
          · rintro (hs | hs | hs) <;> cases hs
          · exact fun _ => ⟨sem.down 0, congrArg (Option.map (Semaphore.down · 0)) hsem, hc.down_parent rfl rfl hv⟩
      | child =>
          have hpc : s.child = .waiting := hpc
          obtain ⟨sem, hsem, hc⟩ := h.counts (.inr (by rw [hpc]; rfl))
          rw [hpc] at hc
          have hv : 0 < sem.value := by simpa [hsem] using hv
          have hstart : ¬ (s.parent = .start ∨ s.parent = .opened ∨ s.parent = .set) := by
            intro hs
            rw [h.before hs] at hpc
            cases hpc
          refine ⟨fun hs => absurd (.inl hs) hstart, fun hs => absurd (.inr (.inl hs)) hstart,
            fun hs => absurd hs hstart, fun _ => nofun, ?_, ⟨hp.1, nofun, nofun, nofun, nofun⟩, ?_⟩
          · intro hs
            rw [h.reaped hs] at hpc
            cases hpc
          · exact fun _ => ⟨sem.down 1, congrArg (Option.map (Semaphore.down · 1)) hsem, hc.down_child rfl rfl hv⟩
  | up who ok =>
      obtain rfl : ok = true := hw
      simp only [makes, Bool.not_true, Bool.false_or, Bool.and_eq_true, decide_eq_true_eq] at hm
      obtain ⟨hpc, -⟩ := hm
      cases who with
      | parent =>
          have hpc : s.parent = .critical := hpc
          obtain ⟨sem, hsem, hc⟩ := h.counts (.inl (by rw [hpc]; rfl))
          have hup : sem.up 0 = sem.release 0 := hc.up_eq .parent (by rw [hpc]; rfl)
          refine ⟨nofun, nofun, ?_, fun _ => h.after (.inr (.inl hpc)), nofun, ⟨nofun, hp.2⟩, ?_⟩
          · rintro (hs | hs | hs) <;> cases hs
          · refine fun _ => ⟨sem.up 0, congrArg (Option.map (Semaphore.up · 0)) hsem, ?_⟩
            rw [hup]
            exact hc.release_parent rfl
      | child =>
          have hpc : s.child = .critical := hpc
          obtain ⟨sem, hsem, hc⟩ := h.counts (.inr (by rw [hpc]; rfl))
          have hup : sem.up 1 = sem.release 1 := hc.up_eq .child (by rw [hpc]; rfl)
          have hstart : ¬ (s.parent = .start ∨ s.parent = .opened ∨ s.parent = .set) := by
            intro hs
            rw [h.before hs] at hpc
            cases hpc
          refine ⟨fun hs => absurd (.inl hs) hstart, fun hs => absurd (.inr (.inl hs)) hstart,
            fun hs => absurd hs hstart, fun _ => nofun, ?_, ⟨hp.1, nofun, nofun, nofun, nofun⟩, ?_⟩
          · intro hs
            rw [h.reaped hs] at hpc
            cases hpc
          · refine fun _ => ⟨sem.up 1, congrArg (Option.map (Semaphore.up · 1)) hsem, ?_⟩
            rw [hup]
            exact hc.release_child rfl
  | exit =>
      have hpc : s.child = .released := by simpa [makes] using hm
      refine h.gone .child ?_
      rw [show s.pc .child = .released from hpc]
      decide
  | waitpid =>
      have hpc : s.parent = .released ∧ s.child = .exited := by simpa [makes] using hm
      obtain ⟨sem, hsem, hc⟩ := h.counts (.inl (by rw [hpc.1]; rfl))
      rw [hpc.1] at hc
      refine ⟨nofun, nofun, ?_, ?_, fun _ => hpc.2, ⟨nofun, hp.2⟩, ?_⟩
      · rintro (hs | hs | hs) <;> cases hs
      · exact fun _ => h.after (.inr (.inr (.inl hpc.1)))
      · exact fun _ => ⟨sem, hsem, hc.move rfl rfl⟩
  | remove =>
      have hpc : s.parent = .reaped := by simpa [makes] using hm
      have hch := h.reaped hpc
      refine ⟨nofun, nofun, ?_, ?_, nofun, ⟨nofun, hp.2⟩, ?_⟩
      · rintro (hs | hs | hs) <;> cases hs
      · rintro (hs | hs | hs | hs) <;> cases hs
      · rintro (hn | hn)
        · cases hn
        · rw [show (s.run .remove).child = .exited from hch] at hn
          cases hn
  | kill who =>
      refine h.gone who ?_
      simp only [makes, ne_eq, Bool.and_eq_true, decide_eq_true_eq] at hm
      exact hm.1

/-! ## Whole runs -/

theorem inv_of_works {h : List (Pair × Call)} (hr : machine.Run h s) (hw : Machine.Always Works h) :
    Inv s := by
  refine (hr.guarded (I := Inv) ?_ ?_ hw).2
  · rintro s rfl
    exact .of_start
  · intro s c s' hi he hC hs
    obtain rfl := Except.ok.inj hs
    exact hi.run he hC

/-- The semaphore outlives its processes only if the parent did not come to its end. -/
theorem removed_or_killed {h : List (Pair × Call)} (hr : machine.Run h s) (hexit : s.parent = .exited) :
    s.sem = none ∨ ∃ x ∈ h, x.2 = .kill .parent ∨ x.2 = .fork false := by
  induction hr with
  | start hi =>
      rw [hi] at hexit
      cases hexit
  | @step h s c s' hr he hs ih =>
      obtain rfl := Except.ok.inj hs
      have hpast : s.parent = .exited → (s.sem = none → (s.run c).sem = none) →
          (s.run c).sem = none ∨ ∃ x ∈ h ++ [(s, c)], x.2 = .kill .parent ∨ x.2 = .fork false := by
        intro hex hnone
        rcases ih hex with hsem | ⟨x, hx, hk⟩
        · exact .inl (hnone hsem)
        · exact .inr ⟨x, List.mem_append_left _ hx, hk⟩
      have hnow : c = .kill .parent ∨ c = .fork false →
          ∃ x ∈ h ++ [(s, c)], x.2 = .kill .parent ∨ x.2 = .fork false :=
        fun hc => ⟨(s, c), by simp, hc⟩
      cases c with
      | semget ok => cases hexit
      | setVal ok => cases hexit
      | fork ok =>
          cases ok with
          | false => exact .inr (hnow (.inr rfl))
          | true => cases hexit
      | down who ok =>
          cases who with
          | parent => cases hexit
          | child => exact hpast hexit fun hsem => by simp [run, hsem]
      | up who ok =>
          cases who with
          | parent => cases hexit
          | child => exact hpast hexit fun hsem => by simp [run, hsem]
      | exit => exact hpast hexit fun hsem => by simp [run, Pair.gone, hsem]
      | waitpid => cases hexit
      | remove => exact .inl rfl
      | kill who =>
          cases who with
          | parent => exact .inr (hnow (.inl rfl))
          | child => exact hpast hexit fun hsem => by simp [run, Pair.gone, hsem]

/-- A call that a process makes by itself. -/
def ByItself (c : Call) : Prop := ∀ who, c ≠ .kill who

/-- **Parent and child exclude each other, and neither waits for ever**, as long as no call on the semaphore
fails: they are not both in their critical sections, the semaphore is there whenever one of them uses it,
and someone can go on until both are gone, also if one of them is killed. It is removed in the end, unless
the parent was killed or could not fork. -/
theorem exclusive_pair {h : List (Pair × Call)} (hr : machine.Run h s) (hw : Machine.Always Works h) :
    ¬ (s.parent = .critical ∧ s.child = .critical) ∧
    (∀ who, s.pc who = .waiting ∨ s.pc who = .critical → s.sem.isSome) ∧
    ((∃ c, ByItself c ∧ s.Works c ∧ machine.enabled s c) ∨
      s.parent = .exited ∧ (s.child = .exited ∨ s.child = .unborn)) ∧
    (s.parent = .exited → s.sem = none ∨ ∃ x ∈ h, x.2 = .kill .parent ∨ x.2 = .fork false) := by
  have hi := inv_of_works hr hw
  obtain ⟨hborn, hc₁, hc₂, hc₃, hc₄⟩ := hi.places
  have hneeds : ∀ who, s.pc who = .waiting ∨ s.pc who = .critical →
      ∃ sem, s.sem = some sem ∧ Counts sem s.parent s.child := by
    rintro (who | who) hpc
    · have hpc : s.parent = .waiting ∨ s.parent = .critical := hpc
      exact hi.counts (.inl (by rcases hpc with hpc | hpc <;> rw [hpc] <;> rfl))
    · have hpc : s.child = .waiting ∨ s.child = .critical := hpc
      exact hi.counts (.inr (by rcases hpc with hpc | hpc <;> rw [hpc] <;> rfl))
  have hup : ∀ who, s.pc who = .critical → machine.enabled s (.up who true) := by
    intro who hpc
    obtain ⟨sem, hsem, -⟩ := hneeds who (.inr hpc)
    simp [machine, makes, hpc, hsem]
  have hdown : ∀ who, s.pc who = .waiting → s.parent ≠ .critical → s.child ≠ .critical →
      machine.enabled s (.down who true) := by
    intro who hpc hp hc
    obtain ⟨sem, hsem, hval, -, -⟩ := hneeds who (.inl hpc)
    have hzero : ∀ a : Pc, a ≠ .critical → Pc.inside a = 0 := by
      intro a ha
      cases a <;> first | rfl | exact absurd rfl ha
    rw [hzero _ hp, hzero _ hc] at hval
    have hv : 0 < sem.value := by omega
    simp [machine, makes, hpc, hsem, hv]
  refine ⟨?_, ?_, ?_, removed_or_killed hr⟩
  · rintro ⟨hp, hc⟩
    obtain ⟨sem, -, hval, -, -⟩ := hneeds .parent (.inr hp)
    rw [hp, hc] at hval
    simp [Pc.inside] at hval
  · intro who hpc
    obtain ⟨sem, hsem, -⟩ := hneeds who hpc
    simp [hsem]
  · -- whoever is inside can leave; if nobody is, whoever waits can come in
    by_cases hpin : s.parent = .critical
    · exact .inl ⟨.up .parent true, nofun, rfl, hup .parent hpin⟩
    · by_cases hcin : s.child = .critical
      · exact .inl ⟨.up .child true, nofun, rfl, hup .child hcin⟩
      · by_cases hcw : s.child = .waiting
        · exact .inl ⟨.down .child true, nofun, rfl, hdown .child hcw hpin hcin⟩
        · by_cases hcr : s.child = .released
          · exact .inl ⟨.exit, nofun, trivial, by simp [machine, makes, hcr]⟩
          · have hch : s.child = .exited ∨ s.child = .unborn := by
              cases hcc : s.child <;> simp_all
            cases hpp : s.parent with
            | unborn => exact absurd hpp hborn
            | start => exact .inl ⟨.semget true, nofun, rfl, by simp [machine, makes, hpp]⟩
            | opened =>
                exact .inl ⟨.setVal true, nofun, rfl, by simp [machine, makes, hpp, hi.opened hpp]⟩
            | set => exact .inl ⟨.fork true, nofun, trivial, by simp [machine, makes, hpp]⟩
            | waiting => exact .inl ⟨.down .parent true, nofun, rfl, hdown .parent hpp hpin hcin⟩
            | critical => exact absurd hpp hpin
            | released =>
                have hex := hch.resolve_right (hi.after (.inr (.inr (.inl hpp))))
                exact .inl ⟨.waitpid, nofun, trivial, by simp [machine, makes, hpp, hex]⟩
            | reaped => exact .inl ⟨.remove, nofun, trivial, by simp [machine, makes, hpp]⟩
            | exited => exact .inr ⟨rfl, hch⟩

/-- The child is killed in its critical section, and the parent comes in. -/
theorem exclusive_pair_killed : ∃ h s, machine.Run h s ∧ s.parent = .critical ∧ s.child = .exited ∧
    s.sem.isSome := by
  obtain ⟨h, s, hr, -, hb⟩ := Machine.Run.of_replay (M := machine.restrict Works)
    [.semget true, .setVal true, .fork true, .down .child true, .kill .child, .down .parent true]
    (fun s => (s.parent, s.child)) rfl (b := (.critical, .exited)) (by decide +kernel)
  obtain ⟨hp, hc⟩ := Prod.mk.inj hb
  obtain ⟨hr, hw⟩ := hr.of_restrict
  exact ⟨h, s, hr, hp, hc, (exclusive_pair hr hw).2.1 .parent (.inr hp)⟩

end Pair
end LinuxServer.IpcPrivate
