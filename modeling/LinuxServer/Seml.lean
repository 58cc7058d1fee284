import LinuxServer.Library.Machine

/-!
# A semaphore between processes

`seml.cpp` guards a critical section with a System V semaphore that all its processes find under one
key. A process that is given an argument sets the semaphore to 1 before its first turn and removes it
after its last one. The others just use it, and wait as long as it is 0, which is the value it is
created with.

Any number of processes run here, one system call at a time. A call may fail, in which case the process
exits, and a process may be killed anywhere; as all operations carry `SEM_UNDO`, the kernel then takes
back what the process has done to the semaphore.

`exclusive_of_alone` says that the processes exclude each other as long as the semaphore is only set
while none of them is in its critical section. Nothing in the program sees to that.
-/

namespace LinuxServer.Seml

open Library

/-! ## The semaphore -/

/-- The value of a semaphore, and what is added to it when a process exits. -/
structure Semaphore where
  value : Nat
  undo : Nat → Int

namespace Semaphore

def make : Semaphore := { value := 0, undo := fun _ => 0 }

/-- `SETVAL`, which also forgets what there is to undo. -/
def setVal (v : Nat) : Semaphore := { value := v, undo := fun _ => 0 }

/-- The operation `-1`, for a value that is not 0. -/
def down (sem : Semaphore) (p : Nat) : Semaphore :=
  { value := sem.value - 1, undo := Function.update sem.undo p (sem.undo p + 1) }

/-- The operation `+1`. -/
def up (sem : Semaphore) (p : Nat) : Semaphore :=
  { value := sem.value + 1, undo := Function.update sem.undo p (sem.undo p - 1) }

/-- Process `p` exits. The kernel does not let the value become negative. -/
def release (sem : Semaphore) (p : Nat) : Semaphore :=
  { value := (sem.value + sem.undo p).toNat, undo := Function.update sem.undo p 0 }

end Semaphore

/-! ## The processes -/

/-- Where a process is in `main`: before `semget`, before `set_semvalue`, before the `semaphore_p` of
turn `i`, between that and its `semaphore_v`, and behind the loop. -/
inductive Pc where
  | start
  | opened
  | waiting (i : Nat)
  | critical (i : Nat)
  | finished
  | exited
  deriving Repr, DecidableEq

structure Proc where
  /-- `argc > 1` -/
  arg : Bool
  semId : Option Nat
  pc : Pc
  deriving Repr, DecidableEq

/-- Between a `semaphore_p` and the `semaphore_v` that follows. -/
def Proc.inside (x : Proc) : Bool :=
  match x.pc with
  | .critical _ => true
  | _ => false

/-- `sem` is the semaphore that has the key now, if there is one, and `semId` the identifier that was
given out last. -/
structure System where
  count : Nat
  procs : Nat → Proc
  sem : Option Semaphore
  semId : Nat

/-- A system call, with its success. A blocked `semaphore_p` has not returned. -/
inductive Call where
  | semget (ok : Bool)
  | setSemvalue (ok : Bool)
  | semaphoreP (ok : Bool)
  | semaphoreV (ok : Bool)
  | finish
  | kill
  deriving Repr, DecidableEq

structure Action where
  pid : Nat
  call : Call
  deriving Repr, DecidableEq

/-- The number of turns. -/
def turns : Nat := 10

namespace System

def put (s : System) (p : Nat) (x : Proc) : System := { s with procs := Function.update s.procs p x }

def goto (s : System) (p : Nat) (pc : Pc) : System := s.put p { s.procs p with pc := pc }

/-- The semaphore behind the identifier of `p`, unless it was removed. -/
def semOf (s : System) (p : Nat) : Option Semaphore :=
  if (s.procs p).semId = some s.semId then s.sem else none

def exit (s : System) (p : Nat) : System :=
  { s.goto p .exited with sem := s.sem.map (·.release p) }

/-- `semget` with `IPC_CREAT`. -/
def create (s : System) : System :=
  match s.sem with
  | some _ => s
  | none => { s with sem := some Semaphore.make, semId := s.semId + 1 }

/-- Where `semget` leads to. -/
def begin (arg : Bool) : Pc := if arg then .opened else .waiting 0

/-- Where `semaphore_v` leads to. -/
def next (i : Nat) : Pc := if i + 1 < turns then .waiting (i + 1) else .finished

/-- One call of the process `p`. A call that `p` does not make next changes nothing; it is not
enabled. -/
def run (s : System) (p : Nat) (c : Call) : System :=
  match c, (s.procs p).pc, s.semOf p with
  | .semget true, .start, _ =>
      s.create.put p { s.procs p with semId := some s.create.semId, pc := begin (s.procs p).arg }
  | .semget false, .start, _ =>
      s.put p { s.procs p with semId := none, pc := begin (s.procs p).arg }
  | .setSemvalue true, .opened, some _ =>
      { s.goto p (.waiting 0) with sem := some (Semaphore.setVal 1) }
  | .setSemvalue false, .opened, _ => s.exit p
  | .semaphoreP true, .waiting i, some sem =>
      { s.goto p (.critical i) with sem := some (sem.down p) }
  | .semaphoreP false, .waiting _, _ => s.exit p
  | .semaphoreV true, .critical i, some sem => { s.goto p (next i) with sem := some (sem.up p) }
  | .semaphoreV false, .critical _, _ => s.exit p
  | .finish, .finished, some _ =>
      -- `del_semvalue`
      if (s.procs p).arg then { s.goto p .exited with sem := none } else s.exit p
  | .finish, .finished, none => s.exit p
  | .kill, _, _ => s.exit p
  | _, _, _ => s

/-- Whether process `p` can make this call, with this result. -/
def makes (s : System) (p : Nat) (c : Call) : Bool :=
  match c, (s.procs p).pc with
  | .semget _, .start => true
  | .setSemvalue ok, .opened => !ok || (s.semOf p).isSome
  | .semaphoreP ok, .waiting _ => !ok || (s.semOf p).any (0 < ·.value)
  | .semaphoreV ok, .critical _ => !ok || (s.semOf p).isSome
  | .finish, .finished => true
  | .kill, pc => pc ≠ .exited
  | _, _ => false

/-- All processes are still to be started, and there is no semaphore yet. -/
def machine : Machine System Action where
  init s := (∀ p, (s.procs p).pc = .start) ∧ s.sem = none
  enabled s a := a.pid < s.count ∧ s.makes a.pid a.call = true
  step s a := .ok (s.run a.pid a.call)

instance (s : System) (a : Action) : Decidable (machine.enabled s a) :=
  inferInstanceAs (Decidable (a.pid < s.count ∧ s.makes a.pid a.call = true))

/-- At most one process is in its critical section. -/
def Exclusive (s : System) : Prop :=
  ∀ p q, (s.procs p).inside = true → (s.procs q).inside = true → p = q

/-- The semaphore is only set while no process is in its critical section. -/
def SetAlone (s : System) (a : Action) : Prop :=
  a.call = .setSemvalue true → ∀ q < s.count, (s.procs q).inside = false

instance (s : System) (a : Action) : Decidable (s.SetAlone a) :=
  inferInstanceAs (Decidable (a.call = .setSemvalue true → _))

/-! ## The invariant -/

/-- Either the semaphore is free or someone is inside, and what there is to undo tells who. A process
that is inside may have come in through a semaphore that was removed since. -/
structure Inv (s : System) : Prop where
  exclusive : s.Exclusive
  value : ∀ sem ∈ s.sem, sem.value ≤ 1
  taken : ∀ sem ∈ s.sem, ∀ q, (s.procs q).inside = true → sem.value = 0
  undo : ∀ sem ∈ s.sem, ∀ q, sem.undo q =
    if (s.procs q).inside = true ∧ (s.procs q).semId = some s.semId then 1 else 0
  issued : ∀ q n, (s.procs q).inside = true → (s.procs q).semId = some n → n ≤ s.semId
  counted : ∀ q, (s.procs q).inside = true → q < s.count

variable {s : System} {p q : Nat} {x : Proc} {sem : Semaphore}

theorem procs_put_self (s : System) (p : Nat) (x : Proc) : (s.put p x).procs p = x :=
  Function.update_self ..

theorem procs_put_of_ne (h : q ≠ p) : (s.put p x).procs q = s.procs q := Function.update_of_ne h ..

/-- Those who are inside when `p` is not. -/
theorem inside_put (hx : x.inside = false) :
    ((s.put p x).procs q).inside = true ↔ q ≠ p ∧ (s.procs q).inside = true := by
  by_cases h : q = p
  · subst h
    simp [procs_put_self, hx]
  · simp [procs_put_of_ne h, h]

theorem semOf_eq_some (h : s.semOf p = some sem) :
    (s.procs p).semId = some s.semId ∧ s.sem = some sem := by
  unfold semOf at h
  split at h
  · rename_i hid
    exact ⟨hid, h⟩
  · cases h

/-- While no one is inside, the semaphore may be free. -/
theorem Inv.of_outside (hout : ∀ q, (s.procs q).inside = false)
    (hsem : ∀ sem ∈ s.sem, sem.value ≤ 1 ∧ ∀ q, sem.undo q = 0) : s.Inv := by
  have hno : ∀ q, (s.procs q).inside ≠ true := fun q hq => Bool.false_ne_true ((hout q).symm.trans hq)
  constructor
  · exact fun p q hp => absurd hp (hno p)
  · exact fun sem h => (hsem sem h).1
  · exact fun sem h q hq => absurd hq (hno q)
  · intro sem h q
    rw [(hsem sem h).2 q, if_neg (fun h => hno q h.1)]
  · exact fun q n hq => absurd hq (hno q)
  · exact fun q hq => absurd hq (hno q)

theorem Inv.start (hi : machine.init s) : s.Inv := by
  obtain ⟨hpc, hsem⟩ := hi
  refine Inv.of_outside ?_ (by simp [hsem])
  intro q
  rw [Proc.inside, hpc q]

/-! ## One step -/

/-- A process outside goes on outside, and the semaphore is as before. -/
theorem Inv.outside (hi : s.Inv) (hp : (s.procs p).inside = false) (hx : x.inside = false) :
    (s.put p x).Inv := by
  have hback : ∀ q, ((s.put p x).procs q).inside = true → (s.procs q).inside = true :=
    fun q hq => ((inside_put hx).mp hq).2
  have hsemId : ∀ q, ((s.put p x).procs q).inside = true →
      (s.put p x).procs q = s.procs q := fun q hq => procs_put_of_ne ((inside_put hx).mp hq).1
  constructor
  · exact fun q r hq hr => hi.exclusive q r (hback q hq) (hback r hr)
  · exact hi.value
  · exact fun sem hsem q hq => hi.taken sem hsem q (hback q hq)
  · intro sem hsem q
    rw [hi.undo sem hsem q]
    by_cases hqp : q = p
    · subst hqp
      simp [procs_put_self, hp, hx]
    · rw [procs_put_of_ne hqp]
      rfl
  · intro q n hq hn
    rw [hsemId q hq] at hn
    exact hi.issued q n (hback q hq) hn
  · exact fun q hq => hi.counted q (hback q hq)

/-- A process leaves, or was not inside anyway, and gives back what it took. -/
theorem Inv.release (hi : s.Inv) (hx : x.inside = false) :
    Inv { s.put p x with sem := s.sem.map (·.release p) } := by
  have hback : ∀ q, ((s.put p x).procs q).inside = true → q ≠ p ∧ (s.procs q).inside = true :=
    fun q hq => (inside_put hx).mp hq
  -- if another process is inside there is nothing to give back
  have hnothing : ∀ sem ∈ s.sem, ∀ q, q ≠ p → (s.procs q).inside = true → sem.undo p = 0 := by
    intro sem hsem q hqp hq
    rw [hi.undo sem hsem p, if_neg]
    rintro ⟨hp, -⟩
    exact hqp (hi.exclusive q p hq hp)
  constructor
  · exact fun q r hq hr => hi.exclusive q r (hback q hq).2 (hback r hr).2
  · intro sem' hsem'
    obtain ⟨sem, hsem, rfl⟩ := Option.map_eq_some_iff.mp hsem'
    have hle := hi.value sem hsem
    have hundo := hi.undo sem hsem p
    show (sem.value + sem.undo p).toNat ≤ 1
    split at hundo
    · rename_i h
      have := hi.taken sem hsem p h.1
      omega
    · omega
  · intro sem' hsem' q hq
    obtain ⟨sem, hsem, rfl⟩ := Option.map_eq_some_iff.mp hsem'
    obtain ⟨hqp, hq⟩ := hback q hq
    show (sem.value + sem.undo p).toNat = 0
    rw [hi.taken sem hsem q hq, hnothing sem hsem q hqp hq]
    rfl
  · intro sem' hsem' q
    obtain ⟨sem, hsem, rfl⟩ := Option.map_eq_some_iff.mp hsem'
    show Function.update sem.undo p 0 q =
      if ((s.put p x).procs q).inside = true ∧ ((s.put p x).procs q).semId = some s.semId then 1 else 0
    by_cases hqp : q = p
    · subst hqp
      simp [procs_put_self, hx]
    · rw [Function.update_of_ne hqp, procs_put_of_ne hqp]
      exact hi.undo sem hsem q
  · intro q n hq hn
    obtain ⟨hqp, hq'⟩ := hback q hq
    have hn : ((s.put p x).procs q).semId = some n := hn
    rw [procs_put_of_ne hqp] at hn
    exact hi.issued q n hq' hn
  · exact fun q hq => hi.counted q (hback q hq).2

/-- A process comes in: the semaphore was free, so that no one is inside. -/
theorem Inv.enter (hi : s.Inv) (hs : s.semOf p = some sem) (hfree : 0 < sem.value) (hp : p < s.count)
    (i : Nat) : Inv { s.goto p (.critical i) with sem := some (sem.down p) } := by
  obtain ⟨hid, hsem⟩ := semOf_eq_some hs
  have hnone : ∀ q, (s.procs q).inside = false := by
    intro q
    rw [← Bool.not_eq_true]
    intro hq
    have := hi.taken sem hsem q hq
    omega
  have honly : ∀ q, ((s.goto p (.critical i)).procs q).inside = true → q = p := by
    intro q hq
    by_contra hqp
    rw [goto, procs_put_of_ne hqp, hnone q] at hq
    cases hq
  have hle := hi.value sem hsem
  constructor
  · intro q r hq hr
    rw [honly q hq, honly r hr]
  · intro sem' hsem'
    obtain rfl := Option.some.inj hsem'
    show sem.value - 1 ≤ 1
    omega
  · intro sem' hsem' q _
    obtain rfl := Option.some.inj hsem'
    show sem.value - 1 = 0
    omega
  · intro sem' hsem' q
    obtain rfl := Option.some.inj hsem'
    show Function.update sem.undo p (sem.undo p + 1) q = if ((s.goto p (.critical i)).procs q).inside =
      true ∧ ((s.goto p (.critical i)).procs q).semId = some s.semId then 1 else 0
    have hundo := hi.undo sem hsem q
    rw [hnone q] at hundo
    by_cases hqp : q = p
    · subst hqp
      rw [Function.update_self, hundo, goto, procs_put_self]
      simp [Proc.inside, hid]
    · rw [Function.update_of_ne hqp, hundo, goto, procs_put_of_ne hqp]
      simp [hnone q]
  · intro q n hq hn
    obtain rfl := honly q hq
    have hn : (s.procs q).semId = some n := by
      simpa [goto, put] using hn
    rw [hid] at hn
    exact (Option.some.inj hn).ge
  · intro q hq
    obtain rfl := honly q hq
    exact hp

/-- Setting the semaphore is harmless while no one is inside. -/
theorem Inv.set (hout : ∀ q, (s.procs q).inside = false) (hx : x.inside = false) :
    Inv { s.put p x with sem := some (Semaphore.setVal 1) } := by
  refine Inv.of_outside ?_ ?_
  · intro q
    rw [← Bool.not_eq_true]
    intro hq
    have := ((inside_put hx).mp hq).2
    rw [hout q] at this
    cases this
  · intro sem hsem
    obtain rfl := Option.some.inj hsem
    exact ⟨Nat.le_refl 1, fun _ => rfl⟩

theorem Inv.remove (hi : s.Inv) : Inv { s with sem := none } where
  exclusive := hi.exclusive
  value := by simp
  taken := by simp
  undo := by simp
  issued := hi.issued
  counted := hi.counted

/-- A new semaphore has nothing to do with those who came in through an earlier one. -/
theorem Inv.create (hi : s.Inv) : s.create.Inv := by
  unfold System.create
  split
  · exact hi
  · constructor
    · exact hi.exclusive
    · intro sem hsem
      obtain rfl := Option.some.inj hsem
      exact Nat.zero_le 1
    · intro sem hsem q _
      obtain rfl := Option.some.inj hsem
      rfl
    · intro sem hsem q
      obtain rfl := Option.some.inj hsem
      rw [if_neg]
      · rfl
      · rintro ⟨hq, hn⟩
        have := hi.issued q (s.semId + 1) hq hn
        omega
    · intro q n hq hn
      exact Nat.le_succ_of_le (hi.issued q n hq hn)
    · exact hi.counted

theorem procs_create (s : System) : s.create.procs = s.procs := by
  unfold System.create
  split <;> rfl

/-- `semaphore_v` does what the kernel would do if the process exited. -/
theorem Inv.up_eq (hi : s.Inv) (hs : s.semOf p = some sem) (hp : (s.procs p).inside = true) :
    some (sem.up p) = s.sem.map (·.release p) := by
  obtain ⟨hid, hsem⟩ := semOf_eq_some hs
  have hundo : sem.undo p = 1 := by rw [hi.undo sem hsem p, if_pos ⟨hp, hid⟩]
  rw [hsem, Option.map_some, Semaphore.up, Semaphore.release, hundo]
  rfl

theorem inside_begin (a b : Bool) (n : Option Nat) : Proc.inside ⟨a, n, begin b⟩ = false := by
  cases b <;> rfl

theorem inside_next (a : Bool) (n : Option Nat) (i : Nat) : Proc.inside ⟨a, n, next i⟩ = false := by
  unfold next
  split <;> rfl

theorem Inv.exit (hi : s.Inv) (p : Nat) : (s.exit p).Inv := hi.release rfl

/-- One case for each call; a call with no effect is not among them. -/
theorem Inv.run (hi : s.Inv) {c : Call} (hp : p < s.count) (hm : s.makes p c = true)
    (hC : s.SetAlone ⟨p, c⟩) : (s.run p c).Inv := by
  have hall : c = .setSemvalue true → ∀ q, (s.procs q).inside = false := by
    intro hc q
    rw [← Bool.not_eq_true]
    intro hq
    rw [hC hc q (hi.counted q hq)] at hq
    cases hq
  unfold System.run
  split
  · rename_i hpc
    have hout : (s.create.procs p).inside = false := by
      rw [procs_create, Proc.inside, hpc]
    exact hi.create.outside hout (inside_begin _ _ _)
  · rename_i hpc
    have hout : (s.procs p).inside = false := by
      rw [Proc.inside, hpc]
    exact hi.outside hout (inside_begin _ _ _)
  · exact Inv.set (hall rfl) rfl
  · exact hi.exit p
  · rename_i i sem hpc hs
    have hfree : 0 < sem.value := by simpa [makes, hpc, hs] using hm
    exact hi.enter hs hfree hp i
  · exact hi.exit p
  · rename_i i sem hpc hs
    rw [hi.up_eq hs (by rw [Proc.inside, hpc])]
    exact hi.release (inside_next _ _ i)
  · exact hi.exit p
  · rename_i hpc _
    split
    · have hout : (s.procs p).inside = false := by rw [Proc.inside, hpc]
      exact (hi.outside hout rfl).remove
    · exact hi.exit p
  · exact hi.exit p
  · exact hi.exit p
  · exact hi

/-! ## Whole runs -/

/-- A process that sets the semaphore while another one is inside finds it free. -/
theorem set_then_enter (he : machine.enabled s ⟨p, .setSemvalue true⟩)
    (hq : (s.procs q).inside = true) :
    ∃ s₁ s₂, machine.step s ⟨p, .setSemvalue true⟩ = .ok s₁ ∧
      machine.enabled s₁ ⟨p, .semaphoreP true⟩ ∧ machine.step s₁ ⟨p, .semaphoreP true⟩ = .ok s₂ ∧
      ¬ s₂.Exclusive := by
  obtain ⟨hp, hm⟩ := he
  have hpc : (s.procs p).pc = .opened := by
    cases hpc : (s.procs p).pc <;> simp [makes, hpc] at hm ⊢
  obtain ⟨sem, hs⟩ : ∃ sem, s.semOf p = some sem := by
    simpa [makes, hpc, Option.isSome_iff_exists] using hm
  have hqp : q ≠ p := by
    rintro rfl
    rw [Proc.inside, hpc] at hq
    cases hq
  obtain ⟨hid, -⟩ := semOf_eq_some hs
  let s₁ : System := { s.goto p (.waiting 0) with sem := some (Semaphore.setVal 1) }
  have hs₁ : s.run p (.setSemvalue true) = s₁ := by
    simp only [System.run, hpc, hs, s₁]
  have hpc₁ : (s₁.procs p).pc = .waiting 0 := by
    show ((s.goto p (.waiting 0)).procs p).pc = _
    rw [goto, procs_put_self]
  have hsem₁ : s₁.semOf p = some (Semaphore.setVal 1) := by
    have hid₁ : (s₁.procs p).semId = some s₁.semId := by
      show ((s.goto p (.waiting 0)).procs p).semId = some s.semId
      rw [goto, procs_put_self]
      exact hid
    rw [semOf, if_pos hid₁]
  refine ⟨s₁, s₁.run p (.semaphoreP true), by rw [← hs₁]; rfl, ⟨hp, ?_⟩, rfl, ?_⟩
  · simp [makes, hpc₁, hsem₁, Semaphore.setVal]
  · have hs₂ : (s₁.run p (.semaphoreP true)).procs = (s₁.goto p (.critical 0)).procs := by
      simp only [System.run, hpc₁, hsem₁]
    intro hex
    refine hqp (hex q p ?_ ?_)
    · rw [hs₂, goto, procs_put_of_ne hqp]
      show ((s.goto p (.waiting 0)).procs q).inside = true
      rw [goto, procs_put_of_ne hqp]
      exact hq
    · rw [hs₂, goto, procs_put_self]
      rfl

/-- **At most one process is in its critical section**, in every state of a run in which the semaphore
is only set while none is. When it is set at any other time, the process that did so can come in at
once and join the one that is inside. -/
theorem exclusive_of_alone {h : List (System × Action)} (hr : machine.Run h s) :
    (Machine.Always SetAlone h → Machine.Throughout Exclusive h s) ∧
    ∀ a, machine.enabled s a → ¬ s.SetAlone a →
      ∃ s₁ s₂, machine.step s a = .ok s₁ ∧ machine.enabled s₁ ⟨a.pid, .semaphoreP true⟩ ∧
        machine.step s₁ ⟨a.pid, .semaphoreP true⟩ = .ok s₂ ∧ ¬ s₂.Exclusive := by
  constructor
  · intro hC
    have hstep : ∀ s a s', s.Inv → machine.enabled s a → s.SetAlone a → machine.step s a = .ok s' →
        s'.Inv := by
      intro s a s' hi he hC hs
      obtain rfl := Except.ok.inj hs
      exact hi.run he.1 he.2 hC
    obtain ⟨hpast, hnow⟩ := hr.guarded (fun s => Inv.start) hstep hC
    exact ⟨fun x hx => (hpast x hx).exclusive, hnow.exclusive⟩
  · rintro ⟨p, c⟩ he hC
    simp only [SetAlone, Classical.not_imp, not_forall] at hC
    obtain ⟨rfl, q, -, hq⟩ := hC
    exact set_then_enter he (by simpa using hq)

/-- A start with `n` processes, those with a number in `args` having an argument. -/
def start (n : Nat) (args : List Nat) : System where
  count := n
  procs p := { arg := p ∈ args, semId := none, pc := .start }
  sem := none
  semId := 0

theorem init_start (n : Nat) (args : List Nat) : machine.init (start n args) := ⟨fun _ => rfl, rfl⟩

/-- The second of three processes sets the semaphore while the others wait for it. The third one comes
in, and is followed by the first. -/
theorem exclusive_one_sets :
    ∃ h s, machine.Run h s ∧ (s.procs 0).pc = .critical 0 ∧ Machine.Throughout Exclusive h s := by
  obtain ⟨h, s, hr, -, hs⟩ := Machine.Run.of_replay (M := machine.restrict SetAlone)
    [⟨0, .semget true⟩, ⟨2, .semget true⟩, ⟨1, .semget true⟩, ⟨1, .setSemvalue true⟩,
      ⟨2, .semaphoreP true⟩, ⟨2, .semaphoreV true⟩, ⟨0, .semaphoreP true⟩]
    (fun s => (s.procs 0).pc) (init_start 3 [1]) (b := .critical 0) (by decide +kernel)
  obtain ⟨hr, hC⟩ := hr.of_restrict
  exact ⟨h, s, hr, hs, (exclusive_of_alone hr).1 hC⟩

/-- Two processes with an argument: the second one is started while the first is inside, and comes in
as well. -/
theorem exclusive_two_set_fails :
    ∃ h s, machine.Run h s ∧
      h.map Prod.snd = [⟨0, .semget true⟩, ⟨0, .setSemvalue true⟩, ⟨0, .semaphoreP true⟩,
        ⟨1, .semget true⟩, ⟨1, .setSemvalue true⟩, ⟨1, .semaphoreP true⟩] ∧
      ¬ s.Exclusive := by
  obtain ⟨h, s, hr, has, hs⟩ := Machine.Run.of_replay (M := machine)
    [⟨0, .semget true⟩, ⟨0, .setSemvalue true⟩, ⟨0, .semaphoreP true⟩,
      ⟨1, .semget true⟩, ⟨1, .setSemvalue true⟩, ⟨1, .semaphoreP true⟩]
    (fun s => ((s.procs 0).inside, (s.procs 1).inside)) (init_start 2 [0, 1])
    (b := (true, true)) (by decide +kernel)
  obtain ⟨hzero, hone⟩ := Prod.mk.inj hs
  refine ⟨h, s, hr, has, ?_⟩
  intro hex
  cases hex 0 1 hzero hone

end System
end LinuxServer.Seml
