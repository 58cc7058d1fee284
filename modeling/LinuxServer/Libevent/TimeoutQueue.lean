import LinuxServer.Libevent.MinHeap

/-!
# A queue of timeouts

What the heap of timeouts is for: a set of events with their timeouts, of which one of the least can be
taken out. `heap_refines_queue` says that the heap is one, over all runs, and that it returns what the
queue does.
-/

namespace LinuxServer.Libevent

open Library

/-- A set of events, and the timeouts of all events. -/
structure Queue (κ : Type) where
  members : Set Nat
  timeout : Nat → κ

/-- An event gets a timeout and is put in; one is taken out, or one of the least; or an event gets another
timeout, wherever it is. -/
inductive QueueAction (κ : Type) where
  | push (e : Nat) (t : κ)
  | erase (e : Nat)
  | pop
  | adjust (e : Nat) (t : κ)
  deriving Repr, DecidableEq

/-- What an operation returns: an event or none, or 0 or -1. -/
inductive QueueResult where
  | event (e : Option Nat)
  | code (c : Int)
  deriving Repr, DecidableEq

inductive Queue.Step {κ : Type} [LE κ] : Queue κ → QueueAction κ → QueueResult → Queue κ → Prop
  | push {q : Queue κ} {e : Nat} {t : κ} :
      Step q (.push e t) (.code 0) ⟨insert e q.members, Function.update q.timeout e t⟩
  | erase {q : Queue κ} {e : Nat} : e ∈ q.members →
      Step q (.erase e) (.code 0) ⟨q.members \ {e}, q.timeout⟩
  | absent {q : Queue κ} {e : Nat} : e ∉ q.members → Step q (.erase e) (.code (-1)) q
  | empty {q : Queue κ} : q.members = ∅ → Step q .pop (.event none) q
  | pop {q : Queue κ} {e : Nat} : e ∈ q.members → (∀ x ∈ q.members, q.timeout e ≤ q.timeout x) →
      Step q .pop (.event (some e)) ⟨q.members \ {e}, q.timeout⟩
  | adjust {q : Queue κ} {e : Nat} {t : κ} :
      Step q (.adjust e t) (.code 0) ⟨insert e q.members, Function.update q.timeout e t⟩

/-- The heap, with `ev_timeout` of all events. -/
structure TimeoutHeap (κ : Type) where
  heap : MinHeap
  timeout : Nat → κ

section
variable {κ : Type} [LinearOrder κ]

/-- The events in the heap are those that have a place in it. -/
def TimeoutHeap.queue (s : TimeoutHeap κ) : Queue κ :=
  { members := { e | (s.heap.idx e).isSome }, timeout := s.timeout }

/-- The operations, with what they return. -/
def TimeoutHeap.operate (s : TimeoutHeap κ) : QueueAction κ → Exec (TimeoutHeap κ × QueueResult)
  | .push e t => do
      let timeout := Function.update s.timeout e t
      let heap ← s.heap.push timeout e
      return ({ heap := heap, timeout := timeout }, .code 0)
  | .erase e => do
      let (heap, c) ← s.heap.erase s.timeout e
      return ({ s with heap := heap }, .code c)
  | .pop => do
      let (heap, e) ← s.heap.pop s.timeout
      return ({ s with heap := heap }, .event e)
  | .adjust e t => do
      let timeout := Function.update s.timeout e t
      let heap ← s.heap.adjust timeout e
      return ({ heap := heap, timeout := timeout }, .code 0)

/-- An event that is in the heap is not put in again. -/
def heapMachine : Machine (TimeoutHeap κ) (QueueAction κ) where
  init s := s.heap = MinHeap.ctor
  enabled s
    | .push e _ => s.heap.idx e = none
    | _ => True
  step s act := do
    let (s, _) ← s.operate act
    return s

variable {s s' : TimeoutHeap κ} {ms : List Nat} {act : QueueAction κ}

/-- The members of the queue are the events in the heap. -/
theorem members_eq (h : MinHeap.Valid s.timeout s.heap ms) : s.queue.members = { e | e ∈ ms } :=
  Set.ext fun _ => h.idx_isSome

/-- The queue that a heap stands for. -/
theorem queue_eq (h : MinHeap.Valid s.timeout s.heap ms) : s.queue = ⟨{ e | e ∈ ms }, s.timeout⟩ := by
  rw [← members_eq h]
  rfl

theorem queue_mk {heap : MinHeap} {timeout : Nat → κ} (h : MinHeap.Valid timeout heap ms) :
    TimeoutHeap.queue ⟨heap, timeout⟩ = ⟨{ e | e ∈ ms }, timeout⟩ :=
  queue_eq (s := ⟨heap, timeout⟩) h

theorem setOf_mem_cons (e : Nat) (l : List Nat) : { x | x ∈ e :: l } = insert e { x | x ∈ l } := by
  ext x
  simp

theorem setOf_mem_erase {l : List Nat} (h : l.Nodup) (e : Nat) :
    { x | x ∈ l.erase e } = { x | x ∈ l } \ {e} := by
  ext x
  simp [h.mem_erase_iff, and_comm]

/-- One step of the heap is one of the queue. -/
theorem operate_step (h : MinHeap.Valid s.timeout s.heap ms) (he : heapMachine.enabled s act) :
    ∃ s' r, s.operate act = .ok (s', r) ∧ (∃ ms', MinHeap.Valid s'.timeout s'.heap ms') ∧
      Queue.Step s.queue act r s'.queue := by
  cases act with
  | push e t =>
      have hno : e ∉ ms := by
        rw [← h.idx_isSome, show s.heap.idx e = none from he]
        exact Bool.false_ne_true
      have hkey : ∀ x ∈ ms, Function.update s.timeout e t x = s.timeout x := by
        intro x hx
        have hne : x ≠ e := fun heq => hno (heq ▸ hx)
        exact Function.update_of_ne hne ..
      obtain ⟨heap, hrun, hv⟩ := MinHeap.push_valid (h.congr hkey) hno
      refine ⟨⟨heap, Function.update s.timeout e t⟩, .code 0, ?_, ⟨_, hv⟩, ?_⟩
      · simp only [TimeoutHeap.operate, hrun, ok_bind, pure_eq_ok]
      · rw [queue_eq h, queue_mk hv, setOf_mem_cons]
        exact .push
  | erase e =>
      by_cases hmem : e ∈ ms
      · obtain ⟨heap, hrun, hv⟩ := MinHeap.erase_valid h hmem
        refine ⟨⟨heap, s.timeout⟩, .code 0, ?_, ⟨_, hv⟩, ?_⟩
        · simp only [TimeoutHeap.operate, hrun, ok_bind, pure_eq_ok]
        · rw [queue_eq h, queue_mk hv, setOf_mem_erase h.nodup]
          exact .erase hmem
      · refine ⟨s, .code (-1), ?_, ⟨_, h⟩, .absent ?_⟩
        · simp only [TimeoutHeap.operate, MinHeap.erase_absent h hmem, ok_bind, pure_eq_ok]
        · rw [members_eq h]
          exact hmem
  | pop =>
      rcases MinHeap.pop_valid h with ⟨rfl, hrun⟩ | ⟨e, hmem, hmin, heap, hrun, hv⟩
      · refine ⟨s, .event none, ?_, ⟨_, h⟩, .empty ?_⟩
        · simp only [TimeoutHeap.operate, hrun, ok_bind, pure_eq_ok]
        · rw [members_eq h]
          simp
      · refine ⟨⟨heap, s.timeout⟩, .event (some e), ?_, ⟨_, hv⟩, ?_⟩
        · simp only [TimeoutHeap.operate, hrun, ok_bind, pure_eq_ok]
        · rw [queue_eq h, queue_mk hv, setOf_mem_erase h.nodup]
          exact .pop hmem hmin
  | adjust e t =>
      by_cases hmem : e ∈ ms
      · obtain ⟨heap, hrun, hv⟩ := MinHeap.adjust_valid h (Function.update s.timeout e t)
          (fun x hx => Function.update_of_ne hx ..) hmem
        refine ⟨⟨heap, Function.update s.timeout e t⟩, .code 0, ?_, ⟨_, hv⟩, ?_⟩
        · simp only [TimeoutHeap.operate, hrun, ok_bind, pure_eq_ok]
        · have hins : { x | x ∈ ms } = insert e { x | x ∈ ms } :=
            (Set.insert_eq_of_mem (show e ∈ { x | x ∈ ms } from hmem)).symm
          rw [queue_eq h, queue_mk hv]
          nth_rewrite 2 [hins]
          exact .adjust
      · have hkey : ∀ x ∈ ms, Function.update s.timeout e t x = s.timeout x := by
          intro x hx
          have hne : x ≠ e := fun heq => hmem (heq ▸ hx)
          exact Function.update_of_ne hne ..
        obtain ⟨heap, hrun, hv⟩ := MinHeap.adjust_absent (h.congr hkey) hmem
        refine ⟨⟨heap, Function.update s.timeout e t⟩, .code 0, ?_, ⟨_, hv⟩, ?_⟩
        · simp only [TimeoutHeap.operate, hrun, ok_bind, pure_eq_ok]
        · rw [queue_eq h, queue_mk hv, setOf_mem_cons]
          exact .adjust

/-- A step of the heap is an operation whose result is dropped. -/
theorem step_of_operate {r : QueueResult} (h : s.operate act = .ok (s', r)) :
    heapMachine.step s act = .ok s' := by
  simp only [heapMachine, h, ok_bind, pure_eq_ok]

/-- The heap is right in every reachable state. -/
theorem valid_reachable (hr : heapMachine.Reachable s) : ∃ ms, MinHeap.Valid s.timeout s.heap ms := by
  refine hr.preserved (I := fun s => ∃ ms, MinHeap.Valid s.timeout s.heap ms) ?_ ?_
  · intro s hi
    have hi : s.heap = MinHeap.ctor := hi
    exact ⟨[], hi ▸ .ctor⟩
  · rintro s act ⟨ms, h⟩ he
    obtain ⟨s', r, hs', hv, -⟩ := operate_step h he
    exact ⟨s', step_of_operate hs', hv⟩

/-- **The heap is a queue of timeouts.** In every state it can come to, every operation returns without
leaving the array, does to the events in the heap what it should do to a set, and returns what it should;
the event on top is one of the least; and `min_heap_idx` of each event is its place in the array. -/
theorem heap_refines_queue (hr : heapMachine.Reachable s) :
    (∀ act, heapMachine.enabled s act → ∃ s' r, s.operate act = .ok (s', r) ∧
      heapMachine.step s act = .ok s' ∧ Queue.Step s.queue act r s'.queue) ∧
    ((s.queue.members = ∅ ∧ s.heap.top = .ok none) ∨
      ∃ e ∈ s.queue.members, s.heap.top = .ok (some e) ∧
        ∀ x ∈ s.queue.members, s.timeout e ≤ s.timeout x) ∧
    ∀ e i, s.heap.idx e = some i ↔ i < s.heap.n ∧ s.heap.p.entry i = e := by
  obtain ⟨ms, h⟩ := valid_reachable hr
  refine ⟨?_, ?_, fun e i => h.idx_iff⟩
  · intro act he
    obtain ⟨s', r, hs', -, hq⟩ := operate_step h he
    exact ⟨s', r, hs', step_of_operate hs', hq⟩
  · rw [members_eq h]
    rcases h.top with ⟨rfl, htop⟩ | ⟨e, he, htop, -, hmin⟩
    · exact .inl ⟨by simp, htop⟩
    · exact .inr ⟨e, he, htop, hmin⟩

instance (s : TimeoutHeap Int) (act : QueueAction Int) : Decidable (heapMachine.enabled s act) :=
  match act with
  | .push e _ => inferInstanceAs (Decidable (s.heap.idx e = none))
  | .erase _ => isTrue trivial
  | .pop => isTrue trivial
  | .adjust _ _ => isTrue trivial

/-- Event 2 is taken out of the middle of the heap, and event 0 is put off, so that event 1 is popped. -/
theorem heap_put_off :
    ∃ s : TimeoutHeap Int, heapMachine.Reachable s ∧ s.heap.n = 3 ∧
      ∃ s', s.operate .pop = .ok (s', .event (some 1)) ∧
        Queue.Step s.queue .pop (.event (some 1)) s'.queue := by
  obtain ⟨s, hr, hb⟩ := Machine.Reachable.of_replay
    (M := (heapMachine : Machine (TimeoutHeap Int) (QueueAction Int)))
    [.push 0 3, .push 1 5, .push 2 4, .push 3 9, .erase 2, .adjust 0 7]
    (fun s => (s.heap.n, (s.operate .pop).toOption.map Prod.snd))
    (s := ⟨MinHeap.ctor, fun _ => 0⟩) rfl (b := (3, some (.event (some 1)))) (by decide +kernel)
  obtain ⟨hn, hres⟩ := Prod.mk.inj hb
  obtain ⟨s', r, hs', -, hq⟩ := (heap_refines_queue hr).1 .pop trivial
  rw [hs'] at hres
  obtain rfl : r = .event (some 1) := Option.some.inj hres
  exact ⟨s, hr, hn, s', hs', hq⟩

end
end LinuxServer.Libevent
