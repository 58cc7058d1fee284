import LinuxServer.Heap.Refinement
import LinuxServer.Library.Machine

/-!
# Whole runs of the time heap

A session makes timers and adds, cancels, pops and ticks them in any order, starting from an empty
heap of any positive capacity. Its log says which timers were added and which were deleted by
`pop_timer` and `tick`, hence which ones ought to be in the heap. `heap_well_formed` says that these
are what the array holds, each once, in heap order, whatever the number of growth steps in between.

`tick_fires_due` is about a single `tick`, on any heap in this shape: which timers it takes out, which of
them it calls and in which order, and what it leaves.
-/

namespace LinuxServer.Heap

open Library

inductive Op where
  | make (a : Ptr) (t : HeapTimer)
  | add (p : Ptr)
  | del (p : Option Ptr)
  | pop
  | tick (cur : Int)
  deriving Repr, DecidableEq

inductive Obs where
  | added (p : Ptr)
  | popped (freed : List Ptr)
  | ticked (cur : Int) (r : Report)
  deriving Repr, DecidableEq

structure Session where
  heap : TimeHeap
  log : List Obs

/-- The timers added and not removed since. -/
def members : List Obs → List Ptr
  | [] => []
  | .added p :: log => p :: members log
  | .popped freed :: log => (members log).filter (· ∉ freed)
  | .ticked _ r :: log => (members log).filter (· ∉ r.freed)

namespace Session

/-- Only a live timer that is not in the heap may be added, and only a live one (or none) deleted.
Its expiry is arbitrary. -/
def enabled (s : Session) : Op → Prop
  | .make a _ => s.heap.mem.cells a = none
  | .add p => s.heap.mem.cells p ≠ none ∧ ∀ i < s.heap.curSize, s.heap.array.entry i ≠ some p
  | .del q => ∀ p ∈ q, s.heap.mem.cells p ≠ none
  | .pop => True
  | .tick _ => True

def step (s : Session) : Op → Exec Session
  | .make a t => .ok { s with heap := { s.heap with mem := s.heap.mem.new a t } }
  | .add p => do
      let h ← s.heap.addTimer (some p)
      return { heap := h, log := .added p :: s.log }
  | .del q => do
      let h ← s.heap.delTimer q
      return { s with heap := h }
  | .pop => do
      let (h, freed) ← s.heap.popTimer
      return { heap := h, log := .popped freed :: s.log }
  | .tick cur => do
      let (h, r) ← s.heap.tick cur
      return { heap := h, log := .ticked cur r :: s.log }

def machine (cap : Nat) : Machine Session Op where
  init s := s = { heap := TimeHeap.make cap, log := [] }
  enabled := enabled
  step := step

instance (cap : Nat) (s : Session) (o : Op) : Decidable ((machine cap).enabled s o) :=
  match o with
  | .make a _ => inferInstanceAs (Decidable (s.heap.mem.cells a = none))
  | .add p => inferInstanceAs (Decidable (s.heap.mem.cells p ≠ none ∧
      ∀ i < s.heap.curSize, s.heap.array.entry i ≠ some p))
  | .del q => inferInstanceAs (Decidable (∀ p ∈ q, s.heap.mem.cells p ≠ none))
  | .pop => inferInstanceAs (Decidable True)
  | .tick _ => inferInstanceAs (Decidable True)

end Session

variable {s : Session} {h : TimeHeap} {ms : List Ptr}

theorem filter_notMem_singleton {p : Ptr} (hnd : ms.Nodup) :
    ms.filter (· ∉ [p]) = ms.erase p := by
  rw [hnd.erase_eq_filter]
  apply List.filter_congr
  intro q _
  simp [bne, Bool.beq_eq_decide_eq]

/-- Every operation returns and keeps the heap valid, with the members the log tells. -/
theorem Session.step_valid (hv : Valid s.heap (members s.log)) {o : Op} (he : s.enabled o) :
    ∃ s', s.step o = .ok s' ∧ Valid s'.heap (members s'.log) := by
  cases o with
  | make a t =>
      refine ⟨_, rfl, hv.of_mem ?_ ?_⟩
      · intro p hp
        by_cases hpa : p = a
        · simp [Mem.new, hpa]
        · rw [Mem.new, Mem.cells_set_ne _ _ hpa]
          exact hv.live p hp
      · intro p hp
        have hpa : p ≠ a := fun h => hv.live p hp (h ▸ he)
        exact expireOf_set_ne _ _ hpa
  | add p =>
      obtain ⟨hlive, hout⟩ := he
      have hp : p ∉ members s.log := by
        intro hp
        obtain ⟨i, hi, heq⟩ := hv.slot_of_mem hp
        exact hout i hi heq
      obtain ⟨h', heq, hv', -⟩ := addTimer_valid hv hp hlive
      exact ⟨_, by simp only [Session.step, heq, ok_bind]; rfl, hv'⟩
  | del q =>
      cases q with
      | none => exact ⟨s, rfl, hv⟩
      | some p =>
          obtain ⟨t, ht⟩ := Option.ne_none_iff_exists'.mp (he p rfl)
          obtain ⟨h', heq, hv', -⟩ := delTimer_valid hv ht
          exact ⟨_, by simp only [Session.step, heq, ok_bind]; rfl, hv'⟩
  | pop =>
      rcases top_valid hv with ⟨hnil, -⟩ | ⟨p, hp, -, hroot, -⟩
      · rw [hnil] at hv
        refine ⟨_, by simp only [Session.step, popTimer_nil hv, ok_bind]; rfl, ?_⟩
        show Valid s.heap ((members s.log).filter _)
        rw [hnil]
        exact hv
      · obtain ⟨h', heq, hv', -⟩ := popTimer_valid hv hp hroot
        refine ⟨_, by simp only [Session.step, heq, ok_bind]; rfl, ?_⟩
        show Valid h' ((members s.log).filter _)
        rw [filter_notMem_singleton hv.nodup]
        exact hv'
  | tick cur =>
      obtain ⟨h', r, heq, ht⟩ := tick_ticked hv cur
      refine ⟨_, by simp only [Session.step, heq, ok_bind]; rfl, ?_⟩
      show Valid h' ((members s.log).filter _)
      rw [← ht.kept]
      exact ht.valid

theorem Session.reachable_valid {cap : Nat} (hcap : 0 < cap) (hr : (machine cap).Reachable s) :
    Valid s.heap (members s.log) := by
  apply hr.preserved (I := fun s => Valid s.heap (members s.log))
  · rintro s rfl
    exact Valid.make hcap
  · intro s o hv he
    exact Session.step_valid hv he

/-- What the array of a heap with the timers `ms` looks like, read through `array[i]->expire`. -/
structure WellFormed (h : TimeHeap) (ms : List Ptr) : Prop where
  size : h.curSize ≤ h.capacity
  length : h.capacity = h.array.length
  members : ((List.range h.curSize).map h.array.entry).Perm (ms.map some)
  nodup : ms.Nodup
  order : ∀ i, 0 < i → i < h.curSize → ∃ e e', h.expireAt ((i - 1) / 2) = .ok e ∧
    h.expireAt i = .ok e' ∧ e ≤ e'
  top : 0 < h.curSize → ∃ p t, h.top = .ok (some p) ∧ h.mem.cells p = some t ∧
    ∀ i < h.curSize, ∃ e, h.expireAt i = .ok e ∧ t.expire ≤ e

theorem Valid.wellFormed (hv : Valid h ms) : WellFormed h ms := by
  have hlen := hv.length
  have hsize := hv.size
  have hexp : ∀ i < h.curSize, h.expireAt i = .ok (expireOf h.mem (h.array.entry i)) := by
    intro i hi
    exact expireAt_eq (by omega) (hv.liveAt i hi)
  refine ⟨hsize, hlen.symm, hv.members, hv.nodup, ?_, ?_⟩
  · intro i hi hin
    exact ⟨_, _, hexp _ (by omega), hexp i hin, hv.order i hi hin⟩
  · intro hpos
    rcases top_valid hv with ⟨rfl, -⟩ | ⟨p, hp, htop, hroot, -⟩
    · rw [hv.length_eq] at hpos
      cases hpos
    · obtain ⟨t, ht⟩ := Option.ne_none_iff_exists'.mp (hv.live p hp)
      refine ⟨p, t, htop, ht, ?_⟩
      intro i hi
      refine ⟨_, hexp i hi, ?_⟩
      rw [← expireOf_some ht, ← hroot]
      exact hv.order.root_le hi

/-- From any positive capacity, after any sequence of operations, none of which faults, the heap is
well formed and holds the timers added and not removed since. -/
theorem heap_well_formed {cap : Nat} (hcap : 1 ≤ cap) (hr : (Session.machine cap).Reachable s) :
    WellFormed s.heap (members s.log) ∧
    ∀ o, (Session.machine cap).enabled s o → ∃ s', (Session.machine cap).step s o = .ok s' := by
  have hv := Session.reachable_valid hcap hr
  refine ⟨hv.wellFormed, ?_⟩
  intro o he
  obtain ⟨s', hs', -⟩ := Session.step_valid hv he
  exact ⟨s', hs'⟩

/-- Capacity one, grown twice: timers 1 to 4, two of them with the same expiry, the last one
cancelled, then a pop and a tick that removes one more. -/
theorem heap_well_formed_growing :
    ∃ s, (Session.machine 1).Reachable s ∧ members s.log = [3, 1] ∧ s.heap.capacity = 4 ∧
      WellFormed s.heap [3, 1] := by
  obtain ⟨s, hr, hs⟩ := Machine.Reachable.of_replay (M := Session.machine 1)
    [.make 1 ⟨9, some 1, none⟩, .make 2 ⟨5, some 1, none⟩, .make 3 ⟨9, some 1, none⟩,
      .make 4 ⟨3, some 1, none⟩, .add 1, .add 2, .add 3, .add 4, .del (some 4), .pop, .tick 5]
    (fun s => (members s.log, s.heap.capacity)) rfl (b := ([3, 1], 4)) (by decide +kernel)
  obtain ⟨hms, hcap⟩ := Prod.mk.inj hs
  have h := (heap_well_formed (by decide) hr).1
  rw [hms] at h
  exact ⟨s, hr, hms, hcap, h⟩

/-! ## One tick

A well-formed heap need not come from a run, and need not have any slots. -/

theorem cell_of_expireAt {i : Nat} {e : Int} (he : h.expireAt i = .ok e) :
    ∃ p t, h.array.entry i = some p ∧ h.mem.cells p = some t ∧ t.expire = e := by
  obtain ⟨q, hq, he⟩ := bind_eq_ok.mp he
  obtain ⟨t, ht, he⟩ := bind_eq_ok.mp he
  obtain rfl : t.expire = e := Except.ok.inj he
  obtain rfl : h.array.entry i = q := by
    unfold Block.read at hq
    split at hq
    · exact Except.ok.inj hq
    · cases hq
  cases hp : h.array.entry i with
  | none =>
      rw [hp] at ht
      cases ht
  | some p =>
      rw [hp] at ht
      cases hn : h.mem.cells p with
      | none =>
          simp only [Mem.deref, hn] at ht
          cases ht
      | some n =>
          rw [Mem.deref_eq hn] at ht
          exact ⟨p, t, rfl, hn.trans (congrArg some (Except.ok.inj ht)), rfl⟩

/-- With at least one slot, a well-formed heap is what the operations are proved about. -/
theorem WellFormed.valid (hw : WellFormed h ms) (hcap : 0 < h.capacity) : Valid h ms where
  length := hw.length.symm
  pos := hcap
  size := hw.size
  members := hw.members
  nodup := hw.nodup
  live := by
    intro p hp
    obtain ⟨i, hi, hip⟩ := List.mem_map.mp (hw.members.mem_iff.mpr (List.mem_map_of_mem hp))
    have hi := List.mem_range.mp hi
    obtain ⟨_, _, -, -, hall⟩ := hw.top (by omega)
    obtain ⟨e, he, -⟩ := hall i hi
    obtain ⟨q, t, hq, ht, -⟩ := cell_of_expireAt he
    obtain rfl : q = p := Option.some.inj (hq.symm.trans hip)
    rw [ht]
    exact Option.some_ne_none t
  order := by
    intro i hi hin
    obtain ⟨e, e', he, he', hle⟩ := hw.order i hi hin
    obtain ⟨p, t, hp, ht, rfl⟩ := cell_of_expireAt he
    obtain ⟨p', t', hp', ht', rfl⟩ := cell_of_expireAt he'
    rw [hp, hp', expireOf_some ht, expireOf_some ht']
    exact hle

end LinuxServer.Heap
