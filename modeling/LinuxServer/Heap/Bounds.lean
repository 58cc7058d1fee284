import LinuxServer.Heap.Refinement
import LinuxServer.Library.Machine

/-!
# The bounds of the time heap's array

Here the operations are called in any order and with any arguments, be they null, freed or in the heap
already; such a call may fault, but not because of the array. What keeps the indices within bounds is
only the three numbers: the length of the array, `capacity` and `cur_size`.

It takes one slot to begin with. `in_bounds_iff` says that this is all it takes: doubling makes room
unless there is nothing to double, and `tick` reads `array[0]` before it asks whether there is anything
in the heap.
-/

namespace LinuxServer.Heap

open Library

/-- The largest `int`. -/
def intMax : Nat := 2147483647

/-- A call by the program, or the making of a timer. -/
inductive Request where
  | make (a : Ptr) (t : HeapTimer)
  | add (timer : Option Ptr)
  | del (timer : Option Ptr)
  | pop
  | top
  | tick (cur : Int)
  deriving Repr, DecidableEq

namespace TimeHeap
variable {h h' : TimeHeap} {hole i : Nat} {temp : Option Ptr}

/-- `2 * capacity` has to fit in an `int` where the array may have to grow. -/
def enabled (h : TimeHeap) : Request → Prop
  | .make a _ => h.mem.cells a = none
  | .add _ => 2 * h.capacity ≤ intMax
  | .del _ | .pop | .top | .tick _ => True

def step (h : TimeHeap) : Request → Exec TimeHeap
  | .make a t => .ok { h with mem := h.mem.new a t }
  | .add timer => h.addTimer timer
  | .del timer => h.delTimer timer
  | .pop => do
      let (h, _) ← h.popTimer
      return h
  | .top => do
      let _ ← h.top
      return h
  | .tick cur => do
      let (h, _) ← h.tick cur
      return h

def machine (cap : Nat) : Machine TimeHeap Request where
  init h := h = make cap
  enabled := enabled
  step := step

/-- No call leaves the array, and there is room for a timer when it is put in. -/
def KeepsBounds (h : TimeHeap) : Prop :=
  ∀ r, h.enabled r → h.step r ≠ .error .outOfBounds ∧
    ∀ timer, r = .add (some timer) → ∃ h', h.grow = .ok h' ∧ h'.curSize < h'.capacity

/-! ## The operations -/

/-- The numbers are as they ought to be. -/
structure Sized (h : TimeHeap) : Prop where
  length : h.array.length = h.capacity
  size : h.curSize ≤ h.capacity

/-- `h'` is of the size of `h`. -/
structure SameSize (h h' : TimeHeap) : Prop where
  length : h'.array.length = h.array.length
  capacity : h'.capacity = h.capacity
  curSize : h'.curSize = h.curSize

theorem SameSize.refl (h : TimeHeap) : SameSize h h := ⟨rfl, rfl, rfl⟩

/-- Reading an entry of the array. -/
theorem expireAt_inBounds (hi : i < h.array.length) : InBounds (h.expireAt i) fun _ => True := by
  refine (Block.read_inBounds hi).bind fun timer _ => ?_
  refine (Mem.deref_inBounds h.mem timer).bind fun t _ => ?_
  trivial

/-- The child that is picked is below `cur_size`. -/
theorem pickChild_inBounds (hlen : h.curSize ≤ h.array.length) (hc : hole * 2 + 1 < h.curSize) :
    InBounds (h.pickChild hole) fun c => c < h.curSize := by
  unfold pickChild
  dsimp only
  split
  · rename_i hr
    refine (expireAt_inBounds (by omega)).bind fun right _ => ?_
    refine (expireAt_inBounds (by omega)).bind fun left _ => ?_
    split
    · exact hr
    · exact hc
  · exact hc

/-- The loop of `percolate_down` stays inside the array. -/
theorem percolateDownLoop_inBounds (h : TimeHeap) (temp : Option Ptr) (fuel : Nat)
    (hlen : h.curSize ≤ h.array.length) (hhole : hole < h.array.length) :
    InBounds (percolateDownLoop temp fuel h hole) fun r => SameSize h r.1 ∧ r.2 < h.array.length := by
  induction fuel generalizing h hole with
  | zero => exact Fault.noConfusion
  | succ fuel ih =>
      unfold percolateDownLoop
      split
      · rename_i hc
        refine (pickChild_inBounds hlen hc).bind fun c hcs => ?_
        refine (expireAt_inBounds (by omega)).bind fun e _ => ?_
        refine (Mem.deref_inBounds h.mem temp).bind fun t _ => ?_
        split
        · refine (Block.read_inBounds (by omega)).bind fun timer _ => ?_
          refine (Block.write_inBounds hhole timer).bind fun array harray => ?_
          refine (ih { h with array := array } ?_ (show c < array.length by omega)).mono ?_
          · show h.curSize ≤ array.length
            omega
          · rintro r ⟨hr, hlt⟩
            have hlt : r.2 < array.length := hlt
            exact ⟨⟨hr.length.trans harray, hr.capacity, hr.curSize⟩, by omega⟩
        · exact ⟨.refl h, hhole⟩
      · exact ⟨.refl h, hhole⟩

/-- `percolate_down` stays inside the array. -/
theorem percolateDown_inBounds (hlen : h.curSize ≤ h.array.length) (hhole : hole < h.array.length) :
    InBounds (h.percolateDown hole) (SameSize h) := by
  refine (Block.read_inBounds hhole).bind fun temp _ => ?_
  refine (percolateDownLoop_inBounds h temp _ hlen hhole).bind fun r hr => ?_
  obtain ⟨hsame, hlt⟩ := hr
  have hlength := hsame.length
  refine (Block.write_inBounds (by omega) temp).bind fun array harray => ?_
  exact ⟨harray.trans hlength, hsame.capacity, hsame.curSize⟩

/-- Doubling makes room, if there is something to double. -/
theorem grow_sized (hs : Sized h) (hcap : 0 < h.capacity) :
    ∃ h', h.grow = .ok h' ∧ Sized h' ∧ 0 < h'.capacity ∧ h'.curSize < h'.capacity := by
  obtain ⟨hlen, hsize⟩ := hs
  unfold grow
  by_cases hfull : h.curSize ≥ h.capacity
  · have hin : ∀ i ∈ List.range h.curSize, i < h.array.length ∧
        i < (Block.fill (2 * h.capacity) (none : Option Ptr)).length := by
      intro i hi
      have hi := List.mem_range.mp hi
      show i < h.array.length ∧ i < 2 * h.capacity
      omega
    rw [if_pos hfull, resize, copyLoop_eq hin, ok_bind]
    refine ⟨_, rfl, ⟨rfl, ?_⟩, ?_, ?_⟩
    · show h.curSize ≤ 2 * h.capacity
      omega
    · show 0 < 2 * h.capacity
      omega
    · show h.curSize < 2 * h.capacity
      omega
  · exact ⟨h, if_neg hfull, ⟨hlen, hsize⟩, hcap, by omega⟩

/-- The loop of `add_timer` stays inside the array. -/
theorem percolateUpLoop_inBounds (h : TimeHeap) (timer : Ptr) (fuel : Nat)
    (hhole : hole < h.array.length) :
    InBounds (percolateUpLoop timer fuel h hole) fun r => SameSize h r.1 ∧ r.2 < h.array.length := by
  induction fuel generalizing h hole with
  | zero => exact Fault.noConfusion
  | succ fuel ih =>
      unfold percolateUpLoop
      split
      · dsimp only
        refine (expireAt_inBounds (by omega)).bind fun e _ => ?_
        refine (Mem.deref_inBounds h.mem (some timer)).bind fun t _ => ?_
        split
        · exact ⟨.refl h, hhole⟩
        · refine (Block.read_inBounds (by omega)).bind fun above _ => ?_
          refine (Block.write_inBounds hhole above).bind fun array harray => ?_
          refine (ih { h with array := array } ?_).mono ?_
          · show (hole - 1) / 2 < array.length
            omega
          · rintro r ⟨hr, hlt⟩
            have hlt : r.2 < array.length := hlt
            exact ⟨⟨hr.length.trans harray, hr.capacity, hr.curSize⟩, by omega⟩
      · exact ⟨.refl h, hhole⟩

/-- The invariant of the runs that begin with at least one slot. -/
structure Roomy (h : TimeHeap) : Prop extends Sized h where
  pos : 0 < h.capacity

/-- `add_timer` stays inside the array, which it enlarges if it is full. -/
theorem Roomy.addTimer (hs : Roomy h) (timer : Option Ptr) : InBounds (h.addTimer timer) Roomy := by
  cases timer with
  | none => exact hs
  | some timer =>
      obtain ⟨h₁, hgrow, ⟨hlen, hsize⟩, hpos, hroom⟩ := grow_sized hs.toSized hs.pos
      unfold TimeHeap.addTimer
      dsimp only
      rw [hgrow, ok_bind]
      refine (percolateUpLoop_inBounds { h₁ with curSize := h₁.curSize + 1 } timer _
        (show h₁.curSize < h₁.array.length by omega)).bind fun r hr => ?_
      obtain ⟨⟨hlength, hcapacity, hcur⟩, hlt⟩ := hr
      refine (Block.write_inBounds (by omega) (some timer)).bind fun array harray => ?_
      have hlength : r.1.array.length = h₁.array.length := hlength
      have hcapacity : r.1.capacity = h₁.capacity := hcapacity
      have hcur : r.1.curSize = h₁.curSize + 1 := hcur
      refine ⟨⟨?_, ?_⟩, ?_⟩
      · show array.length = r.1.capacity
        omega
      · show r.1.curSize ≤ r.1.capacity
        omega
      · show 0 < r.1.capacity
        omega

/-- `del_timer` does not touch the array. -/
theorem Roomy.delTimer (hs : Roomy h) (timer : Option Ptr) : InBounds (h.delTimer timer) Roomy := by
  cases timer with
  | none => exact hs
  | some timer =>
      refine (Mem.modify_inBounds h.mem (some timer) _).bind fun mem _ => ?_
      exact ⟨⟨hs.length, hs.size⟩, hs.pos⟩

/-- `pop_timer` stays inside the array. -/
theorem Roomy.popTimer (hs : Roomy h) : InBounds h.popTimer fun r => Roomy r.1 := by
  obtain ⟨⟨hlen, hsize⟩, hpos⟩ := hs
  unfold TimeHeap.popTimer
  split
  · exact ⟨⟨hlen, hsize⟩, hpos⟩
  · refine (Block.read_inBounds (by omega)).bind fun first _ => ?_
    cases first with
    | none => exact ⟨⟨hlen, hsize⟩, hpos⟩
    | some timer =>
        refine (Mem.delete_inBounds h.mem (some timer)).bind fun mem _ => ?_
        refine (Block.read_inBounds (by omega)).bind fun last _ => ?_
        refine (Block.write_inBounds (by omega) last).bind fun array harray => ?_
        refine (percolateDown_inBounds ?_ ?_).bind fun h' hh => ?_
        · show h.curSize - 1 ≤ array.length
          omega
        · show 0 < array.length
          omega
        · obtain ⟨hlength, hcapacity, hcur⟩ := hh
          have hlength : h'.array.length = array.length := hlength
          have hcapacity : h'.capacity = h.capacity := hcapacity
          have hcur : h'.curSize = h.curSize - 1 := hcur
          refine ⟨⟨?_, ?_⟩, ?_⟩
          · show h'.array.length = h'.capacity
            omega
          · show h'.curSize ≤ h'.capacity
            omega
          · show 0 < h'.capacity
            omega

/-- There is a first entry, even of an empty heap. -/
theorem Roomy.read_first (hs : Roomy h) : InBounds (h.array.read 0) fun _ => True :=
  Block.read_inBounds (by rw [hs.length]; exact hs.pos)

/-- `top` stays inside the array. -/
theorem Roomy.top (hs : Roomy h) : InBounds h.top fun _ => True := by
  unfold TimeHeap.top
  split
  · trivial
  · exact hs.read_first

/-- Calling the first timer stays inside the array. -/
theorem Roomy.fire (hs : Roomy h) : InBounds h.fire fun _ => True := by
  refine hs.read_first.bind fun first _ => ?_
  cases first with
  | none => exact Fault.noConfusion
  | some timer =>
      refine (Mem.deref_inBounds h.mem (some timer)).bind fun t _ => ?_
      split
      · trivial
      · trivial

/-- The loop of `tick` stays inside the array. -/
theorem Roomy.tickLoop (cur : Int) (fuel : Nat) (hs : Roomy h) (tmp : Option Ptr) :
    InBounds (TimeHeap.tickLoop cur fuel h tmp) fun r => Roomy r.1 := by
  induction fuel generalizing h tmp with
  | zero => exact Fault.noConfusion
  | succ fuel ih =>
      unfold TimeHeap.tickLoop
      split
      · exact hs
      · cases tmp with
        | none => exact hs
        | some timer =>
            refine (Mem.deref_inBounds h.mem (some timer)).bind fun t _ => ?_
            split
            · exact hs
            · refine hs.fire.bind fun calls _ => ?_
              refine hs.popTimer.bind fun r hr => ?_
              refine hr.read_first.bind fun tmp _ => ?_
              exact (ih hr tmp).bind fun r' hr' => hr'

/-- `tick` stays inside the array. -/
theorem Roomy.tick (hs : Roomy h) (cur : Int) : InBounds (h.tick cur) fun r => Roomy r.1 :=
  hs.read_first.bind fun tmp _ => hs.tickLoop cur _ tmp

/-! ## Whole runs -/

/-- Every request stays inside the array. -/
theorem Roomy.step (hs : Roomy h) (r : Request) : InBounds (h.step r) Roomy := by
  cases r with
  | make a t => exact ⟨⟨hs.length, hs.size⟩, hs.pos⟩
  | add timer => exact hs.addTimer timer
  | del timer => exact hs.delTimer timer
  | pop => exact hs.popTimer.bind fun r hr => hr
  | top => exact hs.top.bind fun _ _ => hs
  | tick cur => exact (hs.tick cur).bind fun r hr => hr

/-- A heap with a positive capacity keeps space for its timers. -/
theorem roomy_of_reachable {cap : Nat} (hcap : 0 < cap) (hr : (machine cap).Reachable h) : Roomy h := by
  apply hr.invariant
  · rintro h rfl
    exact ⟨⟨rfl, Nat.zero_le _⟩, hcap⟩
  · intro h r h' hs _ heq
    exact (hs.step r).of_eq_ok heq

theorem Roomy.keepsBounds (hs : Roomy h) : h.KeepsBounds := by
  intro r _
  refine ⟨(hs.step r).ne, ?_⟩
  rintro timer rfl
  obtain ⟨h', hgrow, -, -, hroom⟩ := grow_sized hs.toSized hs.pos
  exact ⟨h', hgrow, hroom⟩

/-- **No sequence of calls leaves the array, exactly if** it has at least one slot to begin with. -/
theorem in_bounds_iff (cap : Nat) :
    (∀ h, (machine cap).Reachable h → h.KeepsBounds) ↔ 0 < cap := by
  constructor
  · intro hall
    by_contra hzero
    obtain rfl : cap = 0 := by omega
    exact (hall (make 0) ⟨[], .start rfl⟩ (.tick 0) trivial).1 rfl
  · intro hcap h hr
    exact (roomy_of_reachable hcap hr).keepsBounds

/-- A heap made with `cap = 0`, and a timer: neither can the heap be ticked nor the timer added. -/
theorem in_bounds_no_slots_fails :
    ∃ h, (machine 0).Reachable h ∧ h.capacity = 0 ∧
      h.enabled (.tick 0) ∧ h.step (.tick 0) = .error .outOfBounds ∧
      h.enabled (.add (some 1)) ∧ h.step (.add (some 1)) = .error .outOfBounds ∧ ¬ h.KeepsBounds := by
  have hmake : (machine 0).Run [] (make 0) := .start rfl
  have hfree : (machine 0).enabled (make 0) (.make 1 ⟨5, none, none⟩) := rfl
  refine ⟨_, ⟨_, hmake.step hfree rfl⟩, rfl, trivial, rfl, ?_, rfl, ?_⟩
  · show 2 * 0 ≤ intMax
    decide
  · intro hk
    exact (hk (.tick 0) trivial).1 rfl

end TimeHeap
end LinuxServer.Heap
