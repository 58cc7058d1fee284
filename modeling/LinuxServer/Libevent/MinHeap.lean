import LinuxServer.Library.BinaryHeap
import LinuxServer.Library.Machine

/-!
# The heap of timeouts

`minheap-internal.h`: a binary heap of events, ordered by `ev_timeout`. Each event knows its place in the
heap, so that it can be taken out of the middle. Unlike the time heap, the loops write this place along
with each entry they move, and of two children that are equal they take the right one.

`Valid` is the invariant; each operation returns and keeps it. The order of the heap comes from the
library, with `DownFrom.move` and `UpTo.move` for one round of the loops.
-/

namespace LinuxServer.Libevent

open Library

/-- `struct min_heap`, with `min_heap_idx` of all events; `none` is `EV_SIZE_MAX`. The length of the block
is `a`. -/
structure MinHeap where
  p : Block Nat
  n : Nat
  idx : Nat → Option Nat

namespace MinHeap
variable {κ : Type} [LinearOrder κ]

/-- `min_heap_ctor_`, after `min_heap_elem_init_` of all events. -/
def ctor : MinHeap := { p := Block.fill 0 0, n := 0, idx := fun _ => none }

/-- `min_heap_top_`. -/
def top (s : MinHeap) : Exec (Option Nat) :=
  if s.n = 0 then .ok none
  else do
    let e ← s.p.read 0
    return some e

/-- `(s->p[i] = e)->ev_timeout_pos.min_heap_idx = i` -/
def place (s : MinHeap) (i e : Nat) : Exec MinHeap := do
  let p ← s.p.write i e
  return { s with p := p, idx := Function.update s.idx e (some i) }

/-- `min_heap_reserve_`. -/
def reserve (s : MinHeap) (n : Nat) : MinHeap :=
  if s.p.length < n then
    let a := if s.p.length ≠ 0 then s.p.length * 2 else 8
    { s with p := { s.p with length := if a < n then n else a } }
  else s

section
variable (key : Nat → κ)

/-- `min_heap_shift_up_`. -/
def shiftUp (e : Nat) : Nat → MinHeap → Nat → Exec MinHeap
  | 0, _, _ => .error .diverges
  | fuel + 1, s, hole =>
    if hole ≠ 0 then do
      let parent := (hole - 1) / 2
      let above ← s.p.read parent
      if key above > key e then
        let s ← s.place hole above
        shiftUp e fuel s parent
      else s.place hole e
    else s.place hole e

/-- `min_heap_shift_up_unconditional_`, whose loop looks at the order after its first round only. -/
def shiftUpUnconditional (e : Nat) (s : MinHeap) (hole : Nat) : Exec MinHeap := do
  let parent := (hole - 1) / 2
  let above ← s.p.read parent
  let s ← s.place hole above
  shiftUp key e (hole + 1) s parent

/-- `min_child -= min_child == s->n || min_heap_elem_greater(…)` -/
def pickChild (s : MinHeap) (hole : Nat) : Exec Nat :=
  let minChild := 2 * (hole + 1)
  if minChild = s.n then .ok (minChild - 1)
  else do
    let right ← s.p.read minChild
    let left ← s.p.read (minChild - 1)
    if key right > key left then return minChild - 1 else return minChild

/-- `min_heap_shift_down_`. -/
def shiftDown (e : Nat) : Nat → MinHeap → Nat → Exec MinHeap
  | 0, _, _ => .error .diverges
  | fuel + 1, s, hole =>
    if 2 * (hole + 1) ≤ s.n then do
      let minChild ← s.pickChild key hole
      let child ← s.p.read minChild
      if key e > key child then
        let s ← s.place hole child
        shiftDown e fuel s minChild
      else s.place hole e
    else s.place hole e

/-- What `min_heap_erase_` and `min_heap_adjust_` have in common: `e` belongs at `i`, above or below. -/
def shift (e : Nat) (s : MinHeap) (i : Nat) : Exec MinHeap :=
  if i > 0 then do
    let above ← s.p.read ((i - 1) / 2)
    if key above > key e then shiftUpUnconditional key e s i
    else shiftDown key e (s.n + 1) s i
  else shiftDown key e (s.n + 1) s i

/-- `min_heap_push_`. -/
def push (s : MinHeap) (e : Nat) : Exec MinHeap := do
  let s := s.reserve (s.n + 1)
  let hole := s.n
  shiftUp key e (hole + 1) { s with n := s.n + 1 } hole

/-- `min_heap_pop_`. -/
def pop (s : MinHeap) : Exec (MinHeap × Option Nat) :=
  if s.n ≠ 0 then do
    let e ← s.p.read 0
    let last ← s.p.read (s.n - 1)
    let s ← shiftDown key last s.n { s with n := s.n - 1 } 0
    return ({ s with idx := Function.update s.idx e none }, some e)
  else .ok (s, none)

/-- `min_heap_erase_`. -/
def erase (s : MinHeap) (e : Nat) : Exec (MinHeap × Int) :=
  match s.idx e with
  | none => .ok (s, -1)
  | some i => do
      let last ← s.p.read (s.n - 1)
      let s ← shift key last { s with n := s.n - 1 } i
      return ({ s with idx := Function.update s.idx e none }, 0)

/-- `min_heap_adjust_`. -/
def adjust (s : MinHeap) (e : Nat) : Exec MinHeap :=
  match s.idx e with
  | none => s.push key e
  | some i => shift key e s i

end

/-! ## A hole -/

/-- The array as if `e` were in the hole. -/
def filled (s : MinHeap) (hole e : Nat) : Nat → Nat := Function.update s.p.entry hole e

/-- The first `m` entries are different events that know their places, with `e` in the hole as far as the
array is concerned. -/
structure Sifting (s : MinHeap) (m hole e : Nat) : Prop where
  hole_lt : hole < m
  space : m ≤ s.p.length
  inj : ∀ i < m, ∀ j < m, s.filled hole e i = s.filled hole e j → i = j
  placed : ∀ i < m, i ≠ hole → s.idx (s.p.entry i) = some i

/-- What sifting leaves of the array `g`: a heap with the same entries, which know their places. Nothing
happens to events that are not among them. -/
structure Sifted (key : Nat → κ) (s : MinHeap) (m : Nat) (g : Nat → Nat) (s' : MinHeap) : Prop where
  n : s'.n = s.n
  length : s'.p.length = s.p.length
  heap : IsHeap key m s'.p.entry
  moved : Rearranged (· < m) g s'.p.entry
  placed : ∀ i < m, s'.idx (s'.p.entry i) = some i
  others : ∀ x, (∀ i < m, g i ≠ x) → s'.idx x = s.idx x

variable {key : Nat → κ} {s s' : MinHeap} {m hole e fuel i j : Nat} {ms : List Nat}

/-- The only write to the array and to `min_heap_idx`. -/
theorem place_eq (h : i < s.p.length) (e : Nat) :
    s.place i e = .ok { s with p := { s.p with entry := Function.update s.p.entry i e }
                               idx := Function.update s.idx e (some i) } := by
  rw [place, Block.write_eq h]
  rfl

/-- The event that is to be put into the hole. -/
theorem filled_self (s : MinHeap) (hole e : Nat) : s.filled hole e hole = e := Function.update_self ..

/-- The other entries. -/
theorem filled_of_ne (s : MinHeap) (e : Nat) (h : i ≠ hole) : s.filled hole e i = s.p.entry i :=
  Function.update_of_ne h ..

/-- The hole moves to `j`, and the event that was there to where the hole was. -/
theorem Sifting.move (h : Sifting s m hole e) (hj : j < m) (hne : hole ≠ j) :
    ∃ s', s.place hole (s.p.entry j) = .ok s' ∧ Sifting s' m j e ∧ s'.n = s.n ∧
      s'.p.length = s.p.length ∧ s'.filled j e = s.filled hole e ∘ Equiv.swap hole j ∧
      s'.p.entry = Function.update s.p.entry hole (s.p.entry j) ∧
      ∀ x, (∀ i < m, s.filled hole e i ≠ x) → s'.idx x = s.idx x := by
  have hlen := h.space
  have hat : s.filled hole e j = s.p.entry j := filled_of_ne s e hne.symm
  refine ⟨_, place_eq (by have := h.hole_lt; omega) _, ?_, rfl, rfl, update_hole _ _ hne, rfl, ?_⟩
  · refine ⟨hj, hlen, ?_, ?_⟩
    · intro a ha b hb hab
      dsimp only [filled] at hab
      rw [update_hole _ _ hne] at hab
      have hswap : ∀ k < m, Equiv.swap hole j k < m := by
        intro k hk
        rw [Equiv.swap_apply_def]
        split
        · exact hj
        · split
          · exact h.hole_lt
          · exact hk
      exact (Equiv.swap hole j).injective (h.inj _ (hswap a ha) _ (hswap b hb) hab)
    · intro i hi hij
      dsimp only
      by_cases hih : i = hole
      · rw [hih, Function.update_self, Function.update_self]
      · have hne' : s.p.entry i ≠ s.p.entry j := by
          rw [← hat, ← filled_of_ne s e hih]
          intro heq
          exact hij (h.inj i hi j hj heq)
        rw [Function.update_of_ne hih, Function.update_of_ne hne']
        exact h.placed i hi hih
  · intro x hx
    dsimp only
    rw [Function.update_of_ne]
    intro heq
    exact hx j hj (hat.trans heq.symm)

/-- `e` is put into the hole. -/
theorem Sifting.fill (h : Sifting s m hole e) (hheap : IsHeap key m (s.filled hole e)) :
    ∃ s', s.place hole e = .ok s' ∧ Sifted key s m (s.filled hole e) s' := by
  have hlen := h.space
  have hlt := h.hole_lt
  refine ⟨_, place_eq (by omega) _, rfl, rfl, hheap, .refl _ _, ?_, ?_⟩
  · intro i hi
    dsimp only
    by_cases hih : i = hole
    · rw [hih, Function.update_self, Function.update_self]
    · have hne : s.p.entry i ≠ e := by
        rw [← filled_of_ne s e hih]
        intro heq
        exact hih (h.inj i hi hole hlt (heq.trans (filled_self s hole e).symm))
      rw [Function.update_of_ne hih, Function.update_of_ne hne]
      exact h.placed i hi hih
  · intro x hx
    dsimp only
    rw [Function.update_of_ne]
    rintro rfl
    exact hx hole hlt (filled_self ..)

/-- What was sifted after the hole had moved was sifted. -/
theorem Sifted.after {s₁ : MinHeap} (h : Sifted key s₁ m (s.filled hole e ∘ Equiv.swap hole j) s')
    (hhole : hole < m) (hj : j < m) (hn : s₁.n = s.n) (hlen : s₁.p.length = s.p.length)
    (hothers : ∀ x, (∀ i < m, s.filled hole e i ≠ x) → s₁.idx x = s.idx x) :
    Sifted key s m (s.filled hole e) s' where
  n := h.n.trans hn
  length := h.length.trans hlen
  heap := h.heap
  moved := (Rearranged.swap (S := (· < m)) _ hhole hj).trans h.moved
  placed := h.placed
  others := by
    intro x hx
    rw [h.others x, hothers x hx]
    intro i hi
    show s.filled hole e (Equiv.swap hole j i) ≠ x
    rw [Equiv.swap_apply_def]
    split
    · exact hx j hj
    · split
      · exact hx hole hhole
      · exact hx i hi

/-! ## The loops -/

/-- `min_heap_shift_up_` finds the place of an event that may have to go up. -/
theorem shiftUp_spec (h : Sifting s m hole e) (ho : UpTo key hole m (s.filled hole e))
    (hfuel : hole < fuel) :
    ∃ s', shiftUp key e fuel s hole = .ok s' ∧ Sifted key s m (s.filled hole e) s' := by
  induction fuel generalizing s hole with
  | zero => omega
  | succ fuel ih =>
      have hlt := h.hole_lt
      have hlen := h.space
      unfold shiftUp
      by_cases hz : hole = 0
      · rw [if_neg (by simpa using hz)]
        exact h.fill (ho.stop fun hpos => absurd hz (by omega))
      · have hne : hole ≠ (hole - 1) / 2 := by omega
        have hpar : (hole - 1) / 2 < m := by omega
        rw [if_pos hz]
        dsimp only
        rw [Block.read_eq (by omega), ok_bind]
        have hval : s.filled hole e ((hole - 1) / 2) = s.p.entry ((hole - 1) / 2) :=
          filled_of_ne s e hne.symm
        split
        · rename_i hgt
          obtain ⟨s₁, hplace, hs₁, hn, hlen₁, hfill, -, hoth⟩ := h.move hpar hne
          rw [hplace, ok_bind]
          have ho₁ : UpTo key ((hole - 1) / 2) m (s₁.filled ((hole - 1) / 2) e) := by
            rw [hfill]
            apply ho.move (by omega) hlt
            rw [filled_self, hval]
            exact hgt
          obtain ⟨s', hrun, hs'⟩ := ih hs₁ ho₁ (by omega)
          rw [hfill] at hs'
          exact ⟨s', hrun, hs'.after hlt hpar hn hlen₁ hoth⟩
        · rename_i hle
          refine h.fill (ho.stop fun _ => ?_)
          rw [filled_self, hval]
          exact not_lt.mp hle

/-- `min_heap_shift_up_unconditional_`, where the event does have to go up. -/
theorem shiftUpUnconditional_spec (h : Sifting s m hole e) (ho : UpTo key hole m (s.filled hole e))
    (hpos : 0 < hole) (hgt : key (s.p.entry ((hole - 1) / 2)) > key e) :
    ∃ s', shiftUpUnconditional key e s hole = .ok s' ∧ Sifted key s m (s.filled hole e) s' := by
  have hlt := h.hole_lt
  have hlen := h.space
  have hne : hole ≠ (hole - 1) / 2 := by omega
  have hpar : (hole - 1) / 2 < m := by omega
  obtain ⟨s₁, hplace, hs₁, hn, hlen₁, hfill, -, hoth⟩ := h.move hpar hne
  have ho₁ : UpTo key ((hole - 1) / 2) m (s₁.filled ((hole - 1) / 2) e) := by
    rw [hfill]
    apply ho.move hpos hlt
    rw [filled_self, filled_of_ne s e hne.symm]
    exact hgt
  obtain ⟨s', hrun, hs'⟩ := shiftUp_spec hs₁ ho₁ (show (hole - 1) / 2 < hole + 1 by omega)
  rw [hfill] at hs'
  refine ⟨s', ?_, hs'.after hlt hpar hn hlen₁ hoth⟩
  unfold shiftUpUnconditional
  dsimp only
  rw [Block.read_eq (by omega), ok_bind, hplace, ok_bind]
  exact hrun

variable (key) in
/-- `min_heap_shift_down_` goes on with the smaller child. -/
theorem pickChild_spec (hc : 2 * (hole + 1) ≤ s.n) (hlen : s.n ≤ s.p.length) :
    ∃ c, s.pickChild key hole = .ok c ∧ hole < c ∧ c < s.n ∧ (c - 1) / 2 = hole ∧
      ∀ i, 0 < i → i < s.n → (i - 1) / 2 = hole → key (s.p.entry c) ≤ key (s.p.entry i) := by
  unfold pickChild
  dsimp only
  by_cases hlast : 2 * (hole + 1) = s.n
  · rw [if_pos hlast]
    refine ⟨_, rfl, by omega, by omega, by omega, ?_⟩
    intro i hi hin hip
    obtain rfl : i = 2 * (hole + 1) - 1 := by omega
    exact le_rfl
  · rw [if_neg hlast, Block.read_eq (by omega), ok_bind, Block.read_eq (by omega), ok_bind]
    split
    · rename_i hgt
      refine ⟨_, rfl, by omega, by omega, by omega, ?_⟩
      intro i hi hin hip
      obtain rfl | rfl : i = 2 * (hole + 1) - 1 ∨ i = 2 * (hole + 1) := by omega
      · exact le_rfl
      · exact hgt.le
    · rename_i hle
      refine ⟨_, rfl, by omega, by omega, by omega, ?_⟩
      intro i hi hin hip
      obtain rfl | rfl : i = 2 * (hole + 1) - 1 ∨ i = 2 * (hole + 1) := by omega
      · exact not_lt.mp hle
      · exact le_rfl

/-- `min_heap_shift_down_` finds the place of an event that may have to go down. -/
theorem shiftDown_spec (h : Sifting s s.n hole e) (ho : DownFrom key 0 hole s.n (s.filled hole e))
    (hfuel : s.n - hole < fuel) :
    ∃ s', shiftDown key e fuel s hole = .ok s' ∧ Sifted key s s.n (s.filled hole e) s' := by
  induction fuel generalizing s hole with
  | zero => omega
  | succ fuel ih =>
      have hlt := h.hole_lt
      have hlen := h.space
      unfold shiftDown
      by_cases hc : 2 * (hole + 1) ≤ s.n
      · obtain ⟨c, hpick, hhc, hcn, hcp, hmin⟩ := pickChild_spec key hc hlen
        rw [if_pos hc, hpick, ok_bind, Block.read_eq (by omega), ok_bind]
        have hval : ∀ i, 0 < i → (i - 1) / 2 = hole → s.filled hole e i = s.p.entry i :=
          fun i hi hip => filled_of_ne s e (by omega)
        split
        · rename_i hgt
          obtain ⟨s₁, hplace, hs₁, hn, hlen₁, hfill, -, hoth⟩ := h.move hcn (by omega)
          rw [hplace, ok_bind]
          have ho₁ : DownFrom key 0 c s₁.n (s₁.filled c e) := by
            rw [hfill, hn]
            apply ho.move (descends_zero _) hhc hcn hcp
            · intro i hi hin hip
              rw [hval i hi hip, hval c (by omega) hcp]
              exact hmin i hi hin hip
            · rw [filled_self, hval c (by omega) hcp]
              exact hgt
          rw [← hn] at hs₁
          obtain ⟨s', hrun, hs'⟩ := ih hs₁ ho₁ (by omega)
          rw [hn, hfill] at hs'
          exact ⟨s', hrun, hs'.after hlt hcn hn hlen₁ hoth⟩
        · rename_i hle
          refine h.fill (IsHeapBelow.isHeap (ho.stop fun i hi hin hip => ?_))
          rw [filled_self, hval i hi hip]
          exact (not_lt.mp hle).trans (hmin i hi hin hip)
      · rw [if_neg hc]
        refine h.fill (IsHeapBelow.isHeap (ho.stop fun i hi hin hip => ?_))
        omega

/-- An event goes up or down, whichever is needed. -/
theorem shift_spec (h : Sifting s s.n hole e) (ho : HeapBut key hole s.n (s.filled hole e)) :
    ∃ s', shift key e s hole = .ok s' ∧ Sifted key s s.n (s.filled hole e) s' := by
  have hlt := h.hole_lt
  have hlen := h.space
  have hval : 0 < hole → s.filled hole e ((hole - 1) / 2) = s.p.entry ((hole - 1) / 2) :=
    fun hpos => filled_of_ne s e (by omega)
  unfold shift
  split
  · rename_i hpos
    rw [Block.read_eq (by omega), ok_bind]
    split
    · rename_i hgt
      refine shiftUpUnconditional_spec h (ho.upTo hpos ?_) hpos hgt
      rw [filled_self, hval hpos]
      exact hgt.le
    · rename_i hle
      refine shiftDown_spec h (ho.downFrom fun _ => ?_) (by omega)
      rw [filled_self, hval hpos]
      exact not_lt.mp hle
  · rename_i hz
    exact shiftDown_spec h (ho.downFrom fun hpos => absurd hpos hz) (by omega)

/-! ## The heap of the events `ms` -/

structure Valid (key : Nat → κ) (s : MinHeap) (ms : List Nat) : Prop where
  space : s.n ≤ s.p.length
  members : ((List.range s.n).map s.p.entry).Perm ms
  nodup : ms.Nodup
  placed : ∀ i < s.n, s.idx (s.p.entry i) = some i
  absent : ∀ x, x ∉ ms → s.idx x = none
  order : IsHeap key s.n s.p.entry

/-- A new heap is empty. -/
theorem Valid.ctor : Valid key ctor [] where
  space := Nat.le_refl _
  members := List.Perm.refl _
  nodup := List.nodup_nil
  placed := fun i hi => absurd hi (Nat.not_lt_zero i)
  absent := fun _ _ => rfl
  order := fun i _ hi => absurd hi (Nat.not_lt_zero i)

/-- `n` is the number of events. -/
theorem Valid.length_eq (h : Valid key s ms) : s.n = ms.length := by
  simpa using h.members.length_eq

/-- The events are the entries of the array. -/
theorem Valid.mem_iff (h : Valid key s ms) : e ∈ ms ↔ ∃ i < s.n, s.p.entry i = e := by
  rw [← h.members.mem_iff, List.mem_map]
  simp only [List.mem_range]

/-- No event has two entries. -/
theorem Valid.inj (h : Valid key s ms) (hi : i < s.n) (hj : j < s.n)
    (heq : s.p.entry i = s.p.entry j) : i = j := by
  have hpi := h.placed i hi
  rw [heq, h.placed j hj] at hpi
  exact (Option.some.inj hpi).symm

/-- An event in the heap knows its place, and one that is not has none. -/
theorem Valid.idx_iff (h : Valid key s ms) : s.idx e = some i ↔ i < s.n ∧ s.p.entry i = e := by
  constructor
  · intro hidx
    by_cases he : e ∈ ms
    · obtain ⟨j, hj, rfl⟩ := h.mem_iff.mp he
      obtain rfl : j = i := Option.some.inj ((h.placed j hj).symm.trans hidx)
      exact ⟨hj, rfl⟩
    · rw [h.absent e he] at hidx
      cases hidx
  · rintro ⟨hi, rfl⟩
    exact h.placed i hi

/-- `min_heap_idx` is -1 exactly for the events that are not in the heap. -/
theorem Valid.idx_isSome (h : Valid key s ms) : (s.idx e).isSome ↔ e ∈ ms := by
  rw [Option.isSome_iff_exists, h.mem_iff]
  simp only [h.idx_iff]

/-- The first event is one of the least. -/
theorem Valid.top (h : Valid key s ms) :
    (ms = [] ∧ s.top = .ok none) ∨
    (∃ e ∈ ms, s.top = .ok (some e) ∧ s.p.entry 0 = e ∧ ∀ x ∈ ms, key e ≤ key x) := by
  have hlen := h.length_eq
  have hspace := h.space
  unfold MinHeap.top
  by_cases hz : s.n = 0
  · rw [if_pos hz]
    exact .inl ⟨List.eq_nil_of_length_eq_zero (by omega), rfl⟩
  · rw [if_neg hz, Block.read_eq (by omega), ok_bind]
    refine .inr ⟨s.p.entry 0, h.mem_iff.mpr ⟨0, by omega, rfl⟩, rfl, rfl, ?_⟩
    intro x hx
    obtain ⟨i, hi, rfl⟩ := h.mem_iff.mp hx
    exact h.order.root_le hi

/-- Only the timeouts of the events in the heap matter. -/
theorem Valid.congr {key' : Nat → κ} (h : Valid key s ms) (hkey : ∀ x ∈ ms, key' x = key x) :
    Valid key' s ms where
  space := h.space
  members := h.members
  nodup := h.nodup
  placed := h.placed
  absent := h.absent
  order := h.order.congr fun i hi => hkey _ (h.mem_iff.mpr ⟨i, hi, rfl⟩)

/-- There is space for as many events as asked for. -/
theorem reserve_length (s : MinHeap) (n : Nat) :
    n ≤ (s.reserve n).p.length ∧ s.p.length ≤ (s.reserve n).p.length := by
  unfold reserve
  split
  · dsimp only
    split <;> split <;> omega
  · omega

/-- Making space changes nothing else. -/
theorem reserve_eq (s : MinHeap) (n : Nat) :
    (s.reserve n).n = s.n ∧ (s.reserve n).idx = s.idx ∧ (s.reserve n).p.entry = s.p.entry := by
  unfold reserve
  split <;> exact ⟨rfl, rfl, rfl⟩

/-- Making space keeps the heap. -/
theorem Valid.reserve (h : Valid key s ms) (n : Nat) : Valid key (s.reserve n) ms := by
  obtain ⟨hn, hidx, hentry⟩ := reserve_eq s n
  have hlen := (reserve_length s n).2
  have hspace := h.space
  constructor
  · omega
  · rw [hn, hentry]
    exact h.members
  · exact h.nodup
  · rw [hn, hentry, hidx]
    exact h.placed
  · rw [hidx]
    exact h.absent
  · rw [hn, hentry]
    exact h.order

/-- What is left by sifting is the heap of the events in the array it began with. -/
theorem Sifted.valid {g : Nat → Nat} (h : Sifted key s s.n g s') (hspace : s.n ≤ s.p.length)
    (hmembers : ((List.range s.n).map g).Perm ms) (hnodup : ms.Nodup)
    (habsent : ∀ x, x ∉ ms → s'.idx x = none) : Valid key s' ms where
  space := by
    rw [h.n, h.length]
    exact hspace
  members := by
    rw [h.n]
    have hp := h.moved.perm List.nodup_range fun i (hi : i < s.n) => List.mem_range.mpr hi
    exact hp.trans hmembers
  nodup := hnodup
  placed := by
    rw [h.n]
    exact h.placed
  absent := habsent
  order := by
    rw [h.n]
    exact h.heap

/-- `min_heap_push_` adds an event. -/
theorem push_valid (h : Valid key s ms) (he : e ∉ ms) :
    ∃ s', s.push key e = .ok s' ∧ Valid key s' (e :: ms) := by
  have hr := h.reserve (s.n + 1)
  have hn := (reserve_eq s (s.n + 1)).1
  have hspace := (reserve_length s (s.n + 1)).1
  unfold push
  generalize s.reserve (s.n + 1) = r at hr hn hspace
  rw [← hn] at hspace
  have hsift : Sifting { r with n := r.n + 1 } (r.n + 1) r.n e := by
    refine ⟨Nat.lt_succ_self _, hspace, ?_, ?_⟩
    · have hnew : ∀ k < r.n, r.p.entry k ≠ e := by
        intro k hk heq
        exact he (hr.mem_iff.mpr ⟨k, hk, heq⟩)
      intro a ha b hb hab
      unfold filled at hab
      by_cases haa : a = r.n
      · by_cases hbb : b = r.n
        · rw [haa, hbb]
        · rw [haa, Function.update_self, Function.update_of_ne hbb] at hab
          exact absurd hab.symm (hnew b (by omega))
      · by_cases hbb : b = r.n
        · rw [hbb, Function.update_self, Function.update_of_ne haa] at hab
          exact absurd hab (hnew a (by omega))
        · rw [Function.update_of_ne haa, Function.update_of_ne hbb] at hab
          exact hr.inj (by omega) (by omega) hab
    · intro i hi hne
      exact hr.placed i (by omega)
  obtain ⟨s', hrun, hs'⟩ := shiftUp_spec hsift (hr.order.upTo e) (Nat.lt_succ_self _)
  refine ⟨s', hrun, hs'.valid hspace ?_ (List.nodup_cons.mpr ⟨he, hr.nodup⟩) ?_⟩
  · show ((List.range (r.n + 1)).map (Function.update r.p.entry r.n e)).Perm (e :: ms)
    rw [range_succ_map_update]
    exact (List.perm_append_singleton _ _).trans (hr.members.cons e)
  · intro x hx
    rw [hs'.others x]
    · exact hr.absent x fun hmem => hx (List.mem_cons_of_mem _ hmem)
    · intro i hi
      rcases Nat.lt_succ_iff_lt_or_eq.mp hi with hlt | rfl
      · rw [filled_of_ne _ _ (by omega)]
        rintro rfl
        exact hx (List.mem_cons_of_mem _ (hr.mem_iff.mpr ⟨i, hlt, rfl⟩))
      · rw [filled_self]
        rintro rfl
        exact hx List.mem_cons_self

/-- The last entry is taken to the place of `e`. -/
theorem Valid.sifting (h : Valid key s ms) (hi : i + 1 < s.n) :
    Sifting { s with n := s.n - 1 } (s.n - 1) i (s.p.entry (s.n - 1)) := by
  have hspace := h.space
  refine ⟨by omega, by dsimp only; omega, ?_, ?_⟩
  · intro a ha b hb hab
    unfold filled at hab
    by_cases haa : a = i
    · by_cases hbb : b = i
      · rw [haa, hbb]
      · rw [haa, Function.update_self, Function.update_of_ne hbb] at hab
        have := h.inj (by omega) (by omega) hab
        omega
    · by_cases hbb : b = i
      · rw [hbb, Function.update_self, Function.update_of_ne haa] at hab
        have := h.inj (by omega) (by omega) hab
        omega
      · rw [Function.update_of_ne haa, Function.update_of_ne hbb] at hab
        exact h.inj (by omega) (by omega) hab
  · intro k hk _
    exact h.placed k (by omega)

/-- The heap without the event at `i`, once the last one has been sifted in its place. -/
theorem Sifted.without (h : Valid key s ms) (hi : i + 1 < s.n)
    (hs' : Sifted key { s with n := s.n - 1 } (s.n - 1)
      (filled { s with n := s.n - 1 } i (s.p.entry (s.n - 1))) s') :
    Valid key { s' with idx := Function.update s'.idx (s.p.entry i) none } (ms.erase (s.p.entry i)) := by
  have hspace := h.space
  have hmem : s.p.entry i ∈ ms := h.mem_iff.mpr ⟨i, by omega, rfl⟩
  have hperm : ((List.range (s.n - 1)).map (Function.update s.p.entry i (s.p.entry (s.n - 1)))).Perm
      (ms.erase (s.p.entry i)) := by
    have hswap := range_map_swap_last s.p.entry (i := i) (n := s.n - 1) (by omega)
    rw [show s.n - 1 + 1 = s.n by omega] at hswap
    exact ((hswap.symm.trans h.members).trans (List.perm_cons_erase hmem)).cons_inv
  have hnd := h.nodup.erase (s.p.entry i)
  have hgone : s.p.entry i ∉ ms.erase (s.p.entry i) := h.nodup.not_mem_erase
  -- the table of places is right for those that are left
  have hleft : ∀ x, x ∉ ms.erase (s.p.entry i) →
      Function.update s'.idx (s.p.entry i) none x = none := by
    intro x hx
    by_cases hxe : x = s.p.entry i
    · rw [hxe, Function.update_self]
    · have hno : x ∉ ms := fun hmem => hx ((List.mem_erase_of_ne hxe).mpr hmem)
      rw [Function.update_of_ne hxe, hs'.others x]
      · exact h.absent x hno
      · intro k hk heq
        have : x ∈ (List.range (s.n - 1)).map
            (Function.update s.p.entry i (s.p.entry (s.n - 1))) :=
          List.mem_map.mpr ⟨k, List.mem_range.mpr hk, heq⟩
        exact hx (hperm.mem_iff.mp this)
  have hp : ((List.range (s.n - 1)).map s'.p.entry).Perm (ms.erase (s.p.entry i)) :=
    (hs'.moved.perm List.nodup_range fun k (hk : k < s.n - 1) => List.mem_range.mpr hk).trans hperm
  constructor
  · show s'.n ≤ s'.p.length
    rw [hs'.n, hs'.length]
    show s.n - 1 ≤ s.p.length
    omega
  · show ((List.range s'.n).map s'.p.entry).Perm _
    rw [hs'.n]
    exact hp
  · exact hnd
  · intro k hk
    have hk : k < s.n - 1 := by
      have hk' : k < s'.n := hk
      rw [hs'.n] at hk'
      exact hk'
    have hne : s'.p.entry k ≠ s.p.entry i := by
      intro heq
      exact hgone (hp.mem_iff.mp (List.mem_map.mpr ⟨k, List.mem_range.mpr hk, heq⟩))
    show Function.update s'.idx (s.p.entry i) none (s'.p.entry k) = some k
    rw [Function.update_of_ne hne]
    exact hs'.placed k hk
  · exact hleft
  · show IsHeap key s'.n s'.p.entry
    rw [hs'.n]
    exact hs'.heap

/-- The heap without its last event. -/
theorem Valid.dropLast (h : Valid key s ms) (hpos : 0 < s.n) {s₁ : MinHeap}
    (hplace : place { s with n := s.n - 1 } (s.n - 1) (s.p.entry (s.n - 1)) = .ok s₁) :
    Valid key { s₁ with idx := Function.update s₁.idx (s.p.entry (s.n - 1)) none }
      (ms.erase (s.p.entry (s.n - 1))) := by
  have hspace := h.space
  rw [place_eq (by dsimp only; omega)] at hplace
  obtain rfl := Except.ok.inj hplace
  have hmem : s.p.entry (s.n - 1) ∈ ms := h.mem_iff.mpr ⟨s.n - 1, by omega, rfl⟩
  have hsame : Function.update s.p.entry (s.n - 1) (s.p.entry (s.n - 1)) = s.p.entry :=
    Function.update_eq_self ..
  have hperm : ((List.range (s.n - 1)).map s.p.entry).Perm (ms.erase (s.p.entry (s.n - 1))) := by
    have hlast := h.members
    rw [show s.n = s.n - 1 + 1 by omega, List.range_succ, List.map_append, List.map_singleton] at hlast
    exact (((List.perm_append_singleton _ _).symm.trans hlast).trans
      (List.perm_cons_erase hmem)).cons_inv
  dsimp only
  rw [hsame]
  constructor
  · show s.n - 1 ≤ s.p.length
    omega
  · exact hperm
  · exact h.nodup.erase _
  · intro k hk
    have hk : k < s.n - 1 := hk
    have hne : s.p.entry k ≠ s.p.entry (s.n - 1) := by
      intro heq
      have := h.inj (by omega) (by omega) heq
      omega
    dsimp only
    rw [Function.update_of_ne hne, Function.update_of_ne hne]
    exact h.placed k (by omega)
  · intro x hx
    dsimp only
    by_cases hxe : x = s.p.entry (s.n - 1)
    · rw [hxe, Function.update_self]
    · rw [Function.update_of_ne hxe, Function.update_of_ne hxe]
      exact h.absent x fun hmem => hx ((List.mem_erase_of_ne hxe).mpr hmem)
  · exact h.order.take (Nat.sub_le _ _)

/-- `min_heap_erase_` removes an event. -/
theorem erase_valid (h : Valid key s ms) (he : e ∈ ms) :
    ∃ s', s.erase key e = .ok (s', 0) ∧ Valid key s' (ms.erase e) := by
  have hspace := h.space
  obtain ⟨i, hi, rfl⟩ := h.mem_iff.mp he
  unfold erase
  rw [h.placed i hi]
  dsimp only
  rw [Block.read_eq (by omega), ok_bind]
  by_cases hlast : i + 1 < s.n
  · obtain ⟨s', hrun, hs'⟩ := shift_spec (s := { s with n := s.n - 1 }) (h.sifting hlast)
      ((h.order.take (Nat.sub_le _ 1)).heapBut i _)
    rw [hrun, ok_bind]
    exact ⟨_, rfl, hs'.without h hlast⟩
  · obtain rfl : i = s.n - 1 := by omega
    have hplace := place_eq (s := { s with n := s.n - 1 }) (i := s.n - 1) (by dsimp only; omega)
      (s.p.entry (s.n - 1))
    have hdown : shiftDown key (s.p.entry (s.n - 1)) (s.n - 1 + 1) { s with n := s.n - 1 } (s.n - 1) =
        place { s with n := s.n - 1 } (s.n - 1) (s.p.entry (s.n - 1)) := by
      rw [shiftDown, if_neg (by dsimp only; omega)]
    have hrun : shift key (s.p.entry (s.n - 1)) { s with n := s.n - 1 } (s.n - 1) =
        place { s with n := s.n - 1 } (s.n - 1) (s.p.entry (s.n - 1)) := by
      unfold shift
      split
      · rename_i hpos
        rw [Block.read_eq (by dsimp only; omega), ok_bind, if_neg (not_lt.mpr (h.order _ hpos hi))]
        exact hdown
      · exact hdown
    rw [hrun, hplace, ok_bind]
    exact ⟨_, rfl, h.dropLast (by omega) hplace⟩

/-- `min_heap_erase_` fails if the event is not in the heap. -/
theorem erase_absent (h : Valid key s ms) (he : e ∉ ms) : s.erase key e = .ok (s, -1) := by
  unfold erase
  rw [h.absent e he]

/-- One of the least is taken out. -/
theorem pop_valid (h : Valid key s ms) :
    (ms = [] ∧ s.pop key = .ok (s, none)) ∨
    ∃ e ∈ ms, (∀ x ∈ ms, key e ≤ key x) ∧
      ∃ s', s.pop key = .ok (s', some e) ∧ Valid key s' (ms.erase e) := by
  have hspace := h.space
  have hlen := h.length_eq
  by_cases hz : s.n = 0
  · refine .inl ⟨List.eq_nil_of_length_eq_zero (by omega), ?_⟩
    rw [pop, if_neg (by simpa using hz)]
  · refine .inr ⟨s.p.entry 0, h.mem_iff.mpr ⟨0, by omega, rfl⟩, ?_, ?_⟩
    · intro x hx
      obtain ⟨i, hi, rfl⟩ := h.mem_iff.mp hx
      exact h.order.root_le hi
    · unfold pop
      rw [if_pos hz, Block.read_eq (by omega), ok_bind, Block.read_eq (by omega), ok_bind]
      by_cases hone : s.n = 1
      · have hplace := place_eq (s := { s with n := s.n - 1 }) (i := s.n - 1) (by dsimp only; omega)
          (s.p.entry (s.n - 1))
        have hvalid := h.dropLast (by omega) hplace
        have hdown : shiftDown key (s.p.entry (s.n - 1)) s.n { s with n := s.n - 1 } (s.n - 1) =
            place { s with n := s.n - 1 } (s.n - 1) (s.p.entry (s.n - 1)) := by
          obtain ⟨k, hk⟩ : ∃ k, s.n = k + 1 := ⟨s.n - 1, by omega⟩
          rw [hk, shiftDown, if_neg (by dsimp only; omega)]
        have hzero : s.n - 1 = 0 := by omega
        rw [hzero] at hdown hplace hvalid ⊢
        rw [hdown, hplace, ok_bind]
        exact ⟨_, rfl, hvalid⟩
      · obtain ⟨s', hrun, hs'⟩ := shiftDown_spec (s := { s with n := s.n - 1 })
          (h.sifting (i := 0) (by omega))
          (((h.order.take (Nat.sub_le _ 1)).heapBut 0 _).downFrom fun hpos => absurd hpos (by omega))
          (show s.n - 1 - 0 < s.n by omega)
        rw [hrun, ok_bind]
        exact ⟨_, rfl, hs'.without h (by omega)⟩

/-- An event whose timeout has changed finds its new place. -/
theorem adjust_valid (h : Valid key s ms) (key' : Nat → κ) (hkey : ∀ x, x ≠ e → key' x = key x)
    (he : e ∈ ms) : ∃ s', s.adjust key' e = .ok s' ∧ Valid key' s' ms := by
  obtain ⟨i, hi, rfl⟩ := h.mem_iff.mp he
  have hfilled : s.filled i (s.p.entry i) = s.p.entry := Function.update_eq_self ..
  have hother : ∀ k < s.n, k ≠ i → key' (s.p.entry k) = key (s.p.entry k) := by
    intro k hk hne
    exact hkey _ fun heq => hne (h.inj hk hi heq)
  have hsift : Sifting s s.n i (s.p.entry i) := by
    refine ⟨hi, h.space, ?_, fun k hk _ => h.placed k hk⟩
    intro a ha b hb hab
    rw [hfilled] at hab
    exact h.inj ha hb hab
  have hbut : HeapBut key' i s.n (s.filled i (s.p.entry i)) := by
    rw [hfilled]
    constructor
    · intro k hk hkn hki hpi
      rw [hother k hkn hki, hother _ (by omega) hpi]
      exact h.order k hk hkn
    · intro k hk hkn hpi hpos
      rw [hother k hkn (by omega), hother _ (by omega) (by omega)]
      have hup := h.order i hpos hi
      have hdown := h.order k hk hkn
      rw [hpi] at hdown
      exact hup.trans hdown
  obtain ⟨s', hrun, hs'⟩ := shift_spec hsift hbut
  unfold adjust
  rw [h.placed i hi]
  refine ⟨s', hrun, hs'.valid h.space ?_ h.nodup ?_⟩
  · rw [hfilled]
    exact h.members
  · intro x hx
    rw [hs'.others x]
    · exact h.absent x hx
    · rw [hfilled]
      intro k hk heq
      exact hx (h.mem_iff.mpr ⟨k, hk, heq⟩)

/-- `min_heap_adjust_` adds an event that is not in the heap. -/
theorem adjust_absent (h : Valid key s ms) (he : e ∉ ms) :
    ∃ s', s.adjust key e = .ok s' ∧ Valid key s' (e :: ms) := by
  unfold adjust
  rw [h.absent e he]
  exact push_valid h he

end MinHeap

end LinuxServer.Libevent
