import LinuxServer.Heap.Basic
import LinuxServer.Library.BinaryHeap

/-!
# What the operations of the time heap do

`Valid h ms` says that the array is a well-formed heap of exactly the timers `ms`, in some order. The
two percolation loops are the sifting functions of the library, run on the array as a whole; from
there each operation gets one lemma, which says that it returns, how it changes `ms`, and which cells
it touches.
-/

namespace LinuxServer.Heap

open Library

/-- The expiry a pointer stands for. -/
def expireOf (mem : Mem HeapTimer) (q : Option Ptr) : Int :=
  match q.bind mem.cells with
  | none => 0
  | some t => t.expire

structure Valid (h : TimeHeap) (ms : List Ptr) : Prop where
  length : h.array.length = h.capacity
  pos : 0 < h.capacity
  size : h.curSize ≤ h.capacity
  members : ((List.range h.curSize).map h.array.entry).Perm (ms.map some)
  nodup : ms.Nodup
  live : ∀ p ∈ ms, h.mem.cells p ≠ none
  order : IsHeap (expireOf h.mem) h.curSize h.array.entry

variable {h : TimeHeap} {ms : List Ptr} {p q : Ptr} {t : HeapTimer} {i hole fuel : Nat}

/-- Replacing the entries of the array. -/
def TimeHeap.withEntry (h : TimeHeap) (f : Nat → Option Ptr) : TimeHeap :=
  { h with array := { h.array with entry := f } }

/-- The expiry time of a timer that exists. -/
theorem expireOf_some {mem : Mem HeapTimer} (hp : mem.cells p = some t) :
    expireOf mem (some p) = t.expire := by
  simp [expireOf, hp]

/-- Freeing or cancelling another timer does not change an expiry. -/
theorem expireOf_set_ne (mem : Mem HeapTimer) (c : Option HeapTimer) (hne : p ≠ q) :
    expireOf (mem.set q c) (some p) = expireOf mem (some p) := by
  simp [expireOf, Mem.cells_set_ne _ _ hne]

/-! ## Percolation -/

/-- Slot `i` holds a timer that has not been freed. -/
def TimeHeap.LiveAt (h : TimeHeap) (i : Nat) : Prop :=
  ∃ p t, h.array.entry i = some p ∧ h.mem.cells p = some t

/-- Reading the expiry time at an index. -/
theorem expireAt_eq (hi : i < h.array.length) (hl : h.LiveAt i) :
    h.expireAt i = .ok (expireOf h.mem (h.array.entry i)) := by
  obtain ⟨p, t, hp, ht⟩ := hl
  unfold TimeHeap.expireAt
  rw [Block.read_eq hi, ok_bind, hp, Mem.deref_eq ht, ok_bind, expireOf_some ht]
  rfl

/-- After the hole has moved, the slots are still live: one of them is just held twice. -/
theorem TimeHeap.LiveAt.move {j : Nat} (hi : h.LiveAt i) (hj : h.LiveAt j) (hole : Nat) :
    (h.withEntry (Function.update h.array.entry hole (h.array.entry j))).LiveAt i := by
  by_cases hih : i = hole
  · obtain ⟨p, t, hp, ht⟩ := hj
    exact ⟨p, t, by simp [TimeHeap.withEntry, hih, hp], ht⟩
  · obtain ⟨p, t, hp, ht⟩ := hi
    exact ⟨p, t, by simp [TimeHeap.withEntry, hih, hp], ht⟩

/-- `percolate_down` goes on with the smaller child. -/
theorem pickChild_eq (hc : hole * 2 + 1 < h.curSize) (hlen : h.curSize ≤ h.array.length)
    (hl : ∀ i < h.curSize, h.LiveAt i) :
    h.pickChild hole = .ok (smallerChild (expireOf h.mem) h.curSize h.array.entry hole) := by
  unfold TimeHeap.pickChild smallerChild
  dsimp only
  by_cases hr : hole * 2 + 1 + 1 < h.curSize
  · rw [if_pos hr, expireAt_eq (by omega) (hl _ hr), ok_bind, expireAt_eq (by omega) (hl _ hc),
      ok_bind]
    by_cases hlt : expireOf h.mem (h.array.entry (hole * 2 + 1 + 1)) <
        expireOf h.mem (h.array.entry (hole * 2 + 1))
    · rw [if_pos hlt, if_pos ⟨hr, hlt⟩]
      rfl
    · rw [if_neg hlt, if_neg (fun h => hlt h.2)]
      rfl
  · rw [if_neg hr, if_neg (fun h => hr h.1)]
    rfl

/-- The loop of `percolate_down` is `siftDown`. -/
theorem percolateDownLoop_eq (temp : Option Ptr) (hlen : h.curSize ≤ h.array.length)
    (hl : ∀ i < h.curSize, h.LiveAt i)
    (htemp : 0 < h.curSize → ∃ p t, temp = some p ∧ h.mem.cells p = some t)
    (hhole : hole < h.array.length) (hfuel : h.curSize - hole < fuel) :
    ∃ f hole', TimeHeap.percolateDownLoop temp fuel h hole = .ok (h.withEntry f, hole') ∧
      hole' < h.array.length ∧
      Function.update f hole' temp =
        siftDown (expireOf h.mem) h.curSize temp h.array.entry hole := by
  induction fuel generalizing h hole with
  | zero => omega
  | succ fuel ih =>
      unfold TimeHeap.percolateDownLoop siftDown
      by_cases hc : hole * 2 + 1 < h.curSize
      · obtain ⟨h₁, h₂, -, -⟩ :=
          smallerChild_spec (expireOf h.mem) h.curSize h.array.entry hc
        rw [if_pos hc, if_pos hc, pickChild_eq hc hlen hl, ok_bind]
        generalize smallerChild (expireOf h.mem) h.curSize h.array.entry hole = c at h₁ h₂ ⊢
        obtain ⟨p, t, rfl, ht⟩ := htemp (by omega)
        rw [expireAt_eq (by omega) (hl c h₂), ok_bind, Mem.deref_eq ht, ok_bind, expireOf_some ht]
        by_cases hlt : expireOf h.mem (h.array.entry c) < t.expire
        · rw [if_pos hlt, if_pos hlt, Block.read_eq (by omega), ok_bind, Block.write_eq hhole,
            ok_bind]
          exact ih (h := h.withEntry (Function.update h.array.entry hole (h.array.entry c)))
            hlen (fun i hi => (hl i hi).move (hl c h₂) hole) htemp (by
              show c < h.array.length
              omega) (by
              show h.curSize - c < fuel
              omega)
        · rw [if_neg hlt, if_neg hlt]
          exact ⟨h.array.entry, hole, rfl, hhole, rfl⟩
      · rw [if_neg hc, if_neg hc]
        exact ⟨h.array.entry, hole, rfl, hhole, rfl⟩

/-- `percolate_down` is `siftDown` of the entry at the hole. -/
theorem percolateDown_eq (hlen : h.curSize ≤ h.array.length) (hl : ∀ i < h.curSize, h.LiveAt i)
    (hhole : hole < h.array.length) (hin : 0 < h.curSize → hole < h.curSize) :
    h.percolateDown hole = .ok (h.withEntry
      (siftDown (expireOf h.mem) h.curSize (h.array.entry hole) h.array.entry hole)) := by
  obtain ⟨f, hole', hloop, hhole', hf⟩ := percolateDownLoop_eq (h.array.entry hole) hlen hl
    (fun hpos => hl hole (hin hpos)) hhole (show h.curSize - hole < h.curSize + 1 by omega)
  unfold TimeHeap.percolateDown
  rw [Block.read_eq hhole, ok_bind, hloop, ok_bind]
  dsimp only
  rw [Block.write_eq (b := (h.withEntry f).array) hhole', ok_bind, ← hf]
  rfl

/-- The loop of `add_timer` is `siftUp`. -/
theorem percolateUpLoop_eq (ht : h.mem.cells p = some t) (hhole : hole < h.array.length)
    (hl : ∀ i < hole, h.LiveAt i) (hfuel : hole < fuel) :
    ∃ f hole', TimeHeap.percolateUpLoop p fuel h hole = .ok (h.withEntry f, hole') ∧
      hole' < h.array.length ∧
      Function.update f hole' (some p) = siftUp (expireOf h.mem) (some p) h.array.entry hole := by
  induction fuel generalizing h hole with
  | zero => omega
  | succ fuel ih =>
      unfold TimeHeap.percolateUpLoop siftUp
      by_cases hpos : 0 < hole
      · have hpar : (hole - 1) / 2 < hole := by omega
        rw [if_pos hpos, if_pos hpos]
        dsimp only
        rw [expireAt_eq (by omega) (hl _ hpar), ok_bind, Mem.deref_eq ht, ok_bind, expireOf_some ht]
        by_cases hle : expireOf h.mem (h.array.entry ((hole - 1) / 2)) ≤ t.expire
        · rw [if_pos hle, if_pos hle]
          exact ⟨h.array.entry, hole, rfl, hhole, rfl⟩
        · rw [if_neg hle, if_neg hle, Block.read_eq (by omega), ok_bind, Block.write_eq hhole,
            ok_bind]
          exact ih (h := h.withEntry
            (Function.update h.array.entry hole (h.array.entry ((hole - 1) / 2)))) ht (by
              show (hole - 1) / 2 < h.array.length
              omega)
            (fun i hi => (hl i (by omega)).move (hl _ hpar) hole) (by omega)
      · rw [if_neg hpos, if_neg hpos]
        exact ⟨h.array.entry, hole, rfl, hhole, rfl⟩

/-! ## The slots of a valid heap -/

theorem Valid.perm {ms' : List Ptr} (hv : Valid h ms) (hp : ms.Perm ms') : Valid h ms' where
  length := hv.length
  pos := hv.pos
  size := hv.size
  members := hv.members.trans (hp.map some)
  nodup := hp.nodup_iff.mp hv.nodup
  live := fun p hp' => hv.live p (hp.mem_iff.mpr hp')
  order := hv.order

/-- A new heap holds no timers. -/
theorem Valid.make {cap : Nat} (hcap : 0 < cap) : Valid (TimeHeap.make cap) [] where
  length := rfl
  pos := hcap
  size := Nat.zero_le _
  members := List.Perm.refl _
  nodup := List.nodup_nil
  live := by
    intro p hp
    cases hp
  order := by
    intro i _ hi
    exact absurd hi (Nat.not_lt_zero i)

/-- `cur_size` is the number of timers. -/
theorem Valid.length_eq (hv : Valid h ms) : h.curSize = ms.length := by
  simpa using hv.members.length_eq

theorem Valid.curSize_pos (hv : Valid h ms) (hp : p ∈ ms) : 0 < h.curSize := by
  rw [hv.length_eq]
  exact List.length_pos_of_mem hp

/-- Each slot below `cur_size` holds a member. -/
theorem Valid.slot (hv : Valid h ms) (hi : i < h.curSize) :
    ∃ p ∈ ms, h.array.entry i = some p := by
  have hmem : h.array.entry i ∈ (List.range h.curSize).map h.array.entry :=
    List.mem_map_of_mem (List.mem_range.mpr hi)
  obtain ⟨p, hp, heq⟩ := List.mem_map.mp (hv.members.mem_iff.mp hmem)
  exact ⟨p, hp, heq.symm⟩

/-- Every entry below `cur_size` points at a timer. -/
theorem Valid.liveAt (hv : Valid h ms) : ∀ i < h.curSize, h.LiveAt i := by
  intro i hi
  obtain ⟨p, hp, heq⟩ := hv.slot hi
  obtain ⟨t, ht⟩ := Option.ne_none_iff_exists'.mp (hv.live p hp)
  exact ⟨p, t, heq, ht⟩

/-- Each member sits in some slot. -/
theorem Valid.slot_of_mem (hv : Valid h ms) (hp : p ∈ ms) :
    ∃ i < h.curSize, h.array.entry i = some p := by
  have hmem : some p ∈ ms.map some := List.mem_map_of_mem hp
  obtain ⟨i, hi, heq⟩ := List.mem_map.mp (hv.members.mem_iff.mpr hmem)
  exact ⟨i, List.mem_range.mp hi, heq⟩

/-- No timer has two entries. -/
theorem Valid.entry_inj (hv : Valid h ms) {j : Nat} (hi : i < h.curSize) (hj : j < h.curSize)
    (heq : h.array.entry i = h.array.entry j) : i = j := by
  have hnd : ((List.range h.curSize).map h.array.entry).Nodup :=
    hv.members.nodup_iff.mpr (hv.nodup.map (Option.some_injective _))
  exact List.inj_on_of_nodup_map hnd (List.mem_range.mpr hi) (List.mem_range.mpr hj) heq

/-- The root expires first. -/
theorem Valid.root_le (hv : Valid h ms) (hp : p ∈ ms) :
    expireOf h.mem (h.array.entry 0) ≤ expireOf h.mem (some p) := by
  obtain ⟨i, hi, heq⟩ := hv.slot_of_mem hp
  rw [← heq]
  exact hv.order.root_le hi

/-- A change of memory that spares the members and their expiries. -/
theorem Valid.of_mem (hv : Valid h ms) {mem : Mem HeapTimer}
    (hlive : ∀ p ∈ ms, mem.cells p ≠ none)
    (hexp : ∀ p ∈ ms, expireOf mem (some p) = expireOf h.mem (some p)) :
    Valid { h with mem := mem } ms where
  length := hv.length
  pos := hv.pos
  size := hv.size
  members := hv.members
  nodup := hv.nodup
  live := hlive
  order := by
    apply hv.order.congr
    intro i hi
    obtain ⟨p, hp, heq⟩ := hv.slot hi
    rw [heq]
    exact hexp p hp

/-! ## Adding -/

/-- The loop that copies entries from one array to another. -/
theorem copyLoop_eq {array temp : Block (Option Ptr)} {is : List Nat}
    (hin : ∀ i ∈ is, i < array.length ∧ i < temp.length) :
    TimeHeap.copyLoop array is temp = .ok { temp with
      entry := fun j => if j ∈ is then array.entry j else temp.entry j } := by
  induction is generalizing temp with
  | nil => simp [TimeHeap.copyLoop]
  | cons i is ih =>
      obtain ⟨h₁, h₂⟩ := hin i List.mem_cons_self
      have htail : ∀ j ∈ is, j < array.length ∧
          j < (Block.mk temp.length (Function.update temp.entry i (array.entry i))).length :=
        fun j hj => hin j (List.mem_cons_of_mem _ hj)
      rw [TimeHeap.copyLoop, Block.read_eq h₁, ok_bind, Block.write_eq h₂, ok_bind, ih htail]
      congr 2
      funext j
      by_cases hj : j ∈ is
      · simp [hj]
      · by_cases hji : j = i
        · simp [hji]
        · simp [hj, hji]

/-- `resize` doubles the capacity and keeps the timers. -/
theorem resize_valid (hv : Valid h ms) :
    ∃ h', h.resize = .ok h' ∧ Valid h' ms ∧ h'.mem = h.mem ∧ h'.capacity = 2 * h.capacity := by
  have hlen := hv.length
  have hsize := hv.size
  unfold TimeHeap.resize
  rw [copyLoop_eq, ok_bind]
  · refine ⟨_, rfl, ?_, rfl, rfl⟩
    have hentry : ∀ i < h.curSize, (if i ∈ List.range h.curSize then h.array.entry i
        else (Block.fill (2 * h.capacity) none).entry i) = h.array.entry i := by
      intro i hi
      rw [if_pos (List.mem_range.mpr hi)]
    exact {
      length := rfl
      pos := by
        have := hv.pos
        show 0 < 2 * h.capacity
        omega
      size := by
        show h.curSize ≤ 2 * h.capacity
        omega
      members := by
        show (List.map _ (List.range h.curSize)).Perm _
        rw [List.map_congr_left (fun i hi => hentry i (List.mem_range.mp hi))]
        exact hv.members
      nodup := hv.nodup
      live := hv.live
      order := hv.order.congr (fun i hi => congrArg _ (hentry i hi)) }
  · intro i hi
    have hi := List.mem_range.mp hi
    show i < h.array.length ∧ i < 2 * h.capacity
    omega

/-- Before the insertion there is room for one more timer. -/
theorem grow_valid (hv : Valid h ms) :
    ∃ h', h.grow = .ok h' ∧ Valid h' ms ∧ h'.mem = h.mem ∧ h'.curSize < h'.capacity := by
  unfold TimeHeap.grow
  by_cases hfull : h.curSize ≥ h.capacity
  · obtain ⟨h', heq, hv', hmem, hcap⟩ := resize_valid hv
    refine ⟨h', by rw [if_pos hfull, heq], hv', hmem, ?_⟩
    have := hv.pos
    have := hv.size
    rw [hv'.length_eq, ← hv.length_eq, hcap]
    omega
  · exact ⟨h, if_neg hfull, hv, rfl, by omega⟩

/-- `add_timer` puts the timer into the heap. -/
theorem addTimer_valid (hv : Valid h ms) (hp : p ∉ ms) (hlive : h.mem.cells p ≠ none) :
    ∃ h', h.addTimer (some p) = .ok h' ∧ Valid h' (p :: ms) ∧ h'.mem = h.mem := by
  obtain ⟨h₁, hgrow, hv₁, hmem₁, hroom⟩ := grow_valid hv
  rw [← hmem₁] at hlive
  obtain ⟨t, ht⟩ := Option.ne_none_iff_exists'.mp hlive
  have hlen := hv₁.length
  -- the loop moves entries down, and the timer is written last
  obtain ⟨f, hole', hloop, hhole', hf⟩ :=
    percolateUpLoop_eq (h := { h₁ with curSize := h₁.curSize + 1 }) ht
      (show h₁.curSize < h₁.array.length by omega) hv₁.liveAt (Nat.lt_succ_self h₁.curSize)
  refine ⟨({ h₁ with curSize := h₁.curSize + 1 } : TimeHeap).withEntry
    (siftUp (expireOf h₁.mem) (some p) h₁.array.entry h₁.curSize), ?_, ?_, hmem₁⟩
  · unfold TimeHeap.addTimer
    dsimp only
    rw [hgrow, ok_bind, hloop, ok_bind]
    dsimp only
    rw [Block.write_eq (b := (TimeHeap.withEntry _ f).array) hhole', ok_bind]
    show Except.ok (TimeHeap.withEntry _ (Function.update f hole' (some p))) = _
    rw [hf]
    rfl
  · exact {
      length := hlen
      pos := hv₁.pos
      size := hroom
      members := by
        have hperm := (siftUp_rearranged (expireOf h₁.mem) (f := h₁.array.entry)
          (x := some p) (Nat.lt_succ_self h₁.curSize)).perm List.nodup_range
          (fun i hi => List.mem_range.mpr hi)
        rw [range_succ_map_update] at hperm
        exact (hperm.trans (hv₁.members.append_right _)).trans (List.perm_append_singleton _ _)
      nodup := List.nodup_cons.mpr ⟨hp, hv₁.nodup⟩
      live := by
        intro q hq
        rcases List.mem_cons.mp hq with rfl | hq
        · exact hlive
        · exact hv₁.live q hq
      order := siftUp_heap (Nat.lt_succ_self h₁.curSize) (hv₁.order.upTo (some p)) }

/-! ## Cancelling -/

/-- `del_timer` only clears the callback. -/
theorem delTimer_valid (hv : Valid h ms) (ht : h.mem.cells p = some t) :
    ∃ h', h.delTimer (some p) = .ok h' ∧ Valid h' ms ∧
      h'.mem = h.mem.set p (some { t with cbFunc := none }) := by
  unfold TimeHeap.delTimer
  dsimp only
  rw [Mem.modify_eq ht, ok_bind]
  refine ⟨_, rfl, hv.of_mem ?_ ?_, rfl⟩
  · intro q hq
    by_cases hqp : q = p
    · simp [hqp]
    · rw [Mem.cells_set_ne _ _ hqp]
      exact hv.live q hq
  · intro q _
    by_cases hqp : q = p
    · subst hqp
      rw [expireOf_some (Mem.cells_set_self _ _ _), expireOf_some ht]
    · exact expireOf_set_ne _ _ hqp

/-! ## Removing the root -/

/-- `top` is a timer that expires first. -/
theorem top_valid (hv : Valid h ms) :
    (ms = [] ∧ h.top = .ok none) ∨
      ∃ p ∈ ms, h.top = .ok (some p) ∧ h.array.entry 0 = some p ∧
        ∀ q ∈ ms, expireOf h.mem (some p) ≤ expireOf h.mem (some q) := by
  have hlen := hv.length_eq
  unfold TimeHeap.top TimeHeap.empty
  cases ms with
  | nil =>
      left
      exact ⟨rfl, by rw [hlen]; rfl⟩
  | cons q ms =>
      right
      have hpos : 0 < h.curSize := by
        rw [hlen]
        exact Nat.succ_pos _
      obtain ⟨p, hp, heq⟩ := hv.slot hpos
      refine ⟨p, hp, ?_, heq, ?_⟩
      · rw [if_neg (by simp; omega), Block.read_eq (by rw [hv.length]; exact hv.pos), heq]
      · intro q hq
        rw [← heq]
        exact hv.root_le hq

/-- `pop_timer` does nothing to an empty heap. -/
theorem popTimer_nil (hv : Valid h []) : h.popTimer = .ok (h, []) := by
  have hzero : h.curSize = 0 := hv.length_eq
  unfold TimeHeap.popTimer TimeHeap.empty
  simp [hzero]

/-- The object before `pop_timer` percolates: the root is freed, and the last slot copied over it. -/
def TimeHeap.cutRoot (h : TimeHeap) (p : Ptr) : TimeHeap :=
  { mem := h.mem.set p none
    array := { h.array with
      entry := Function.update h.array.entry 0 (h.array.entry (h.curSize - 1)) }
    capacity := h.capacity
    curSize := h.curSize - 1 }

section CutRoot
variable (hv : Valid h ms) (hp : p ∈ ms) (hroot : h.array.entry 0 = some p)
include hv hp hroot

/-- Without the root the other timers are left. -/
theorem cutRoot_members : ((List.range (h.cutRoot p).curSize).map (h.cutRoot p).array.entry).Perm
    ((ms.erase p).map some) := by
  have hpos := hv.curSize_pos hp
  have hall := hv.members.trans ((List.perm_cons_erase hp).map some)
  have hsplit := range_map_swap_last h.array.entry (Nat.zero_le (h.curSize - 1))
  rw [Nat.sub_add_cancel hpos, hroot] at hsplit
  exact (hsplit.symm.trans hall).cons_inv

/-- An entry that is left is that of another timer. -/
theorem cutRoot_slot (hi : i < (h.cutRoot p).curSize) :
    ∃ q ∈ ms, q ≠ p ∧ (h.cutRoot p).array.entry i = some q := by
  have hmem : (h.cutRoot p).array.entry i ∈
      (List.range (h.cutRoot p).curSize).map (h.cutRoot p).array.entry :=
    List.mem_map_of_mem (List.mem_range.mpr hi)
  obtain ⟨q, hq, heq⟩ :=
    List.mem_map.mp ((cutRoot_members hv hp hroot).mem_iff.mp hmem)
  obtain ⟨hne, hq⟩ := (hv.nodup.mem_erase_iff).mp hq
  exact ⟨q, hq, hne, heq.symm⟩

theorem cutRoot_liveAt (hi : i < (h.cutRoot p).curSize) : (h.cutRoot p).LiveAt i := by
  obtain ⟨q, hq, hne, heq⟩ := cutRoot_slot hv hp hroot hi
  obtain ⟨t, ht⟩ := Option.ne_none_iff_exists'.mp (hv.live q hq)
  exact ⟨q, t, heq, (Mem.cells_set_ne _ _ hne).trans ht⟩

/-- Only the new root may be out of order. -/
theorem cutRoot_downFrom :
    DownFrom (expireOf (h.cutRoot p).mem) 0 0 (h.cutRoot p).curSize (h.cutRoot p).array.entry := by
  have hbefore := (hv.order.take (Nat.sub_le h.curSize 1)).downFrom
    (h.array.entry (h.curSize - 1))
  apply hbefore.congr
  intro i hi
  obtain ⟨q, -, hne, heq⟩ := cutRoot_slot hv hp hroot hi
  show expireOf _ ((h.cutRoot p).array.entry i) = expireOf h.mem ((h.cutRoot p).array.entry i)
  rw [heq]
  exact expireOf_set_ne _ _ hne

/-- The heap without its root is put in order again. -/
theorem cutRoot_percolateDown : (h.cutRoot p).percolateDown 0 = .ok ((h.cutRoot p).withEntry
    (siftDown (expireOf (h.cutRoot p).mem) (h.cutRoot p).curSize ((h.cutRoot p).array.entry 0)
      (h.cutRoot p).array.entry 0)) := by
  have hlen := hv.length
  have hsize := hv.size
  have hcap := hv.pos
  apply percolateDown_eq
  · show h.curSize - 1 ≤ h.array.length
    omega
  · intro i hi
    exact cutRoot_liveAt hv hp hroot hi
  · show 0 < h.array.length
    omega
  · exact id

/-- `pop_timer` removes the first timer and deletes it. -/
theorem popTimer_valid :
    ∃ h', h.popTimer = .ok (h', [p]) ∧ Valid h' (ms.erase p) ∧ h'.mem = h.mem.set p none := by
  obtain ⟨t, ht⟩ := Option.ne_none_iff_exists'.mp (hv.live p hp)
  have hlen := hv.length
  have hcap := hv.pos
  have hsize := hv.size
  have hpos := hv.curSize_pos hp
  have hsame : Function.update (h.cutRoot p).array.entry 0 ((h.cutRoot p).array.entry 0) =
      (h.cutRoot p).array.entry := Function.update_eq_self _ _
  refine ⟨(h.cutRoot p).withEntry (siftDown (expireOf (h.cutRoot p).mem) (h.cutRoot p).curSize
    ((h.cutRoot p).array.entry 0) (h.cutRoot p).array.entry 0), ?_, ?_, rfl⟩
  · unfold TimeHeap.popTimer TimeHeap.empty
    rw [if_neg (by simp; omega), Block.read_eq (by omega), ok_bind, hroot]
    dsimp only
    rw [Mem.delete_eq ht, ok_bind, Block.read_eq (by omega), ok_bind, Block.write_eq (by omega),
      ok_bind]
    show (h.cutRoot p).percolateDown 0 >>= _ = _
    rw [cutRoot_percolateDown hv hp hroot, ok_bind]
    rfl
  · exact {
      length := hlen
      pos := hcap
      size := by
        show h.curSize - 1 ≤ h.capacity
        omega
      members := by
        apply List.Perm.trans _ (cutRoot_members hv hp hroot)
        -- with nothing left, `percolate_down` writes to slot 0, which is no longer in use
        by_cases hzero : (h.cutRoot p).curSize = 0
        · show ((List.range (h.cutRoot p).curSize).map _).Perm _
          rw [hzero]
          exact List.Perm.refl _
        · have hmoved := siftDown_rearranged (expireOf (h.cutRoot p).mem)
            (x := (h.cutRoot p).array.entry 0) (f := (h.cutRoot p).array.entry)
            (descends_zero 0) (Nat.pos_of_ne_zero hzero)
          rw [hsame] at hmoved
          exact hmoved.perm List.nodup_range (fun i hi => List.mem_range.mpr hi.2)
      nodup := hv.nodup.erase p
      live := by
        intro q hq
        obtain ⟨hne, hq⟩ := (hv.nodup.mem_erase_iff).mp hq
        show (h.mem.set p none).cells q ≠ none
        rw [Mem.cells_set_ne _ _ hne]
        exact hv.live q hq
      order := by
        apply IsHeapBelow.isHeap
        apply siftDown_heap (descends_zero 0)
        rw [hsame]
        exact cutRoot_downFrom hv hp hroot }

end CutRoot

/-! ## Ticking -/

/-- The call a timer gets when it expires; a cancelled one gets none. -/
def callOf (mem : Mem HeapTimer) (p : Ptr) : Option Call :=
  (mem.cells p).bind fun t => t.cbFunc.map fun cb =>
    { timer := p, cbFunc := cb, userData := t.userData }

def isDue (mem : Mem HeapTimer) (cur : Int) (p : Ptr) : Bool := expireOf mem (some p) ≤ cur

/-- A tick at `cur`, told by the timers it removes: those that are due, earliest first. -/
structure Ticked (h : TimeHeap) (ms : List Ptr) (cur : Int) (h' : TimeHeap) (r : Report) :
    Prop where
  valid : Valid h' (ms.filter (!isDue h.mem cur ·))
  freed : r.freed.Perm (ms.filter (isDue h.mem cur))
  sorted : r.freed.Pairwise fun p q => expireOf h.mem (some p) ≤ expireOf h.mem (some q)
  calls : r.calls = r.freed.filterMap (callOf h.mem)
  cells : ∀ q, h'.mem.cells q = if q ∈ r.freed then none else h.mem.cells q

/-- The callback of the first timer is called unless it was cleared. -/
theorem fire_eq (hv : Valid h ms) (hp : p ∈ ms) (hroot : h.array.entry 0 = some p) :
    h.fire = .ok (callOf h.mem p).toList := by
  obtain ⟨t, ht⟩ := Option.ne_none_iff_exists'.mp (hv.live p hp)
  unfold TimeHeap.fire callOf
  rw [Block.read_eq (by rw [hv.length]; exact hv.pos), ok_bind, hroot]
  dsimp only
  rw [Mem.deref_eq ht, ok_bind, ht]
  cases hcb : t.cbFunc with
  | none => simp [hcb]
  | some cb => simp [hcb]

/-- Nothing is due when the root is not. -/
theorem Ticked.rest (hv : Valid h ms) {cur : Int} (hlate : ∀ q ∈ ms, ¬ expireOf h.mem (some q) ≤ cur) :
    Ticked h ms cur h { calls := [], freed := [] } where
  valid := by
    rw [List.filter_eq_self.mpr]
    · exact hv
    · intro q hq
      simpa [isDue] using hlate q hq
  freed := by
    rw [List.filter_eq_nil_iff.mpr]
    intro q hq
    simpa [isDue] using hlate q hq
  sorted := List.Pairwise.nil
  calls := rfl
  cells := fun q => rfl

/-- Removing the root, when it is due, and ticking on. -/
theorem Ticked.cons {h₁ h' : TimeHeap} {cur : Int} {r : Report} (hv : Valid h ms) (hp : p ∈ ms)
    (hmin : ∀ q ∈ ms, expireOf h.mem (some p) ≤ expireOf h.mem (some q))
    (hdue : expireOf h.mem (some p) ≤ cur) (hmem : h₁.mem = h.mem.set p none)
    (ht : Ticked h₁ (ms.erase p) cur h' r) :
    Ticked h ms cur h'
      { calls := (callOf h.mem p).toList ++ r.calls, freed := [p] ++ r.freed } := by
  have hstay : ∀ q ∈ ms.erase p, q ∈ ms ∧ q ≠ p := by
    intro q hq
    obtain ⟨hne, hq⟩ := (hv.nodup.mem_erase_iff).mp hq
    exact ⟨hq, hne⟩
  have hexp : ∀ q ∈ ms.erase p, expireOf h₁.mem (some q) = expireOf h.mem (some q) := by
    intro q hq
    rw [hmem]
    exact expireOf_set_ne _ _ (hstay q hq).2
  have hfreed : ∀ q ∈ r.freed, q ∈ ms.erase p := by
    intro q hq
    exact List.mem_of_mem_filter (ht.freed.mem_iff.mp hq)
  have hpdue : isDue h.mem cur p = true := by simpa [isDue] using hdue
  have hsame : ∀ q ∈ ms.erase p, isDue h₁.mem cur q = isDue h.mem cur q := by
    intro q hq
    simp only [isDue, hexp q hq]
  have hsplit := List.perm_cons_erase hp
  constructor
  -- `ms` is `p` and the rest, and the two halves of the rest are known from `ht`
  · have hkept := hsplit.filter (!isDue h.mem cur ·)
    rw [List.filter_cons_of_neg (by simp [hpdue])] at hkept
    apply Valid.perm _ hkept.symm
    rw [← List.filter_congr (fun q hq => congrArg not (hsame q hq))]
    exact ht.valid
  · have hgone := hsplit.filter (isDue h.mem cur)
    rw [List.filter_cons_of_pos hpdue, ← List.filter_congr hsame] at hgone
    exact (ht.freed.cons p).trans hgone.symm
  · refine List.Pairwise.cons ?_ ?_
    · intro q hq
      exact hmin q (hstay q (hfreed q hq)).1
    · apply ht.sorted.imp_of_mem
      intro q q' hq hq' hle
      rwa [hexp q (hfreed q hq), hexp q' (hfreed q' hq')] at hle
  · have hcalls : r.freed.filterMap (callOf h₁.mem) = r.freed.filterMap (callOf h.mem) := by
      apply List.filterMap_congr
      intro q hq
      unfold callOf
      rw [hmem, Mem.cells_set_ne _ _ (hstay q (hfreed q hq)).2]
    show (callOf h.mem p).toList ++ r.calls = List.filterMap (callOf h.mem) (p :: r.freed)
    rw [ht.calls, hcalls, List.filterMap_cons]
    cases callOf h.mem p with
    | none => rfl
    | some c => rfl
  · intro q
    rw [ht.cells q, hmem]
    by_cases hq : q ∈ r.freed
    · simp [hq]
    · by_cases hqp : q = p
      · simp [hqp]
      · simp [hq, hqp, Mem.cells_set_ne]

/-- The loop of `tick` removes the timers that are due. -/
theorem tickLoop_ticked (cur : Int) (hv : Valid h ms) (hfuel : ms.length < fuel) :
    ∃ h' r, TimeHeap.tickLoop cur fuel h (h.array.entry 0) = .ok (h', r) ∧
      Ticked h ms cur h' r := by
  induction fuel generalizing h ms with
  | zero => omega
  | succ fuel ih =>
      unfold TimeHeap.tickLoop
      rcases top_valid hv with ⟨rfl, -⟩ | ⟨p, hp, -, hroot, hmin⟩
      · have hzero : h.curSize = 0 := hv.length_eq
        refine ⟨h, _, by rw [if_pos (by simp [TimeHeap.empty, hzero])], Ticked.rest hv ?_⟩
        intro q hq
        cases hq
      · obtain ⟨t, ht⟩ := Option.ne_none_iff_exists'.mp (hv.live p hp)
        have hpos := hv.curSize_pos hp
        have hexp := expireOf_some ht
        rw [if_neg (by simp [TimeHeap.empty]; omega), hroot]
        dsimp only
        rw [Mem.deref_eq ht, ok_bind]
        by_cases hlate : t.expire > cur
        · -- the root is the earliest
          refine ⟨h, _, by rw [if_pos hlate]; rfl, Ticked.rest hv ?_⟩
          intro q hq hdue
          have := hmin q hq
          omega
        · obtain ⟨h₁, hpop, hv₁, hmem⟩ := popTimer_valid hv hp hroot
          have hshort : (ms.erase p).length < fuel := by
            rw [List.length_erase_of_mem hp]
            have := List.length_pos_of_mem hp
            omega
          obtain ⟨h', r, hloop, hticked⟩ := ih hv₁ hshort
          refine ⟨h', _, ?_, hticked.cons hv hp hmin (by omega) hmem⟩
          rw [if_neg hlate, fire_eq hv hp hroot, ok_bind, hpop, ok_bind]
          dsimp only
          rw [Block.read_eq (by rw [hv₁.length]; exact hv₁.pos), ok_bind, hloop, ok_bind]
          rfl

/-- `tick` removes the timers that are due. -/
theorem tick_ticked (hv : Valid h ms) (cur : Int) :
    ∃ h' r, h.tick cur = .ok (h', r) ∧ Ticked h ms cur h' r := by
  obtain ⟨h', r, hloop, ht⟩ := tickLoop_ticked cur hv (Nat.lt_succ_self _)
  refine ⟨h', r, ?_, ht⟩
  unfold TimeHeap.tick
  rw [Block.read_eq (by rw [hv.length]; exact hv.pos), ok_bind, hv.length_eq]
  exact hloop

/-- A tick leaves the timers it did not delete. -/
theorem Ticked.kept {cur : Int} {h' : TimeHeap} {r : Report} (ht : Ticked h ms cur h' r) :
    ms.filter (!isDue h.mem cur ·) = ms.filter (· ∉ r.freed) := by
  apply List.filter_congr
  intro q hq
  have hmem : q ∈ r.freed ↔ isDue h.mem cur q = true := by
    rw [ht.freed.mem_iff, List.mem_filter, and_iff_right hq]
  cases hd : isDue h.mem cur q with
  | false => simpa [hd] using hmem
  | true => simpa [hd] using hmem

/-- The timers that are kept are those that were not freed. -/
theorem Ticked.mem_kept {cur : Int} {h' : TimeHeap} {r : Report} (ht : Ticked h ms cur h' r) :
    q ∈ ms.filter (!isDue h.mem cur ·) ↔ q ∈ ms ∧ q ∉ r.freed := by
  rw [ht.kept, List.mem_filter, decide_eq_true_eq]

end LinuxServer.Heap
