import LinuxServer.Libevent.MinHeap
import Mathlib.Data.List.TakeWhile

/-!
# Timeouts in heaps and lists

An event with a timeout is in the heap, or, if its timeout is a common one, in the list for this duration,
which is kept in order. `event.c` tells the two apart by the upper bits of `tv_usec`, which have a magic
number and the index of the list; here a `Timeval` has the index beside the time.

`Timers` has the heap, the lists and the flag `EVLIST_TIMEOUT` of all events. `Timers.Ok` is the part of
`event_base_assert_ok_nolock_` that is about timeouts.
-/

namespace LinuxServer.Libevent

open Library

/-- `struct timeval`, in microseconds. -/
structure Timeval where
  usecs : Int
  common : Option Nat
  deriving Repr, DecidableEq

structure Timers where
  timeheap : MinHeap
  /-- the `events` of each entry of `common_timeout_queues` -/
  common : Nat → List Nat
  /-- `ev_timeout` -/
  timeout : Nat → Timeval
  /-- `EVLIST_TIMEOUT` -/
  pending : Nat → Bool

namespace Timers

/-- What the heap and the lists are ordered by. -/
def key (t : Timers) (e : Nat) : Int := (t.timeout e).usecs

/-- `insert_common_timeout_inorder`, which looks for the place from the end of the list. -/
def insertInorder (key : Nat → Int) (ev : Nat) (events : List Nat) : List Nat :=
  let after := events.reverse.takeWhile fun e => decide (key ev < key e)
  let before := events.reverse.dropWhile fun e => decide (key ev < key e)
  before.reverse ++ ev :: after.reverse

section
variable (nCommon : Nat)

/-- `is_common_timeout`, with the index of the list. -/
def isCommon (tv : Timeval) : Option Nat :=
  match tv.common with
  | none => none
  | some q => if q < nCommon then some q else none

/-- `event_queue_insert_timeout`, apart from the count of events. -/
def insert (t : Timers) (ev : Nat) : Exec Timers :=
  let pending := Function.update t.pending ev true
  match isCommon nCommon (t.timeout ev) with
  | some q =>
      let events := insertInorder t.key ev (t.common q)
      .ok { t with pending := pending, common := Function.update t.common q events }
  | none => do
      let heap ← t.timeheap.push t.key ev
      return { t with pending := pending, timeheap := heap }

/-- `event_queue_remove_timeout`, apart from the count of events. -/
def remove (t : Timers) (ev : Nat) : Exec Timers :=
  let pending := Function.update t.pending ev false
  match isCommon nCommon (t.timeout ev) with
  | some q =>
      .ok { t with pending := pending, common := Function.update t.common q ((t.common q).erase ev) }
  | none => do
      let (heap, _) ← t.timeheap.erase t.key ev
      return { t with pending := pending, timeheap := heap }

/-- The event gets another timeout. -/
def setTimeout (t : Timers) (ev : Nat) (tv : Timeval) : Timers :=
  { t with timeout := Function.update t.timeout ev tv }

/-! ## Order -/

section
variable {κ : Nat → Int} {ev e : Nat} {l : List Nat}

/-- One more event is in the list. -/
theorem insertInorder_perm (κ : Nat → Int) (ev : Nat) (l : List Nat) :
    (insertInorder κ ev l).Perm (ev :: l) := by
  unfold insertInorder
  dsimp only
  refine List.perm_middle.trans (List.Perm.cons ev ?_)
  have hsplit := (List.takeWhile_append_dropWhile (p := fun e => decide (κ ev < κ e)) (l := l.reverse))
  have hrev := congrArg List.reverse hsplit
  rw [List.reverse_append, List.reverse_reverse] at hrev
  rw [hrev]

/-- The list stays in order. -/
theorem insertInorder_sorted (hs : l.Pairwise fun a b => κ a ≤ κ b) :
    (insertInorder κ ev l).Pairwise fun a b => κ a ≤ κ b := by
  have hrev : l.reverse.Pairwise fun a b => κ b ≤ κ a := List.pairwise_reverse.mpr hs
  have hsplit := (List.takeWhile_append_dropWhile (p := fun e => decide (κ ev < κ e)) (l := l.reverse))
  unfold insertInorder
  dsimp only
  set after := l.reverse.takeWhile fun e => decide (κ ev < κ e) with hafter
  set before := l.reverse.dropWhile fun e => decide (κ ev < κ e) with hbefore
  rw [← hsplit, List.pairwise_append] at hrev
  obtain ⟨hra, hrb, hcross⟩ := hrev
  have hgt : ∀ a ∈ after, κ ev < κ a := by
    intro a ha
    simpa using List.mem_takeWhile_imp ha
  -- the first one of those before is not greater, and so none of them is
  have hle : ∀ b ∈ before, κ b ≤ κ ev := by
    intro b hb
    cases hcons : before with
    | nil =>
        rw [hcons] at hb
        cases hb
    | cons c rest =>
        have hc : κ c ≤ κ ev := by
          have := List.head?_dropWhile_not (fun e => decide (κ ev < κ e)) l.reverse
          rw [← hbefore, hcons] at this
          simpa using this
        rw [hcons] at hb hrb
        rcases List.mem_cons.mp hb with rfl | hb
        · exact hc
        · exact ((List.pairwise_cons.mp hrb).1 b hb).trans hc
  rw [List.pairwise_append]
  refine ⟨List.pairwise_reverse.mpr hrb, ?_, ?_⟩
  · rw [List.pairwise_cons]
    refine ⟨?_, List.pairwise_reverse.mpr hra⟩
    intro a ha
    exact (hgt a (List.mem_reverse.mp ha)).le
  · intro b hb a ha
    have hb := hle b (List.mem_reverse.mp hb)
    rcases List.mem_cons.mp ha with rfl | ha
    · exact hb
    · exact hb.trans (hgt a (List.mem_reverse.mp ha)).le

end

/-! ## What holds of the timeouts -/

structure Ok (t : Timers) : Prop where
  heap : ∃ ms, t.timeheap.Valid t.key ms
  in_heap : ∀ e, (t.timeheap.idx e).isSome ↔
    t.pending e = true ∧ isCommon nCommon (t.timeout e) = none
  in_list : ∀ q e, e ∈ t.common q ↔ t.pending e = true ∧ isCommon nCommon (t.timeout e) = some q
  nodup : ∀ q, (t.common q).Nodup
  sorted : ∀ q, (t.common q).Pairwise fun a b => t.key a ≤ t.key b

variable {nCommon} {t t' : Timers} {ev e q : Nat}

/-- A common timeout belongs to one of the lists. -/
theorem isCommon_lt {tv : Timeval} (h : isCommon nCommon tv = some q) :
    q < nCommon ∧ tv.common = some q := by
  unfold isCommon at h
  split at h
  · cases h
  · split at h
    · obtain rfl := Option.some.inj h
      exact ⟨‹_›, ‹_›⟩
    · cases h

/-- The events in the heap. -/
theorem Ok.members (h : Ok nCommon t) : ∃ ms, t.timeheap.Valid t.key ms ∧
    ∀ e, e ∈ ms ↔ t.pending e = true ∧ isCommon nCommon (t.timeout e) = none := by
  obtain ⟨ms, hv⟩ := h.heap
  exact ⟨ms, hv, fun e => hv.idx_isSome.symm.trans (h.in_heap e)⟩

/-- How `insert` and `remove` leave the lists. -/
def listed (t : Timers) (nCommon : Nat) (ev : Nat) (f : List Nat → List Nat) : Nat → List Nat :=
  match isCommon nCommon (t.timeout ev) with
  | some q => Function.update t.common q (f (t.common q))
  | none => t.common

/-- An event that waits for no timeout is put into its list or into the heap. -/
theorem Ok.insert (h : Ok nCommon t) (hno : t.pending ev = false) :
    ∃ t', t.insert nCommon ev = .ok t' ∧ Ok nCommon t' ∧
      t'.pending = Function.update t.pending ev true ∧ t'.timeout = t.timeout ∧
      t'.common = t.listed nCommon ev (insertInorder t.key ev) := by
  obtain ⟨ms, hv, hms⟩ := h.members
  have hcases : ∀ e, e ≠ ev → Function.update t.pending ev true e = t.pending e :=
    fun e he => Function.update_of_ne he ..
  unfold Timers.insert listed
  dsimp only
  cases hc : isCommon nCommon (t.timeout ev) with
  | some q =>
      refine ⟨_, rfl, ⟨⟨ms, hv⟩, ?_, ?_, ?_, ?_⟩, rfl, rfl, rfl⟩
      · intro e
        by_cases he : e = ev
        · subst he
          rw [h.in_heap, hno]
          simp [hc]
        · dsimp only
          rw [h.in_heap, hcases e he]
      · intro q' e
        dsimp only
        by_cases hq : q' = q
        · subst hq
          rw [Function.update_self, (insertInorder_perm t.key ev _).mem_iff, List.mem_cons, h.in_list]
          by_cases he : e = ev
          · subst he
            simp [hc]
          · simp [he]
        · rw [Function.update_of_ne hq, h.in_list]
          by_cases he : e = ev
          · subst he
            simp [hc, hno, Ne.symm hq]
          · rw [hcases e he]
      · intro q'
        dsimp only
        by_cases hq : q' = q
        · subst hq
          rw [Function.update_self, (insertInorder_perm t.key ev _).nodup_iff, List.nodup_cons]
          refine ⟨?_, h.nodup q'⟩
          rw [h.in_list, hno]
          simp
        · rw [Function.update_of_ne hq]
          exact h.nodup q'
      · intro q'
        dsimp only
        by_cases hq : q' = q
        · subst hq
          rw [Function.update_self]
          exact insertInorder_sorted (h.sorted q')
        · rw [Function.update_of_ne hq]
          exact h.sorted q'
  | none =>
      have hnew : ev ∉ ms := by
        rw [hms, hno]
        simp
      obtain ⟨heap, hpush, hv'⟩ := MinHeap.push_valid hv hnew
      rw [hpush, ok_bind]
      refine ⟨_, rfl, ⟨⟨_, hv'⟩, ?_, ?_, h.nodup, h.sorted⟩, rfl, rfl, rfl⟩
      · intro e
        dsimp only
        rw [hv'.idx_isSome, List.mem_cons, hms]
        by_cases he : e = ev
        · subst he
          simp [hc]
        · simp [he]
      · intro q' e
        dsimp only
        rw [h.in_list]
        by_cases he : e = ev
        · subst he
          simp [hc]
        · rw [hcases e he]

/-- An event that waits for a timeout is taken out again. -/
theorem Ok.remove (h : Ok nCommon t) (hyes : t.pending ev = true) :
    ∃ t', t.remove nCommon ev = .ok t' ∧ Ok nCommon t' ∧
      t'.pending = Function.update t.pending ev false ∧ t'.timeout = t.timeout ∧
      t'.common = t.listed nCommon ev (·.erase ev) := by
  obtain ⟨ms, hv, hms⟩ := h.members
  have hcases : ∀ e, e ≠ ev → Function.update t.pending ev false e = t.pending e :=
    fun e he => Function.update_of_ne he ..
  unfold Timers.remove listed
  dsimp only
  cases hc : isCommon nCommon (t.timeout ev) with
  | some q =>
      refine ⟨_, rfl, ⟨⟨ms, hv⟩, ?_, ?_, ?_, ?_⟩, rfl, rfl, rfl⟩
      · intro e
        by_cases he : e = ev
        · subst he
          rw [h.in_heap]
          simp [hc]
        · dsimp only
          rw [h.in_heap, hcases e he]
      · intro q' e
        dsimp only
        by_cases hq : q' = q
        · subst hq
          rw [Function.update_self, (h.nodup q').mem_erase_iff, h.in_list]
          by_cases he : e = ev
          · subst he
            simp
          · simp [he]
        · rw [Function.update_of_ne hq, h.in_list]
          by_cases he : e = ev
          · subst he
            simp [hc, Ne.symm hq]
          · rw [hcases e he]
      · intro q'
        dsimp only
        by_cases hq : q' = q
        · subst hq
          rw [Function.update_self]
          exact (h.nodup q').erase ev
        · rw [Function.update_of_ne hq]
          exact h.nodup q'
      · intro q'
        dsimp only
        by_cases hq : q' = q
        · subst hq
          rw [Function.update_self]
          exact (h.sorted q').sublist List.erase_sublist
        · rw [Function.update_of_ne hq]
          exact h.sorted q'
  | none =>
      have hmem : ev ∈ ms := (hms ev).mpr ⟨hyes, hc⟩
      obtain ⟨heap, herase, hv'⟩ := MinHeap.erase_valid hv hmem
      rw [herase, ok_bind]
      refine ⟨_, rfl, ⟨⟨_, hv'⟩, ?_, ?_, h.nodup, h.sorted⟩, rfl, rfl, rfl⟩
      · intro e
        dsimp only
        rw [hv'.idx_isSome, hv.nodup.mem_erase_iff, hms]
        by_cases he : e = ev
        · subst he
          simp
        · simp [he]
      · intro q' e
        dsimp only
        rw [h.in_list]
        by_cases he : e = ev
        · subst he
          simp [hc]
        · rw [hcases e he]

/-- The timeout of an event that waits for none is of no concern. -/
theorem Ok.setTimeout (h : Ok nCommon t) (hno : t.pending ev = false) (tv : Timeval) :
    Ok nCommon (t.setTimeout ev tv) := by
  have hout : ∀ e, t.pending e = true → Function.update t.timeout ev tv e = t.timeout e := by
    intro e he
    apply Function.update_of_ne
    rintro rfl
    rw [hno] at he
    cases he
  have hkey : ∀ e, t.pending e = true → (t.setTimeout ev tv).key e = t.key e :=
    fun e he => congrArg Timeval.usecs (hout e he)
  obtain ⟨ms, hv, hms⟩ := h.members
  refine ⟨⟨ms, hv.congr fun e he => hkey e ((hms e).mp he).1⟩, ?_, ?_, h.nodup, ?_⟩
  · intro e
    show (t.timeheap.idx e).isSome ↔
      t.pending e = true ∧ isCommon nCommon (Function.update t.timeout ev tv e) = none
    rw [h.in_heap]
    exact and_congr_right fun he => by rw [hout e he]
  · intro q e
    show e ∈ t.common q ↔
      t.pending e = true ∧ isCommon nCommon (Function.update t.timeout ev tv e) = some q
    rw [h.in_list]
    exact and_congr_right fun he => by rw [hout e he]
  · intro q
    refine (h.sorted q).imp_of_mem ?_
    intro a b ha hb hab
    rw [hkey a ((h.in_list q a).mp ha).1, hkey b ((h.in_list q b).mp hb).1]
    exact hab

/-- Making space in the heap keeps the timers. -/
theorem Ok.reserve (h : Ok nCommon t) (n : Nat) :
    Ok nCommon { t with timeheap := t.timeheap.reserve n } := by
  obtain ⟨ms, hv⟩ := h.heap
  refine ⟨⟨ms, hv.reserve n⟩, ?_, h.in_list, h.nodup, h.sorted⟩
  intro e
  dsimp only
  rw [(MinHeap.reserve_eq t.timeheap n).2.1]
  exact h.in_heap e

end
end Timers
end LinuxServer.Libevent
