import LinuxServer.SortedList.Runs

/-!
# Ticks, and the tail they leave

`tick` fires from the front and frees what it has fired, but it does not touch `tail`. When it empties
the list, `tail` goes on pointing to the last timer, which is gone.

`tick_leaves_list` says that this does no harm: whatever `add_timer` and `del_timer` do next, they do
just as on a list object that was made of the remaining timers.
-/

namespace LinuxServer.SortedList

open Library

/-- The list object made of the timers `l`. -/
def SortTimerLst.of (m : Mem UtilTimer) (l : List Ptr) : SortTimerLst :=
  { mem := m, head := l.head?, tail := l.getLast? }

/-- The same list, but for the tail of an empty one. -/
structure Alike (w w' : SortTimerLst) : Prop where
  mem : w.mem = w'.mem
  head : w.head = w'.head
  tail : w.head ≠ none → w.tail = w'.tail

/-- Two calls come to the same: the same list, or the same fault. -/
def SameOutcome : Exec SortTimerLst → Exec SortTimerLst → Prop
  | .ok w, .ok w' => Alike w w'
  | .error e, .error e' => e = e'
  | _, _ => False

variable {w w' : SortTimerLst} {l : List Ptr} {q : Option Ptr}

theorem Alike.refl (w : SortTimerLst) : Alike w w := ⟨rfl, rfl, fun _ => rfl⟩

theorem SameOutcome.refl (x : Exec SortTimerLst) : SameOutcome x x := by
  cases x with
  | ok w => exact Alike.refl w
  | error e => rfl

theorem Holds.alike (hw : Holds w l) : Alike w (.of w.mem l) where
  mem := rfl
  head := hw.chain.head
  tail := by
    intro hhead
    apply hw.tail
    rintro rfl
    exact hhead hw.chain.head

/-- Lists that are not empty are alike only if they are the same. -/
theorem Alike.eq (h : Alike w w') (hhead : w.head ≠ none) : w = w' := by
  obtain ⟨hmem, hh, ht⟩ := h
  cases w
  cases w'
  obtain rfl := hmem
  obtain rfl := hh
  obtain rfl := ht hhead
  rfl

theorem Alike.addTimer (h : Alike w w') (q : Option Ptr) :
    SameOutcome (w.addTimer q) (w'.addTimer q) := by
  by_cases hhead : w.head = none
  · cases q with
    | none => exact h
    | some p =>
        have hhead' : w'.head = none := h.head ▸ hhead
        simp only [SortTimerLst.addTimer, hhead, hhead']
        exact ⟨h.mem, rfl, fun _ => rfl⟩
  · rw [h.eq hhead]
    exact SameOutcome.refl _

/-- In an empty list there is nothing to delete: a timer whose `prev` is null is found out, and so is one
that was freed, whether or not it is taken for the last one. -/
theorem delTimer_fails {p : Ptr} (hhead : w.head = none)
    (hprev : ∀ t, w.mem.cells p = some t → t.prev = none) :
    w.delTimer (some p) = .error (if w.mem.cells p = none then .dangling else .nullDeref) := by
  have hout : w.head ≠ some p := by
    rw [hhead]
    exact (Option.some_ne_none p).symm
  simp only [SortTimerLst.delTimer, if_neg (fun h : w.head = some p ∧ w.tail = some p => hout h.1),
    if_neg hout]
  cases hp : w.mem.cells p with
  | none =>
      split
      · rename_i htail
        simp [htail, Mem.deref, hp]
      · simp [unlinkInner, Mem.deref, hp]
  | some t =>
      have hnone : t.prev = none := hprev t hp
      split
      · rename_i htail
        simp [htail, Mem.deref, hp, hnone, Mem.modify]
      · have hnone' : Linked.prev t = none := hnone
        simp [unlinkInner, Mem.deref, hp, hnone', Mem.modify]

theorem Alike.delTimer (h : Alike w w') (hq : w.head = none → ∀ p t, q = some p →
      w.mem.cells p = some t → t.prev = none) : SameOutcome (w.delTimer q) (w'.delTimer q) := by
  by_cases hhead : w.head = none
  · cases q with
    | none => exact h
    | some p =>
        rw [delTimer_fails hhead (fun t ht => hq hhead p t rfl ht),
          delTimer_fails (h.head ▸ hhead) (fun t ht => hq hhead p t rfl (h.mem ▸ ht)), h.mem]
        rfl
  · rw [h.eq hhead]
    exact SameOutcome.refl _

/-- The timers that are due are those that were called. -/
theorem Ticked.filter_due {cur : Int} {calls : List Call} {rest : List Ptr}
    (ht : Ticked w l cur w' calls rest) :
    calls.map Call.timer = l.filter (expireOf w.mem · ≤ cur) ∧
      rest = l.filter (cur < expireOf w.mem ·) := by
  have hdue : ∀ p ∈ calls.map Call.timer, expireOf w.mem p ≤ cur := by
    intro p hp
    obtain ⟨c, hc, rfl⟩ := List.mem_map.mp hp
    exact ht.due c hc
  rw [ht.split, List.filter_append, List.filter_append]
  constructor
  · rw [List.filter_eq_self.mpr (by simpa using ht.due), List.filter_eq_nil_iff.mpr (by
      intro p hp
      have := ht.late p hp
      simp only [decide_eq_true_eq]
      omega), List.append_nil]
  · rw [List.filter_eq_nil_iff.mpr (by
      intro p hp
      have := hdue p hp
      simp only [decide_eq_true_eq]
      omega), List.filter_eq_self.mpr (by simpa using ht.late), List.nil_append]

/-- **A tick calls the timers that are due, in list order, and leaves a list of the others.** For
`add_timer` and `del_timer` that list is as good as new, even if nothing is left and `tail` points to a
timer that has been freed. (A timer that is neither linked nor fresh has no business in `del_timer`.) -/
theorem tick_leaves_list (hw : Holds w l) (cur : Int) :
    ∃ w' calls rest, w.tick cur = .ok (w', calls) ∧
      calls.map Call.timer = l.filter (expireOf w.mem · ≤ cur) ∧
      (∀ c ∈ calls, callOf w.mem c.timer = .ok c) ∧
      rest = l.filter (cur < expireOf w.mem ·) ∧ Holds w' rest ∧
      (∀ q, SameOutcome (w'.addTimer q) ((SortTimerLst.of w'.mem rest).addTimer q)) ∧
      ∀ q, (∀ p t, q = some p → w'.mem.cells p = some t → p ∈ rest ∨ t.prev = none) →
        SameOutcome (w'.delTimer q) ((SortTimerLst.of w'.mem rest).delTimer q) := by
  obtain ⟨w', calls, rest, heq, ht⟩ := tick_ticked hw cur
  obtain ⟨hcalls, hrest⟩ := ht.filter_due
  refine ⟨w', calls, rest, heq, hcalls, ht.call, hrest, ht.holds, ?_, ?_⟩
  · intro q
    exact ht.holds.alike.addTimer q
  · intro q hq
    refine ht.holds.alike.delTimer fun hhead p t hp hcell => (hq p t hp hcell).resolve_left ?_
    -- nothing is left in an empty list
    have hnil : rest = [] := by
      rw [← List.head?_eq_none_iff, ← ht.holds.chain.head]
      exact hhead
    rw [hnil]
    exact List.not_mem_nil

/-- Two timers are due and called. The tail is left pointing to the second, which is gone. -/
theorem tick_leaves_stale_tail :
    ∃ s w' calls, Session.machine.Reachable s ∧ Holds s.lst [2, 1] ∧ s.lst.tick 9 = .ok (w', calls) ∧
      calls.map Call.timer = [2, 1] ∧ w'.head = none ∧ w'.tail = some 1 ∧ w'.mem.cells 1 = none ∧
      ∀ q, SameOutcome (w'.addTimer q) ((SortTimerLst.of w'.mem []).addTimer q) := by
  obtain ⟨s, hr, hs⟩ := Machine.Reachable.of_replay (M := Session.machine)
    [.add 1 9 1 none, .add 2 5 1 none]
    (fun s => (s.lst.linked, s.lst.linked.map (expireOf s.lst.mem),
      (s.lst.tick 9).toOption.map fun x => (x.1.tail, (x.1.mem.cells 1).isNone))) rfl
    (b := ([2, 1], [5, 9], some (some 1, true))) (by decide +kernel)
  obtain ⟨hlinked, hexp, hrun⟩ : _ ∧ _ ∧ _ := by simpa only [Prod.mk.injEq] using hs
  have hw := holds_of_reachable hr
  rw [hlinked] at hw hexp
  obtain ⟨w', calls, rest, heq, hcalls, -, hrest, hw', hadd, -⟩ := tick_leaves_list hw 9
  simp only [List.map_cons, List.map_nil, List.cons.injEq, and_true] at hexp
  obtain ⟨h2, h1⟩ := hexp
  obtain rfl : rest = [] := by simpa [h1, h2] using hrest
  rw [heq] at hrun
  obtain ⟨htail, hfreed⟩ := Prod.mk.inj (Option.some.inj hrun)
  exact ⟨s, w', calls, hr, hw, heq, by simpa [h1, h2] using hcalls, hw'.chain.head, htail,
    Option.isNone_iff_eq_none.mp hfreed, hadd⟩

end LinuxServer.SortedList
