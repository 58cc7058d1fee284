import Mathlib.Algebra.BigOperators.Group.Finset.Basic
import Mathlib.Algebra.Order.BigOperators.Group.Finset
import Mathlib.Data.List.Nodup

/-!
# The queues of active events

An event that has become active waits in the queue for its priority until its callback is run. A callback
may also be put off to the next round of the loop; then the event waits in `active_later_queue`.

`Actives` has the queues, and the flags `EVLIST_ACTIVE` and `EVLIST_ACTIVE_LATER` of all events.
`Actives.Ok` is the part of `event_base_assert_ok_nolock_` that is about them.
-/

namespace LinuxServer.Libevent

structure Actives where
  activequeues : Nat → List Nat
  /-- `active_later_queue` -/
  laterQueue : List Nat
  /-- `EVLIST_ACTIVE` -/
  active : Nat → Bool
  /-- `EVLIST_ACTIVE_LATER` -/
  later : Nat → Bool
  /-- `event_count_active` -/
  count : Int

namespace Actives

def init : Actives :=
  { activequeues := fun _ => [], laterQueue := [], active := fun _ => false, later := fun _ => false
    count := 0 }

section
variable (pri : Nat → Nat)

/-- `event_queue_insert_active`, apart from the count of events. -/
def insert (a : Actives) (ev : Nat) : Actives :=
  if a.active ev then a
  else
    { a with active := Function.update a.active ev true
             count := a.count + 1
             activequeues := Function.update a.activequeues (pri ev) (a.activequeues (pri ev) ++ [ev]) }

/-- `event_queue_remove_active`, apart from the count of events. -/
def remove (a : Actives) (ev : Nat) : Actives :=
  { a with active := Function.update a.active ev false
           count := a.count - 1
           activequeues := Function.update a.activequeues (pri ev)
             ((a.activequeues (pri ev)).erase ev) }

/-- `event_queue_insert_active_later`, apart from the count of events. -/
def insertLater (a : Actives) (ev : Nat) : Actives :=
  if a.active ev || a.later ev then a
  else
    { a with later := Function.update a.later ev true
             count := a.count + 1
             laterQueue := a.laterQueue ++ [ev] }

/-- `event_queue_remove_active_later`, apart from the count of events. -/
def removeLater (a : Actives) (ev : Nat) : Actives :=
  { a with later := Function.update a.later ev false
           count := a.count - 1
           laterQueue := a.laterQueue.erase ev }

/-- One round of `event_queue_make_later_events_active`. -/
def makeActive (a : Actives) (ev : Nat) : Actives :=
  { a with laterQueue := a.laterQueue.erase ev
           later := Function.update a.later ev false
           active := Function.update a.active ev true
           activequeues := Function.update a.activequeues (pri ev) (a.activequeues (pri ev) ++ [ev]) }

/-- `event_queue_make_later_events_active`. The queue is worked off from its beginning. -/
def makeLaterActive (a : Actives) : Actives := a.laterQueue.foldl (makeActive pri) a

/-! ## What holds of the queues -/

/-- Each active event is in the queue of its priority, once, and in no other. -/
structure Ok (n : Nat) (a : Actives) : Prop where
  mem : ∀ i e, e ∈ a.activequeues i ↔ a.active e = true ∧ pri e = i
  nodup : ∀ i, (a.activequeues i).Nodup
  mem_later : ∀ e, e ∈ a.laterQueue ↔ a.later e = true
  nodup_later : a.laterQueue.Nodup
  disjoint : ∀ e, a.active e = true → a.later e = false
  count : a.count = (∑ i ∈ Finset.range n, ((a.activequeues i).length : Int)) + a.laterQueue.length

variable {pri} {n : Nat} {a : Actives} {ev : Nat}

/-- Nothing is active at first. -/
theorem Ok.init : Ok pri n init where
  mem := by simp [Actives.init]
  nodup := by simp [Actives.init]
  mem_later := by simp [Actives.init]
  nodup_later := List.nodup_nil
  disjoint := by simp [Actives.init]
  count := by simp [Actives.init]

/-- The sum of the lengths after one queue has become longer or shorter by `k`. -/
theorem sum_length_update {l : List Nat} {i : Nat} {k : Int} (hi : i < n)
    (hl : (l.length : Int) = (a.activequeues i).length + k) :
    ∑ j ∈ Finset.range n, ((Function.update a.activequeues i l j).length : Int) =
      (∑ j ∈ Finset.range n, ((a.activequeues j).length : Int)) + k := by
  have hmem : i ∈ Finset.range n := Finset.mem_range.mpr hi
  rw [← Finset.add_sum_erase _ _ hmem, ← Finset.add_sum_erase _ _ hmem, Function.update_self, hl]
  have hrest : ∑ j ∈ (Finset.range n).erase i, ((Function.update a.activequeues i l j).length : Int) =
      ∑ j ∈ (Finset.range n).erase i, ((a.activequeues j).length : Int) := by
    apply Finset.sum_congr rfl
    intro j hj
    rw [Function.update_of_ne (Finset.ne_of_mem_erase hj)]
  rw [hrest]
  omega

/-- The entry of `ev` in the queues, after it has been put in. -/
theorem mem_update_append (h : Ok pri n a) (i e : Nat) :
    e ∈ Function.update a.activequeues (pri ev) (a.activequeues (pri ev) ++ [ev]) i ↔
      Function.update a.active ev true e = true ∧ pri e = i := by
  by_cases hi : i = pri ev
  · subst hi
    rw [Function.update_self, List.mem_append, List.mem_singleton, h.mem]
    by_cases he : e = ev
    · subst he
      simp
    · simp [he]
  · rw [Function.update_of_ne hi, h.mem]
    by_cases he : e = ev
    · subst he
      simp [Ne.symm hi]
    · simp [he]

/-- An event that is not active is in no queue. -/
theorem nodup_update_append (h : Ok pri n a) (hno : a.active ev = false) (i : Nat) :
    (Function.update a.activequeues (pri ev) (a.activequeues (pri ev) ++ [ev]) i).Nodup := by
  by_cases hi : i = pri ev
  · subst hi
    rw [Function.update_self]
    refine List.nodup_append.mpr ⟨h.nodup _, List.nodup_singleton ev, ?_⟩
    intro x hx y hy
    obtain rfl := List.mem_singleton.mp hy
    rintro rfl
    rw [h.mem, hno] at hx
    cases hx.1
  · rw [Function.update_of_ne hi]
    exact h.nodup i

/-- An event is put at the end of its queue. -/
theorem Ok.insert (h : Ok pri n a) (hpri : pri ev < n) (hno : a.active ev = false)
    (hnol : a.later ev = false) :
    Ok pri n (a.insert pri ev) ∧ (a.insert pri ev).active = Function.update a.active ev true ∧
      (a.insert pri ev).later = a.later := by
  unfold Actives.insert
  rw [hno, if_neg Bool.false_ne_true]
  refine ⟨⟨mem_update_append h, nodup_update_append h hno, h.mem_later, h.nodup_later, ?_, ?_⟩, rfl, rfl⟩
  · intro e he
    by_cases hev : e = ev
    · rw [hev]
      exact hnol
    · dsimp only at he
      rw [Function.update_of_ne hev] at he
      exact h.disjoint e he
  · dsimp only
    rw [sum_length_update hpri (k := 1) (by simp), h.count]
    omega

/-- An event is taken out of its queue. -/
theorem Ok.remove (h : Ok pri n a) (hpri : pri ev < n) (hyes : a.active ev = true) :
    Ok pri n (a.remove pri ev) := by
  have hmem : ev ∈ a.activequeues (pri ev) := (h.mem _ _).mpr ⟨hyes, rfl⟩
  refine ⟨?_, ?_, h.mem_later, h.nodup_later, ?_, ?_⟩
  · intro i e
    dsimp only [Actives.remove]
    by_cases hi : i = pri ev
    · subst hi
      rw [Function.update_self, (h.nodup _).mem_erase_iff, h.mem]
      by_cases he : e = ev
      · subst he
        simp
      · simp [he]
    · rw [Function.update_of_ne hi, h.mem]
      by_cases he : e = ev
      · subst he
        simp [Ne.symm hi]
      · simp [he]
  · intro i
    dsimp only [Actives.remove]
    by_cases hi : i = pri ev
    · subst hi
      rw [Function.update_self]
      exact (h.nodup _).erase ev
    · rw [Function.update_of_ne hi]
      exact h.nodup i
  · intro e he
    dsimp only [Actives.remove] at he
    by_cases hev : e = ev
    · rw [hev, Function.update_self] at he
      cases he
    · rw [Function.update_of_ne hev] at he
      exact h.disjoint e he
  · dsimp only [Actives.remove]
    have hlen : ((a.activequeues (pri ev)).erase ev).length + 1 = (a.activequeues (pri ev)).length := by
      have := List.length_erase_of_mem hmem
      have hpos := List.length_pos_of_mem hmem
      omega
    rw [sum_length_update hpri (k := -1) (by omega), h.count]
    omega

/-- An event is put off. -/
theorem Ok.insertLater (h : Ok pri n a) (hno : a.active ev = false) (hnol : a.later ev = false) :
    Ok pri n (a.insertLater ev) ∧ (a.insertLater ev).later = Function.update a.later ev true ∧
      (a.insertLater ev).active = a.active ∧ (a.insertLater ev).activequeues = a.activequeues := by
  unfold Actives.insertLater
  rw [hno, hnol, if_neg (by simp)]
  refine ⟨⟨h.mem, h.nodup, ?_, ?_, ?_, ?_⟩, rfl, rfl, rfl⟩
  · intro e
    dsimp only
    rw [List.mem_append, List.mem_singleton, h.mem_later]
    by_cases he : e = ev
    · subst he
      simp
    · simp [he]
  · refine List.nodup_append.mpr ⟨h.nodup_later, List.nodup_singleton ev, ?_⟩
    intro x hx y hy
    obtain rfl := List.mem_singleton.mp hy
    rintro rfl
    rw [h.mem_later, hnol] at hx
    cases hx
  · intro e he
    dsimp only
    have hev : e ≠ ev := by
      rintro rfl
      rw [hno] at he
      cases he
    rw [Function.update_of_ne hev]
    exact h.disjoint e he
  · dsimp only
    rw [h.count, List.length_append, List.length_singleton]
    omega

/-- An event is no longer put off. -/
theorem Ok.removeLater (h : Ok pri n a) (hyes : a.later ev = true) : Ok pri n (a.removeLater ev) := by
  have hmem : ev ∈ a.laterQueue := (h.mem_later ev).mpr hyes
  refine ⟨h.mem, h.nodup, ?_, h.nodup_later.erase ev, ?_, ?_⟩
  · intro e
    dsimp only [Actives.removeLater]
    rw [h.nodup_later.mem_erase_iff, h.mem_later]
    by_cases he : e = ev
    · subst he
      simp
    · simp [he]
  · intro e he
    dsimp only [Actives.removeLater]
    by_cases hev : e = ev
    · rw [hev, Function.update_self]
    · rw [Function.update_of_ne hev]
      exact h.disjoint e he
  · dsimp only [Actives.removeLater]
    have hlen := List.length_erase_of_mem hmem
    have hpos := List.length_pos_of_mem hmem
    rw [h.count, hlen]
    omega

/-- An event that was put off is active. -/
theorem Ok.makeActive (h : Ok pri n a) (hpri : pri ev < n) (hyes : a.later ev = true) :
    Ok pri n (a.makeActive pri ev) := by
  have hno : a.active ev = false := by
    by_contra hact
    rw [h.disjoint ev (by simpa using hact)] at hyes
    cases hyes
  have hr := h.removeLater hyes
  refine ⟨mem_update_append h, nodup_update_append h hno, hr.mem_later, hr.nodup_later, ?_, ?_⟩
  · intro e he
    dsimp only [Actives.makeActive] at he ⊢
    by_cases hev : e = ev
    · rw [hev, Function.update_self]
    · rw [Function.update_of_ne hev] at he ⊢
      exact h.disjoint e he
  · have hcount := hr.count
    dsimp only [Actives.makeActive, Actives.removeLater] at hcount ⊢
    rw [sum_length_update hpri (k := 1) (by simp)]
    omega

/-- The queue is empty afterwards, and those who were in it are active. -/
theorem Ok.makeLaterActive (h : Ok pri n a) (hpri : ∀ e, pri e < n) :
    Ok pri n (a.makeLaterActive pri) ∧ (a.makeLaterActive pri).laterQueue = [] ∧
      (a.makeLaterActive pri).active = fun e => a.active e || a.later e := by
  unfold Actives.makeLaterActive
  have hmain : ∀ (l : List Nat) (a : Actives), Ok pri n a → a.laterQueue = l →
      Ok pri n (l.foldl (Actives.makeActive pri) a) ∧
      (l.foldl (Actives.makeActive pri) a).laterQueue = [] ∧
      (l.foldl (Actives.makeActive pri) a).active = fun e => a.active e || a.later e := by
    intro l
    induction l with
    | nil =>
        intro a h hnil
        refine ⟨h, hnil, ?_⟩
        funext e
        have hno : a.later e = false := by
          by_contra hl
          have := (h.mem_later e).mpr (by simpa using hl)
          rw [hnil] at this
          cases this
        simp [hno]
    | cons ev l ih =>
        intro a h hl
        have hyes : a.later ev = true := (h.mem_later ev).mp (by rw [hl]; exact List.mem_cons_self)
        obtain ⟨hok, hemp, hact⟩ := ih _ (h.makeActive (hpri ev) hyes) (by
          show a.laterQueue.erase ev = l
          rw [hl, List.erase_cons_head])
        refine ⟨hok, hemp, ?_⟩
        rw [List.foldl_cons, hact]
        funext e
        dsimp only [Actives.makeActive]
        by_cases he : e = ev
        · subst he
          simp [hyes]
        · simp [he]
  exact hmain _ a h rfl

end
end Actives
end LinuxServer.Libevent
