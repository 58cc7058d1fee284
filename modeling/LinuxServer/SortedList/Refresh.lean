import LinuxServer.SortedList.Server
import LinuxServer.SortedList.Tail

/-!
# Refreshing a timer

When a client sends something, `LST_Timer.cpp` sets the `expire` of its timer to a later time and calls
`add_timer`, although the timer is in the list. The scan for its new place passes it by and goes on.

If it finds a timer that expires later, the node is put in front of that one without having been taken
out of its old place: what is in between is cut off, or if there is nothing in between, the node becomes
its own predecessor. If it finds none, nothing is changed, and the list is out of order unless every
timer behind the node expires at the very same time. `refresh_kept_iff` says that this is the only case
in which nothing goes wrong.
-/

namespace LinuxServer.SortedList

open Library EventLoop

variable {w : SortTimerLst} {m : Mem UtilTimer} {h : Option Ptr} {p u : Ptr} {n : UtilTimer}
  {l₁ l₂ k r : List Ptr} {e : Int}

theorem getLast?_or (u : Ptr) (k : List Ptr) (prev : Option Ptr) :
    k.getLast?.or (some u) = (u :: k).getLast?.or prev := by
  rw [List.getLast?_cons]
  cases k.getLast? with
  | none => rfl
  | some v => rfl

/-- The scan passes by the timers that do not expire later. -/
theorem insertLoop_passes (hw : Walk m h (k ++ r)) (hn : m.cells p = some n)
    (hk : ∀ u ∈ k, ¬ n.expire < expireOf m u) (prev : Option Ptr) (fuel : Nat) :
    SortTimerLst.insertLoop (some p) (k.length + fuel) m prev h =
      SortTimerLst.insertLoop (some p) fuel m (k.getLast?.or prev) r.head? := by
  induction k generalizing h prev with
  | nil =>
      have hh : h = r.head? := hw.head
      rw [hh, List.length_nil, Nat.zero_add]
      rfl
  | cons u k ih =>
      obtain ⟨rfl, t, ht, hw⟩ := hw
      have hu := hk u List.mem_cons_self
      rw [expireOf_eq ht] at hu
      have hw : Walk m t.next (k ++ r) := hw
      rw [List.length_cons, Nat.succ_add, SortTimerLst.insertLoop, Mem.deref_eq hn, ok_bind, Mem.deref_eq ht, ok_bind, if_neg hu,
        ih hw (fun v hv => hk v (List.mem_cons_of_mem _ hv)), getLast?_or u k prev]

/-- The list after the timer `p` was given the expiry `e`, with nothing else changed. -/
def SortTimerLst.raised (w : SortTimerLst) (p : Ptr) (t : UtilTimer) (e : Int) : SortTimerLst :=
  { w with mem := w.mem.set p (some { t with expire := e }) }

section Raised
variable {t : UtilTimer} (hw : Holds w (l₁ ++ p :: l₂)) (ht : w.mem.cells p = some t)
include hw ht

theorem raised_chain : Chain (w.raised p t e).mem w.head (l₁ ++ p :: l₂) := by
  apply hw.chain.congr
  intro x _ k hk
  by_cases hxp : x = p
  · subst hxp
    obtain rfl := Option.some.inj (ht.symm.trans hk)
    exact ⟨_, Mem.cells_set_self _ _ _, rfl, rfl⟩
  · exact ⟨k, (Mem.cells_set_ne _ _ hxp).trans hk, rfl, rfl⟩

omit hw ht in
theorem expireOf_raised_self : expireOf (w.raised p t e).mem p = e :=
  expireOf_eq (Mem.cells_set_self _ _ _)

omit ht in
theorem expireOf_raised {x : Ptr} (hx : x ∈ l₁ ++ l₂) :
    expireOf (w.raised p t e).mem x = expireOf w.mem x := by
  obtain ⟨hp₁, hp₂, -⟩ := hw.chain.nodup_middle
  apply expireOf_set_ne
  rintro rfl
  rcases List.mem_append.mp hx with hx | hx
  · exact hp₁ hx
  · exact hp₂ hx

theorem raised_armed : ∀ x ∈ l₁ ++ p :: l₂, ∃ t', (w.raised p t e).mem.cells x = some t' ∧
    t'.cbFunc ≠ none := by
  intro x hx
  obtain ⟨t', ht', hcb⟩ := hw.armed x hx
  by_cases hxp : x = p
  · subst hxp
    obtain rfl := Option.some.inj (ht.symm.trans ht')
    exact ⟨_, Mem.cells_set_self _ _ _, hcb⟩
  · exact ⟨t', (Mem.cells_set_ne _ _ hxp).trans ht', hcb⟩

/-- None of the timers up to `p` is later than `e`. -/
theorem raised_not_later (hup : t.expire ≤ e) : ∀ x ∈ l₁ ++ [p],
    ¬ e < expireOf (w.raised p t e).mem x := by
  obtain ⟨-, -, hcross⟩ := ascending_append.mp hw.ascending
  intro x hx
  rcases List.mem_append.mp hx with hx | hx
  · rw [expireOf_raised hw (List.mem_append_left _ hx)]
    have hle := hcross x hx p List.mem_cons_self
    rw [expireOf_eq ht] at hle
    omega
  · rw [List.mem_singleton.mp hx, expireOf_raised_self]
    omega

/-- Adding the timer `p`, which is linked: the scan gets to the first timer behind it that is later. -/
theorem addTimer_raised (hup : t.expire ≤ e) (hl₂ : l₂ = k ++ r)
    (hk : ∀ x ∈ k, ¬ e < expireOf w.mem x) :
    ∃ fuel, (w.raised p t e).addTimer (some p) = (do
      let m ← SortTimerLst.insertLoop (some p) (fuel + 1) (w.raised p t e).mem
        ((p :: k).getLast?) r.head?
      return { w.raised p t e with mem := m }) := by
  subst hl₂
  have hc := raised_chain (e := e) hw ht
  have hp : (w.raised p t e).mem.cells p = some { t with expire := e } := Mem.cells_set_self _ _ _
  -- the first timer, and the others up to where the scan stops
  obtain ⟨a, K, hK⟩ : ∃ a K, l₁ ++ p :: k = a :: K := by
    cases l₁ with
    | nil => exact ⟨p, k, rfl⟩
    | cons a l₁ => exact ⟨a, l₁ ++ p :: k, rfl⟩
  have hpass : ∀ x ∈ a :: K, ¬ e < expireOf (w.raised p t e).mem x := by
    intro x hx
    rw [← hK, show l₁ ++ p :: k = (l₁ ++ [p]) ++ k by simp] at hx
    rcases List.mem_append.mp hx with hx | hx
    · exact raised_not_later hw ht hup x hx
    · rw [expireOf_raised hw (by simp [hx])]
      exact hk x hx
  have hsplit : l₁ ++ p :: (k ++ r) = a :: K ++ r := by
    rw [← hK]
    simp
  have hlen := hc.length_le_brk
  have hwalk := hc.walk
  rw [hsplit] at hlen hwalk
  obtain ⟨hhead, na, hna, hwalk⟩ := hwalk
  have hfuel : K.length ≤ (w.raised p t e).mem.brk := by
    simp only [List.cons_append, List.length_cons, List.length_append] at hlen
    omega
  have hlast : K.getLast?.or (some a) = (p :: k).getLast? := by
    rw [getLast?_or a K none, ← hK, List.getLast?_append, List.getLast?_cons]
    rfl
  refine ⟨(w.raised p t e).mem.brk - K.length, ?_⟩
  have hfirst := hpass a List.mem_cons_self
  rw [expireOf_eq hna] at hfirst
  have hwalk : Walk (w.raised p t e).mem na.next (K ++ r) := hwalk
  have hloop := insertLoop_passes hwalk hp (fun x hx => hpass x (List.mem_cons_of_mem _ hx)) (some a)
    ((w.raised p t e).mem.brk - K.length + 1)
  rw [show K.length + ((w.raised p t e).mem.brk - K.length + 1) = (w.raised p t e).mem.brk + 1 by omega,
    hlast] at hloop
  have hhead' : (w.raised p t e).head = some a := hhead
  simp only [SortTimerLst.addTimer, hhead', Mem.deref_eq hp, Mem.deref_eq hna, ok_bind]
  rw [if_neg hfirst, SortTimerLst.addTimerFrom, Mem.deref_eq hna, ok_bind, hloop, hhead']

/-- No timer behind `p` is later: nothing happens. -/
theorem addTimer_unmoved (hup : t.expire ≤ e) (hl₂ : ∀ x ∈ l₂, ¬ e < expireOf w.mem x) :
    (w.raised p t e).addTimer (some p) = .ok (w.raised p t e) := by
  obtain ⟨fuel, heq⟩ := addTimer_raised hw ht hup (List.append_nil l₂).symm hl₂
  rw [heq]
  rfl

end Raised

/-- The four assignments of an insertion in front of `u`, for a node `p` that is linked: the one before
`u` may be `p` itself. -/
theorem link_linked {b : Ptr} {nb nu : UtilTimer} (hp : m.cells p = some n) (hb : m.cells b = some nb)
    (hu : m.cells u = some nu) (hup : u ≠ p) (hub : u ≠ b) :
    ∃ m', link m (some p) (some b) (some u) = .ok m' ∧
      m'.cells p = some { n with next := some u, prev := some b } ∧
      m'.cells u = some { nu with prev := some p } ∧
      ∀ x, x ≠ p → x ≠ u → x ≠ b → m'.cells x = m.cells x := by
  obtain ⟨np, hnp, hsame⟩ : ∃ np, (m.set b (some { nb with next := some p })).cells p = some np ∧
      ({ np with next := some u } : UtilTimer) = { n with next := some u } := by
    by_cases hpb : p = b
    · subst hpb
      obtain rfl := Option.some.inj (hp.symm.trans hb)
      exact ⟨_, Mem.cells_set_self _ _ _, rfl⟩
    · exact ⟨n, (Mem.cells_set_ne _ _ hpb).trans hp, rfl⟩
  have hu' : ((m.set b (some { nb with next := some p })).set p
      (some { n with next := some u })).cells u = some nu := by
    rw [Mem.cells_set_ne _ _ hup, Mem.cells_set_ne _ _ hub, hu]
  have hp' : (((m.set b (some { nb with next := some p })).set p (some { n with next := some u })).set u
      (some { nu with prev := some p })).cells p = some { n with next := some u } := by
    rw [Mem.cells_set_ne _ _ hup.symm, Mem.cells_set_self]
  refine ⟨(((m.set b (some { nb with next := some p })).set p (some { n with next := some u })).set u
    (some { nu with prev := some p })).set p (some { n with next := some u, prev := some b }),
    ?_, Mem.cells_set_self _ _ _, ?_, ?_⟩
  · unfold link
    rw [Mem.modify_eq hb, ok_bind]
    show (m.set b (some { nb with next := some p })).modify (some p) _ >>= _ = _
    rw [Mem.modify_eq hnp, ok_bind]
    show ((m.set b (some { nb with next := some p })).set p (some { np with next := some u })).modify
      (some u) _ >>= _ = _
    rw [hsame, Mem.modify_eq hu', ok_bind]
    exact Mem.modify_eq hp' _
  · rw [Mem.cells_set_ne _ _ hup, Mem.cells_set_self]
  · intro x hxp hxu hxb
    rw [Mem.cells_set_ne _ _ hxp, Mem.cells_set_ne _ _ hxu, Mem.cells_set_ne _ _ hxp,
      Mem.cells_set_ne _ _ hxb]

/-- A timer behind `p` is later: `p` is put in front of it, and what was in between is cut off. -/
theorem addTimer_moved {t : UtilTimer} (hw : Holds w (l₁ ++ p :: (k ++ u :: r)))
    (ht : w.mem.cells p = some t) (hup : t.expire ≤ e) (hk : ∀ x ∈ k, ¬ e < expireOf w.mem x)
    (hu : e < expireOf w.mem u) :
    ∃ w' n, (w.raised p t e).addTimer (some p) = .ok w' ∧ w'.mem.cells p = some n ∧
      n.prev = (p :: k).getLast? ∧ Walk w'.mem w'.head (l₁ ++ p :: u :: r) := by
  obtain ⟨fuel, heq⟩ := addTimer_raised hw ht hup rfl hk
  have hc := raised_chain (e := e) hw ht
  have hnd := hc.nodup
  have hp : (w.raised p t e).mem.cells p = some { t with expire := e } := Mem.cells_set_self _ _ _
  obtain ⟨b, hb⟩ : ∃ b, (p :: k).getLast? = some b := ⟨_, List.getLast?_cons⟩
  have hbmem : b ∈ p :: k := List.mem_of_getLast? hb
  obtain ⟨nb, hnb⟩ := Option.ne_none_iff_exists'.mp (hc.live b (by
    rw [List.mem_append, ← List.cons_append, List.mem_append]
    exact .inr (.inl hbmem)))
  obtain ⟨nu, hnu⟩ := Option.ne_none_iff_exists'.mp (hc.live u (by simp))
  have hlater : ({ t with expire := e } : UtilTimer).expire < nu.expire := by
    rw [← expireOf_eq hnu, expireOf_raised hw (by simp)]
    exact hu
  -- `b` is `p` or in between, and the others are elsewhere
  have hup' : u ≠ p := by grind
  have hub : u ≠ b := by grind
  have hl₁ : ∀ x ∈ l₁, x ≠ p ∧ x ≠ u ∧ x ≠ b := by grind
  have hr : ∀ x ∈ r, x ≠ p ∧ x ≠ u ∧ x ≠ b := by grind
  obtain ⟨m', hlink, hp', hu', hoff⟩ := link_linked hp hnb hnu hup' hub
  have hwu : Walk m' (some u) (u :: r) := by
    have hsuffix : Walk (w.raised p t e).mem w.head ((l₁ ++ p :: k) ++ u :: r) := by
      rw [List.append_assoc, List.cons_append]
      exact hc.walk
    refine hsuffix.suffix.congr ?_
    intro x hx n hn
    rcases List.mem_cons.mp hx with rfl | hx
    · obtain rfl := Option.some.inj (hnu.symm.trans hn)
      exact ⟨_, hu', rfl⟩
    · obtain ⟨hxp, hxu, hxb⟩ := hr x hx
      exact ⟨n, (hoff x hxp hxu hxb).trans hn, rfl⟩
  refine ⟨{ w.raised p t e with mem := m' }, _, ?_, hp', hb.symm, ?_⟩
  · rw [heq, hb, List.head?_cons, SortTimerLst.insertLoop, Mem.deref_eq hp, ok_bind, Mem.deref_eq hnu,
      ok_bind, if_pos hlater, hlink]
    rfl
  · exact hc.walk.detour (fun x hx => hoff x (hl₁ x hx).1 (hl₁ x hx).2.1 (hl₁ x hx).2.2) hp' hwu

/-- Then the list does not hold the same timers any more. If nothing was in between, `p` is its own
predecessor. -/
theorem moved_not_kept {w' : SortTimerLst} {l' : List Ptr} (hp : p ∉ l₁)
    (hn : w'.mem.cells p = some n) (hprev : n.prev = (p :: k).getLast?)
    (hwalk : Walk w'.mem w'.head (l₁ ++ p :: u :: r)) (hw' : Holds w' l') :
    ¬ l'.Perm (l₁ ++ p :: (k ++ u :: r)) := by
  intro hperm
  obtain rfl : l' = l₁ ++ p :: u :: r := hw'.chain.walk.unique hwalk
  have hlen := hperm.length_eq
  simp only [List.length_append, List.length_cons] at hlen
  obtain rfl : k = [] := List.length_eq_zero_iff.mp (by omega)
  obtain ⟨n', hn', hprev', -⟩ := hw'.chain.cell
  obtain rfl := Option.some.inj (hn.symm.trans hn')
  have hlast : l₁.getLast? = some p := hprev'.symm.trans hprev
  exact hp (List.mem_of_getLast? hlast)

/-- If nothing was changed, the list is in order just if no timer behind `p` expires before `e`. -/
theorem unmoved_holds_iff {t : UtilTimer} {l' : List Ptr} (hw : Holds w (l₁ ++ p :: l₂))
    (ht : w.mem.cells p = some t) (hup : t.expire ≤ e) :
    Holds (w.raised p t e) l' ↔ l' = l₁ ++ p :: l₂ ∧ ∀ x ∈ l₂, e ≤ expireOf w.mem x := by
  obtain ⟨hasc₁, hasc₂, hcross⟩ := ascending_append.mp hw.ascending
  have hc := raised_chain (e := e) hw ht
  have hkey : ∀ x ∈ l₁ ++ l₂, expireOf (w.raised p t e).mem x = expireOf w.mem x :=
    fun x hx => expireOf_raised hw hx
  constructor
  · intro hw'
    obtain rfl : l' = l₁ ++ p :: l₂ := hw'.chain.walk.unique hc.walk
    refine ⟨rfl, fun x hx => ?_⟩
    obtain ⟨-, hasc, -⟩ := ascending_append.mp hw'.ascending
    have hle := List.rel_of_pairwise_cons hasc hx
    rwa [expireOf_raised_self, hkey x (List.mem_append_right _ hx)] at hle
  · rintro ⟨rfl, hle⟩
    refine ⟨hc, hw.tail, ?_, raised_armed hw ht⟩
    have hsame : ∀ k, (∀ x ∈ k, x ∈ l₁ ++ l₂) → Ascending (expireOf w.mem) k →
        Ascending (expireOf (w.raised p t e).mem) k := by
      intro k hk hasc
      refine hasc.imp_of_mem ?_
      intro x y hx hy hxy
      rw [hkey x (hk x hx), hkey y (hk y hy)]
      exact hxy
    refine ascending_append.mpr ⟨hsame l₁ (by simp +contextual) hasc₁, ?_, ?_⟩
    · refine List.pairwise_cons.mpr ⟨fun x hx => ?_,
        hsame l₂ (by simp +contextual) (List.pairwise_cons.mp hasc₂).2⟩
      rw [expireOf_raised_self, hkey x (List.mem_append_right _ hx)]
      exact hle x hx
    · intro x hx y hy
      rw [hkey x (List.mem_append_left _ hx)]
      have hxp := hcross x hx p List.mem_cons_self
      rw [expireOf_eq ht] at hxp
      rcases List.mem_cons.mp hy with rfl | hy
      · rw [expireOf_raised_self]
        omega
      · rw [hkey y (List.mem_append_right _ hy)]
        exact hcross x hx y (List.mem_cons_of_mem _ hy)

/-- A tick only looks at the first timer, if that one is not due. -/
theorem tick_early {l : List Ptr} {cur : Int} (hc : Chain w.mem w.head (p :: l))
    (hp : cur < expireOf w.mem p) : w.tick cur = .ok (w, []) := by
  obtain ⟨hhead, n, hn, -⟩ := hc.walk
  rw [expireOf_eq hn] at hp
  simp only [SortTimerLst.tick, SortTimerLst.tickLoop, hhead, Mem.deref_eq hn, ok_bind, if_pos hp]
  rfl

/-- **The same timers are in the list, and it is in order, exactly if all those behind `p` expire at
the very time `p` was given.** -/
theorem addTimer_kept_iff {t : UtilTimer} (hw : Holds w (l₁ ++ p :: l₂))
    (ht : w.mem.cells p = some t) (hup : t.expire ≤ e) :
    (∃ w' l', (w.raised p t e).addTimer (some p) = .ok w' ∧ Holds w' l' ∧ l'.Perm (l₁ ++ p :: l₂)) ↔
      ∀ x ∈ l₂, expireOf w.mem x = e := by
  cases hfind : l₂.find? (e < expireOf w.mem ·) with
  | none =>
      have hge : ∀ x ∈ l₂, ¬ e < expireOf w.mem x := by simpa using hfind
      rw [addTimer_unmoved hw ht hup hge]
      constructor
      · rintro ⟨w', l', heq, hw', -⟩ x hx
        obtain rfl := Except.ok.inj heq
        have hle := ((unmoved_holds_iff hw ht hup).mp hw').2 x hx
        have := hge x hx
        omega
      · intro h
        exact ⟨_, _, rfl, (unmoved_holds_iff hw ht hup).mpr ⟨rfl, fun x hx => (h x hx).ge⟩,
          List.Perm.refl _⟩
  | some u =>
      obtain ⟨hu, k, r, rfl, hk⟩ := List.find?_eq_some_iff_append.mp hfind
      simp only [decide_eq_true_eq, Bool.not_eq_true', decide_eq_false_iff_not] at hu hk
      obtain ⟨w', n, heq, hn, hprev, hwalk⟩ := addTimer_moved hw ht hup hk hu
      constructor
      · rintro ⟨w'', l', heq', hw'', hperm⟩
        obtain rfl := Except.ok.inj (heq.symm.trans heq')
        exact absurd hperm (moved_not_kept hw.chain.nodup_middle.1 hn hprev hwalk hw'')
      · intro h
        have := h u (by simp)
        omega

namespace Server

/-- The timers `l` are those of the list after the refresh, which is in order; a later tick at any time
`cur` calls the due ones among them. -/
def Refreshed (p : Server) (now : Int) (fd : Nat) (l : List Ptr) : Prop :=
  ∃ e l', p.refresh now fd = .ok e ∧ Holds e.prog.lst l' ∧ l'.Perm l ∧
    ∀ cur, ∃ w calls, e.prog.lst.tick cur = .ok (w, calls) ∧
      ∀ q ∈ l, expireOf e.prog.lst.mem q ≤ cur → q ∈ calls.map Call.timer

variable {s : Server} {fd : Nat} {now : Int}

/-- The effect of a refresh, given the list it leads to. -/
def prolonged (s : Server) (lst : SortTimerLst) : Effect Server where
  prog := { s with lst := lst }
  closes := []
  alarm := none

theorem refresh_eq {t : UtilTimer} (htimer : (s.users fd).timer = some p)
    (ht : s.lst.mem.cells p = some t) :
    s.refresh now fd = (do
      let lst ← (s.lst.raised p t (now + 3 * timeslot)).addTimer (some p)
      return s.prolonged lst) := by
  simp only [refresh, htimer, Mem.modify_eq ht, ok_bind]
  rfl

theorem refreshed_iff_addTimer {t : UtilTimer} {l : List Ptr} (htimer : (s.users fd).timer = some p)
    (ht : s.lst.mem.cells p = some t) :
    s.Refreshed now fd l ↔
      ∃ w l', (s.lst.raised p t (now + 3 * timeslot)).addTimer (some p) = .ok w ∧ Holds w l' ∧
        l'.Perm l := by
  constructor
  · rintro ⟨e, l', heq, hw, hperm, -⟩
    rw [refresh_eq htimer ht] at heq
    obtain ⟨lst, hadd, heq⟩ := bind_eq_ok.mp heq
    obtain rfl := Except.ok.inj heq
    exact ⟨lst, l', hadd, hw, hperm⟩
  · rintro ⟨lst, l', hadd, hw, hperm⟩
    refine ⟨s.prolonged lst, l', ?_, hw, hperm, ?_⟩
    · rw [refresh_eq htimer ht, hadd, ok_bind]
      rfl
    · intro cur
      obtain ⟨w, calls, rest, htick, hticked⟩ := tick_ticked hw cur
      refine ⟨w, calls, htick, fun q hq hdue => ?_⟩
      rw [hticked.filter_due.1, List.mem_filter]
      exact ⟨hperm.mem_iff.mpr hq, decide_eq_true hdue⟩

/-- **A refresh that does not put the timer earlier leaves the list well-formed, in order and with the
same timers exactly if all the timers behind it expire at the very time it was given**, for instance if
there are none. -/
theorem refresh_kept_iff (hw : Holds s.lst (l₁ ++ p :: l₂)) (htimer : (s.users fd).timer = some p)
    (hup : expireOf s.lst.mem p ≤ now + 3 * timeslot) :
    s.Refreshed now fd (l₁ ++ p :: l₂) ↔
      ∀ q ∈ l₂, expireOf s.lst.mem q = now + 3 * timeslot := by
  obtain ⟨t, ht, -⟩ := hw.armed p (by simp)
  rw [expireOf_eq ht] at hup
  rw [refreshed_iff_addTimer htimer ht]
  exact addTimer_kept_iff hw ht hup

/-- A list of two timers: 2, which expires at 16, and 1, at 20. -/
theorem two_timers : ∃ w : Session, Session.machine.Reachable w ∧ Holds w.lst [2, 1] ∧
    expireOf w.lst.mem 2 = 16 ∧ expireOf w.lst.mem 1 = 20 := by
  obtain ⟨w, hr, hs⟩ := Machine.Reachable.of_replay (M := Session.machine)
    [.add 1 20 cbFunc (some 7), .add 2 16 cbFunc (some 8)]
    (fun w => (w.lst.linked, w.lst.linked.map (expireOf w.lst.mem))) rfl
    (b := ([2, 1], [16, 20])) (by decide +kernel)
  obtain ⟨hlinked, hexp⟩ := Prod.mk.inj hs
  have hw := holds_of_reachable hr
  rw [hlinked] at hw hexp
  simp only [List.map_cons, List.map_nil, List.cons.injEq, and_true] at hexp
  exact ⟨w, hr, hw, hexp.1, hexp.2⟩

/-- The client with the later of two timers sends something. -/
theorem refresh_kept_last :
    ∃ (s : Server) (fd : Nat), Holds s.lst [2, 1] ∧ (s.users fd).timer = some 1 ∧
      s.Refreshed 10 fd [2, 1] := by
  obtain ⟨w, -, hw, -, h1⟩ := two_timers
  have hw : Holds w.lst ([2] ++ 1 :: []) := hw
  have hup : expireOf w.lst.mem 1 ≤ 10 + 3 * timeslot := by
    rw [h1]
    decide
  let s : Server := { lst := w.lst, users := fun _ => { sockFd := 7, timer := some 1 } }
  have htimer : (s.users 7).timer = some 1 := rfl
  exact ⟨s, 7, hw, htimer, (refresh_kept_iff hw htimer hup).mpr (by simp)⟩

/-- The client with the earlier of two timers sends something at 10. Its timer now expires at 25 and
stays in front of the other: at 22 nothing is called, although the other has been due since 20. -/
theorem refresh_kept_first_fails :
    ∃ (s : Server) (fd : Nat), Holds s.lst [2, 1] ∧ (s.users fd).timer = some 2 ∧
      expireOf s.lst.mem 2 ≤ 10 + 3 * timeslot ∧ ¬ s.Refreshed 10 fd [2, 1] ∧
      ∃ e w, s.refresh 10 fd = .ok e ∧ expireOf e.prog.lst.mem 1 = 20 ∧
        e.prog.lst.tick 22 = .ok (w, []) := by
  obtain ⟨w, -, hw, h2, h1⟩ := two_timers
  have hw : Holds w.lst ([] ++ 2 :: [1]) := hw
  obtain ⟨t, ht, -⟩ := hw.armed 2 (by simp)
  have hup : t.expire ≤ 10 + 3 * timeslot := by
    rw [← expireOf_eq ht, h2]
    decide
  have hadd := addTimer_unmoved hw ht hup (by
    intro x hx
    rw [List.mem_singleton.mp hx, h1]
    decide)
  let s : Server := { lst := w.lst, users := fun _ => { sockFd := 8, timer := some 2 } }
  refine ⟨s, 8, hw, rfl, ?_, ?_, ?_⟩
  · show expireOf w.lst.mem 2 ≤ _
    rw [h2]
    decide
  · rw [refreshed_iff_addTimer rfl ht, hadd]
    rintro ⟨w', l', heq, hw', -⟩
    obtain rfl := Except.ok.inj heq
    have hle := ((unmoved_holds_iff hw ht hup).mp hw').2 1 (by simp)
    rw [h1] at hle
    exact absurd hle (by decide)
  · refine ⟨s.prolonged (w.lst.raised 2 t (10 + 3 * timeslot)), w.lst.raised 2 t (10 + 3 * timeslot),
      ?_, ?_, ?_⟩
    · rw [refresh_eq rfl ht, hadd, ok_bind]
      rfl
    · exact (expireOf_raised hw (by simp)).trans h1
    · apply tick_early (raised_chain hw ht)
      rw [expireOf_raised_self]
      decide

end Server

end LinuxServer.SortedList
