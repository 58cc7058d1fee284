import LinuxServer.SortedList.Refinement
import LinuxServer.Library.Machine

/-!
# Whole runs of the sorted timer list

A session adds fresh timers, raises and adjusts linked ones, deletes and ticks. Its log says which
timers were added and neither deleted nor fired since. They ought to be the ones linked from `head`.

`add_timer` and `adjust_timer` put a timer in front of the first one that expires later. If there is
none the scan runs off the end and the timer is dropped, although the list has a `tail` to append to.
`all_linked_iff` says that this is the only way to lose a timer: a run keeps all its timers exactly if
it never makes the scan fail.

What is linked is in order in any case: `shape_and_order` holds of every run, timers lost or not.
-/

namespace LinuxServer.SortedList

open Library

inductive Op where
  | add (a : Ptr) (expire : Int) (cb : Ptr) (ud : Option Ptr)
  | adjust (p : Ptr) (expire : Int)
  | del (p : Ptr)
  | tick (cur : Int)
  deriving Repr, DecidableEq

inductive Obs where
  | added (p : Ptr)
  | adjusted (p : Ptr)
  | deleted (p : Ptr)
  | ticked (calls : List Call)
  deriving Repr, DecidableEq

structure Session where
  lst : SortTimerLst
  log : List Obs

/-- The timers added and neither deleted nor fired since. -/
def pending : List Obs → List Ptr
  | [] => []
  | .added p :: log => p :: pending log
  | .adjusted _ :: log => pending log
  | .deleted p :: log => (pending log).erase p
  | .ticked calls :: log => (pending log).filter (· ∉ calls.map Call.timer)

/-- The timers linked from `head`. -/
def SortTimerLst.linked (w : SortTimerLst) : List Ptr := follow w.mem w.mem.brk w.head

namespace Session

/-- A fresh timer may be added; a linked one may be adjusted, its expiry having been raised, or
deleted. -/
def enabled (s : Session) : Op → Prop
  | .add a _ _ _ => s.lst.mem.cells a = none
  | .adjust p e => p ∈ s.lst.linked ∧ expireOf s.lst.mem p ≤ e
  | .del p => p ∈ s.lst.linked
  | .tick _ => True

def step (s : Session) : Op → Exec Session
  | .add a e cb ud => do
      let w := { s.lst with mem := s.lst.mem.new a (UtilTimer.make e (some cb) ud) }
      let w ← w.addTimer (some a)
      return { lst := w, log := .added a :: s.log }
  | .adjust p e => do
      let m ← s.lst.mem.modify (some p) fun t => { t with expire := e }
      let w ← SortTimerLst.adjustTimer { s.lst with mem := m } (some p)
      return { lst := w, log := .adjusted p :: s.log }
  | .del p => do
      let w ← s.lst.delTimer (some p)
      return { lst := w, log := .deleted p :: s.log }
  | .tick cur => do
      let (w, calls) ← s.lst.tick cur
      return { lst := w, log := .ticked calls :: s.log }

def machine : Machine Session Op where
  init s := s = { lst := SortTimerLst.make, log := [] }
  enabled := enabled
  step := step

instance (s : Session) (o : Op) : Decidable (machine.enabled s o) :=
  match o with
  | .add a _ _ _ => inferInstanceAs (Decidable (s.lst.mem.cells a = none))
  | .adjust p e => inferInstanceAs (Decidable (p ∈ s.lst.linked ∧ expireOf s.lst.mem p ≤ e))
  | .del p => inferInstanceAs (Decidable (p ∈ s.lst.linked))
  | .tick _ => inferInstanceAs (Decidable True)

/-- The timers linked from `head` are the pending ones, each linked once. -/
def AllLinked (s : Session) : Prop :=
  ∃ l, Walk s.lst.mem s.lst.head l ∧ l.Nodup ∧ l.Perm (pending s.log)

/-- The scan for the insertion point finds a timer that expires later, or is not needed: the list is
empty, or the adjusted timer is the last one. -/
def ScanSucceeds (s : Session) : Op → Prop
  | .add _ e _ _ => s.lst.linked = [] ∨ ∃ u ∈ s.lst.linked, e < expireOf s.lst.mem u
  | .adjust p e => s.lst.linked.getLast? = some p ∨ ∃ u ∈ s.lst.linked, e < expireOf s.lst.mem u
  | _ => True

instance (s : Session) (o : Op) : Decidable (ScanSucceeds s o) :=
  match o with
  | .add _ e _ _ => inferInstanceAs (Decidable (s.lst.linked = [] ∨
      ∃ u ∈ s.lst.linked, e < expireOf s.lst.mem u))
  | .adjust p e => inferInstanceAs (Decidable (s.lst.linked.getLast? = some p ∨
      ∃ u ∈ s.lst.linked, e < expireOf s.lst.mem u))
  | .del _ | .tick _ => inferInstanceAs (Decidable True)

end Session

/-! ## One step -/

variable {s s' : Session} {o : Op} {l : List Ptr} {p : Ptr} {e : Int}

theorem Holds.linked_eq {w : SortTimerLst} (hw : Holds w l) : w.linked = l :=
  hw.chain.walk.follow_eq hw.chain.length_le_brk

/-- The invariant of the runs that lose nothing. -/
def Kept (s : Session) : Prop := ∃ l, Holds s.lst l ∧ l.Perm (pending s.log)

theorem Kept.allLinked (hk : Kept s) : s.AllLinked := by
  obtain ⟨l, hw, hperm⟩ := hk
  exact ⟨l, hw.chain.walk, hw.chain.nodup, hperm⟩

/-- Adding, on a list that is well formed: the scan decides what becomes of the timer. -/
theorem add_step (hw : Holds s.lst l) (hp : s.lst.mem.cells p = none) (cb : Ptr) (ud : Option Ptr) :
    ∃ s' l', s.step (.add p e cb ud) = .ok s' ∧ s'.log = .added p :: s.log ∧ Holds s'.lst l' ∧
      (s.ScanSucceeds (.add p e cb ud) → l'.Perm (p :: l)) ∧
      (¬ s.ScanSucceeds (.add p e cb ud) → l' = l) := by
  obtain ⟨hpl, hw'⟩ := hw.new hp (UtilTimer.make e (some cb) ud)
  have hexp : ∀ x ∈ l, expireOf (s.lst.mem.new p (UtilTimer.make e (some cb) ud)) x =
      expireOf s.lst.mem x := fun x hx => expireOf_set_ne fun h => hpl (h ▸ hx)
  have hnew : (s.lst.mem.new p (UtilTimer.make e (some cb) ud)).cells p =
      some (UtilTimer.make e (some cb) ud) := Mem.cells_set_self _ _ _
  obtain ⟨w', heq, hadded, -⟩ := addTimer_holds hw' hpl hnew rfl rfl (by simp [UtilTimer.make])
  refine ⟨_, _, by simp only [Session.step, heq, ok_bind]; rfl, rfl, hadded, ?_, ?_⟩
  · intro hscan
    unfold added
    split
    · rename_i hnil
      rw [hnil]
    · rename_i hcons
      apply slotIn_perm
      have hsome := hscan.resolve_left (by rw [hw.linked_eq]; exact hcons)
      rw [hw.linked_eq] at hsome
      obtain ⟨u, hu, hlt⟩ := hsome
      refine ⟨u, hu, ?_⟩
      show expireOf _ p < expireOf _ u
      rw [expireOf_eq hnew, hexp u hu]
      exact hlt
  · intro hscan
    obtain ⟨hcons, hnone⟩ := not_or.mp hscan
    rw [hw.linked_eq] at hcons hnone
    rw [added, if_neg hcons]
    apply slotIn_lost
    intro u hu hlt
    apply hnone
    refine ⟨u, hu, ?_⟩
    have hlt : expireOf (s.lst.mem.new p (UtilTimer.make e (some cb) ud)) p <
        expireOf (s.lst.mem.new p (UtilTimer.make e (some cb) ud)) u := hlt
    rw [expireOf_eq hnew, hexp u hu] at hlt
    exact hlt

section Raise
variable {t : UtilTimer}

/-- Raising the expiry of a timer, and adjusting it. -/
theorem adjust_raised {w : SortTimerLst} {l₁ l₂ : List Ptr} (hw : Holds w (l₁ ++ p :: l₂))
    (ht : w.mem.cells p = some t) (hup : t.expire ≤ e) :
    ∃ w', SortTimerLst.adjustTimer { w with mem := w.mem.set p (some { t with expire := e }) } (some p) =
        .ok w' ∧
      Holds w' (adjusted (expireOf (w.mem.set p (some { t with expire := e }))) p l₁ l₂) := by
  obtain ⟨hp₁, hp₂, -⟩ := hw.chain.nodup_middle
  obtain ⟨-, -, hcross⟩ := ascending_append.mp hw.ascending
  have hne : ∀ x ∈ l₁ ++ l₂, x ≠ p := by
    intro x hx h
    rcases List.mem_append.mp hx with hx | hx
    · exact hp₁ (h ▸ hx)
    · exact hp₂ (h ▸ hx)
  obtain ⟨w', heq, hadj, -⟩ := adjustTimer_holds
    (w := { w with mem := w.mem.set p (some { t with expire := e }) })
    (hw.chain.congr (by
      intro x _ n hn
      by_cases hxp : x = p
      · subst hxp
        obtain rfl := Option.some.inj (ht.symm.trans hn)
        exact ⟨_, Mem.cells_set_self _ _ _, rfl, rfl⟩
      · exact ⟨n, (Mem.cells_set_ne _ _ hxp).trans hn, rfl, rfl⟩))
    (hw.tail (by simp))
    (by
      have hsub := hw.ascending.sublist
        (List.Sublist.append_left (List.sublist_cons_self p l₂) l₁)
      apply hsub.imp_of_mem
      intro x y hx hy hle
      show expireOf _ x ≤ expireOf _ y
      rwa [expireOf_set_ne (hne x hx), expireOf_set_ne (hne y hy)])
    (by
      -- the timers before `p` were no later than it, and it has become later
      intro a ha
      show expireOf _ a ≤ expireOf _ p
      have hle := hcross a ha p List.mem_cons_self
      rw [expireOf_eq ht] at hle
      rw [expireOf_set_ne (hne a (List.mem_append_left _ ha)), expireOf_eq (Mem.cells_set_self _ _ _)]
      exact hle.trans hup)
    (by
      intro x hx
      obtain ⟨t', ht', hcb⟩ := hw.armed x hx
      by_cases hxp : x = p
      · subst hxp
        obtain rfl := Option.some.inj (ht.symm.trans ht')
        exact ⟨_, Mem.cells_set_self _ _ _, hcb⟩
      · exact ⟨t', (Mem.cells_set_ne _ _ hxp).trans ht', hcb⟩)
  exact ⟨w', heq, hadj⟩

/-- Only a timer behind `p` can be later than the new expiry of `p`. -/
theorem later_iff {w : SortTimerLst} {l₁ l₂ : List Ptr} (hw : Holds w (l₁ ++ p :: l₂))
    (ht : w.mem.cells p = some t) (hup : t.expire ≤ e) :
    (∃ u ∈ l₂, expireOf (w.mem.set p (some { t with expire := e })) p <
      expireOf (w.mem.set p (some { t with expire := e })) u) ↔
      ∃ u ∈ l₁ ++ p :: l₂, e < expireOf w.mem u := by
  obtain ⟨-, hp₂, -⟩ := hw.chain.nodup_middle
  obtain ⟨-, -, hcross⟩ := ascending_append.mp hw.ascending
  have hset : ∀ u ∈ l₂, expireOf (w.mem.set p (some { t with expire := e })) u = expireOf w.mem u :=
    fun u hu => expireOf_set_ne fun h => hp₂ (h ▸ hu)
  rw [expireOf_eq (Mem.cells_set_self _ _ _)]
  constructor
  · rintro ⟨u, hu, hlt⟩
    rw [hset u hu] at hlt
    exact ⟨u, by simp [hu], hlt⟩
  · rintro ⟨u, hu, hlt⟩
    rcases List.mem_append.mp hu with hu | hu
    · have hle := hcross u hu p List.mem_cons_self
      rw [expireOf_eq ht] at hle
      omega
    · rcases List.mem_cons.mp hu with rfl | hu
      · rw [expireOf_eq ht] at hlt
        omega
      · exact ⟨u, hu, by rwa [hset u hu]⟩

end Raise

/-- Adjusting a timer after its expiry was raised: either it moves, or it is gone. -/
theorem adjust_step (hw : Holds s.lst l) (hp : p ∈ l) (hup : expireOf s.lst.mem p ≤ e) :
    ∃ s' l', s.step (.adjust p e) = .ok s' ∧ s'.log = .adjusted p :: s.log ∧ Holds s'.lst l' ∧
      (s.ScanSucceeds (.adjust p e) → l'.Perm l) ∧
      (¬ s.ScanSucceeds (.adjust p e) → l'.length < l.length) := by
  obtain ⟨l₁, l₂, rfl⟩ := List.append_of_mem hp
  obtain ⟨t, ht, -⟩ := hw.armed p hp
  rw [expireOf_eq ht] at hup
  obtain ⟨w', heq, hadj⟩ := adjust_raised hw ht hup
  have hkey := later_iff hw ht hup
  have hlast : (l₁ ++ p :: l₂).getLast? = some p ↔ l₂ = [] :=
    getLast?_eq_iff hw.chain.nodup_middle.2.1
  refine ⟨_, _, by simp only [Session.step, Mem.modify_eq ht, heq, ok_bind]; rfl, rfl, hadj, ?_, ?_⟩
  · intro hscan
    have hscan : (s.lst.linked.getLast? = some p ∨
      ∃ u ∈ s.lst.linked, e < expireOf s.lst.mem u) := hscan
    rw [hw.linked_eq, hlast, ← hkey] at hscan
    unfold adjusted
    split
    · rename_i hnil
      rw [hnil]
    · rename_i hcons
      exact (slotIn_perm (hscan.resolve_left hcons)).append_left l₁
  · intro hscan
    have hscan : ¬ (s.lst.linked.getLast? = some p ∨
      ∃ u ∈ s.lst.linked, e < expireOf s.lst.mem u) := hscan
    rw [hw.linked_eq, hlast, ← hkey, not_or] at hscan
    obtain ⟨hcons, hnone⟩ := hscan
    rw [adjusted, if_neg hcons, slotIn_lost (by
      intro u hu hlt
      exact hnone ⟨u, hu, hlt⟩)]
    simp

theorem del_step (hw : Holds s.lst l) (hp : p ∈ l) :
    ∃ s', s.step (.del p) = .ok s' ∧ s'.log = .deleted p :: s.log ∧ Holds s'.lst (l.erase p) := by
  obtain ⟨l₁, l₂, rfl⟩ := List.append_of_mem hp
  obtain ⟨hp₁, -, -⟩ := hw.chain.nodup_middle
  obtain ⟨w', heq, hw'⟩ := delTimer_holds hw
  refine ⟨_, by simp only [Session.step, heq, ok_bind]; rfl, rfl, ?_⟩
  rw [List.erase_append_right _ hp₁, List.erase_cons_head]
  exact hw'

theorem tick_step (hw : Holds s.lst l) (cur : Int) :
    ∃ s' calls l', s.step (.tick cur) = .ok s' ∧ s'.log = .ticked calls :: s.log ∧
      Holds s'.lst l' ∧ l' = l.filter (· ∉ calls.map Call.timer) := by
  obtain ⟨w', calls, rest, heq, ht⟩ := tick_ticked hw cur
  refine ⟨_, calls, rest, by simp only [Session.step, heq, ok_bind]; rfl, rfl, ht.holds, ?_⟩
  have hnd := hw.chain.nodup
  rw [ht.split] at hnd
  obtain ⟨-, -, hdisj⟩ := List.nodup_append.mp hnd
  rw [ht.split, List.filter_append, List.filter_eq_nil_iff.mpr, List.nil_append,
    List.filter_eq_self.mpr]
  · intro x hx
    simpa using fun c hc h => hdisj x (List.mem_map.mpr ⟨c, hc, h⟩) x hx rfl
  · intro x hx
    simpa using List.mem_map.mp hx

/-! ## Shape and order

A timer that is dropped leaves a well-formed list behind, so the links are in order in every run. -/

theorem Holds.step (hw : Holds s.lst l) (he : s.enabled o) :
    ∃ s' l', s.step o = .ok s' ∧ Holds s'.lst l' ∧ ∀ p, o = .del p → l' = l.erase p := by
  cases o with
  | add p e cb ud =>
      obtain ⟨s', l', heq, -, hw', -⟩ := add_step (e := e) hw he cb ud
      exact ⟨s', l', heq, hw', fun p h => by cases h⟩
  | adjust p e =>
      obtain ⟨hp, hup⟩ := he
      rw [hw.linked_eq] at hp
      obtain ⟨s', l', heq, -, hw', -⟩ := adjust_step hw hp hup
      exact ⟨s', l', heq, hw', fun p h => by cases h⟩
  | del p =>
      have hp : p ∈ s.lst.linked := he
      rw [hw.linked_eq] at hp
      obtain ⟨s', heq, -, hw'⟩ := del_step hw hp
      refine ⟨s', _, heq, hw', ?_⟩
      intro q h
      obtain rfl := Op.del.inj h
      rfl
  | tick cur =>
      obtain ⟨s', calls, l', heq, -, hw', -⟩ := tick_step hw cur
      exact ⟨s', l', heq, hw', fun p h => by cases h⟩

theorem holds_of_reachable (hr : Session.machine.Reachable s) : Holds s.lst s.lst.linked := by
  obtain ⟨l, hw⟩ : ∃ l, Holds s.lst l := by
    apply hr.preserved
    · rintro s rfl
      exact ⟨[], Holds.make⟩
    · rintro s o ⟨l, hw⟩ he
      obtain ⟨s', l', hs', hw', -⟩ := hw.step he
      exact ⟨s', hs', l', hw'⟩
  rw [hw.linked_eq]
  exact hw

/-- **The list is well formed and sorted in every reachable state**: following `next` from `head` one
comes through `linked`, each timer once, `prev` leads back, the expiries ascend, and `tail` is the last
timer if there is one. Every operation returns, and `del_timer` takes out its timer and no other. -/
theorem shape_and_order (hr : Session.machine.Reachable s) :
    Walk s.lst.mem s.lst.head s.lst.linked ∧ Holds s.lst s.lst.linked ∧
    ∀ o, Session.machine.enabled s o → ∃ s', Session.machine.step s o = .ok s' ∧
      ∀ p, o = .del p → s'.lst.linked = s.lst.linked.erase p := by
  have hw := holds_of_reachable hr
  refine ⟨hw.chain.walk, hw, ?_⟩
  intro o he
  obtain ⟨s', l', hs', hw', hdel⟩ := hw.step he
  refine ⟨s', hs', ?_⟩
  rw [hw'.linked_eq]
  exact hdel

/-- The head of three timers is moved to the middle, a fourth one is dropped, and the new head is
deleted. -/
theorem shape_and_order_dropped :
    ∃ s, Session.machine.Reachable s ∧
      s.log = [.deleted 2, .added 4, .adjusted 3, .added 3, .added 2, .added 1] ∧
      s.lst.linked = [3, 1] ∧ Holds s.lst [3, 1] := by
  obtain ⟨s, hr, hs⟩ := Machine.Reachable.of_replay (M := Session.machine)
    [.add 1 9 1 none, .add 2 5 1 none, .add 3 2 1 none, .adjust 3 7, .add 4 9 1 none, .del 2]
    (fun s => (s.log, s.lst.linked)) rfl
    (b := ([.deleted 2, .added 4, .adjusted 3, .added 3, .added 2, .added 1], [3, 1]))
    (by decide +kernel)
  obtain ⟨hlog, hlinked⟩ := Prod.mk.inj hs
  have h := (shape_and_order hr).2.1
  rw [hlinked] at h
  exact ⟨s, hr, hlog, hlinked, h⟩

/-! ## Whole runs -/

theorem Kept.step (hk : Kept s) (he : s.enabled o) :
    ∃ s', s.step o = .ok s' ∧ (s.ScanSucceeds o ↔ s'.AllLinked) ∧ (s.ScanSucceeds o → Kept s') := by
  obtain ⟨l, hw, hperm⟩ := hk
  -- in each case the list is known; if the scan failed it is shorter than the log says
  have hiff : ∀ (s' : Session) (l' : List Ptr), Holds s'.lst l' →
      (s.ScanSucceeds o → l'.Perm (pending s'.log)) →
      (¬ s.ScanSucceeds o → l'.length < (pending s'.log).length) →
      (s.ScanSucceeds o ↔ s'.AllLinked) ∧ (s.ScanSucceeds o → Kept s') := by
    intro s' l' hw' hgood hbad
    refine ⟨⟨fun hC => Kept.allLinked ⟨l', hw', hgood hC⟩, ?_⟩, fun hC => ⟨l', hw', hgood hC⟩⟩
    rintro ⟨l'', hwalk, -, hperm'⟩
    obtain rfl := hwalk.unique hw'.chain.walk
    by_contra hC
    have hlt := hbad hC
    rw [hperm'.length_eq] at hlt
    exact Nat.lt_irrefl _ hlt
  cases o with
  | add p e cb ud =>
      obtain ⟨s', l', heq, hlog, hw', hgood, hbad⟩ := add_step (e := e) hw he cb ud
      refine ⟨s', heq, hiff s' l' hw' ?_ ?_⟩
      · intro hC
        rw [hlog]
        exact (hgood hC).trans (hperm.cons p)
      · intro hC
        rw [hlog, hbad hC, hperm.length_eq]
        exact Nat.lt_succ_self _
  | adjust p e =>
      obtain ⟨hp, hup⟩ := he
      rw [hw.linked_eq] at hp
      obtain ⟨s', l', heq, hlog, hw', hgood, hbad⟩ := adjust_step hw hp hup
      refine ⟨s', heq, hiff s' l' hw' ?_ ?_⟩
      · intro hC
        rw [hlog]
        exact (hgood hC).trans hperm
      · intro hC
        rw [hlog]
        show l'.length < (pending s.log).length
        rw [← hperm.length_eq]
        exact hbad hC
  | del p =>
      have hp : p ∈ s.lst.linked := he
      rw [hw.linked_eq] at hp
      obtain ⟨s', heq, hlog, hw'⟩ := del_step hw hp
      refine ⟨s', heq, hiff s' _ hw' ?_ (fun hC => absurd trivial hC)⟩
      intro _
      rw [hlog]
      exact hperm.erase p
  | tick cur =>
      obtain ⟨s', calls, l', heq, hlog, hw', rfl⟩ := tick_step hw cur
      refine ⟨s', heq, hiff s' _ hw' ?_ (fun hC => absurd trivial hC)⟩
      intro _
      rw [hlog]
      exact hperm.filter _

/-- A run of the list loses no timer exactly if all its scans succeed. A run that loses none can
always go on. -/
theorem all_linked_iff {h : List (Session × Op)} (hr : Session.machine.Run h s) :
    (Machine.Throughout Session.AllLinked h s ↔ Machine.Always Session.ScanSucceeds h) ∧
    (Machine.Always Session.ScanSucceeds h →
      ∀ o, Session.machine.enabled s o → ∃ s', Session.machine.step s o = .ok s') := by
  have hstart : ∀ s, Session.machine.init s → Kept s := by
    rintro s rfl
    exact ⟨[], Holds.make, List.Perm.refl _⟩
  have hstep : ∀ s o s', Kept s → Session.machine.enabled s o → s.ScanSucceeds o →
      Session.machine.step s o = .ok s' → Kept s' := by
    intro s o s' hk he hC hs
    exact (Machine.of_returns (hk.step he) hs).2 hC
  constructor
  · refine hr.exact hstart (fun s hk => hk.allLinked) hstep ?_
    intro s o s' hk he hs hlinked
    exact (Machine.of_returns (hk.step he) hs).1.mpr hlinked
  · intro hC o he
    obtain ⟨s', hs', -⟩ := (hr.guarded hstart hstep hC).2.step he
    exact ⟨s', hs'⟩

/-- Three timers, each added before the others, and the earliest one moved between them. -/
theorem all_linked_backwards :
    ∃ h s, Session.machine.Run h s ∧ s.log = [.adjusted 3, .added 3, .added 2, .added 1] ∧
      s.lst.linked = [2, 3, 1] ∧ Machine.Throughout Session.AllLinked h s := by
  obtain ⟨h, s, hr, -, hs⟩ := Machine.Run.of_replay
    (M := Session.machine.restrict Session.ScanSucceeds)
    [.add 1 9 1 none, .add 2 5 1 none, .add 3 2 1 none, .adjust 3 7]
    (fun s => (s.log, s.lst.linked)) rfl
    (b := ([.adjusted 3, .added 3, .added 2, .added 1], [2, 3, 1])) (by decide +kernel)
  obtain ⟨hr, hC⟩ := hr.of_restrict
  obtain ⟨hlog, hlinked⟩ := Prod.mk.inj hs
  exact ⟨h, s, hr, hlog, hlinked, (all_linked_iff hr).1.mpr hC⟩

/-- Two timers in the order of their expiries: the second one is never linked. -/
theorem all_linked_forwards_fails :
    ∃ h s, Session.machine.Run h s ∧ h.map Prod.snd = [.add 1 5 1 none, .add 2 6 1 none] ∧
      ¬ s.AllLinked := by
  obtain ⟨h, s, hr, has, hs⟩ := Machine.Run.of_replay (M := Session.machine)
    [.add 1 5 1 none, .add 2 6 1 none]
    (fun s => (s.log, s.lst.head, s.lst.mem.cells 1)) rfl
    (b := ([.added 2, .added 1], some 1, some (UtilTimer.make 5 (some 1) none)))
    (by decide +kernel)
  simp only [Prod.mk.injEq] at hs
  obtain ⟨hlog, hhead, hcell⟩ := hs
  refine ⟨h, s, hr, has, ?_⟩
  rintro ⟨l, hwalk, -, hperm⟩
  have hone : Walk s.lst.mem s.lst.head [1] := ⟨hhead, _, hcell, rfl⟩
  rw [hwalk.unique hone, hlog] at hperm
  cases hperm.length_eq

end LinuxServer.SortedList
