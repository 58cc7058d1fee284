import LinuxServer.Wheel.Basic

/-!
# The wheel as sixty lists

`Dial` forgets the pointers: a slot is the list of its timers, newest first. `Refines w a` says that
the pointer structure `w` is a representation of `a`; it fixes the heap completely, since it also says
that no cell is live that hangs in no slot.

Each operation of `TimeWheel` is shown to return, and to return a representation of what the
list-level operation computes (`addTimer_refines`, `arm_refines`, `delTimer_refines`,
`tick_refines`). Everything else about the wheel is then proved about lists.
-/

namespace LinuxServer.Wheel

open Library

/-! ## Lists of timers -/

structure Entry where
  timer : Ptr
  rotation : Nat
  cbFunc : Option Ptr
  userData : Option Ptr
  deriving Repr, DecidableEq

/-- What the cell of an entry that hangs in slot `s` holds besides its links. -/
def Entry.cell (s : Nat) (e : Entry) : TwTimer :=
  { rotation := e.rotation, timeSlot := s, cbFunc := e.cbFunc, userData := e.userData,
    next := none, prev := none }

def Entry.call (e : Entry) : Option Call :=
  e.cbFunc.map fun cb => { timer := e.timer, cbFunc := cb, userData := e.userData }

/-- The hand passes a timer that still has turns to wait. -/
def Entry.turn (e : Entry) : Entry := { e with rotation := e.rotation - 1 }

/-- The entry that `add_timer(timeout)` makes. -/
def Entry.made (timeout : Int) (p : Ptr) (cb ud : Option Ptr) : Entry :=
  { timer := p, rotation := TimeWheel.ticksOf timeout / N, cbFunc := cb, userData := ud }

structure Dial where
  slots : Nat → List Entry
  curSlot : Nat

/-- The entries of a slot that stay when the hand passes, and those that are due. -/
def kept (l : List Entry) : List Entry := (l.filter (0 < ·.rotation)).map Entry.turn

def due (l : List Entry) : List Entry := l.filter (·.rotation = 0)

namespace Dial

def empty : Dial := { slots := fun _ => [], curSlot := 0 }

def timers (a : Dial) (s : Nat) : List Ptr := (a.slots s).map Entry.timer

/-- The slot a timeout set now falls into. -/
def target (a : Dial) (timeout : Int) : Nat := (a.curSlot + TimeWheel.ticksOf timeout % N) % N

def setSlot (a : Dial) (s : Nat) (l : List Entry) : Dial :=
  { a with slots := Function.update a.slots s l }

def add (a : Dial) (timeout : Int) (p : Ptr) (cb ud : Option Ptr) : Dial :=
  a.setSlot (a.target timeout) (Entry.made timeout p cb ud :: a.slots (a.target timeout))

def del (a : Dial) (p : Ptr) : Dial :=
  { a with slots := fun s => (a.slots s).filter (·.timer ≠ p) }

def tick (a : Dial) : Dial :=
  { slots := Function.update a.slots a.curSlot (kept (a.slots a.curSlot))
    curSlot := (a.curSlot + 1) % N }

/-- The calls a tick makes, in the order of the slot's list. -/
def calls (a : Dial) : List Call := (due (a.slots a.curSlot)).filterMap Entry.call

/-- Every timer has a function to call. -/
def Armed (a : Dial) : Prop := ∀ s < N, ∀ e ∈ a.slots s, e.cbFunc ≠ none

@[simp] theorem setSlot_self (a : Dial) (s : Nat) (l : List Entry) : (a.setSlot s l).slots s = l := by
  simp [setSlot]

/-- The other slots stay. -/
theorem setSlot_ne (a : Dial) {s t : Nat} (l : List Entry) (h : t ≠ s) :
    (a.setSlot s l).slots t = a.slots t := by
  simp [setSlot, h]

@[simp] theorem setSlot_curSlot (a : Dial) (s : Nat) (l : List Entry) :
    (a.setSlot s l).curSlot = a.curSlot := rfl

/-- Putting back what is there. -/
theorem setSlot_slots_self (a : Dial) (s : Nat) : a.setSlot s (a.slots s) = a := by
  simp [setSlot]

theorem setSlot_setSlot (a : Dial) (s : Nat) (l l' : List Entry) :
    (a.setSlot s l).setSlot s l' = a.setSlot s l' := by
  simp [setSlot]

/-- A timer gets a slot of the wheel. -/
theorem target_lt (a : Dial) (timeout : Int) : a.target timeout < N := Nat.mod_lt _ (by decide)

end Dial

/-! ## Representation -/

structure Refines (w : TimeWheel) (a : Dial) : Prop where
  cur : w.curSlot = a.curSlot
  cur_lt : a.curSlot < N
  chain : ∀ s < N, Chain w.mem (w.slots s) (a.timers s)
  cell : ∀ s < N, ∀ e ∈ a.slots s, (w.mem.cells e.timer).map Linked.payload = some (e.cell s)
  live : ∀ p, w.mem.cells p ≠ none → ∃ s < N, p ∈ a.timers s

variable {w : TimeWheel} {a : Dial} {s : Nat} {p : Ptr} {e : Entry} {l : List Entry}

/-- A new wheel is empty. -/
theorem Refines.empty : Refines TimeWheel.make Dial.empty where
  cur := rfl
  cur_lt := by decide
  chain := fun _ _ => chain_nil _
  cell := by
    intro s _ e he
    cases he
  live := by
    intro p hp
    exact absurd rfl hp

/-- A timer in a slot exists. -/
theorem Refines.mem_live (hr : Refines w a) (hs : s < N) (hp : p ∈ a.timers s) :
    w.mem.cells p ≠ none :=
  (hr.chain s hs).live p hp

/-- A fresh address hangs in no slot. -/
theorem Refines.fresh (hr : Refines w a) (hp : w.mem.cells p = none) (hs : s < N) :
    p ∉ a.timers s :=
  fun h => hr.mem_live hs h hp

/-- The cell of a timer says in which slot it hangs, so no timer hangs in two. -/
theorem Refines.slot_unique (hr : Refines w a) {t : Nat} (hs : s < N) (ht : t < N)
    (hps : p ∈ a.timers s) (hpt : p ∈ a.timers t) : s = t := by
  obtain ⟨e, he, rfl⟩ := List.mem_map.mp hps
  obtain ⟨e', he', hee⟩ := List.mem_map.mp hpt
  have h₁ := hr.cell s hs e he
  have h₂ := hr.cell t ht e' he'
  rw [hee, h₁] at h₂
  exact congrArg TwTimer.timeSlot (Option.some.inj h₂)

/-- Only the slots of the wheel count. -/
theorem Refines.congr (hr : Refines w a) {b : Dial} (hc : b.curSlot = a.curSlot)
    (hb : ∀ s < N, b.slots s = a.slots s) : Refines w b where
  cur := hr.cur.trans hc.symm
  cur_lt := by rw [hc]; exact hr.cur_lt
  chain := by
    intro s hs
    unfold Dial.timers
    rw [hb s hs]
    exact hr.chain s hs
  cell := by
    intro s hs e he
    rw [hb s hs] at he
    exact hr.cell s hs e he
  live := by
    intro p hp
    obtain ⟨s, hs, hps⟩ := hr.live p hp
    refine ⟨s, hs, ?_⟩
    unfold Dial.timers
    rw [hb s hs]
    exact hps

/-- Replacing the list of one slot: the new cells have to represent the new list, the cells of the
other slots have to stay, and nothing else may be live. -/
theorem Refines.replace (hr : Refines w a) (hs : s < N) {mem : Mem TwTimer} {h : Option Ptr}
    (chain : Chain mem h (l.map Entry.timer))
    (cell : ∀ e ∈ l, (mem.cells e.timer).map Linked.payload = some (e.cell s))
    (frame : ∀ t < N, t ≠ s → ∀ p ∈ a.timers t, mem.cells p = w.mem.cells p)
    (live : ∀ p, mem.cells p ≠ none → p ∉ l.map Entry.timer → ∃ t < N, t ≠ s ∧ p ∈ a.timers t) :
    Refines { mem := mem, slots := Function.update w.slots s h, curSlot := w.curSlot }
      (a.setSlot s l) where
  cur := hr.cur
  cur_lt := hr.cur_lt
  chain := by
    intro t ht
    by_cases hts : t = s
    · subst hts
      simpa [Dial.timers] using chain
    · simp only [Dial.timers, Dial.setSlot_ne a l hts, Function.update_of_ne hts]
      exact (hr.chain t ht).of_eq (frame t ht hts)
  cell := by
    intro t ht e he
    by_cases hts : t = s
    · subst hts
      rw [Dial.setSlot_self] at he
      exact cell e he
    · rw [Dial.setSlot_ne a l hts] at he
      have hmem : e.timer ∈ a.timers t := List.mem_map_of_mem he
      show (mem.cells e.timer).map Linked.payload = _
      rw [frame t ht hts _ hmem]
      exact hr.cell t ht e he
  live := by
    intro p hp
    by_cases hpl : p ∈ l.map Entry.timer
    · exact ⟨s, hs, by simpa [Dial.timers] using hpl⟩
    · obtain ⟨t, ht, hts, hpt⟩ := live p hp hpl
      refine ⟨t, ht, ?_⟩
      unfold Dial.timers
      rw [Dial.setSlot_ne a l hts]
      exact hpt

/-! ## Slots -/

/-- Reading a slot is in bounds. -/
theorem getSlot_eq (w : TimeWheel) (hs : s < N) : w.getSlot s = .ok (w.slots s) := if_pos hs

/-- Writing a slot is in bounds. -/
theorem setSlot_eq (w : TimeWheel) (hs : s < N) (h : Option Ptr) :
    w.setSlot s h = .ok { w with slots := Function.update w.slots s h } := if_pos hs

/-! ## Adding a timer -/

/-- A fresh cell at the front of a slot's list represents the list with one more entry. -/
theorem Refines.cons (hr : Refines w a) (hs : s < N) (hp : w.mem.cells p = none) {mem : Mem TwTimer}
    (he : e.timer = p) (chain : Chain mem (some p) (p :: a.timers s))
    (new : (mem.cells p).map Linked.payload = some (e.cell s))
    (old : ∀ q, q ≠ p → (mem.cells q).map Linked.payload = (w.mem.cells q).map Linked.payload)
    (off : ∀ q, q ≠ p → q ∉ a.timers s → mem.cells q = w.mem.cells q) :
    Refines { mem := mem, slots := Function.update w.slots s (some p), curSlot := w.curSlot }
      (a.setSlot s (e :: a.slots s)) := by
  have hfresh : ∀ t < N, ∀ q ∈ a.timers t, q ≠ p := by
    rintro t ht q hq rfl
    exact hr.fresh hp ht hq
  apply hr.replace hs
  · simpa [Dial.timers, he] using chain
  · intro e' he'
    rcases List.mem_cons.mp he' with rfl | he'
    · rw [he]
      exact new
    · have hmem : e'.timer ∈ a.timers s := List.mem_map_of_mem he'
      rw [old _ (hfresh s hs _ hmem)]
      exact hr.cell s hs e' he'
  · intro t ht hts q hq
    exact off q (hfresh t ht q hq) (fun h => hts (hr.slot_unique ht hs hq h))
  · intro q hq hql
    rw [List.map_cons, he, List.mem_cons, not_or] at hql
    rw [off q hql.1 hql.2] at hq
    obtain ⟨t, ht, hqt⟩ := hr.live q hq
    refine ⟨t, ht, ?_, hqt⟩
    rintro rfl
    exact hql.2 hqt

/-- `add_timer` puts the timer in front of its slot. -/
theorem addTimer_refines (hr : Refines w a) (hp : w.mem.cells p = none) {timeout : Int}
    (ht : 0 ≤ timeout) :
    ∃ w', w.addTimer timeout p = .ok (w', some p) ∧
      Refines w' (a.add timeout p none none) := by
  have hs : a.target timeout < N := a.target_lt timeout
  have hts : (w.curSlot + TimeWheel.ticksOf timeout % N) % N = a.target timeout := by
    rw [hr.cur]; rfl
  generalize hrot : TimeWheel.ticksOf timeout / N = rot
  have hadd : a.add timeout p none none = a.setSlot (a.target timeout)
      ({ timer := p, rotation := rot, cbFunc := none, userData := none } ::
        a.slots (a.target timeout)) := by
    rw [← hrot]; rfl
  have hpl := hr.fresh hp hs
  have hch := hr.chain _ hs
  unfold TimeWheel.addTimer
  rw [if_neg (by omega)]
  dsimp only
  rw [hts, hrot, hadd]
  generalize a.target timeout = s at hs hpl hch ⊢
  set n := TwTimer.make rot s with hn
  have hpm : (w.mem.new p n).cells p = some n := Mem.cells_set_self _ _ _
  simp only [getSlot_eq _ hs, ok_bind]
  cases hl : a.slots s with
  | nil =>
      have hnil : a.timers s = [] := by simp [Dial.timers, hl]
      have hhead : w.slots s = none := by rw [hch.head, hnil]; rfl
      simp only [hhead, setSlot_eq _ hs, ok_bind]
      refine ⟨_, rfl, ?_⟩
      rw [← hl]
      apply hr.cons hs hp rfl
      · rw [hnil]
        exact chain_singleton hpm rfl rfl
      · rw [hpm]; rfl
      · intro q hq
        rw [Mem.new, Mem.cells_set_ne _ _ hq]
      · intro q hq _
        rw [Mem.new, Mem.cells_set_ne _ _ hq]
  | cons e₀ l =>
      have hcons : a.timers s = e₀.timer :: l.map Entry.timer := by simp [Dial.timers, hl]
      have hhead : w.slots s = some e₀.timer := by rw [hch.head, hcons]; rfl
      rw [hcons] at hpl hch
      rw [hhead] at hch
      have hne : e₀.timer ≠ p := fun e => hpl (by simp [e])
      obtain ⟨k, hk⟩ := Option.ne_none_iff_exists'.mp (hch.live e₀.timer (by simp))
      have hch' : Chain (w.mem.new p n) (some e₀.timer) (e₀.timer :: l.map Entry.timer) :=
        hch.set_of_notMem hpl _
      have hk' : (w.mem.new p n).cells e₀.timer = some k := by
        rw [Mem.new, Mem.cells_set_ne _ _ hne, hk]
      have hk'' : ((w.mem.new p n).set p (some { n with next := some e₀.timer })).cells e₀.timer =
          some k := by
        rw [Mem.cells_set_ne _ _ hne, hk']
      simp only [hhead, setSlot_eq _ hs, Mem.modify_eq hpm, Mem.modify_eq hk'', ok_bind]
      refine ⟨_, rfl, ?_⟩
      rw [← hl]
      apply hr.cons hs hp rfl
      · rw [hcons]
        exact hch'.push_front hpl rfl hk'
      · rw [Mem.cells_set_ne _ _ hne.symm, Mem.cells_set_self]
        rfl
      · intro q hq
        by_cases hqe : q = e₀.timer
        · subst hqe
          rw [Mem.cells_set_self, hk]
          rfl
        · rw [Mem.cells_set_ne _ _ hqe, Mem.cells_set_ne _ _ hq, Mem.new, Mem.cells_set_ne _ _ hq]
      · intro q hq hql
        have hqe : q ≠ e₀.timer := by
          rintro rfl
          exact hql (by rw [hcons]; exact List.mem_cons_self)
        rw [Mem.cells_set_ne _ _ hqe, Mem.cells_set_ne _ _ hq, Mem.new, Mem.cells_set_ne _ _ hq]

/-- Changing what a cell holds besides its links changes the entry and nothing else. -/
theorem Refines.update_cell (hr : Refines w a) (hs : s < N) {l₁ l₂ : List Entry} {b : Entry}
    (hl : a.slots s = l₁ ++ e :: l₂) (he : b.timer = e.timer) {n k : TwTimer}
    (hn : w.mem.cells e.timer = some n) (hnext : k.next = n.next) (hprev : k.prev = n.prev)
    (hcell : Linked.payload k = b.cell s) :
    Refines { w with mem := w.mem.set e.timer (some k) } (a.setSlot s (l₁ ++ b :: l₂)) := by
  have htimers : (l₁ ++ b :: l₂).map Entry.timer = a.timers s := by
    simp [Dial.timers, hl, he]
  have hin : e.timer ∈ a.timers s := by simp [Dial.timers, hl]
  have hne : ∀ d ∈ l₁ ++ l₂, d.timer ≠ e.timer := by
    have hnd := (hr.chain s hs).nodup
    rw [Dial.timers, hl, List.map_append, List.map_cons, List.nodup_middle, List.nodup_cons] at hnd
    intro d hd heq
    apply hnd.1
    rw [← List.map_append, ← heq]
    exact List.mem_map_of_mem hd
  have hupd : w.slots = Function.update w.slots s (w.slots s) := by simp
  rw [hupd]
  apply hr.replace hs
  · rw [htimers]
    apply (hr.chain s hs).congr
    intro q _ c hc
    by_cases hq : q = e.timer
    · subst hq
      obtain rfl : c = n := Option.some.inj (hc.symm.trans hn)
      exact ⟨k, Mem.cells_set_self _ _ _, hnext, hprev⟩
    · exact ⟨c, by rw [Mem.cells_set_ne _ _ hq, hc], rfl, rfl⟩
  · intro d hd
    rw [List.mem_append, List.mem_cons] at hd
    have hsplit : d = b ∨ d ∈ l₁ ++ l₂ := by
      rw [List.mem_append]
      tauto
    rcases hsplit with rfl | hd
    · rw [he, Mem.cells_set_self, Option.map_some, hcell]
    · rw [Mem.cells_set_ne _ _ (hne d hd)]
      apply hr.cell s hs
      rw [hl, List.mem_append, List.mem_cons]
      rw [List.mem_append] at hd
      tauto
  · intro t ht hts q hq
    apply Mem.cells_set_ne
    rintro rfl
    exact hts (hr.slot_unique ht hs hq hin)
  · intro q hq hql
    rw [htimers] at hql
    have hqe : q ≠ e.timer := fun h => hql (h ▸ hin)
    rw [Mem.cells_set_ne _ _ hqe] at hq
    obtain ⟨t, ht, hqt⟩ := hr.live q hq
    refine ⟨t, ht, ?_, hqt⟩
    rintro rfl
    exact hql hqt

/-- `timer->field = …` on the first timer of a slot. -/
theorem Refines.update_head (hr : Refines w (a.setSlot s (e :: l))) (hs : s < N) {b : Entry}
    (he : b.timer = e.timer) (f : TwTimer → TwTimer) (hnext : ∀ n, (f n).next = n.next)
    (hprev : ∀ n, (f n).prev = n.prev)
    (hcell : ∀ n, Linked.payload n = e.cell s → Linked.payload (f n) = b.cell s) :
    ∃ mem, w.mem.modify (some e.timer) f = .ok mem ∧
      Refines { w with mem := mem } (a.setSlot s (b :: l)) := by
  have hl : (a.setSlot s (e :: l)).slots s = [] ++ e :: l := Dial.setSlot_self _ _ _
  obtain ⟨n, hn, hpay⟩ := Option.map_eq_some_iff.mp (hr.cell s hs e (by rw [hl]; simp))
  refine ⟨_, Mem.modify_eq hn f, ?_⟩
  have hr' := hr.update_cell hs hl he hn (hnext n) (hprev n) (hcell n hpay)
  rwa [Dial.setSlot_setSlot] at hr'

/-- A timer that is added gets its callback and its data. -/
theorem arm_refines (hr : Refines w a) (hp : w.mem.cells p = none) {timeout : Int}
    (ht : 0 ≤ timeout) (cb : Ptr) (ud : Option Ptr) :
    ∃ w', w.arm timeout p cb ud = .ok (w', some p) ∧
      Refines w' (a.add timeout p (some cb) ud) := by
  obtain ⟨w₁, hw₁, hr₁⟩ := addTimer_refines hr hp ht
  have hs : a.target timeout < N := a.target_lt timeout
  unfold Dial.add Entry.made at hr₁ ⊢
  generalize TimeWheel.ticksOf timeout / N = rot at hr₁ ⊢
  obtain ⟨m₂, hm₂, hr₂⟩ := hr₁.update_head hs
    (b := { timer := p, rotation := rot, cbFunc := none, userData := ud }) rfl
    (fun n => { n with userData := ud }) (fun _ => rfl) (fun _ => rfl) (by
      intro n hn
      simp only [Linked.payload, Entry.cell, TwTimer.mk.injEq] at hn ⊢
      tauto)
  obtain ⟨m₃, hm₃, hr₃⟩ := hr₂.update_head hs
    (b := { timer := p, rotation := rot, cbFunc := some cb, userData := ud }) rfl
    (fun n => { n with cbFunc := some cb }) (fun _ => rfl) (fun _ => rfl) (by
      intro n hn
      simp only [Linked.payload, Entry.cell, TwTimer.mk.injEq] at hn ⊢
      tauto)
  refine ⟨_, ?_, hr₃⟩
  unfold TimeWheel.arm
  rw [hw₁, ok_bind]
  dsimp only at hm₂ hm₃ ⊢
  rw [hm₂, ok_bind, hm₃]
  rfl

/-! ## Removing a timer -/

/-- Taking one entry out of a slot, its cell freed and its neighbours joined. -/
theorem Refines.remove (hr : Refines w a) (hs : s < N) {l₁ l₂ : List Entry}
    (hl : a.slots s = l₁ ++ e :: l₂) {mem : Mem TwTimer} {h : Option Ptr}
    (chain : Chain mem h ((l₁ ++ l₂).map Entry.timer))
    (relinked : ∀ q, q ≠ e.timer →
      (mem.cells q).map Linked.payload = (w.mem.cells q).map Linked.payload)
    (off : ∀ q, q ∉ a.timers s → mem.cells q = w.mem.cells q) (gone : mem.cells e.timer = none) :
    Refines { mem := mem, slots := Function.update w.slots s h, curSlot := w.curSlot }
      (a.setSlot s (l₁ ++ l₂)) := by
  have hmem : ∀ q, q ∈ a.timers s → q = e.timer ∨ q ∈ (l₁ ++ l₂).map Entry.timer := by
    intro q hq
    simp only [Dial.timers, hl, List.map_append, List.map_cons, List.mem_append, List.mem_cons] at hq
    rw [List.map_append, List.mem_append]
    tauto
  apply hr.replace hs chain
  · intro d hd
    have hne : d.timer ≠ e.timer := by
      intro heq
      have := chain.live d.timer (List.mem_map_of_mem hd)
      rw [heq] at this
      exact this gone
    rw [relinked _ hne]
    apply hr.cell s hs
    rw [hl, List.mem_append, List.mem_cons]
    rw [List.mem_append] at hd
    tauto
  · intro t ht hts q hq
    apply off
    intro hqs
    exact hts (hr.slot_unique ht hs hq hqs)
  · intro q hq hql
    have hqs : q ∉ a.timers s := by
      intro hqs
      rcases hmem q hqs with rfl | hq'
      · exact hq gone
      · exact hql hq'
    rw [off q hqs] at hq
    obtain ⟨t, ht, hqt⟩ := hr.live q hq
    refine ⟨t, ht, ?_, hqt⟩
    rintro rfl
    exact hqs hqt

/-- The cell of an entry, with its links. -/
theorem Refines.entry_cell (hr : Refines w a) (hs : s < N) {l₁ l₂ : List Entry}
    (hl : a.slots s = l₁ ++ e :: l₂) :
    ∃ n, w.mem.cells e.timer = some n ∧ Linked.payload n = e.cell s ∧
      n.next = (l₂.map Entry.timer).head? ∧ (some e.timer = w.slots s ↔ l₁ = []) := by
  have hch := hr.chain s hs
  rw [Dial.timers, hl, List.map_append, List.map_cons] at hch
  obtain ⟨n, hn, _, hx⟩ := hch.cell
  obtain ⟨k, hk, hpay⟩ := Option.map_eq_some_iff.mp (hr.cell s hs e (by rw [hl]; simp))
  obtain rfl : k = n := Option.some.inj (hk.symm.trans hn)
  refine ⟨k, hn, hpay, hx, ?_⟩
  rw [hch.head]
  cases l₁ with
  | nil => simp
  | cons d l₁ =>
      have hne : e.timer ≠ d.timer := by
        intro heq
        apply hch.nodup_middle.1
        rw [heq]
        exact List.mem_map_of_mem List.mem_cons_self
      simp [hne]

/-- Removing the first timer of a slot, in the order of `del_timer` (links first) and in the order
of `tick` (cell first). -/
theorem Refines.remove_head (hr : Refines w a) (hs : s < N) (hl : a.slots s = e :: l) :
    ∃ m₁ m₂, clearPrev w.mem (l.map Entry.timer).head? = .ok m₁ ∧
      m₁.delete (some e.timer) = .ok m₂ ∧
      Refines { mem := m₂, slots := Function.update w.slots s (l.map Entry.timer).head?,
                curSlot := w.curSlot } (a.setSlot s l) := by
  obtain ⟨n, hn, -, -, -⟩ := hr.entry_cell hs (show a.slots s = [] ++ e :: l from hl)
  have hch := hr.chain s hs
  rw [Dial.timers, hl, List.map_cons] at hch
  obtain ⟨hnl, hnd⟩ := List.nodup_cons.mp hch.nodup
  obtain ⟨-, -, -, -, hseg⟩ := hch.seg
  obtain ⟨m₁, hm₁, hch₁, hrel⟩ := hseg.detach hnd
  have hn₁ : m₁.cells e.timer = some n := by rw [hrel.off _ hnl, hn]
  refine ⟨m₁, _, hm₁, Mem.delete_eq hn₁, ?_⟩
  apply hr.remove hs (show a.slots s = [] ++ e :: l from hl)
  · exact hch₁.set_of_notMem hnl _
  · intro q hq
    rw [Mem.cells_set_ne _ _ hq]
    exact hrel.payload q
  · intro q hq
    have hqe : q ≠ e.timer ∧ q ∉ l.map Entry.timer := by
      simpa [Dial.timers, hl, not_or] using hq
    rw [Mem.cells_set_ne _ _ hqe.1, hrel.off q hqe.2]
  · exact Mem.cells_set_self _ _ _

theorem Refines.remove_head' (hr : Refines w a) (hs : s < N) (hl : a.slots s = e :: l) :
    ∃ m₁ m₂, w.mem.delete (some e.timer) = .ok m₁ ∧
      clearPrev m₁ (l.map Entry.timer).head? = .ok m₂ ∧
      Refines { mem := m₂, slots := Function.update w.slots s (l.map Entry.timer).head?,
                curSlot := w.curSlot } (a.setSlot s l) := by
  obtain ⟨n, hn, -, -, -⟩ := hr.entry_cell hs (show a.slots s = [] ++ e :: l from hl)
  have hch := hr.chain s hs
  rw [Dial.timers, hl, List.map_cons] at hch
  obtain ⟨hnl, hnd⟩ := List.nodup_cons.mp hch.nodup
  obtain ⟨-, -, -, -, hseg⟩ := hch.seg
  obtain ⟨m₂, hm₂, hch₂, hrel⟩ := (hseg.set_of_notMem hnl none).detach hnd
  refine ⟨_, m₂, Mem.delete_eq hn, hm₂, ?_⟩
  apply hr.remove hs (show a.slots s = [] ++ e :: l from hl)
  · exact hch₂
  · intro q hq
    rw [hrel.payload q, Mem.cells_set_ne _ _ hq]
  · intro q hq
    have hqe : q ≠ e.timer ∧ q ∉ l.map Entry.timer := by
      simpa [Dial.timers, hl, not_or] using hq
    rw [hrel.off q hqe.2, Mem.cells_set_ne _ _ hqe.1]
  · rw [hrel.off _ hnl, Mem.cells_set_self]

/-- Removing a timer behind the first one of its slot. -/
theorem Refines.remove_inner (hr : Refines w a) (hs : s < N) {l₁ l₂ : List Entry}
    (hl : a.slots s = l₁ ++ e :: l₂) (hne : l₁ ≠ []) :
    ∃ m₁, unlink w.mem (some e.timer) = .ok m₁ ∧ m₁.cells e.timer = w.mem.cells e.timer ∧
      Refines { w with mem := m₁.set e.timer none } (a.setSlot s (l₁ ++ l₂)) := by
  have hch := hr.chain s hs
  rw [Dial.timers, hl, List.map_append, List.map_cons] at hch
  obtain ⟨h₁, h₂, -⟩ := hch.nodup_middle
  have hnm : e.timer ∉ l₁.map Entry.timer ++ l₂.map Entry.timer := by
    rw [List.mem_append, not_or]
    exact ⟨h₁, h₂⟩
  obtain ⟨m₁, hm₁, hch₁, hrel⟩ := hch.unlink (by simpa using hne)
  refine ⟨m₁, hm₁, hrel.off _ hnm, ?_⟩
  have hupd : w.slots = Function.update w.slots s (w.slots s) := by simp
  rw [hupd]
  apply hr.remove hs hl
  · rw [List.map_append]
    exact hch₁.set_of_notMem hnm _
  · intro q hq
    rw [Mem.cells_set_ne _ _ hq]
    exact hrel.payload q
  · intro q hq
    have hqe : q ≠ e.timer ∧ q ∉ l₁.map Entry.timer ++ l₂.map Entry.timer := by
      simp only [Dial.timers, hl, List.map_append, List.map_cons, List.mem_append,
        List.mem_cons] at hq ⊢
      tauto
    rw [Mem.cells_set_ne _ _ hqe.1, hrel.off q hqe.2]
  · exact Mem.cells_set_self _ _ _

/-- Erasing a timer from all slots erases it from the one it hangs in. -/
theorem Refines.del_slots (hr : Refines w a) (hs : s < N) {l₁ l₂ : List Entry}
    (hl : a.slots s = l₁ ++ e :: l₂) {t : Nat} (ht : t < N) :
    (a.del e.timer).slots t = (a.setSlot s (l₁ ++ l₂)).slots t := by
  have hin : e.timer ∈ a.timers s := by simp [Dial.timers, hl]
  by_cases hts : t = s
  · subst hts
    have hch := hr.chain t hs
    rw [Dial.timers, hl, List.map_append, List.map_cons] at hch
    obtain ⟨h₁, h₂, -⟩ := hch.nodup_middle
    have hkeep : ∀ k : List Entry, e.timer ∉ k.map Entry.timer → k.filter (·.timer ≠ e.timer) = k := by
      intro k hk
      rw [List.filter_eq_self]
      intro d hd
      simp only [decide_eq_true_eq]
      rintro heq
      exact hk (heq ▸ List.mem_map_of_mem hd)
    simp only [Dial.del, hl, Dial.setSlot_self, List.filter_append, List.filter_cons]
    rw [hkeep l₁ h₁, hkeep l₂ h₂]
    simp
  · rw [Dial.setSlot_ne _ _ hts]
    simp only [Dial.del, List.filter_eq_self, decide_eq_true_eq]
    intro d hd heq
    apply hts
    apply hr.slot_unique ht hs _ hin
    rw [← heq]
    exact List.mem_map_of_mem hd

/-- `del_timer` takes the timer out of its slot. -/
theorem delTimer_refines (hr : Refines w a) (hs : s < N) (hp : p ∈ a.timers s) :
    ∃ w', w.delTimer (some p) = .ok w' ∧ Refines w' (a.del p) := by
  obtain ⟨e, he, rfl⟩ := List.mem_map.mp hp
  obtain ⟨l₁, l₂, hl⟩ := List.append_of_mem he
  obtain ⟨n, hn, hpay, hnext, hhead⟩ := hr.entry_cell hs hl
  have hts : n.timeSlot = s := congrArg TwTimer.timeSlot hpay
  have hdel : ∀ w', Refines w' (a.setSlot s (l₁ ++ l₂)) → Refines w' (a.del e.timer) :=
    fun w' hr' => hr'.congr rfl (fun t ht => hr.del_slots hs hl ht)
  unfold TimeWheel.delTimer
  simp only [Mem.deref_eq hn, ok_bind, hts, getSlot_eq w hs]
  cases l₁ with
  | nil =>
      have heq : w.slots s = some e.timer := (hhead.mpr rfl).symm
      obtain ⟨m₁, m₂, hm₁, hm₂, hr'⟩ := hr.remove_head hs hl
      rw [← hnext] at hm₁ hr'
      simp only [heq, if_true, Mem.deref_eq hn, ok_bind, setSlot_eq w hs, hm₁, hm₂]
      exact ⟨_, rfl, hdel _ hr'⟩
  | cons d l₁ =>
      have hne : ¬ some e.timer = w.slots s := fun h => by simpa using hhead.mp h
      obtain ⟨m₁, hm₁, hcell, hr'⟩ := hr.remove_inner hs hl (by simp)
      rw [if_neg hne]
      simp only [hm₁, ok_bind, Mem.delete_eq (hcell.trans hn)]
      exact ⟨_, rfl, hdel _ hr'⟩

/-! ## Advancing the hand -/

/-- A timer with a rotation left waits one turn less. -/
theorem kept_cons_waiting (h : 0 < e.rotation) : kept (e :: l) = e.turn :: kept l := by
  simp [kept, h]

/-- A timer with no rotation left is not kept. -/
theorem kept_cons_due (h : e.rotation = 0) : kept (e :: l) = kept l := by
  simp [kept, h]

/-- A timer with a rotation left is not due. -/
theorem due_cons_waiting (h : 0 < e.rotation) : due (e :: l) = due l := by
  simp [due, Nat.pos_iff_ne_zero.mp h]

/-- A timer with no rotation left is due. -/
theorem due_cons_due (h : e.rotation = 0) : due (e :: l) = e :: due l := by
  simp [due, h]

/-- The loop of `tick`. The invariant is the representation itself: at each turn the slot's list is
`k ++ l`, with `k` the entries already passed and kept and `l` the ones the loop has still to visit,
`tmp` being the first of them. -/
theorem tickLoop_refines {fuel : Nat} {k l : List Entry} (hr : Refines w a)
    (hl : a.slots a.curSlot = k ++ l) (harmed : ∀ e ∈ l, e.cbFunc ≠ none) (hfuel : l.length < fuel) :
    ∃ w', TimeWheel.tickLoop fuel w (l.map Entry.timer).head? =
        .ok (w', (due l).filterMap Entry.call) ∧
      Refines w' (a.setSlot a.curSlot (k ++ kept l)) := by
  -- `k` are the timers the loop has passed, `l` those it still has to visit
  induction l generalizing fuel k w a with
  | nil =>
      obtain ⟨fuel, rfl⟩ : ∃ f, fuel = f + 1 := ⟨fuel - 1, by omega⟩
      refine ⟨w, rfl, ?_⟩
      have hkeep : k ++ kept [] = a.slots a.curSlot := by simp [hl, kept]
      rw [hkeep, Dial.setSlot_slots_self]
      exact hr
  | cons e l ih =>
      obtain ⟨fuel, rfl⟩ : ∃ f, fuel = f + 1 := ⟨fuel - 1, by omega⟩
      have hfuel : l.length < fuel := by simpa using hfuel
      have harmed' : ∀ e ∈ l, e.cbFunc ≠ none := fun d hd => harmed d (by simp [hd])
      have hs := hr.cur_lt
      obtain ⟨n, hn, hpay, hnext, hhead⟩ := hr.entry_cell hs hl
      have hrot : n.rotation = e.rotation := congrArg TwTimer.rotation hpay
      have hcb : n.cbFunc = e.cbFunc := congrArg TwTimer.cbFunc hpay
      have hud : n.userData = e.userData := congrArg TwTimer.userData hpay
      simp only [List.map_cons, List.head?_cons, TimeWheel.tickLoop, Mem.deref_eq hn, ok_bind, hrot]
      by_cases hpos : 0 < e.rotation
      · -- it has turns to wait, and stays where it is
        rw [if_pos hpos, kept_cons_waiting hpos, due_cons_waiting hpos]
        simp only [Mem.modify_eq hn, ok_bind, Mem.deref_eq (Mem.cells_set_self _ _ _)]
        have hr' := hr.update_cell (b := e.turn)
          (k := { n with rotation := n.rotation - 1 }) hs hl rfl hn rfl rfl (by
            simp only [Linked.payload, Entry.cell, Entry.turn, TwTimer.mk.injEq] at hpay ⊢
            rw [hpay.1]
            tauto)
        obtain ⟨w', hw', hr''⟩ := ih (k := k ++ [e.turn]) hr' (by simp) harmed' hfuel
        rw [← hnext] at hw'
        refine ⟨w', hw', ?_⟩
        simpa [Dial.setSlot_setSlot] using hr''
      · -- it is due: called, unlinked and freed
        have hzero : e.rotation = 0 := by omega
        rw [if_neg hpos, kept_cons_due hzero, due_cons_due hzero]
        obtain ⟨cb, hcb'⟩ := Option.ne_none_iff_exists'.mp (harmed e (by simp))
        have hcall : e.call = some { timer := e.timer, cbFunc := cb, userData := e.userData } := by
          simp [Entry.call, hcb']
        have hinv : TimeWheel.invoke e.timer n =
            .ok { timer := e.timer, cbFunc := cb, userData := e.userData } := by
          simp [TimeWheel.invoke, hcb, hcb', hud]
        simp only [hinv, ok_bind, hr.cur, getSlot_eq w hs, List.filterMap_cons, hcall]
        by_cases hk : k = []
        · -- nothing has been kept before it, so it hangs directly in the slot
          subst hk
          obtain ⟨m₁, m₂, hm₁, hm₂, hr'⟩ := hr.remove_head' hs hl
          rw [if_pos (hhead.mpr rfl)]
          rw [← hnext] at hm₂ hr'
          simp only [setSlot_eq w hs, ok_bind, hm₁, hm₂]
          obtain ⟨w', hw', hr''⟩ := ih (k := []) hr' (by simp) harmed' hfuel
          rw [hnext] at hw' ⊢
          rw [hw', ok_bind]
          refine ⟨w', rfl, ?_⟩
          simpa [Dial.setSlot_setSlot] using hr''
        · obtain ⟨m₁, hm₁, hcell, hr'⟩ := hr.remove_inner hs hl hk
          rw [if_neg (fun h => hk (hhead.mp h))]
          simp only [hm₁, ok_bind, Mem.deref_eq (hcell.trans hn), Mem.delete_eq (hcell.trans hn)]
          obtain ⟨w', hw', hr''⟩ := ih (k := k) hr' (by simp) harmed' hfuel
          rw [hr.cur] at hw'
          rw [hnext, hw', ok_bind]
          refine ⟨w', rfl, ?_⟩
          simpa [Dial.setSlot_setSlot] using hr''

/-- `tick` calls the timers that are due and removes them, and turns the wheel. -/
theorem tick_refines (hr : Refines w a) (harmed : a.Armed) :
    ∃ w', w.tick = .ok (w', a.calls) ∧ Refines w' a.tick := by
  have hs := hr.cur_lt
  have hlen : (a.slots a.curSlot).length < w.mem.brk + 1 := by
    have := (hr.chain _ hs).length_le_brk
    simp only [Dial.timers, List.length_map] at this
    omega
  obtain ⟨w', hw', hr'⟩ := tickLoop_refines (k := []) hr rfl (harmed _ hs) hlen
  have hhead : w.slots w.curSlot = ((a.slots a.curSlot).map Entry.timer).head? := by
    rw [hr.cur]
    exact (hr.chain _ hs).head
  have hlt : w.curSlot < N := hr.cur ▸ hs
  unfold TimeWheel.tick
  rw [getSlot_eq w hlt, ok_bind, hhead, hw', ok_bind]
  refine ⟨_, rfl, ?_⟩
  constructor
  · show (w'.curSlot + 1) % N = (a.curSlot + 1) % N
    rw [hr'.cur]
    rfl
  · exact Nat.mod_lt _ (by decide)
  · exact hr'.chain
  · exact hr'.cell
  · exact hr'.live

end LinuxServer.Wheel
