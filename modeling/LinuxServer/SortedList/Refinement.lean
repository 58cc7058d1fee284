import LinuxServer.SortedList.Basic

/-!
# What the operations of the sorted list do

`Holds w l` says that the object `w` is a well-formed list of the timers `l`, sorted by expiry. Each
operation is then an operation on `l`. The one to look at is `slotIn`, which is what the scan for an
insertion point amounts to: it puts the timer in front of the first one that expires later, and when
there is none it leaves the list as it was.
-/

namespace LinuxServer.SortedList

open Library

def expireOf (m : Mem UtilTimer) (p : Ptr) : Int :=
  match m.cells p with
  | none => 0
  | some t => t.expire

/-- The list in ascending order of `key`. -/
def Ascending (key : Ptr → Int) (l : List Ptr) : Prop := l.Pairwise fun p q => key p ≤ key q

/-! ## Insertion on lists -/

/-- Scan for the first entry that is later than `p` and put `p` before it. The scan that finds none
leaves `p` out. -/
def slotIn (key : Ptr → Int) (p : Ptr) : List Ptr → List Ptr
  | [] => []
  | u :: l => if key p < key u then p :: u :: l else u :: slotIn key p l

section SlotIn
variable {key : Ptr → Int} {p q : Ptr} {l : List Ptr}

/-- Nothing is later: the timer is dropped. -/
theorem slotIn_lost (h : ∀ u ∈ l, ¬ key p < key u) : slotIn key p l = l := by
  induction l with
  | nil => rfl
  | cons u l ih =>
      rw [slotIn, if_neg (h u List.mem_cons_self), ih (fun v hv => h v (List.mem_cons_of_mem _ hv))]

/-- The timer is put among the others. -/
theorem slotIn_perm (h : ∃ u ∈ l, key p < key u) : (slotIn key p l).Perm (p :: l) := by
  induction l with
  | nil =>
      obtain ⟨u, hu, -⟩ := h
      cases hu
  | cons u l ih =>
      rw [slotIn]
      split
      · exact List.Perm.refl _
      · rename_i hle
        obtain ⟨v, hv, hlt⟩ := h
        have hv : v ∈ l := by
          rcases List.mem_cons.mp hv with rfl | hv
          · exact absurd hlt hle
          · exact hv
        exact ((ih ⟨v, hv, hlt⟩).cons u).trans (List.Perm.swap p u l)

/-- Only the timer itself is new. -/
theorem mem_slotIn (h : q ∈ slotIn key p l) : q = p ∨ q ∈ l := by
  induction l with
  | nil => cases h
  | cons u l ih =>
      rw [slotIn] at h
      split at h
      · exact List.mem_cons.mp h
      · rcases List.mem_cons.mp h with rfl | h
        · exact .inr List.mem_cons_self
        · exact (ih h).imp_right (List.mem_cons_of_mem u)

/-- The list stays in order. -/
theorem slotIn_ascending (h : Ascending key l) : Ascending key (slotIn key p l) := by
  induction l with
  | nil => exact h
  | cons u l ih =>
      obtain ⟨hu, hl⟩ := List.pairwise_cons.mp h
      rw [slotIn]
      split
      · rename_i hlt
        refine List.Pairwise.cons ?_ h
        intro v hv
        rcases List.mem_cons.mp hv with rfl | hv
        · omega
        · have := hu v hv
          omega
      · rename_i hle
        refine List.Pairwise.cons ?_ (ih hl)
        intro v hv
        rcases mem_slotIn hv with rfl | hv
        · omega
        · exact hu v hv

/-- The last entry stays last. -/
theorem getLast?_slotIn (key : Ptr → Int) (p : Ptr) (l : List Ptr) :
    (slotIn key p l).getLast? = l.getLast? := by
  induction l with
  | nil => rfl
  | cons u l ih =>
      rw [slotIn]
      split
      · rw [List.getLast?_cons_cons]
      · rw [List.getLast?_cons, List.getLast?_cons, ih]

end SlotIn

/-! ## The invariant -/

structure Holds (w : SortTimerLst) (l : List Ptr) : Prop where
  chain : Chain w.mem w.head l
  tail : l ≠ [] → w.tail = l.getLast?
  ascending : Ascending (expireOf w.mem) l
  armed : ∀ p ∈ l, ∃ t, w.mem.cells p = some t ∧ t.cbFunc ≠ none

variable {w : SortTimerLst} {m m' : Mem UtilTimer} {l l₁ l₂ : List Ptr} {p q : Ptr}
  {h : Option Ptr} {n t : UtilTimer} {fuel : Nat}

theorem expireOf_eq (hp : m.cells p = some t) : expireOf m p = t.expire := by
  simp [expireOf, hp]

/-- Relinking changes neither expiries nor callbacks. -/
theorem expireOf_relinked (hr : Relinked m m' l) (p : Ptr) : expireOf m' p = expireOf m p := by
  have hpay := hr.payload p
  unfold expireOf
  cases hm : m.cells p with
  | none =>
      rw [hm, Option.map_none, Option.map_eq_none_iff] at hpay
      rw [hpay]
  | some t =>
      obtain ⟨t', ht', hpay⟩ := hr.cell hm
      rw [ht']
      show (Linked.payload t').expire = (Linked.payload t).expire
      rw [hpay]

/-- Relinking does not change a timer's callback. -/
theorem armed_relinked (hr : Relinked m m' l) (hp : ∃ t, m.cells p = some t ∧ t.cbFunc ≠ none) :
    ∃ t, m'.cells p = some t ∧ t.cbFunc ≠ none := by
  obtain ⟨t, ht, hcb⟩ := hp
  obtain ⟨t', ht', hpay⟩ := hr.cell ht
  refine ⟨t', ht', ?_⟩
  show (Linked.payload t').cbFunc ≠ none
  rw [hpay]
  exact hcb

/-- A new list is empty. -/
theorem Holds.make : Holds SortTimerLst.make [] where
  chain := chain_nil _
  tail := fun h => absurd rfl h
  ascending := List.Pairwise.nil
  armed := by
    intro p hp
    cases hp

/-! ## Adding -/

theorem expireOf_set_ne (h : q ≠ p) : expireOf (m.set p (some t)) q = expireOf m q := by
  rw [expireOf, Mem.cells_set_ne _ _ h]
  rfl

/-- A new cell does not concern the list. -/
theorem Holds.new (hw : Holds w l) (hp : w.mem.cells p = none) (t : UtilTimer) :
    p ∉ l ∧ Holds { w with mem := w.mem.new p t } l := by
  have hpl : p ∉ l := fun h => hw.chain.live p h hp
  have hne : ∀ x ∈ l, x ≠ p := fun x hx h => hpl (h ▸ hx)
  refine ⟨hpl, hw.chain.set_of_notMem hpl _, hw.tail, ?_, ?_⟩
  · apply hw.ascending.imp_of_mem
    intro x y hx hy hle
    show expireOf (w.mem.set p (some t)) x ≤ expireOf (w.mem.set p (some t)) y
    rwa [expireOf_set_ne (hne x hx), expireOf_set_ne (hne y hy)]
  · intro x hx
    obtain ⟨n, hn, hcb⟩ := hw.armed x hx
    exact ⟨n, (Mem.cells_set_ne _ _ (hne x hx)).trans hn, hcb⟩

/-- The scan, started behind `a`, does what `slotIn` does with the rest of the list. -/
theorem insertLoop_spec {a : Ptr} {rest : List Ptr} (hc : Chain m h (l₁ ++ a :: rest))
    (hp : p ∉ l₁ ++ a :: rest) (hn : m.cells p = some n) (hfuel : rest.length < fuel) :
    ∃ m', SortTimerLst.insertLoop (some p) fuel m (some a) rest.head? = .ok m' ∧
      Chain m' h (l₁ ++ a :: slotIn (expireOf m) p rest) ∧
      Relinked m m' (p :: (l₁ ++ a :: rest)) := by
  induction fuel generalizing a l₁ rest with
  | zero => omega
  | succ fuel ih =>
      cases rest with
      | nil => exact ⟨m, rfl, hc, Relinked.refl _ _⟩
      | cons u rest =>
          have hsplit : l₁ ++ a :: u :: rest = (l₁ ++ [a]) ++ u :: rest := by simp
          obtain ⟨k, hk, -, hnext⟩ := (hsplit ▸ hc).cell
          have hkey : n.expire < k.expire ↔ expireOf m p < expireOf m u := by
            rw [expireOf_eq hn, expireOf_eq hk]
          simp only [SortTimerLst.insertLoop, List.head?_cons, Mem.deref_eq hn, Mem.deref_eq hk,
            ok_bind, slotIn]
          by_cases hlt : n.expire < k.expire
          · rw [if_pos hlt, if_pos (hkey.mp hlt)]
            exact hc.link hp hn
          · rw [if_neg hlt, if_neg (fun h => hlt (hkey.mpr h)), show k.next = rest.head? from hnext]
            rw [hsplit] at hc hp ⊢
            obtain ⟨m', hm', hc', hr⟩ := ih hc hp (by simpa using hfuel)
            refine ⟨m', hm', ?_, hr⟩
            simpa using hc'

/-- A live cell outside a list bounds the list away from the end of the heap. -/
theorem addTimerFrom_spec (l₁ : List Ptr) {a : Ptr} {rest : List Ptr}
    (hc : Chain w.mem w.head (l₁ ++ a :: rest))
    (hp : p ∉ l₁ ++ a :: rest) (hn : w.mem.cells p = some n) :
    ∃ m', w.addTimerFrom (some p) (some a) = .ok { w with mem := m' } ∧
      Chain m' w.head (l₁ ++ a :: slotIn (expireOf w.mem) p rest) ∧
      Relinked w.mem m' (p :: (l₁ ++ a :: rest)) := by
  obtain ⟨k, hk, -, hnext⟩ := hc.cell
  have hlen : rest.length < w.mem.brk + 1 := by
    have := hc.length_le_brk
    simp at this
    omega
  obtain ⟨m', hm', hc', hr⟩ := insertLoop_spec hc hp hn hlen
  refine ⟨m', ?_, hc', hr⟩
  unfold SortTimerLst.addTimerFrom
  rw [Mem.deref_eq hk, ok_bind, show k.next = rest.head? from hnext, hm', ok_bind]
  rfl

/-- What the invariant needs to survive a change of the links. -/
theorem Holds.relink {l' k : List Ptr} {tl : Option Ptr} (hr : Relinked m m' k)
    (hc : Chain m' h l') (htail : l' ≠ [] → tl = l'.getLast?)
    (hasc : Ascending (expireOf m) l')
    (harm : ∀ p ∈ l', ∃ t, m.cells p = some t ∧ t.cbFunc ≠ none) :
    Holds { mem := m', head := h, tail := tl } l' where
  chain := hc
  tail := htail
  ascending := by
    have hkey : expireOf m' = expireOf m := funext (expireOf_relinked hr)
    show Ascending (expireOf m') l'
    rw [hkey]
    exact hasc
  armed := fun p hp => armed_relinked hr (harm p hp)

/-- The list after `add_timer`. -/
def added (key : Ptr → Int) (p : Ptr) (l : List Ptr) : List Ptr :=
  if l = [] then [p] else slotIn key p l

/-- Adding an unlinked timer. It need not have arrived: see `slotIn_lost`. -/
theorem addTimer_holds (hw : Holds w l) (hp : p ∉ l) (hn : w.mem.cells p = some n)
    (hprev : n.prev = none) (hnext : n.next = none) (hcb : n.cbFunc ≠ none) :
    ∃ w', w.addTimer (some p) = .ok w' ∧ Holds w' (added (expireOf w.mem) p l) ∧
      Relinked w.mem w'.mem (p :: l) := by
  have harm : ∀ x, x = p ∨ x ∈ l → ∃ t, w.mem.cells x = some t ∧ t.cbFunc ≠ none := by
    rintro x (rfl | hx)
    · exact ⟨n, hn, hcb⟩
    · exact hw.armed x hx
  cases l with
  | nil =>
      have hhead : w.head = none := hw.chain.head
      refine ⟨{ w with head := some p, tail := some p }, ?_, ?_, Relinked.refl _ _⟩
      · simp only [SortTimerLst.addTimer, hhead]
      · exact ⟨chain_singleton hn hprev hnext, fun _ => rfl, List.pairwise_singleton _ _,
          fun x hx => harm x (.inl (List.mem_singleton.mp hx))⟩
  | cons q l =>
      have hhead : w.head = some q := hw.chain.head
      obtain ⟨k, hk, -, -⟩ := (show Chain w.mem w.head ([] ++ q :: l) from hw.chain).cell
      have hkey : n.expire < k.expire ↔ expireOf w.mem p < expireOf w.mem q := by
        rw [expireOf_eq hn, expireOf_eq hk]
      have htail : slotIn (expireOf w.mem) p (q :: l) ≠ [] →
          w.tail = (slotIn (expireOf w.mem) p (q :: l)).getLast? := by
        intro _
        rw [getLast?_slotIn]
        exact hw.tail (List.cons_ne_nil _ _)
      have hasc : Ascending (expireOf w.mem) (slotIn (expireOf w.mem) p (q :: l)) :=
        slotIn_ascending hw.ascending
      have harm' : ∀ x ∈ slotIn (expireOf w.mem) p (q :: l),
          ∃ t, w.mem.cells x = some t ∧ t.cbFunc ≠ none := fun x hx => harm x (mem_slotIn hx)
      rw [added, if_neg (List.cons_ne_nil _ _)]
      simp only [SortTimerLst.addTimer, hhead, Mem.deref_eq hn, Mem.deref_eq hk, ok_bind]
      by_cases hlt : n.expire < k.expire
      · have hpq : p ≠ q := fun e => hp (e ▸ List.mem_cons_self)
        have hq' : (w.mem.set p (some { n with next := some q })).cells q = some k := by
          rw [Mem.cells_set_ne _ _ hpq.symm, hk]
        rw [if_pos hlt, Mem.modify_eq hn, ok_bind, Mem.modify_eq hq', ok_bind]
        have hr₁ : Relinked w.mem (w.mem.set p (some { n with next := some q })) (p :: q :: l) :=
          Relinked.set hn rfl (by simp)
        have hr₂ : Relinked (w.mem.set p (some { n with next := some q }))
            ((w.mem.set p (some { n with next := some q })).set q (some { k with prev := some p }))
            (p :: q :: l) := Relinked.set hq' rfl (by simp)
        have hr := hr₁.trans hr₂
        refine ⟨_, rfl, Holds.relink hr ?_ htail hasc harm', hr⟩
        rw [slotIn, if_pos (hkey.mp hlt)]
        exact (hhead ▸ hw.chain).push_front hp hprev hk
      · rw [if_neg hlt]
        obtain ⟨m', hm', hc', hr⟩ := addTimerFrom_spec [] hw.chain hp hn
        refine ⟨_, hm', Holds.relink hr ?_ htail hasc harm', hr⟩
        rw [slotIn, if_neg (fun h => hlt (hkey.mpr h))]
        exact hc'

/-! ## Taking a timer off the list -/

/-- Taking away the first timer. -/
theorem dropHead_spec (hc : Chain w.mem w.head (p :: q :: l)) :
    ∃ m', w.dropHead = .ok { w with mem := m', head := some q } ∧ Chain m' (some q) (q :: l) ∧
      Relinked w.mem m' (q :: l) := by
  obtain ⟨k, hk, -, hnext, hs⟩ := id hc.seg
  obtain ⟨m', hm', hc', hr⟩ := hs.detach (List.nodup_cons.mp hc.nodup).2
  have hnext : k.next = some q := hnext
  refine ⟨m', ?_, hc', hr⟩
  unfold SortTimerLst.dropHead
  rw [show w.head = some p from hc.head, Mem.deref_eq hk, ok_bind, hnext]
  show (clearPrev w.mem (some q) >>= _) = _
  rw [show clearPrev w.mem (some q) = .ok m' from hm', ok_bind]
  rfl

/-- The head is `p` exactly if nothing precedes it. -/
theorem head_eq_iff (hc : Chain m h (l₁ ++ p :: l₂)) : h = some p ↔ l₁ = [] := by
  rw [hc.head]
  cases l₁ with
  | nil => simp
  | cons a l₁ =>
      have hne : a ≠ p := by
        rintro rfl
        exact hc.nodup_middle.1 List.mem_cons_self
      simpa using hne

/-- The last timer is `p` exactly if nothing follows it. -/
theorem getLast?_eq_iff (hp : p ∉ l₂) : (l₁ ++ p :: l₂).getLast? = some p ↔ l₂ = [] := by
  cases l₂ with
  | nil => simp
  | cons b l₂ =>
      rw [List.getLast?_append, List.getLast?_cons_cons]
      constructor
      · intro h
        have hlast : (b :: l₂).getLast? = some p := by simpa using h
        exact absurd (List.mem_of_getLast? hlast) hp
      · intro h
        cases h

/-! ## Adjusting -/

/-- The list after `adjust_timer`. -/
def adjusted (key : Ptr → Int) (p : Ptr) (l₁ l₂ : List Ptr) : List Ptr :=
  if l₂ = [] then l₁ ++ [p] else l₁ ++ slotIn key p l₂

/-- Two lists in order, one behind the other. -/
theorem ascending_append {key : Ptr → Int} : Ascending key (l₁ ++ l₂) ↔
    Ascending key l₁ ∧ Ascending key l₂ ∧ ∀ a ∈ l₁, ∀ b ∈ l₂, key a ≤ key b :=
  List.pairwise_append

/-- After the timer was moved the list is in order. -/
theorem adjusted_ascending {key : Ptr → Int} (h₁ : Ascending key (l₁ ++ l₂))
    (h₂ : ∀ a ∈ l₁, key a ≤ key p) : Ascending key (adjusted key p l₁ l₂) := by
  obtain ⟨hl₁, hl₂, hcross⟩ := ascending_append.mp h₁
  unfold adjusted
  split
  · exact ascending_append.mpr ⟨hl₁, List.pairwise_singleton _ _, by simpa using h₂⟩
  · refine ascending_append.mpr ⟨hl₁, slotIn_ascending hl₂, ?_⟩
    intro a ha b hb
    rcases mem_slotIn hb with rfl | hb
    · exact h₂ a ha
    · exact hcross a ha b hb

/-- Moving a timer adds none. -/
theorem mem_adjusted {key : Ptr → Int} (h : q ∈ adjusted key p l₁ l₂) : q ∈ l₁ ++ p :: l₂ := by
  unfold adjusted at h
  split at h
  · rename_i hnil
    rwa [hnil]
  · rcases List.mem_append.mp h with h | h
    · exact List.mem_append_left _ h
    · exact List.mem_append_right _ (List.mem_cons.mpr (mem_slotIn h))

/-- The last timer stays the last one. -/
theorem getLast?_adjusted (key : Ptr → Int) (p : Ptr) (l₁ l₂ : List Ptr) :
    (adjusted key p l₁ l₂).getLast? = (l₁ ++ p :: l₂).getLast? := by
  unfold adjusted
  split
  · rename_i hnil
    rw [hnil]
  · rename_i hne
    rw [List.getLast?_append, List.getLast?_append, getLast?_slotIn]
    cases l₂ with
    | nil => exact absurd rfl hne
    | cons b l₂ => rw [List.getLast?_cons_cons]

/-- The scan that starts behind the successor of `p`, when that is no later than `p`. -/
theorem adjusted_cons {key : Ptr → Int} (l₁ l₂ : List Ptr) (h : ¬ key p < key q) :
    adjusted key p l₁ (q :: l₂) = l₁ ++ q :: slotIn key p l₂ := by
  rw [adjusted, if_neg (List.cons_ne_nil _ _), slotIn, if_neg h]

section Adjust
variable (hc : Chain w.mem w.head (l₁ ++ p :: q :: l₂)) (hn : w.mem.cells p = some n)
include hc hn

/-- The head is taken off and moves down the list. -/
theorem adjustHead_spec (hl₁ : l₁ = []) :
    ∃ m₁ m₂, w.dropHead = .ok { w with mem := m₁, head := some q } ∧ m₁.cells p = some n ∧
      SortTimerLst.addTimerFrom
          { w with mem := m₁.set p (some { n with next := none }), head := some q } (some p) (some q) =
        .ok { w with mem := m₂, head := some q } ∧
      Chain m₂ (some q) (l₁ ++ q :: slotIn (expireOf w.mem) p l₂) ∧
      Relinked w.mem m₂ (l₁ ++ p :: q :: l₂) := by
  subst hl₁
  have hp : p ∉ q :: l₂ := hc.nodup_middle.2.1
  obtain ⟨m₁, hm₁, hc₁, hr₁⟩ := dropHead_spec hc
  have hn₁ : m₁.cells p = some n := by rw [hr₁.off p hp, hn]
  have hr₂ : Relinked m₁ (m₁.set p (some { n with next := none })) (p :: q :: l₂) :=
    Relinked.set hn₁ rfl List.mem_cons_self
  obtain ⟨m₂, hm₂, hc₂, hr₃⟩ := addTimerFrom_spec
    (w := { w with mem := m₁.set p (some { n with next := none }), head := some q })
    [] (hc₁.set_of_notMem hp _) hp (Mem.cells_set_self _ _ _)
  have hkeys : expireOf (m₁.set p (some { n with next := none })) = expireOf w.mem := by
    funext x
    rw [expireOf_relinked hr₂, expireOf_relinked hr₁]
  refine ⟨m₁, m₂, hm₁, hn₁, hm₂, ?_, ?_⟩
  · rw [← hkeys]
    exact hc₂
  · exact ((hr₁.mono (fun x hx => List.mem_cons_of_mem _ hx)).trans hr₂).trans hr₃

/-- Any other timer is unlinked and moves on from its old successor. -/
theorem adjustInner_spec (hl₁ : l₁ ≠ []) :
    ∃ m₁ m₂, unlinkInner w.mem p = .ok m₁ ∧ m₁.cells p = some n ∧
      SortTimerLst.addTimerFrom { w with mem := m₁ } (some p) (some q) = .ok { w with mem := m₂ } ∧
      Chain m₂ w.head (l₁ ++ q :: slotIn (expireOf w.mem) p l₂) ∧
      Relinked w.mem m₂ (l₁ ++ p :: q :: l₂) := by
  obtain ⟨hp₁, hp₂, -⟩ := hc.nodup_middle
  obtain ⟨m₁, hm₁, hc₁, hr₁⟩ := hc.unlinkInner hl₁
  have hp : p ∉ l₁ ++ q :: l₂ := by
    rw [List.mem_append, not_or]
    exact ⟨hp₁, hp₂⟩
  have hn₁ : m₁.cells p = some n := by rw [hr₁.off p hp, hn]
  obtain ⟨m₂, hm₂, hc₂, hr₂⟩ := addTimerFrom_spec (w := { w with mem := m₁ }) l₁ hc₁ hp hn₁
  have hkeys : expireOf m₁ = expireOf w.mem := funext (expireOf_relinked hr₁)
  refine ⟨m₁, m₂, hm₁, hn₁, hm₂, ?_, ?_⟩
  · rw [← hkeys]
    exact hc₂
  · exact (hr₁.mono (by grind)).trans (hr₂.mono (by grind))

end Adjust

/-- Adjusting a timer whose expiry was raised. `w` is the list after the raise. -/
theorem adjustTimer_holds (hc : Chain w.mem w.head (l₁ ++ p :: l₂))
    (htail : w.tail = (l₁ ++ p :: l₂).getLast?)
    (hasc : Ascending (expireOf w.mem) (l₁ ++ l₂))
    (hup : ∀ a ∈ l₁, expireOf w.mem a ≤ expireOf w.mem p)
    (harm : ∀ x ∈ l₁ ++ p :: l₂, ∃ t, w.mem.cells x = some t ∧ t.cbFunc ≠ none) :
    ∃ w', w.adjustTimer (some p) = .ok w' ∧ Holds w' (adjusted (expireOf w.mem) p l₁ l₂) ∧
      Relinked w.mem w'.mem (l₁ ++ p :: l₂) := by
  obtain ⟨n, hn, -, hnext⟩ := hc.cell
  have hnext : n.next = l₂.head? := hnext
  have hasc' := adjusted_ascending hasc hup
  have htail' : adjusted (expireOf w.mem) p l₁ l₂ ≠ [] →
      w.tail = (adjusted (expireOf w.mem) p l₁ l₂).getLast? := by
    intro _
    rw [getLast?_adjusted, htail]
  have harm' : ∀ x ∈ adjusted (expireOf w.mem) p l₁ l₂,
      ∃ t, w.mem.cells x = some t ∧ t.cbFunc ≠ none := fun x hx => harm x (mem_adjusted hx)
  simp only [SortTimerLst.adjustTimer, Mem.deref_eq hn, ok_bind, hnext]
  cases l₂ with
  | nil =>
      refine ⟨w, rfl, ?_, Relinked.refl _ _⟩
      exact Holds.relink (Relinked.refl w.mem []) hc htail' hasc' harm'
  | cons q l₂ =>
      have hsplit : l₁ ++ p :: q :: l₂ = (l₁ ++ [p]) ++ q :: l₂ := by simp
      obtain ⟨k, hk, -, -⟩ := (hsplit ▸ hc).cell
      have hkey : n.expire < k.expire ↔ expireOf w.mem p < expireOf w.mem q := by
        rw [expireOf_eq hn, expireOf_eq hk]
      simp only [List.head?_cons, Mem.deref_eq hk, ok_bind]
      by_cases hlt : n.expire < k.expire
      · -- it is still in its place
        rw [if_pos hlt]
        refine ⟨w, rfl, ?_, Relinked.refl _ _⟩
        refine Holds.relink (Relinked.refl w.mem []) ?_ htail' hasc' harm'
        rw [adjusted, if_neg (List.cons_ne_nil _ _), slotIn, if_pos (hkey.mp hlt)]
        exact hc
      · have hlist := adjusted_cons l₁ l₂ (fun h => hlt (hkey.mpr h))
        rw [if_neg hlt]
        by_cases hhead : w.head = some p
        · obtain ⟨m₁, m₂, hm₁, hn₁, hm₂, hc₂, hr⟩ :=
            adjustHead_spec hc hn ((head_eq_iff hc).mp hhead)
          rw [if_pos hhead]
          refine ⟨{ w with mem := m₂, head := some q }, ?_,
            Holds.relink hr (hlist ▸ hc₂) htail' hasc' harm', hr⟩
          rw [hm₁, ok_bind]
          dsimp only
          rw [Mem.modify_eq hn₁, ok_bind]
          exact hm₂
        · obtain ⟨m₁, m₂, hm₁, hn₁, hm₂, hc₂, hr⟩ :=
            adjustInner_spec hc hn (fun h => hhead ((head_eq_iff hc).mpr h))
          rw [if_neg hhead]
          refine ⟨{ w with mem := m₂ }, ?_, Holds.relink hr (hlist ▸ hc₂) htail' hasc' harm', hr⟩
          rw [hm₁, ok_bind, Mem.deref_eq hn₁, ok_bind, hnext]
          exact hm₂

/-! ## Deleting -/

/-- Freeing a timer that has been unlinked. -/
theorem Holds.delete {k : List Ptr} {tl : Option Ptr} (hr : Relinked m m' k) (hc : Chain m' h l)
    (hp : p ∉ l) (htail : l ≠ [] → tl = l.getLast?) (hasc : Ascending (expireOf m) l)
    (harm : ∀ x ∈ l, ∃ t, m.cells x = some t ∧ t.cbFunc ≠ none) :
    Holds { mem := m'.set p none, head := h, tail := tl } l := by
  have hrest := Holds.relink hr hc htail hasc harm
  have hcell : ∀ x ∈ l, (m'.set p none).cells x = m'.cells x := by
    intro x hx
    exact Mem.cells_set_ne _ _ (fun e => hp (e ▸ hx))
  refine ⟨hc.set_of_notMem hp none, htail, ?_, ?_⟩
  · apply hrest.ascending.imp_of_mem
    intro x y hx hy hle
    show expireOf (m'.set p none) x ≤ expireOf (m'.set p none) y
    rw [expireOf, expireOf, hcell x hx, hcell y hy]
    exact hle
  · intro x hx
    show ∃ t, (m'.set p none).cells x = some t ∧ _
    rw [hcell x hx]
    exact hrest.armed x hx

/-- Cutting the last timer off: its predecessor `b` becomes the end. -/
theorem cutLast_spec (hc : Chain m h (l₁ ++ [p])) (hne : l₁ ≠ []) (hn : m.cells p = some n) :
    ∃ b nb, n.prev = some b ∧ m.cells b = some nb ∧ l₁.getLast? = some b ∧
      (m.set b (some { nb with next := none })).cells p = some n ∧
      Chain (m.set b (some { nb with next := none })) h l₁ ∧
      Relinked m (m.set b (some { nb with next := none })) [b] := by
  obtain ⟨k, b, rfl⟩ : ∃ k b, l₁ = k ++ [b] :=
    ⟨l₁.dropLast, l₁.getLast hne, (List.dropLast_append_getLast hne).symm⟩
  obtain ⟨n', hn', hprev, -⟩ := hc.cell
  obtain rfl : n = n' := Option.some.inj (hn.symm.trans hn')
  obtain ⟨hp, -, hnd⟩ := hc.nodup_middle
  rw [List.append_nil] at hnd
  obtain ⟨hs, -⟩ := seg_append.mp hc.seg
  obtain ⟨nb, hnb, -, -⟩ := (show Chain m h (k ++ b :: [p]) by simpa using hc).cell
  have hbp : p ≠ b := fun e => hp (by simp [e])
  refine ⟨b, nb, ?_, hnb, by simp, ?_, ⟨?_, hnd, hs.set_last hnd hnb none⟩,
    Relinked.set hnb rfl (List.mem_singleton_self b)⟩
  · show Linked.prev n = some b
    simpa using hprev
  · rw [Mem.cells_set_ne _ _ hbp, hn]
  · rw [hc.head]
    cases k with
    | nil => rfl
    | cons a k => rfl

/-- `del_timer` takes the timer out of the list. -/
theorem delTimer_holds (hw : Holds w (l₁ ++ p :: l₂)) :
    ∃ w', w.delTimer (some p) = .ok w' ∧ Holds w' (l₁ ++ l₂) := by
  have hc := hw.chain
  obtain ⟨n, hn, hprev, hnext⟩ := hc.cell
  obtain ⟨hp₁, hp₂, hnd⟩ := hc.nodup_middle
  have hp : p ∉ l₁ ++ l₂ := by
    rw [List.mem_append, not_or]
    exact ⟨hp₁, hp₂⟩
  have hsub : (l₁ ++ l₂).Sublist (l₁ ++ p :: l₂) :=
    List.Sublist.append_left (List.sublist_cons_self p l₂) l₁
  have hasc : Ascending (expireOf w.mem) (l₁ ++ l₂) := hw.ascending.sublist hsub
  have harm : ∀ x ∈ l₁ ++ l₂, ∃ t, w.mem.cells x = some t ∧ t.cbFunc ≠ none :=
    fun x hx => hw.armed x (hsub.subset hx)
  have htail := hw.tail (by simp)
  have hhead := head_eq_iff hc
  unfold SortTimerLst.delTimer
  dsimp only
  cases l₁ with
  | nil =>
      have hhead : w.head = some p := hhead.mpr rfl
      cases l₂ with
      | nil =>
          rw [if_pos ⟨hhead, htail⟩, Mem.delete_eq hn, ok_bind]
          exact ⟨_, rfl, Holds.delete (Relinked.refl w.mem []) (chain_nil _) hp
            (fun h => absurd rfl h) hasc harm⟩
      | cons q l₂ =>
          have hne : w.tail ≠ some p := by
            rw [htail]
            exact fun h => List.cons_ne_nil _ _ ((getLast?_eq_iff hp₂).mp h)
          obtain ⟨m₁, hm₁, hc₁, hr₁⟩ := dropHead_spec hc
          have hn₁ : m₁.cells p = some n := by rw [hr₁.off p hp₂, hn]
          rw [if_neg (fun h => hne h.2), if_pos hhead, hm₁, ok_bind]
          dsimp only
          rw [Mem.delete_eq hn₁, ok_bind]
          refine ⟨_, rfl, Holds.delete hr₁ hc₁ hp ?_ hasc harm⟩
          intro _
          rw [htail, List.nil_append, List.getLast?_cons_cons]
          rfl
  | cons a l₁ =>
      have hhead : w.head ≠ some p := fun h => List.cons_ne_nil _ _ (hhead.mp h)
      rw [if_neg (fun h => hhead h.1), if_neg hhead]
      cases l₂ with
      | nil =>
          have htail : w.tail = some p := htail.trans ((getLast?_eq_iff hp₂).mpr rfl)
          obtain ⟨b, nb, hb, hnb, hlast, hn₁, hc₁, hr₁⟩ := cutLast_spec hc (List.cons_ne_nil a l₁) hn
          rw [List.append_nil] at hp hasc harm ⊢
          rw [if_pos htail, htail, Mem.deref_eq hn, ok_bind, hb, Mem.modify_eq hnb, ok_bind,
            Mem.delete_eq hn₁, ok_bind]
          exact ⟨_, rfl, Holds.delete hr₁ hc₁ hp (fun _ => hlast.symm) hasc harm⟩
      | cons q l₂ =>
          have hne : w.tail ≠ some p := by
            rw [htail]
            exact fun h => List.cons_ne_nil _ _ ((getLast?_eq_iff hp₂).mp h)
          obtain ⟨m₁, hm₁, hc₁, hr₁⟩ := hc.unlinkInner (List.cons_ne_nil a l₁)
          have hn₁ : m₁.cells p = some n := by rw [hr₁.off p hp, hn]
          rw [if_neg hne, hm₁, ok_bind, Mem.delete_eq hn₁, ok_bind]
          refine ⟨_, rfl, Holds.delete hr₁ hc₁ hp ?_ hasc harm⟩
          intro _
          rw [htail, List.getLast?_append, List.getLast?_append, List.getLast?_cons_cons]

/-! ## Ticking -/

/-- The call of the timer at `p`. -/
def callOf (m : Mem UtilTimer) (p : Ptr) : Exec Call := do
  let t ← m.deref (some p)
  SortTimerLst.invoke p t

/-- Relinking does not change what is called. -/
theorem callOf_relinked (hr : Relinked m m' l) (p : Ptr) : callOf m' p = callOf m p := by
  have hpay := hr.payload p
  cases hm : m.cells p with
  | none =>
      rw [hm, Option.map_none, Option.map_eq_none_iff] at hpay
      simp [callOf, Mem.deref, hm, hpay]
  | some t =>
      obtain ⟨t', ht', hpay⟩ := hr.cell hm
      have hcb : t'.cbFunc = t.cbFunc := show (Linked.payload t').cbFunc = t.cbFunc by rw [hpay]; rfl
      have hud : t'.userData = t.userData :=
        show (Linked.payload t').userData = t.userData by rw [hpay]; rfl
      simp [callOf, Mem.deref, hm, ht', SortTimerLst.invoke, hcb, hud]

/-- What a tick at `cur` does to the list `l`: a first part is called and freed, because it is due;
the rest is not due and stays. -/
structure Ticked (w : SortTimerLst) (l : List Ptr) (cur : Int) (w' : SortTimerLst)
    (calls : List Call) (rest : List Ptr) : Prop where
  split : l = calls.map Call.timer ++ rest
  holds : Holds w' rest
  due : ∀ c ∈ calls, expireOf w.mem c.timer ≤ cur
  call : ∀ c ∈ calls, callOf w.mem c.timer = .ok c
  late : ∀ p ∈ rest, cur < expireOf w.mem p

/-- A due timer in front of the others: it is called, and taken off the list with its cell. -/
theorem Ticked.cons {w' : SortTimerLst} {cur : Int} {calls : List Call} {rest : List Ptr} {c : Call}
    (hpl : p ∉ l) (hn : w.mem.cells p = some n) (hdue : ¬ cur < n.expire)
    (hinv : SortTimerLst.invoke p n = .ok c) (hc : c.timer = p) (hr : Relinked w.mem m l)
    (ht : Ticked { w with mem := m.set p none, head := l.head? } l cur w' calls rest) :
    Ticked w (p :: l) cur w' (c :: calls) rest := by
  -- what is read of the remaining timers is what was there before
  have hcell : ∀ x ∈ l, (m.set p none).cells x = m.cells x := by
    intro x hx
    exact Mem.cells_set_ne _ _ (fun e => hpl (e ▸ hx))
  have hexp : ∀ x ∈ l, expireOf (m.set p none) x = expireOf w.mem x := by
    intro x hx
    rw [expireOf, hcell x hx]
    exact expireOf_relinked hr x
  have hcall : ∀ x ∈ l, callOf (m.set p none) x = callOf w.mem x := by
    intro x hx
    rw [callOf, Mem.deref, hcell x hx]
    exact callOf_relinked hr x
  have hcalls : ∀ c ∈ calls, c.timer ∈ l := by
    intro c hc
    rw [ht.split]
    exact List.mem_append_left _ (List.mem_map_of_mem hc)
  constructor
  · rw [List.map_cons, List.cons_append, ← ht.split, hc]
  · exact ht.holds
  · intro d hd
    rcases List.mem_cons.mp hd with rfl | hd
    · rw [hc, expireOf_eq hn]
      omega
    · rw [← hexp _ (hcalls d hd)]
      exact ht.due d hd
  · intro d hd
    rcases List.mem_cons.mp hd with rfl | hd
    · rw [hc, callOf, Mem.deref_eq hn, ok_bind, hinv]
    · rw [← hcall _ (hcalls d hd)]
      exact ht.call d hd
  · intro q hq
    have hql : q ∈ l := by
      rw [ht.split]
      exact List.mem_append_right _ hq
    rw [← hexp q hql]
    exact ht.late q hq

/-- The loop of `tick` removes the timers that are due from the front. -/
theorem tickLoop_ticked (cur : Int) (hw : Holds w l) (hfuel : l.length < fuel) :
    ∃ w' calls rest, SortTimerLst.tickLoop cur fuel w w.head = .ok (w', calls) ∧
      Ticked w l cur w' calls rest := by
  induction fuel generalizing w l with
  | zero => omega
  | succ fuel ih =>
      have hhead : w.head = l.head? := hw.chain.head
      rw [hhead]
      cases l with
      | nil => exact ⟨w, [], [], rfl, rfl, hw, by simp, by simp, by simp⟩
      | cons p l =>
          obtain ⟨n, hn, -, hnext, hs⟩ := id hw.chain.seg
          obtain ⟨hpl, hndl⟩ := List.nodup_cons.mp hw.chain.nodup
          obtain ⟨hfirst, hasc⟩ := List.pairwise_cons.mp hw.ascending
          have hnext : n.next = l.head? := by
            have : n.next = l.head?.or none := hnext
            simpa using this
          simp only [SortTimerLst.tickLoop, List.head?_cons, Mem.deref_eq hn, ok_bind]
          by_cases hlate : cur < n.expire
          · -- the list is sorted, so no one behind `p` is due either
            rw [if_pos hlate]
            refine ⟨w, [], p :: l, rfl, rfl, hw, by simp, by simp, ?_⟩
            rw [← expireOf_eq hn] at hlate
            intro q hq
            rcases List.mem_cons.mp hq with rfl | hq
            · exact hlate
            · have := hfirst q hq
              omega
          · obtain ⟨t, ht, hcb⟩ := hw.armed p List.mem_cons_self
            obtain rfl : n = t := Option.some.inj (hn.symm.trans ht)
            obtain ⟨cb, hcb⟩ := Option.ne_none_iff_exists'.mp hcb
            have hinv : SortTimerLst.invoke p n =
                .ok { timer := p, cbFunc := cb, userData := n.userData } := by
              simp [SortTimerLst.invoke, hcb]
            obtain ⟨m₁, hm₁, hc₁, hr₁⟩ := hs.detach hndl
            have hn₁ : m₁.cells p = some n := by rw [hr₁.off p hpl, hn]
            have hw₁ : Holds { w with mem := m₁.set p none, head := l.head? } l := by
              refine Holds.delete hr₁ hc₁ hpl ?_ hasc
                (fun x hx => hw.armed x (List.mem_cons_of_mem _ hx))
              intro hne
              rw [hw.tail (List.cons_ne_nil _ _)]
              cases l with
              | nil => exact absurd rfl hne
              | cons b l => rw [List.getLast?_cons_cons]
            obtain ⟨w', calls, rest, hloop, ht⟩ := ih hw₁ (by simpa using hfuel)
            refine ⟨w', _, rest, ?_, ht.cons hpl hn hlate hinv rfl hr₁⟩
            rw [if_neg hlate, hinv, ok_bind, hnext, hm₁, ok_bind, Mem.delete_eq hn₁, ok_bind,
              hloop, ok_bind]
            rfl

/-- `tick` removes the timers that are due from the front. -/
theorem tick_ticked (hw : Holds w l) (cur : Int) :
    ∃ w' calls rest, w.tick cur = .ok (w', calls) ∧ Ticked w l cur w' calls rest := by
  have hlen : l.length < w.mem.brk + 1 := Nat.lt_succ_of_le hw.chain.length_le_brk
  obtain ⟨w', calls, rest, hloop, ht⟩ := tickLoop_ticked cur hw hlen
  have hhead : w.head = l.head? := hw.chain.head
  unfold SortTimerLst.tick
  cases l with
  | nil =>
      rw [show w.head = none from hhead]
      exact ⟨w, [], [], rfl, rfl, hw, by simp, by simp, by simp⟩
  | cons p l =>
      refine ⟨w', calls, rest, ?_, ht⟩
      rw [show w.head = some p from hhead] at hloop ⊢
      exact hloop

end LinuxServer.SortedList
