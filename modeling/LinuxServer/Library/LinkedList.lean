import LinuxServer.Library.Memory
import Mathlib.Tactic.Tauto

/-!
# Doubly linked lists in memory

`Seg m pv l nx` reads the cells of `l` as a stretch of a doubly linked list: each cell points forward
to the next one and backward to the previous one, the outermost links being `pv` and `nx`. A whole
list is a `Chain`: a head pointer, a list of distinct addresses and a stretch that is null at both
ends. Segments split and join along `++` (`seg_append`), so every pointer surgery is proved at the
place where it happens and carried to the whole list from there.

`Relinked m m' l` is the frame condition of these surgeries: only the link fields changed, and only
in cells of `l`.
-/

namespace LinuxServer.Library

/-- Cells with a forward and a backward link. `payload` is the cell with its links blanked. -/
class Linked (ν : Type) where
  next : ν → Option Ptr
  prev : ν → Option Ptr
  setNext : ν → Option Ptr → ν
  setPrev : ν → Option Ptr → ν
  payload : ν → ν
  next_setNext : ∀ n x, next (setNext n x) = x
  prev_setNext : ∀ n x, prev (setNext n x) = prev n
  next_setPrev : ∀ n x, next (setPrev n x) = next n
  prev_setPrev : ∀ n x, prev (setPrev n x) = x
  payload_setNext : ∀ n x, payload (setNext n x) = payload n
  payload_setPrev : ∀ n x, payload (setPrev n x) = payload n

attribute [simp] Linked.next_setNext Linked.prev_setNext Linked.next_setPrev Linked.prev_setPrev
  Linked.payload_setNext Linked.payload_setPrev

open Linked

variable {ν : Type} [Linked ν] {m m' m'' : Mem ν} {pv nx h : Option Ptr} {l l₁ l₂ : List Ptr}
  {p q : Ptr} {n n' : ν}

/-! ## Segments -/

/-- The cells `l`, doubly linked, entered from `pv` and left towards `nx`. -/
def Seg (m : Mem ν) : Option Ptr → List Ptr → Option Ptr → Prop
  | _, [], _ => True
  | pv, p :: l, nx =>
    ∃ n, m.cells p = some n ∧ prev n = pv ∧ next n = l.head?.or nx ∧ Seg m (some p) l nx

@[simp] theorem seg_nil : Seg m pv [] nx := trivial

/-- A segment is its first node and the segment behind it. -/
theorem seg_cons : Seg m pv (p :: l) nx ↔
    ∃ n, m.cells p = some n ∧ prev n = pv ∧ next n = l.head?.or nx ∧ Seg m (some p) l nx :=
  Iff.rfl

/-- A segment is two segments that meet. -/
theorem seg_append : Seg m pv (l₁ ++ l₂) nx ↔
    Seg m pv l₁ (l₂.head?.or nx) ∧ Seg m (l₁.getLast?.or pv) l₂ nx := by
  induction l₁ generalizing pv with
  | nil => simp
  | cons a l₁ ih =>
      have hhead : (l₁ ++ l₂).head?.or nx = l₁.head?.or (l₂.head?.or nx) := by
        cases l₁ <;> simp
      have hlast : (a :: l₁).getLast?.or pv = l₁.getLast?.or (some a) := by
        cases l₁ with
        | nil => rfl
        | cons b l₁ => simp [List.getLast?_eq_some_getLast]
      rw [List.cons_append, seg_cons, seg_cons, hhead, hlast]
      constructor
      · rintro ⟨n, hn, hp, hx, hs⟩
        exact ⟨⟨n, hn, hp, hx, (ih.mp hs).1⟩, (ih.mp hs).2⟩
      · rintro ⟨⟨n, hn, hp, hx, hs₁⟩, hs₂⟩
        exact ⟨n, hn, hp, hx, ih.mpr ⟨hs₁, hs₂⟩⟩

/-- All nodes of a segment exist. -/
theorem Seg.live (hs : Seg m pv l nx) : ∀ p ∈ l, m.cells p ≠ none := by
  induction l generalizing pv with
  | nil => simp
  | cons a l ih =>
      obtain ⟨n, hn, _, _, hs⟩ := hs
      intro p hp
      rcases List.mem_cons.mp hp with rfl | hp
      · simp [hn]
      · exact ih hs p hp

/-- A segment only depends on the links of its own cells. -/
theorem Seg.congr (hs : Seg m pv l nx)
    (hm : ∀ p ∈ l, ∀ n, m.cells p = some n →
      ∃ n', m'.cells p = some n' ∧ next n' = next n ∧ prev n' = prev n) :
    Seg m' pv l nx := by
  induction l generalizing pv with
  | nil => trivial
  | cons a l ih =>
      obtain ⟨n, hn, hp, hx, hs⟩ := hs
      obtain ⟨n', hn', hx', hp'⟩ := hm a (by simp) n hn
      exact ⟨n', hn', hp'.trans hp, hx'.trans hx, ih hs (fun p hp => hm p (by simp [hp]))⟩

/-- A segment only depends on its own nodes. -/
theorem Seg.of_eq (hs : Seg m pv l nx) (hm : ∀ p ∈ l, m'.cells p = m.cells p) :
    Seg m' pv l nx :=
  hs.congr (fun p hp n hn => ⟨n, (hm p hp).trans hn, rfl, rfl⟩)

/-- Writing elsewhere keeps a segment. -/
theorem Seg.set_of_notMem (hs : Seg m pv l nx) (hp : p ∉ l) (c : Option ν) :
    Seg (m.set p c) pv l nx := by
  apply hs.of_eq
  intro q hq
  apply Mem.cells_set_ne
  rintro rfl
  exact hp hq

/-- Redirecting the forward link of the last cell. -/
theorem Seg.set_last (hs : Seg m pv (l ++ [p]) nx) (hnd : (l ++ [p]).Nodup)
    (hn : m.cells p = some n) (nx' : Option Ptr) :
    Seg (m.set p (some (setNext n nx'))) pv (l ++ [p]) nx' := by
  rw [seg_append] at hs ⊢
  obtain ⟨hs₁, k, hk, hkp, _, _⟩ := hs
  have hp : p ∉ l := fun h => (List.nodup_append.mp hnd).2.2 p h p (by simp) rfl
  obtain rfl : k = n := Option.some.inj (hk.symm.trans hn)
  refine ⟨hs₁.set_of_notMem hp _, setNext k nx', by simp, ?_, by simp, trivial⟩
  rw [prev_setNext]
  exact hkp

/-- Redirecting the backward link of the first cell. -/
theorem Seg.set_head (hs : Seg m pv (p :: l) nx) (hnd : (p :: l).Nodup)
    (hn : m.cells p = some n) (pv' : Option Ptr) :
    Seg (m.set p (some (setPrev n pv'))) pv' (p :: l) nx := by
  obtain ⟨k, hk, _, hkx, hs⟩ := hs
  obtain rfl : k = n := Option.some.inj (hk.symm.trans hn)
  refine ⟨setPrev k pv', by simp, by simp, ?_, hs.set_of_notMem (List.nodup_cons.mp hnd).1 _⟩
  rw [next_setPrev]
  exact hkx

/-! ## Frames -/

/-- `m'` is `m` with other links in some of the cells of `l`. -/
structure Relinked (m m' : Mem ν) (l : List Ptr) : Prop where
  off : ∀ q, q ∉ l → m'.cells q = m.cells q
  payload : ∀ q, (m'.cells q).map payload = (m.cells q).map payload

/-- Nothing has been relinked. -/
theorem Relinked.refl (m : Mem ν) (l : List Ptr) : Relinked m m l := ⟨fun _ _ => rfl, fun _ => rfl⟩

/-- First some nodes are relinked, then others. -/
theorem Relinked.trans (h₁ : Relinked m m' l) (h₂ : Relinked m' m'' l) : Relinked m m'' l where
  off := fun q hq => (h₂.off q hq).trans (h₁.off q hq)
  payload := fun q => (h₂.payload q).trans (h₁.payload q)

/-- It is enough to know it of fewer nodes. -/
theorem Relinked.mono (hr : Relinked m m' l₁) (hsub : ∀ q ∈ l₁, q ∈ l₂) : Relinked m m' l₂ :=
  ⟨fun q hq => hr.off q (fun h => hq (hsub q h)), hr.payload⟩

/-- Writing a node with the same payload. -/
theorem Relinked.set (hn : m.cells p = some n) (hpay : Linked.payload n' = Linked.payload n)
    (hp : p ∈ l) : Relinked m (m.set p (some n')) l where
  off := fun q hq => Mem.cells_set_ne m _ (fun e => hq (e ▸ hp))
  payload := fun q => by
    by_cases hqp : q = p
    · subst hqp
      simp [hn, hpay]
    · rw [Mem.cells_set_ne m _ hqp]

/-- Payloads of live cells survive relinking. -/
theorem Relinked.cell (hr : Relinked m m' l) (hn : m.cells p = some n) :
    ∃ n', m'.cells p = some n' ∧ Linked.payload n' = Linked.payload n := by
  have := hr.payload p
  rw [hn] at this
  simpa using this

/-! ## Whole lists -/

/-- The distinct cells `l` form a list with head pointer `h`, null at both ends. -/
structure Chain (m : Mem ν) (h : Option Ptr) (l : List Ptr) : Prop where
  head : h = l.head?
  nodup : l.Nodup
  seg : Seg m none l none

/-- No head, no nodes. -/
theorem chain_nil (m : Mem ν) : Chain m none [] := ⟨rfl, List.nodup_nil, trivial⟩

/-- All nodes of a chain exist. -/
theorem Chain.live (hc : Chain m h l) : ∀ p ∈ l, m.cells p ≠ none := hc.seg.live

/-- A chain only depends on its own nodes. -/
theorem Chain.of_eq (hc : Chain m h l) (hm : ∀ p ∈ l, m'.cells p = m.cells p) : Chain m' h l :=
  ⟨hc.head, hc.nodup, hc.seg.of_eq hm⟩

/-- A chain only depends on the links of its nodes. -/
theorem Chain.congr (hc : Chain m h l)
    (hm : ∀ p ∈ l, ∀ n, m.cells p = some n →
      ∃ n', m'.cells p = some n' ∧ next n' = next n ∧ prev n' = prev n) : Chain m' h l :=
  ⟨hc.head, hc.nodup, hc.seg.congr hm⟩

/-- Writing elsewhere keeps a chain. -/
theorem Chain.set_of_notMem (hc : Chain m h l) (hp : p ∉ l) (c : Option ν) :
    Chain (m.set p c) h l :=
  ⟨hc.head, hc.nodup, hc.seg.set_of_notMem hp c⟩

/-- A chain has no more nodes than have been allocated. -/
theorem Chain.length_le_brk (hc : Chain m h l) : l.length ≤ m.brk :=
  Mem.length_le_brk hc.nodup hc.live

/-- The cell in the middle of a list and its two links. -/
theorem Chain.cell (hc : Chain m h (l₁ ++ p :: l₂)) :
    ∃ n, m.cells p = some n ∧ prev n = l₁.getLast? ∧ next n = l₂.head? := by
  obtain ⟨-, n, hn, hp, hx, -⟩ := seg_append.mp hc.seg
  exact ⟨n, hn, by simpa using hp, by simpa using hx⟩

/-- A node is in the chain once. -/
theorem Chain.nodup_middle (hc : Chain m h (l₁ ++ p :: l₂)) :
    p ∉ l₁ ∧ p ∉ l₂ ∧ (l₁ ++ l₂).Nodup := by
  have hnd := List.nodup_middle.mp hc.nodup
  rw [List.nodup_cons, List.mem_append, not_or] at hnd
  exact ⟨hnd.1.1, hnd.1.2, hnd.2⟩

/-! ### Adding at the front -/

/-- An unlinked cell becomes a list of its own. -/
theorem chain_singleton (hn : m.cells p = some n) (hp : prev n = none) (hx : next n = none) :
    Chain m (some p) [p] :=
  ⟨rfl, List.nodup_singleton p, n, hn, hp, hx, trivial⟩

/-- `p->next = head; head->prev = p; head = p`, on a cell whose `prev` is null. -/
theorem Chain.push_front (hc : Chain m (some q) (q :: l)) (hpl : p ∉ q :: l)
    (hpn : prev n = none) (hq : m.cells q = some n') :
    Chain ((m.set p (some (setNext n (some q)))).set q (some (setPrev n' (some p)))) (some p)
      (p :: q :: l) := by
  have hpq : p ≠ q := fun e => hpl (e ▸ List.mem_cons_self)
  have hs := hc.seg.set_of_notMem hpl (some (setNext n (some q)))
  have hq' : (m.set p (some (setNext n (some q)))).cells q = some n' := by
    rw [Mem.cells_set_ne _ _ hpq.symm, hq]
  refine ⟨rfl, List.nodup_cons.mpr ⟨hpl, hc.nodup⟩, setNext n (some q), ?_, ?_, ?_, ?_⟩
  · rw [Mem.cells_set_ne _ _ hpq, Mem.cells_set_self]
  · rw [prev_setNext, hpn]
  · rw [next_setNext]
    rfl
  · exact hs.set_head hc.nodup hq' (some p)

/-! ### Removing -/

/-- Clear the backward link of the cell `h`, if there is one: `if (h) h->prev = NULL`. -/
def clearPrev (m : Mem ν) (h : Option Ptr) : Exec (Mem ν) :=
  match h with
  | none => .ok m
  | some _ => m.modify h (setPrev · none)

/-- The rest of a list becomes a list of its own once the backward link of its first cell is
cleared. -/
theorem Seg.detach (hs : Seg m pv l none) (hnd : l.Nodup) :
    ∃ m', clearPrev m l.head? = .ok m' ∧ Chain m' l.head? l ∧ Relinked m m' l := by
  cases l with
  | nil => exact ⟨m, rfl, chain_nil m, Relinked.refl m _⟩
  | cons b l =>
      obtain ⟨k, hk, _, _, _⟩ := id hs
      refine ⟨m.set b (some (setPrev k none)), Mem.modify_eq hk _, ?_, ?_⟩
      · exact ⟨rfl, hnd, hs.set_head hnd hk none⟩
      · exact Relinked.set hk (payload_setPrev k none) List.mem_cons_self

/-- `p->prev->next = p->next; if (p->next) p->next->prev = p->prev`. -/
def unlink (m : Mem ν) (p : Option Ptr) : Exec (Mem ν) := do
  let t ← m.deref p
  let m ← m.modify (prev t) (setNext · (next t))
  let t ← m.deref p
  match next t with
  | none => .ok m
  | some _ => m.modify (next t) (setPrev · (prev t))

/-- Joining the two neighbours of a cell leaves the list without it, and the cell untouched. -/
theorem Chain.unlink (hc : Chain m h (l₁ ++ p :: l₂)) (hne : l₁ ≠ []) :
    ∃ m', Library.unlink m (some p) = .ok m' ∧ Chain m' h (l₁ ++ l₂) ∧
      Relinked m m' (l₁ ++ l₂) := by
  obtain ⟨k₁, a, rfl⟩ : ∃ k₁ a, l₁ = k₁ ++ [a] :=
    ⟨l₁.dropLast, l₁.getLast hne, (List.dropLast_append_getLast hne).symm⟩
  obtain ⟨t, ht, htp, htx⟩ := hc.cell
  obtain ⟨hp₁, hp₂, hnd⟩ := hc.nodup_middle
  obtain ⟨hs₁, hs₂⟩ := seg_append.mp hc.seg
  obtain ⟨-, na, hna, -, -, -⟩ := seg_append.mp hs₁
  obtain ⟨-, -, -, -, hs₂⟩ := hs₂
  have htp : prev t = some a := by simpa using htp
  have hap : a ≠ p := fun e => hp₁ (by simp [e])
  have hnd₁ : (k₁ ++ [a]).Nodup := (List.nodup_append.mp hnd).1
  have hdisj : ∀ b ∈ l₂, b ∉ k₁ ++ [a] := fun b hb hb₁ => (List.nodup_append.mp hnd).2.2 b hb₁ b hb rfl
  -- After the first assignment the left part leads straight to the right part.
  have hs₁' := hs₁.set_last hnd₁ hna (next t)
  have hs₂' := hs₂.set_of_notMem (p := a) (fun hb => hdisj a hb (by simp)) (some (setNext na (next t)))
  have hr₁ : Relinked m (m.set a (some (setNext na (next t)))) (k₁ ++ [a] ++ l₂) :=
    Relinked.set hna (payload_setNext _ _) (by simp)
  have hpm : (m.set a (some (setNext na (next t)))).cells p = some t := by
    rw [Mem.cells_set_ne _ _ hap.symm, ht]
  have hhead : h = (k₁ ++ [a] ++ l₂).head? := by rw [hc.head]; cases k₁ <;> rfl
  unfold Library.unlink
  rw [Mem.deref_eq ht, ok_bind, htp, Mem.modify_eq hna, ok_bind, Mem.deref_eq hpm, ok_bind]
  cases l₂ with
  | nil =>
      have htx : next t = none := htx
      rw [htx] at hs₁' hr₁ ⊢
      refine ⟨_, rfl, ⟨hhead, hnd, ?_⟩, hr₁⟩
      rw [List.append_nil]
      exact hs₁'
  | cons b l₂ =>
      have htx : next t = some b := htx
      rw [htx] at hs₁' hs₂' hr₁ ⊢
      obtain ⟨nb, hnb, _, _, _⟩ := id hs₂'
      have hb : b ∉ k₁ ++ [a] := hdisj b List.mem_cons_self
      refine ⟨_, Mem.modify_eq hnb _, ⟨hhead, hnd, ?_⟩, hr₁.trans ?_⟩
      · rw [htp]
        refine seg_append.mpr ⟨hs₁'.set_of_notMem hb _, ?_⟩
        have := hs₂'.set_head (List.nodup_append.mp hnd).2.1 hnb (some a)
        simpa using this
      · exact Relinked.set hnb (payload_setPrev _ _) (by simp)

/-- `p->prev->next = p->next; p->next->prev = p->prev`, for a cell that has both neighbours. -/
def unlinkInner (m : Mem ν) (p : Option Ptr) : Exec (Mem ν) := do
  let t ← m.deref p
  let m ← m.modify (prev t) (setNext · (next t))
  let t ← m.deref p
  m.modify (next t) (setPrev · (prev t))

/-- Taking a node out of the middle. -/
theorem Chain.unlinkInner (hc : Chain m h (l₁ ++ p :: q :: l₂)) (hne : l₁ ≠ []) :
    ∃ m', Library.unlinkInner m (some p) = .ok m' ∧ Chain m' h (l₁ ++ q :: l₂) ∧
      Relinked m m' (l₁ ++ q :: l₂) := by
  obtain ⟨m', hm', hc', hr⟩ := hc.unlink hne
  refine ⟨m', ?_, hc', hr⟩
  obtain ⟨t, ht, htp, htx⟩ := hc.cell
  obtain ⟨hp₁, -, -⟩ := hc.nodup_middle
  have hap : p ∉ l₁.getLast? := fun h => hp₁ (List.mem_of_getLast? h)
  rw [← hm']
  unfold Library.unlinkInner Library.unlink
  rw [Mem.deref_eq ht, ok_bind, ok_bind, htp]
  obtain ⟨a, ha⟩ : ∃ a, l₁.getLast? = some a := Option.isSome_iff_exists.mp (by simpa using hne)
  have hpa : p ≠ a := fun e => hap (e ▸ ha)
  rw [ha]
  -- the first assignment does not touch `p`, whose `next` is not null
  cases hmod : m.modify (some a) (setNext · (next t)) with
  | error e => rfl
  | ok m₁ =>
      have hp : m₁.cells p = some t := by
        unfold Mem.modify at hmod
        split at hmod
        · cases hmod
        · rename_i b hb
          obtain rfl := Option.some.inj hb
          split at hmod
          · cases hmod
          · obtain rfl := Except.ok.inj hmod
            rw [Mem.cells_set_ne _ _ hpa, ht]
      rw [ok_bind, ok_bind, Mem.deref_eq hp, ok_bind, ok_bind, htx]
      rfl

/-! ### Inserting -/

/-- `a->next = p; p->next = b; b->prev = p; p->prev = a`. -/
def link (m : Mem ν) (p a b : Option Ptr) : Exec (Mem ν) := do
  let m ← m.modify a (setNext · p)
  let m ← m.modify p (setNext · b)
  let m ← m.modify b (setPrev · p)
  m.modify p (setPrev · a)

/-- Putting a node between two others. -/
theorem Chain.link {a b : Ptr} (hc : Chain m h (l₁ ++ a :: b :: l₂))
    (hp : p ∉ l₁ ++ a :: b :: l₂) (hn : m.cells p = some n) :
    ∃ m', Library.link m (some p) (some a) (some b) = .ok m' ∧
      Chain m' h (l₁ ++ a :: p :: b :: l₂) ∧ Relinked m m' (p :: (l₁ ++ a :: b :: l₂)) := by
  have hsplit : l₁ ++ a :: b :: l₂ = (l₁ ++ [a]) ++ b :: l₂ := by simp
  have hnd := hc.nodup
  rw [hsplit] at hnd
  obtain ⟨hnd₁, hnd₂, hdisj⟩ := List.nodup_append.mp hnd
  have hs := hc.seg
  rw [hsplit, seg_append] at hs
  obtain ⟨hs₁, hs₂⟩ := hs
  obtain ⟨na, hna, -, -⟩ := hc.cell
  obtain ⟨nb, hnb, -, -, -⟩ := id hs₂
  have hpa : p ≠ a := fun e => hp (by simp [e])
  have hpb : p ≠ b := fun e => hp (by simp [e])
  have hab : a ≠ b := fun e => hdisj a (by simp) b (by simp) e
  have hp₁ : p ∉ l₁ ++ [a] := fun h => hp (by rw [hsplit]; exact List.mem_append_left _ h)
  have hp₂ : p ∉ b :: l₂ := fun h => hp (by rw [hsplit]; exact List.mem_append_right _ h)
  have ha₂ : a ∉ b :: l₂ := fun h => hdisj a (by simp) a h rfl
  have hb₁ : b ∉ l₁ ++ [a] := fun h => hdisj b h b (by simp) rfl
  -- the four assignments, one after the other
  have hp' : (m.set a (some (setNext na (some p)))).cells p = some n := by
    rw [Mem.cells_set_ne _ _ hpa, hn]
  have hb' : ((m.set a (some (setNext na (some p)))).set p
      (some (setNext n (some b)))).cells b = some nb := by
    rw [Mem.cells_set_ne _ _ hpb.symm, Mem.cells_set_ne _ _ hab.symm, hnb]
  have hp'' : (((m.set a (some (setNext na (some p)))).set p (some (setNext n (some b)))).set b
      (some (setPrev nb (some p)))).cells p = some (setNext n (some b)) := by
    rw [Mem.cells_set_ne _ _ hpb, Mem.cells_set_self]
  refine ⟨(((m.set a (some (setNext na (some p)))).set p (some (setNext n (some b)))).set b
      (some (setPrev nb (some p)))).set p (some (setPrev (setNext n (some b)) (some a))), ?_, ?_, ?_⟩
  · unfold Library.link
    rw [Mem.modify_eq hna, ok_bind, Mem.modify_eq hp', ok_bind, Mem.modify_eq hb', ok_bind,
      Mem.modify_eq hp'']
  · refine ⟨?_, ?_, ?_⟩
    · rw [hc.head]
      cases l₁ <;> rfl
    · have : l₁ ++ a :: p :: b :: l₂ = (l₁ ++ [a]) ++ p :: b :: l₂ := by simp
      rw [this, List.nodup_middle, List.nodup_cons, ← hsplit]
      exact ⟨hp, hc.nodup⟩
    · have : l₁ ++ a :: p :: b :: l₂ = (l₁ ++ [a]) ++ p :: b :: l₂ := by simp
      rw [this, seg_append]
      constructor
      · exact (((hs₁.set_last hnd₁ hna (some p)).set_of_notMem hp₁ _).set_of_notMem hb₁
          _).set_of_notMem hp₁ _
      · refine ⟨_, Mem.cells_set_self _ _ _, by simp, by simp, ?_⟩
        exact (((hs₂.set_of_notMem ha₂ _).set_of_notMem hp₂ _).set_head hnd₂ hb'
          (some p)).set_of_notMem hp₂ _
  · have h₁ := Relinked.set (l := p :: (l₁ ++ a :: b :: l₂)) hna (payload_setNext na (some p))
      (by simp)
    have h₂ := Relinked.set (l := p :: (l₁ ++ a :: b :: l₂)) hp' (payload_setNext n (some b))
      (by simp)
    have h₃ := Relinked.set (l := p :: (l₁ ++ a :: b :: l₂)) hb' (payload_setPrev nb (some p))
      (by simp)
    have h₄ := Relinked.set (l := p :: (l₁ ++ a :: b :: l₂)) hp''
      (payload_setPrev (setNext n (some b)) (some a)) (by simp)
    exact ((h₁.trans h₂).trans h₃).trans h₄

/-! ## Following the links -/

/-- Following `next` from `h`, one comes through the cells `l` and to a null pointer. -/
def Walk (m : Mem ν) : Option Ptr → List Ptr → Prop
  | h, [] => h = none
  | h, p :: l => h = some p ∧ ∃ n, m.cells p = some n ∧ Walk m (next n) l

/-- There is one walk from a head. -/
theorem Walk.unique (h₁ : Walk m h l₁) (h₂ : Walk m h l₂) : l₁ = l₂ := by
  induction l₁ generalizing h l₂ with
  | nil =>
      cases l₂ with
      | nil => rfl
      | cons q l₂ =>
          obtain rfl : h = none := h₁
          cases h₂.1
  | cons p l₁ ih =>
      obtain ⟨rfl, n, hn, h₁⟩ := h₁
      cases l₂ with
      | nil => cases h₂
      | cons q l₂ =>
          obtain ⟨hq, n', hn', h₂⟩ := h₂
          obtain rfl := Option.some.inj hq
          obtain rfl := Option.some.inj (hn.symm.trans hn')
          rw [ih h₁ h₂]

theorem Seg.walk (hs : Seg m pv l none) : Walk m l.head? l := by
  induction l generalizing pv with
  | nil => rfl
  | cons p l ih =>
      obtain ⟨n, hn, -, hx, hs⟩ := hs
      refine ⟨rfl, n, hn, ?_⟩
      rw [hx, Option.or_none]
      exact ih hs

/-- A chain is a walk along `next`. -/
theorem Chain.walk (hc : Chain m h l) : Walk m h l := by
  rw [hc.head]
  exact hc.seg.walk

/-- A walk begins at its head. -/
theorem Walk.head (hw : Walk m h l) : h = l.head? := by
  cases l with
  | nil => exact hw
  | cons p l => exact hw.1

/-- The rest of a walk is a walk. -/
theorem Walk.suffix (hw : Walk m h (l₁ ++ l₂)) : Walk m l₂.head? l₂ := by
  induction l₁ generalizing h with
  | nil =>
      have hh : h = l₂.head? := hw.head
      rw [← hh]
      exact hw
  | cons p l₁ ih =>
      obtain ⟨-, n, -, hw⟩ := hw
      exact ih hw

/-- The part of a walk up to `p`, and then on from `p` on another way. -/
theorem Walk.detour {l₃ : List Ptr} (hw : Walk m h (l₁ ++ p :: l₂))
    (hm : ∀ x ∈ l₁, m'.cells x = m.cells x) (hp : m'.cells p = some n)
    (hw' : Walk m' (next n) l₃) : Walk m' h (l₁ ++ p :: l₃) := by
  induction l₁ generalizing h with
  | nil => exact ⟨hw.1, n, hp, hw'⟩
  | cons a l₁ ih =>
      obtain ⟨rfl, k, hk, hw⟩ := hw
      refine ⟨rfl, k, (hm a List.mem_cons_self).trans hk, ?_⟩
      exact ih hw fun x hx => hm x (List.mem_cons_of_mem _ hx)

/-- Only the forward links matter. -/
theorem Walk.congr (hw : Walk m h l)
    (hm : ∀ p ∈ l, ∀ n, m.cells p = some n → ∃ n', m'.cells p = some n' ∧ next n' = next n) :
    Walk m' h l := by
  induction l generalizing h with
  | nil => exact hw
  | cons p l ih =>
      obtain ⟨rfl, n, hn, hw⟩ := hw
      obtain ⟨n', hn', hnext⟩ := hm p List.mem_cons_self n hn
      refine ⟨rfl, n', hn', ?_⟩
      rw [hnext]
      exact ih hw fun x hx => hm x (List.mem_cons_of_mem _ hx)

/-- The cells met by following `next` for at most `fuel` links. -/
def follow (m : Mem ν) : Nat → Option Ptr → List Ptr
  | 0, _ => []
  | _, none => []
  | fuel + 1, some p =>
    match m.cells p with
    | none => []
    | some n => p :: follow m fuel (next n)

/-- Following `next` gives the walk. -/
theorem Walk.follow_eq {fuel : Nat} (hw : Walk m h l) (hfuel : l.length ≤ fuel) :
    follow m fuel h = l := by
  induction l generalizing h fuel with
  | nil =>
      obtain rfl : h = none := hw
      cases fuel <;> rfl
  | cons p l ih =>
      obtain ⟨rfl, n, hn, hw⟩ := hw
      cases fuel with
      | zero => simp at hfuel
      | succ fuel =>
          simp only [follow, hn]
          rw [ih hw (by simpa using hfuel)]

end LinuxServer.Library
