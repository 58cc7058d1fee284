import LinuxServer.Library.Memory
import Mathlib.Data.List.Count
import Mathlib.Data.List.Perm.Basic

/-!
# Shared memory

Pieces of memory with reference counts, and windows on them. A window is what somebody holds who works on
a part of a piece: `Holds` says that the counts are right for a list of windows, that each window lies
within its piece, and that a window which is marked `sole` is the only one on its piece.

For each access there is one lemma: it returns, `Holds` is true of the windows behind it, and nobody else
sees a difference (`Unchanged`). Since `Holds` does not depend on the order of the windows (`Holds.perm`),
a program that works on one of them can put it to the front and carry the others along.
-/

namespace LinuxServer.Library

/-- A piece of memory, and how many hold it. -/
structure Cell (α : Type) where
  block : Block α
  refcnt : Nat

/-- The `count` entries from `start` on of a piece that has `size` entries. -/
structure Window where
  cell : Ptr
  size : Nat
  start : Nat
  count : Nat
  sole : Bool
  deriving Repr, DecidableEq

section Slices
variable {α : Type} {b : Block α} {i j n k : Nat} {xs : List α}

theorem Block.slice_add (b : Block α) (i n k : Nat) : b.slice i (n + k) = b.slice i n ++ b.slice (i + n) k := by
  unfold Block.slice
  rw [List.range_add, List.map_append, List.map_map]
  congr 1
  apply List.map_congr_left
  intro j _
  rw [Function.comp_apply, Nat.add_assoc]

theorem Block.take_slice (h : k ≤ n) : (b.slice i n).take k = b.slice i k := by
  rw [show n = k + (n - k) by omega, b.slice_add]
  exact List.take_left' (by simp)

theorem Block.drop_slice (h : k ≤ n) : (b.slice i n).drop k = b.slice (i + k) (n - k) := by
  rw [show n = k + (n - k) by omega, b.slice_add, show k + (n - k) - k = n - k by omega]
  exact List.drop_left' (by simp)

/-- Reading back all that was stored. -/
theorem Block.slice_overlay (b : Block α) (i : Nat) (xs : List α) : (b.overlay i xs).slice i xs.length = xs := by
  have h := b.slice_overlay_prefix (i := i) xs []
  rwa [List.append_nil] at h

end Slices

/-! ## Accesses -/

namespace Mem
variable {α : Type}

def load (m : Mem (Cell α)) (p : Ptr) (i n : Nat) : Exec (List α) := do
  let cell ← m.deref (some p)
  cell.block.readAll i n

def store (m : Mem (Cell α)) (p : Ptr) (i : Nat) (xs : List α) : Exec (Mem (Cell α)) := do
  let cell ← m.deref (some p)
  let block ← cell.block.writeAll i xs
  .ok (m.set p (some { cell with block }))

/-- One more holds the piece. -/
def hold (m : Mem (Cell α)) (p : Ptr) : Exec (Mem (Cell α)) :=
  m.modify (some p) fun cell => { cell with refcnt := cell.refcnt + 1 }

/-- One less does; the last one frees it. -/
def release (m : Mem (Cell α)) (p : Ptr) : Exec (Mem (Cell α)) := do
  let cell ← m.deref (some p)
  if 1 < cell.refcnt then m.modify (some p) fun cell => { cell with refcnt := cell.refcnt - 1 }
  else m.delete (some p)

end Mem

/-! ## Who holds what -/

namespace Window
variable {α : Type}

/-- What is to be seen through a window. -/
def read (w : Window) (m : Mem (Cell α)) : List α :=
  (m.cells w.cell).elim [] fun cell => cell.block.slice w.start w.count

/-- The window on another part of the piece. -/
def slide (w : Window) (start count : Nat) : Window := { w with start, count }

@[simp] theorem slide_self (w : Window) : w.slide w.start w.count = w := rfl

end Window

section
variable {α : Type} {m m' m'' : Mem (Cell α)} {w v : Window} {ws vs : List Window} {p : Ptr} {i n : Nat}
  {xs : List α}

/-- The windows `ws` are all there are. -/
structure Holds (m : Mem (Cell α)) (ws : List Window) : Prop where
  live : ∀ w ∈ ws, ∃ cell, m.cells w.cell = some cell ∧ cell.block.length = w.size
  fits : ∀ w ∈ ws, w.start + w.count ≤ w.size
  counts : ∀ p cell, m.cells p = some cell → 0 < cell.refcnt ∧ cell.refcnt = (ws.map Window.cell).count p
  sole : ∀ w ∈ ws, w.sole = true → (ws.map Window.cell).count w.cell = 1

/-- Through none of the windows a difference is seen. -/
def Unchanged (m m' : Mem (Cell α)) (ws : List Window) : Prop := ∀ w ∈ ws, w.read m' = w.read m

namespace Holds

theorem perm (h : Holds m ws) (hp : ws.Perm vs) : Holds m vs where
  live w hw := h.live w (hp.mem_iff.mpr hw)
  fits w hw := h.fits w (hp.mem_iff.mpr hw)
  counts p cell hc := by
    rw [← (hp.map Window.cell).count_eq p]
    exact h.counts p cell hc
  sole w hw hs := by
    rw [← (hp.map Window.cell).count_eq w.cell]
    exact h.sole w (hp.mem_iff.mpr hw) hs

theorem read_eq (h : Holds m ws) (hw : w ∈ ws) :
    ∃ cell, m.cells w.cell = some cell ∧ cell.block.length = w.size ∧
      w.read m = cell.block.slice w.start w.count := by
  obtain ⟨cell, hc, hlen⟩ := h.live w hw
  exact ⟨cell, hc, hlen, by rw [Window.read, hc]; rfl⟩

@[simp] theorem length_read (h : Holds m ws) (hw : w ∈ ws) : (w.read m).length = w.count := by
  obtain ⟨cell, -, -, hr⟩ := h.read_eq hw
  rw [hr, Block.length_slice]

/-- Loading a part of what is to be seen. -/
theorem load_part (h : Holds m ws) (hw : w ∈ ws) (hin : i + n ≤ w.count) :
    m.load w.cell (w.start + i) n = .ok (((w.read m).drop i).take n) := by
  obtain ⟨cell, hc, hlen, hr⟩ := h.read_eq hw
  have hfits := h.fits w hw
  rw [Mem.load, Mem.deref_eq hc, ok_bind, Block.readAll, if_pos (by omega), hr, Block.drop_slice (by omega),
    Block.take_slice (by omega)]

theorem load (h : Holds m ws) (hw : w ∈ ws) : m.load w.cell w.start w.count = .ok (w.read m) := by
  have hload := h.load_part hw (i := 0) (n := w.count) (Nat.zero_add _).le
  rwa [Nat.add_zero, List.drop_zero, List.take_of_length_le (h.length_read hw).le] at hload

/-- Another part of the piece is looked at. -/
theorem slide (h : Holds m (w :: ws)) {start count : Nat} (hfits : start + count ≤ w.size) :
    Holds m (w.slide start count :: ws) where
  live := by
    intro v hv
    rcases List.mem_cons.mp hv with rfl | hv
    · exact h.live w List.mem_cons_self
    · exact h.live v (List.mem_cons_of_mem _ hv)
  fits := by
    intro v hv
    rcases List.mem_cons.mp hv with rfl | hv
    · exact hfits
    · exact h.fits v (List.mem_cons_of_mem _ hv)
  counts := h.counts
  sole := by
    intro v hv hs
    rcases List.mem_cons.mp hv with rfl | hv
    · exact h.sole w List.mem_cons_self hs
    · exact h.sole v (List.mem_cons_of_mem _ hv) hs

/-- A holder gives up the right to write. -/
theorem give_up (h : Holds m (w :: ws)) : Holds m ({ w with sole := false } :: ws) where
  live := by
    intro v hv
    rcases List.mem_cons.mp hv with rfl | hv
    · exact h.live w List.mem_cons_self
    · exact h.live v (List.mem_cons_of_mem _ hv)
  fits := by
    intro v hv
    rcases List.mem_cons.mp hv with rfl | hv
    · exact h.fits w List.mem_cons_self
    · exact h.fits v (List.mem_cons_of_mem _ hv)
  counts := h.counts
  sole := by
    intro v hv hs
    rcases List.mem_cons.mp hv with rfl | hv
    · cases hs
    · exact h.sole v (List.mem_cons_of_mem _ hv) hs

theorem cell_ne (h : Holds m (w :: ws)) (hs : w.sole = true) : ∀ v ∈ ws, v.cell ≠ w.cell := by
  intro v hv heq
  have hone := h.sole w List.mem_cons_self hs
  have hpos : 0 < (ws.map Window.cell).count w.cell :=
    List.count_pos_iff.mpr (heq ▸ List.mem_map_of_mem hv)
  rw [List.map_cons, List.count_cons_self] at hone
  omega

/-- The only holder writes where it wants to. -/
theorem store (h : Holds m (w :: ws)) (hs : w.sole = true) (hin : i + xs.length ≤ w.size) :
    ∃ (m' : Mem (Cell α)) (block : Block α), m.store w.cell i xs = .ok m' ∧ Holds m' (w :: ws) ∧ Unchanged m m' ws ∧
      (∀ start count, (w.slide start count).read m = block.slice start count) ∧
      ∀ start count, (w.slide start count).read m' = (block.overlay i xs).slice start count := by
  obtain ⟨cell, hc, hlen⟩ := h.live w List.mem_cons_self
  refine ⟨m.set w.cell (some { cell with block := cell.block.overlay i xs }), cell.block, ?_, ?_, ?_, ?_, ?_⟩
  · rw [Mem.store, Mem.deref_eq hc, ok_bind, Block.writeAll_eq (by omega), ok_bind]
  · constructor
    · intro v hv
      obtain ⟨d, hd, hdlen⟩ := h.live v hv
      by_cases hvw : v.cell = w.cell
      · rw [hvw, hc] at hd
        obtain rfl := Option.some.inj hd
        exact ⟨{ cell with block := cell.block.overlay i xs }, by rw [hvw, Mem.cells_set_self], hdlen⟩
      · exact ⟨d, by rw [Mem.cells_set_ne _ _ hvw]; exact hd, hdlen⟩
    · exact h.fits
    · intro p d hd
      by_cases hp : p = w.cell
      · subst hp
        rw [Mem.cells_set_self] at hd
        obtain rfl := Option.some.inj hd
        have hcounts := h.counts _ _ hc
        exact hcounts
      · rw [Mem.cells_set_ne _ _ hp] at hd
        exact h.counts p d hd
    · exact h.sole
  · intro v hv
    rw [Window.read, Window.read, Mem.cells_set_ne _ _ (h.cell_ne hs v hv)]
  · intro start count
    rw [Window.read, Window.slide, hc]
    rfl
  · intro start count
    rw [Window.read, Window.slide, Mem.cells_set_self]
    rfl

/-- Writing behind what is to be seen. -/
theorem store_behind (h : Holds m (w :: ws)) (hs : w.sole = true)
    (hin : w.start + w.count + xs.length ≤ w.size) :
    ∃ m' : Mem (Cell α), m.store w.cell (w.start + w.count) xs = .ok m' ∧
      Holds m' (w.slide w.start (w.count + xs.length) :: ws) ∧ Unchanged m m' ws ∧
      (w.slide w.start (w.count + xs.length)).read m' = w.read m ++ xs := by
  obtain ⟨m', block, hstore, hh, hun, hold, hnew⟩ := h.store hs hin
  have hold := hold w.start w.count
  rw [Window.slide_self] at hold
  refine ⟨m', hstore, hh.slide (by omega), hun, ?_⟩
  rw [hnew, hold, Block.slice_add, Block.slice_overlay, Block.slice_overlay_of_disjoint (.inr le_rfl)]

/-- Writing anew, and looking at what was written. -/
theorem store_anew (h : Holds m (w :: ws)) (hs : w.sole = true) (hin : i + xs.length ≤ w.size) :
    ∃ m' : Mem (Cell α), m.store w.cell i xs = .ok m' ∧ Holds m' (w.slide i xs.length :: ws) ∧ Unchanged m m' ws ∧
      (w.slide i xs.length).read m' = xs := by
  obtain ⟨m', block, hstore, hh, hun, -, hnew⟩ := h.store hs hin
  exact ⟨m', hstore, hh.slide hin, hun, by rw [hnew, Block.slice_overlay]⟩

/-- A new piece has one holder. -/
theorem new (h : Holds m ws) (hp : m.cells p = none) (block : Block α) {start count : Nat}
    (hfits : start + count ≤ block.length) (sole : Bool) :
    Holds (m.new p { block, refcnt := 1 }) ({ cell := p, size := block.length, start, count, sole } :: ws) ∧
      Unchanged m (m.new p { block, refcnt := 1 }) ws := by
  have hne : ∀ v ∈ ws, v.cell ≠ p := by
    intro v hv heq
    obtain ⟨cell, hc, -⟩ := h.live v hv
    rw [heq, hp] at hc
    cases hc
  have hzero : (ws.map Window.cell).count p = 0 := by
    apply List.count_eq_zero.mpr
    intro hmem
    obtain ⟨v, hv, heq⟩ := List.mem_map.mp hmem
    exact hne v hv heq
  refine ⟨⟨?_, ?_, ?_, ?_⟩, ?_⟩
  · intro v hv
    rcases List.mem_cons.mp hv with rfl | hv
    · exact ⟨_, Mem.cells_set_self .., rfl⟩
    · obtain ⟨cell, hc, hlen⟩ := h.live v hv
      exact ⟨cell, by rw [Mem.new, Mem.cells_set_ne _ _ (hne v hv)]; exact hc, hlen⟩
  · intro v hv
    rcases List.mem_cons.mp hv with rfl | hv
    · exact hfits
    · exact h.fits v hv
  · intro q cell hc
    rw [List.map_cons]
    by_cases hq : q = p
    · subst hq
      rw [Mem.new, Mem.cells_set_self] at hc
      obtain rfl := Option.some.inj hc
      exact ⟨Nat.one_pos, by rw [List.count_cons_self, hzero]⟩
    · rw [Mem.new, Mem.cells_set_ne _ _ hq] at hc
      rw [List.count_cons_of_ne (Ne.symm hq)]
      exact h.counts q cell hc
  · intro v hv hs
    rw [List.map_cons]
    rcases List.mem_cons.mp hv with rfl | hv
    · rw [List.count_cons_self, hzero]
    · rw [List.count_cons_of_ne (Ne.symm (hne v hv))]
      exact h.sole v hv hs
  · intro v hv
    rw [Window.read, Window.read, Mem.new, Mem.cells_set_ne _ _ (hne v hv)]

/-- When only the counts change nobody sees a difference. -/
theorem unchanged_of_refcnt {cell : Cell α} (hc : m.cells p = some cell) (k : Nat) (ws : List Window) :
    Unchanged m (m.set p (some { cell with refcnt := k })) ws := by
  intro v _
  rw [Window.read, Window.read, Mem.cells_set]
  by_cases hv : v.cell = p
  · rw [if_pos hv, hv, hc]
    rfl
  · rw [if_neg hv]

theorem live_of_refcnt {cell : Cell α} (hc : m.cells p = some cell) (k : Nat) (h : Holds m ws) :
    ∀ w ∈ ws, ∃ d, (m.set p (some { cell with refcnt := k })).cells w.cell = some d ∧
      d.block.length = w.size := by
  intro v hv
  obtain ⟨d, hd, hlen⟩ := h.live v hv
  by_cases hp : v.cell = p
  · rw [hp, hc] at hd
    obtain rfl := Option.some.inj hd
    exact ⟨{ cell with refcnt := k }, by rw [hp, Mem.cells_set_self], hlen⟩
  · exact ⟨d, by rw [Mem.cells_set_ne _ _ hp]; exact hd, hlen⟩

/-- Somebody else looks at the same. -/
theorem share (h : Holds m (w :: ws)) (hs : w.sole = false) :
    ∃ m' : Mem (Cell α), m.hold w.cell = .ok m' ∧ Holds m' (w :: w :: ws) ∧ Unchanged m m' (w :: ws) := by
  obtain ⟨cell, hc, -⟩ := h.live w List.mem_cons_self
  refine ⟨_, Mem.modify_eq hc _, ⟨?_, ?_, ?_, ?_⟩, unchanged_of_refcnt hc _ _⟩
  · intro v hv
    exact h.live_of_refcnt hc _ v (by simpa using hv)
  · intro v hv
    exact h.fits v (by simpa using hv)
  · intro q d hd
    rw [List.map_cons]
    by_cases hq : q = w.cell
    · subst hq
      rw [Mem.cells_set_self] at hd
      obtain rfl := Option.some.inj hd
      obtain ⟨hpos, hcnt⟩ := h.counts _ _ hc
      rw [List.count_cons_self, ← hcnt]
      exact ⟨Nat.succ_pos _, rfl⟩
    · rw [Mem.cells_set_ne _ _ hq] at hd
      rw [List.count_cons_of_ne (Ne.symm hq)]
      exact h.counts q d hd
  · intro v hv hsv
    have hv : v ∈ w :: ws := by simpa using hv
    have hone := h.sole v hv hsv
    have hne : w.cell ≠ v.cell := by
      intro heq
      rcases List.mem_cons.mp hv with rfl | hv
      · rw [hs] at hsv
        cases hsv
      · have hpos : 0 < (ws.map Window.cell).count v.cell := List.count_pos_iff.mpr (List.mem_map_of_mem hv)
        rw [List.map_cons, heq, List.count_cons_self] at hone
        omega
    rw [List.map_cons, List.count_cons_of_ne hne]
    exact hone

/-- A holder leaves. -/
theorem release (h : Holds m (w :: ws)) :
    ∃ m' : Mem (Cell α), m.release w.cell = .ok m' ∧ Holds m' ws ∧ Unchanged m m' ws ∧
      ∀ p, m.cells p = none → m'.cells p = none := by
  obtain ⟨cell, hc, -⟩ := h.live w List.mem_cons_self
  obtain ⟨-, hcnt⟩ := h.counts _ _ hc
  rw [List.map_cons, List.count_cons_self] at hcnt
  have hcount : ∀ q, q ≠ w.cell → ((w :: ws).map Window.cell).count q = (ws.map Window.cell).count q := by
    intro q hq
    rw [List.map_cons, List.count_cons_of_ne (Ne.symm hq)]
  have hother : ∀ v ∈ ws, v.sole = true → v.cell ≠ w.cell := by
    intro v hv hsv heq
    have hone := h.sole v (List.mem_cons_of_mem _ hv) hsv
    have hpos : 0 < (ws.map Window.cell).count v.cell := List.count_pos_iff.mpr (List.mem_map_of_mem hv)
    rw [List.map_cons, heq, List.count_cons_self] at hone
    rw [heq] at hpos
    omega
  have hsole : ∀ v ∈ ws, v.sole = true → (ws.map Window.cell).count v.cell = 1 := by
    intro v hv hsv
    rw [← hcount _ (hother v hv hsv)]
    exact h.sole v (List.mem_cons_of_mem _ hv) hsv
  have hfits : ∀ v ∈ ws, v.start + v.count ≤ v.size := fun v hv => h.fits v (List.mem_cons_of_mem _ hv)
  rw [Mem.release, Mem.deref_eq hc, ok_bind]
  by_cases hmore : 1 < cell.refcnt
  · rw [if_pos hmore, Mem.modify_eq hc]
    refine ⟨_, rfl, ⟨?_, hfits, ?_, hsole⟩, unchanged_of_refcnt hc _ _, ?_⟩
    · intro v hv
      exact h.live_of_refcnt hc _ v (List.mem_cons_of_mem _ hv)
    · intro q d hd
      by_cases hq : q = w.cell
      · subst hq
        rw [Mem.cells_set_self] at hd
        obtain rfl := Option.some.inj hd
        exact ⟨by dsimp only; omega, by dsimp only; omega⟩
      · rw [Mem.cells_set_ne _ _ hq] at hd
        rw [← hcount q hq]
        exact h.counts q d hd
    · intro q hq
      rw [Mem.cells_set_ne _ _ (by rintro rfl; rw [hc] at hq; cases hq)]
      exact hq
  · rw [if_neg hmore, Mem.delete_eq hc]
    have hne : ∀ v ∈ ws, v.cell ≠ w.cell := by
      intro v hv heq
      have hpos : 0 < (ws.map Window.cell).count w.cell :=
        List.count_pos_iff.mpr (heq ▸ List.mem_map_of_mem hv)
      omega
    refine ⟨_, rfl, ⟨?_, hfits, ?_, hsole⟩, ?_, ?_⟩
    · intro v hv
      obtain ⟨d, hd, hlen⟩ := h.live v (List.mem_cons_of_mem _ hv)
      exact ⟨d, by rw [Mem.cells_set_ne _ _ (hne v hv)]; exact hd, hlen⟩
    · intro q d hd
      by_cases hq : q = w.cell
      · subst hq
        rw [Mem.cells_set_self] at hd
        cases hd
      · rw [Mem.cells_set_ne _ _ hq] at hd
        rw [← hcount q hq]
        exact h.counts q d hd
    · intro v hv
      rw [Window.read, Window.read, Mem.cells_set_ne _ _ (hne v hv)]
    · intro q hq
      rw [Mem.cells_set]
      split
      · rfl
      · exact hq

end Holds

end

end LinuxServer.Library
