import Mathlib.Data.Nat.Basic
import Mathlib.Data.Fintype.Card
import Mathlib.Data.List.Nodup
import Mathlib.Tactic.Common

/-!
# Faults and memory cells

The pointer programs of this development run in `Exec`: a computation either returns or stops with
a `Fault`, the reason why the C++ abstract machine gives it no meaning. A `Mem ν` is a finite heap
of cells of type `ν`; `deref`, `modify`, `new` and `delete` are the only ways to touch it, and each
of them faults exactly where the machine would.

`new` takes the address it hands out as an argument. The allocator is not part of the model, so an
address is allowed to come back after a `delete`; what a client may rely on is only that the cell
was not live before.
-/

namespace LinuxServer.Library

/-- Why a computation has no meaning. `diverges` is what a loop reports when it outlives its fuel. -/
inductive Fault where
  | nullDeref
  | dangling
  | outOfBounds
  | diverges
  deriving Repr, DecidableEq

abbrev Exec := Except Fault

/-! ## Sequencing -/

section Exec
variable {α β : Type}

@[simp] theorem ok_bind (a : α) (f : α → Exec β) : (Except.ok a : Exec α) >>= f = f a := rfl

@[simp] theorem error_bind (e : Fault) (f : α → Exec β) :
    (Except.error e : Exec α) >>= f = Except.error e := rfl

@[simp] theorem pure_eq_ok (a : α) : (pure a : Exec α) = Except.ok a := rfl

/-- A sequence returns exactly when both of its parts do. -/
theorem bind_eq_ok {x : Exec α} {f : α → Exec β} {b : β} :
    x >>= f = .ok b ↔ ∃ a, x = .ok a ∧ f a = .ok b := by
  cases x with
  | error e => simp
  | ok a => simp

/-- A computation that never fails on a list. -/
theorem mapM_ok {f : α → Exec β} {g : α → β} {l : List α} (h : ∀ a ∈ l, f a = .ok (g a)) :
    l.mapM f = .ok (l.map g) := by
  induction l with
  | nil => rfl
  | cons a l ih =>
      rw [List.mapM_cons, h a (by simp), ok_bind, ih (fun b hb => h b (by simp [hb])), ok_bind]
      rfl

end Exec

/-! ## Cells -/

abbrev Ptr := Nat

/-- A finite heap. Every live cell lies below `brk`, so a chain of distinct live cells has at most
`brk` links; loops over such chains take `brk` as their fuel. -/
structure Mem (ν : Type) where
  cells : Ptr → Option ν
  brk : Nat
  bounded : ∀ p, brk ≤ p → cells p = none

namespace Mem
variable {ν : Type} {m : Mem ν} {a b : Ptr} {n : ν}

def empty : Mem ν := ⟨fun _ => none, 0, fun _ _ => rfl⟩

/-- Overwrite one cell, live or not. -/
def set (m : Mem ν) (a : Ptr) (c : Option ν) : Mem ν where
  cells := fun p => if p = a then c else m.cells p
  brk := max m.brk (a + 1)
  bounded := by
    intro p hp
    have hne : p ≠ a := by omega
    simp only [hne, if_false]
    exact m.bounded p (by omega)

/-- A cell that was set, and all others. -/
theorem cells_set (m : Mem ν) (a : Ptr) (c : Option ν) (p : Ptr) :
    (m.set a c).cells p = if p = a then c else m.cells p := rfl

@[simp] theorem cells_set_self (m : Mem ν) (a : Ptr) (c : Option ν) :
    (m.set a c).cells a = c := by
  simp [cells_set]

theorem cells_set_ne (m : Mem ν) (c : Option ν) (h : b ≠ a) :
    (m.set a c).cells b = m.cells b := by
  simp [cells_set, h]

/-- A cell that is there has been allocated. -/
theorem lt_brk (h : m.cells a = some n) : a < m.brk := by
  by_contra hge
  rw [m.bounded a (Nat.not_lt.mp hge)] at h
  cases h

/-- A list of distinct live cells is no longer than the heap. -/
theorem length_le_brk {l : List Ptr} (hnd : l.Nodup) (hl : ∀ p ∈ l, m.cells p ≠ none) :
    l.length ≤ m.brk := by
  have hsub : l.toFinset ⊆ Finset.range m.brk := by
    intro p hp
    obtain ⟨n, hn⟩ := Option.ne_none_iff_exists'.mp (hl p (List.mem_toFinset.mp hp))
    exact Finset.mem_range.mpr (lt_brk hn)
  have hcard := Finset.card_le_card hsub
  rwa [List.toFinset_card_of_nodup hnd, Finset.card_range] at hcard

/-! ### The four accesses -/

/-- `*p`. -/
def deref (m : Mem ν) : Option Ptr → Exec ν
  | none => .error .nullDeref
  | some a =>
    match m.cells a with
    | none => .error .dangling
    | some n => .ok n

/-- `p->field = …`, with the assignment given as a function on the cell. -/
def modify (m : Mem ν) (p : Option Ptr) (f : ν → ν) : Exec (Mem ν) :=
  match p with
  | none => .error .nullDeref
  | some a =>
    match m.cells a with
    | none => .error .dangling
    | some n => .ok (m.set a (some (f n)))

/-- `new`, handing out the address `a`. -/
def new (m : Mem ν) (a : Ptr) (n : ν) : Mem ν := m.set a (some n)

/-- `delete p`: nothing for a null pointer, a fault for a cell that is not live. -/
def delete (m : Mem ν) : Option Ptr → Exec (Mem ν)
  | none => .ok m
  | some a =>
    match m.cells a with
    | none => .error .dangling
    | some _ => .ok (m.set a none)

/-- A cell that is there can be read. -/
theorem deref_eq (h : m.cells a = some n) : m.deref (some a) = .ok n := by
  simp [deref, h]

/-- A cell that is there can be modified. -/
theorem modify_eq (h : m.cells a = some n) (f : ν → ν) :
    m.modify (some a) f = .ok (m.set a (some (f n))) := by
  simp [modify, h]

/-- A cell that is there can be deleted. -/
theorem delete_eq (h : m.cells a = some n) : m.delete (some a) = .ok (m.set a none) := by
  simp [delete, h]

end Mem

/-! ## Arrays -/

/-- An array made by `new[]`: only its first `length` entries may be touched. -/
structure Block (α : Type) where
  length : Nat
  entry : Nat → α

namespace Block
variable {α : Type} {b : Block α} {i : Nat}

def fill (n : Nat) (x : α) : Block α := { length := n, entry := fun _ => x }

def read (b : Block α) (i : Nat) : Exec α :=
  if i < b.length then .ok (b.entry i) else .error .outOfBounds

def write (b : Block α) (i : Nat) (x : α) : Exec (Block α) :=
  if i < b.length then .ok { b with entry := Function.update b.entry i x }
  else .error .outOfBounds

/-- Reading inside a block. -/
theorem read_eq (h : i < b.length) : b.read i = .ok (b.entry i) := if_pos h

/-- Writing inside a block. -/
theorem write_eq (h : i < b.length) (x : α) :
    b.write i x = .ok { b with entry := Function.update b.entry i x } := if_pos h

/-! ### Several entries at once -/

/-- `xs` laid over the entries from `i` on. -/
def overlay (b : Block α) (i : Nat) (xs : List α) : Block α :=
  { b with entry := fun k => if i ≤ k then xs[k - i]?.getD (b.entry k) else b.entry k }

/-- The `n` entries from `i` on. -/
def slice (b : Block α) (i n : Nat) : List α := (List.range n).map fun k => b.entry (i + k)

/-- Store `xs` from `i` on, as `memset` and `recv` do. -/
def writeAll (b : Block α) (i : Nat) (xs : List α) : Exec (Block α) :=
  if i + xs.length ≤ b.length then .ok (b.overlay i xs) else .error .outOfBounds

def readAll (b : Block α) (i n : Nat) : Exec (List α) :=
  if i + n ≤ b.length then .ok (b.slice i n) else .error .outOfBounds

variable {xs : List α} {j n : Nat}

/-- Writing some elements inside a block. -/
theorem writeAll_eq (h : i + xs.length ≤ b.length) : b.writeAll i xs = .ok (b.overlay i xs) :=
  if_pos h

/-- If a write succeeds the block has the new elements in place of old ones. -/
theorem eq_overlay_of_writeAll {b' : Block α} (h : b.writeAll i xs = .ok b') :
    b' = b.overlay i xs := by
  unfold writeAll at h
  split at h
  · exact (Except.ok.inj h).symm
  · cases h

/-- If a read succeeds it gives the elements that were there. -/
theorem eq_slice_of_readAll (h : b.readAll i n = .ok xs) : xs = b.slice i n := by
  unfold readAll at h
  split at h
  · exact (Except.ok.inj h).symm
  · cases h

@[simp] theorem length_overlay : (b.overlay i xs).length = b.length := rfl

@[simp] theorem length_slice : (b.slice i n).length = n := by
  simp [slice]

/-- Reading back where `xs` was stored. -/
theorem slice_overlay_self (h : xs.length ≤ n) :
    (b.overlay i xs).slice i n = xs ++ (b.slice i n).drop xs.length := by
  apply List.ext_getElem
  · simp only [length_slice, List.length_append, List.length_drop]
    omega
  · intro k hk₁ hk₂
    by_cases hk : k < xs.length
    · simp [slice, overlay, hk]
    · simp [slice, overlay, hk, List.getElem_append, show xs.length + (k - xs.length) = k by omega]

/-- Reading back the first part of what was stored. -/
theorem slice_overlay_prefix (ys zs : List α) :
    (b.overlay i (ys ++ zs)).slice i ys.length = ys := by
  apply List.ext_getElem
  · exact length_slice
  · intro k hk₁ hk₂
    simp [slice, overlay, List.getElem?_append_left hk₂, List.getElem?_eq_getElem hk₂]

/-- Reading elsewhere. -/
theorem slice_overlay_of_disjoint (h : i + xs.length ≤ j ∨ j + n ≤ i) :
    (b.overlay i xs).slice j n = b.slice j n := by
  apply List.map_congr_left
  intro k hk
  have hk : k < n := List.mem_range.mp hk
  unfold overlay
  dsimp only
  split
  · rw [List.getElem?_eq_none (by omega), Option.getD_none]
  · rfl

end Block

/-! ## Staying within bounds

What a computation does to the cells may be of no concern as long as it keeps to its arrays. -/

section InBounds
variable {α β : Type} {x : Exec α} {f : α → Exec β} {P Q : α → Prop} {R : β → Prop}

/-- `x` does not leave the bounds of an array, and what it returns, if it does, satisfies `Q`. -/
def InBounds (x : Exec α) (Q : α → Prop) : Prop :=
  match x with
  | .ok a => Q a
  | .error e => e ≠ .outOfBounds

/-- The rule for two computations one after the other. -/
theorem InBounds.bind (hx : InBounds x P) (hf : ∀ a, P a → InBounds (f a) R) :
    InBounds (x >>= f) R := by
  cases x with
  | error e => exact hx
  | ok a => exact hf a hx

/-- The rule of consequence. -/
theorem InBounds.mono (hx : InBounds x P) (h : ∀ a, P a → Q a) : InBounds x Q := by
  cases x with
  | error e => exact hx
  | ok a => exact h a hx

/-- No access out of bounds. -/
theorem InBounds.ne (hx : InBounds x P) : x ≠ .error .outOfBounds := by
  rintro rfl
  exact hx rfl

/-- What a computation results in if it does not fail. -/
theorem InBounds.of_eq_ok {a : α} (hx : InBounds x P) (h : x = .ok a) : P a := by
  subst h
  exact hx

variable {ν : Type} (m : Mem ν) (p : Option Ptr)

/-- A pointer may dangle, but that is another fault. -/
theorem Mem.deref_inBounds : InBounds (m.deref p) fun _ => True := by
  unfold Mem.deref
  split
  · exact Fault.noConfusion
  · split
    · exact Fault.noConfusion
    · trivial

theorem Mem.modify_inBounds (f : ν → ν) : InBounds (m.modify p f) fun _ => True := by
  unfold Mem.modify
  split
  · exact Fault.noConfusion
  · split
    · exact Fault.noConfusion
    · trivial

theorem Mem.delete_inBounds : InBounds (m.delete p) fun _ => True := by
  unfold Mem.delete
  split
  · trivial
  · split
    · exact Fault.noConfusion
    · trivial

variable {b : Block α} {i : Nat}

/-- Reading inside a block is in bounds. -/
theorem Block.read_inBounds (h : i < b.length) : InBounds (b.read i) fun _ => True := by
  rw [Block.read_eq h]
  trivial

/-- Writing inside a block is in bounds and keeps its length. -/
theorem Block.write_inBounds (h : i < b.length) (a : α) :
    InBounds (b.write i a) fun b' => b'.length = b.length := by
  rw [Block.write_eq h]
  rfl

end InBounds
end LinuxServer.Library
