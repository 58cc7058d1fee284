import LinuxServer.Library.Arrays
import Mathlib.Order.Lattice

/-!
# Binary heaps with a moving hole

An array is a function from indices, of which the first `n` count; the parent of `i` is
`(i - 1) / 2`. Sifting in the style of textbook implementations takes an element `x` out of the array
and moves the resulting hole, copying one entry over it per step; only at the end `x` is put back. In
between the array has one entry twice and misses `x`.

The proofs look at the array *as if* `x` sat in the hole, `Function.update f hole x`. Seen this way a
step of the loop exchanges two entries, so the whole loop is a permutation of the indices
(`Rearranged`), and the order is broken in at most one place (`UpTo`, `DownFrom`).
-/

namespace LinuxServer.Library

variable {α κ : Type}

/-- Moving the hole from `i` to `j` exchanges these two entries of the array with `x` in place. -/
theorem update_hole (f : Nat → α) (x : α) {i j : Nat} (hij : i ≠ j) :
    Function.update (Function.update f i (f j)) j x =
      Function.update f i x ∘ Equiv.swap i j := by
  funext k
  show _ = Function.update f i x (Equiv.swap i j k)
  by_cases hkj : k = j
  · subst hkj
    simp
  · by_cases hki : k = i
    · subst hki
      simp [hij, hij.symm]
    · rw [Equiv.swap_apply_of_ne_of_ne hki hkj]
      simp [hki, hkj]

/-! ## Order -/

/-- `Descends r i`: the node `i` is in the subtree of `r`. -/
inductive Descends (r : Nat) : Nat → Prop
  | refl : Descends r r
  | child {i : Nat} : 0 < i → Descends r ((i - 1) / 2) → Descends r i

/-- No node below `r` has a smaller index. -/
theorem Descends.le {r i : Nat} (h : Descends r i) : r ≤ i := by
  induction h with
  | refl => exact Nat.le_refl r
  | child hi _ ih => omega

/-- A node other than the root of its subtree has its parent there too. -/
theorem descends_zero (i : Nat) : Descends 0 i := by
  induction i using Nat.strongRecOn with
  | ind i ih =>
      by_cases hi : i = 0
      · subst hi
        exact .refl
      · exact .child (by omega) (ih _ (by omega))

variable [LinearOrder κ] (key : α → κ)

/-- Every entry is at least its parent. -/
def IsHeap (n : Nat) (g : Nat → α) : Prop :=
  ∀ i, 0 < i → i < n → key (g ((i - 1) / 2)) ≤ key (g i)

/-- The same within the subtree of `r`. -/
def IsHeapBelow (r n : Nat) (g : Nat → α) : Prop :=
  ∀ i, 0 < i → i < n → Descends r ((i - 1) / 2) → key (g ((i - 1) / 2)) ≤ key (g i)

/-- A heap except that the entry at `hole` may be too small for its place. -/
structure UpTo (hole n : Nat) (g : Nat → α) : Prop where
  order : ∀ i, 0 < i → i < n → i ≠ hole → key (g ((i - 1) / 2)) ≤ key (g i)
  around : ∀ i, 0 < i → i < n → (i - 1) / 2 = hole → 0 < hole →
    key (g ((hole - 1) / 2)) ≤ key (g i)

/-- A heap below `r` except that the entry at `hole` may be too large for its place. -/
structure DownFrom (r hole n : Nat) (g : Nat → α) : Prop where
  order : ∀ i, 0 < i → i < n → Descends r ((i - 1) / 2) → (i - 1) / 2 ≠ hole →
    key (g ((i - 1) / 2)) ≤ key (g i)
  around : ∀ i, 0 < i → i < n → (i - 1) / 2 = hole → hole ≠ r →
    key (g ((hole - 1) / 2)) ≤ key (g i)

variable {key} {n : Nat} {f g : Nat → α} {x : α} {hole r : Nat}

/-- The root is the smallest. -/
theorem IsHeap.root_le (h : IsHeap key n g) {i : Nat} (hi : i < n) : key (g 0) ≤ key (g i) := by
  induction i using Nat.strongRecOn with
  | ind i ih =>
      by_cases hz : i = 0
      · rw [hz]
      · exact (ih _ (by omega) (by omega)).trans (h i (by omega) hi)

/-- Only the keys matter. -/
theorem IsHeap.congr {β : Type} {key' : β → κ} {g' : Nat → β} (h : IsHeap key n g)
    (hg : ∀ i < n, key' (g' i) = key (g i)) : IsHeap key' n g' := by
  intro i hi hn
  rw [hg i hn, hg _ (by omega)]
  exact h i hi hn

/-- A heap without its last entries is a heap. -/
theorem IsHeap.take {m : Nat} (h : IsHeap key n g) (hm : m ≤ n) : IsHeap key m g :=
  fun i hi hin => h i hi (by omega)

/-- Only the keys count. -/
theorem DownFrom.congr {β : Type} {key' : β → κ} {g' : Nat → β} (h : DownFrom key r hole n g)
    (hg : ∀ i < n, key' (g' i) = key (g i)) : DownFrom key' r hole n g' where
  order := by
    intro i hi hn hr hne
    rw [hg i hn, hg _ (by omega)]
    exact h.order i hi hn hr hne
  around := by
    intro i hi hn hip hne
    rw [hg i hn, hg _ (by omega)]
    exact h.around i hi hn hip hne

/-! ## Sifting up -/

variable (key) in
/-- Put `x` at `hole` or above it: entries above that exceed `x` come down by one level. -/
def siftUp (x : α) (f : Nat → α) (hole : Nat) : Nat → α :=
  if 0 < hole then
    if key (f ((hole - 1) / 2)) ≤ key x then Function.update f hole x
    else siftUp x (Function.update f hole (f ((hole - 1) / 2))) ((hole - 1) / 2)
  else Function.update f hole x
termination_by hole
decreasing_by omega

/-- An entry that is not too small for its place leaves a heap. -/
theorem UpTo.stop (h : UpTo key hole n g)
    (hstop : 0 < hole → key (g ((hole - 1) / 2)) ≤ key (g hole)) : IsHeap key n g := by
  intro i hi hn
  by_cases hih : i = hole
  · subst hih
    exact hstop hi
  · exact h.order i hi hn hih

/-- The hole goes up if its entry is smaller than the parent. -/
theorem UpTo.move (h : UpTo key hole n g) (hpos : 0 < hole) (hn : hole < n)
    (hlt : key (g hole) < key (g ((hole - 1) / 2))) :
    UpTo key ((hole - 1) / 2) n (g ∘ Equiv.swap hole ((hole - 1) / 2)) := by
  have hne : hole ≠ (hole - 1) / 2 := by omega
  have hoff : ∀ i, i ≠ hole → i ≠ (hole - 1) / 2 →
      (g ∘ Equiv.swap hole ((hole - 1) / 2)) i = g i := by
    intro i h₁ h₂
    exact congrArg g (Equiv.swap_apply_of_ne_of_ne h₁ h₂)
  have hat : (g ∘ Equiv.swap hole ((hole - 1) / 2)) hole = g ((hole - 1) / 2) :=
    congrArg g (Equiv.swap_apply_left _ _)
  have hpar : (g ∘ Equiv.swap hole ((hole - 1) / 2)) ((hole - 1) / 2) = g hole :=
    congrArg g (Equiv.swap_apply_right _ _)
  generalize g ∘ Equiv.swap hole ((hole - 1) / 2) = g' at hoff hat hpar
  constructor
  · intro i hi hin hne'
    by_cases hih : i = hole
    · subst hih
      rw [hat, hpar]
      exact hlt.le
    · rw [hoff i hih hne']
      by_cases h₁ : (i - 1) / 2 = hole
      · -- a child of the hole now has the old parent of the hole above it
        rw [h₁, hat]
        exact h.around i hi hin h₁ hpos
      · by_cases h₂ : (i - 1) / 2 = (hole - 1) / 2
        · -- the sibling of the hole: what moved up is less than what was there
          rw [h₂, hpar]
          have := h.order i hi hin hih
          rw [h₂] at this
          exact hlt.le.trans this
        · rw [hoff _ h₁ h₂]
          exact h.order i hi hin hih
  · intro i hi hin hip hpos'
    have habove := h.order ((hole - 1) / 2) hpos' (by omega) hne.symm
    rw [hoff (((hole - 1) / 2 - 1) / 2) (by omega) (by omega)]
    by_cases hih : i = hole
    · subst hih
      rw [hat]
      exact habove
    · rw [hoff i hih (by omega)]
      have := h.order i hi hin hih
      rw [hip] at this
      exact habove.trans this

/-- `siftUp` restores the order. -/
theorem siftUp_heap (hn : hole < n) (h : UpTo key hole n (Function.update f hole x)) :
    IsHeap key n (siftUp key x f hole) := by
  fun_induction siftUp key x f hole with
  | case1 f hole hpos hle =>
      apply h.stop
      intro _
      rw [Function.update_self, Function.update_of_ne (by omega)]
      exact hle
  | case2 f hole hpos hle ih =>
      apply ih (by omega)
      rw [update_hole f x (by omega)]
      apply h.move hpos hn
      rw [Function.update_self, Function.update_of_ne (by omega)]
      exact not_le.mp hle
  | case3 f hole hpos =>
      apply h.stop
      intro hpos'
      exact absurd hpos' hpos

variable (key) in
/-- `siftUp` only rearranges the entries. -/
theorem siftUp_rearranged (hn : hole < n) :
    Rearranged (· < n) (Function.update f hole x) (siftUp key x f hole) := by
  fun_induction siftUp key x f hole with
  | case1 f hole hpos hle => exact .refl _ _
  | case2 f hole hpos hle ih =>
      have hstep := ih (by omega)
      rw [update_hole f x (by omega)] at hstep
      have hpar : (hole - 1) / 2 < n := by omega
      exact (Rearranged.swap (S := (· < n)) _ hn hpar).trans hstep
  | case3 f hole hpos => exact .refl _ _

/-! ## Sifting down -/

variable (key) in
/-- The smaller child of `hole`, the left one on a tie or when there is no other. -/
def smallerChild (n : Nat) (f : Nat → α) (hole : Nat) : Nat :=
  if hole * 2 + 2 < n ∧ key (f (hole * 2 + 2)) < key (f (hole * 2 + 1)) then hole * 2 + 2
  else hole * 2 + 1

variable (key) in
/-- The smaller child is one of the children and not larger than any. -/
theorem smallerChild_spec (n : Nat) (f : Nat → α) (hc : hole * 2 + 1 < n) :
    hole < smallerChild key n f hole ∧ smallerChild key n f hole < n ∧
      (smallerChild key n f hole - 1) / 2 = hole ∧
      ∀ i, 0 < i → i < n → (i - 1) / 2 = hole →
        key (f (smallerChild key n f hole)) ≤ key (f i) := by
  unfold smallerChild
  split
  · rename_i h
    refine ⟨by omega, by omega, by omega, ?_⟩
    intro i hi hin hip
    obtain rfl | rfl : i = hole * 2 + 1 ∨ i = hole * 2 + 2 := by omega
    · exact h.2.le
    · exact le_rfl
  · rename_i h
    refine ⟨by omega, hc, by omega, ?_⟩
    intro i hi hin hip
    obtain rfl | rfl : i = hole * 2 + 1 ∨ i = hole * 2 + 2 := by omega
    · exact le_rfl
    · rw [not_and] at h
      exact not_lt.mp (h hin)

variable (key) in
/-- Put `x` at `hole` or below it: the smaller child comes up as long as it is less than `x`. -/
def siftDown (n : Nat) (x : α) (f : Nat → α) (hole : Nat) : Nat → α :=
  if hole * 2 + 1 < n then
    if key (f (smallerChild key n f hole)) < key x then
      siftDown n x (Function.update f hole (f (smallerChild key n f hole)))
        (smallerChild key n f hole)
    else Function.update f hole x
  else Function.update f hole x
termination_by n - hole
decreasing_by
  have h := smallerChild_spec key n f ‹hole * 2 + 1 < n›
  omega

/-- The hole stays if its entry is not larger than the children. -/
theorem DownFrom.stop (h : DownFrom key r hole n g)
    (hstop : ∀ i, 0 < i → i < n → (i - 1) / 2 = hole → key (g hole) ≤ key (g i)) :
    IsHeapBelow key r n g := by
  intro i hi hin hr
  by_cases hih : (i - 1) / 2 = hole
  · rw [hih]
    exact hstop i hi hin hih
  · exact h.order i hi hin hr hih

/-- The hole goes down to the smaller child. -/
theorem DownFrom.move (h : DownFrom key r hole n g) (hr : Descends r hole) {c : Nat}
    (hlt : hole < c) (hc : c < n) (hcp : (c - 1) / 2 = hole)
    (hmin : ∀ i, 0 < i → i < n → (i - 1) / 2 = hole → key (g c) ≤ key (g i))
    (hx : key (g c) < key (g hole)) : DownFrom key r c n (g ∘ Equiv.swap hole c) := by
  have hoff : ∀ i, i ≠ hole → i ≠ c → (g ∘ Equiv.swap hole c) i = g i := by
    intro i h₁ h₂
    exact congrArg g (Equiv.swap_apply_of_ne_of_ne h₁ h₂)
  have hat : (g ∘ Equiv.swap hole c) hole = g c := congrArg g (Equiv.swap_apply_left _ _)
  have hchild : (g ∘ Equiv.swap hole c) c = g hole := congrArg g (Equiv.swap_apply_right _ _)
  generalize g ∘ Equiv.swap hole c = g' at hoff hat hchild
  constructor
  · intro i hi hin hri hne
    by_cases hih : i = hole
    · -- the child that came up is above everything the old entry was above
      subst hih
      have hir : i ≠ r := by
        rintro rfl
        have := hri.le
        omega
      rw [hat, hoff _ (by omega) hne]
      exact h.around c (by omega) hc hcp hir
    · by_cases h₁ : (i - 1) / 2 = hole
      · rw [h₁, hat]
        by_cases hic : i = c
        · subst hic
          rw [hchild]
          exact hx.le
        · rw [hoff i hih hic]
          exact hmin i hi hin h₁
      · have hic : i ≠ c := by
          rintro rfl
          exact h₁ hcp
        rw [hoff i hih hic, hoff _ h₁ hne]
        exact h.order i hi hin hri h₁
  · intro i hi hin hip _
    rw [hcp, hat, hoff i (by omega) (by omega)]
    have hrc : Descends r c := .child (by omega) (by rw [hcp]; exact hr)
    have := h.order i hi hin (by rw [hip]; exact hrc) (by omega)
    rwa [hip] at this

/-- `siftDown` restores the order below `r`. -/
theorem siftDown_heap (hr : Descends r hole)
    (h : DownFrom key r hole n (Function.update f hole x)) :
    IsHeapBelow key r n (siftDown key n x f hole) := by
  fun_induction siftDown key n x f hole with
  | case1 f hole hc hlt ih =>
      obtain ⟨h₁, h₂, h₃, hmin⟩ := smallerChild_spec key n f hc
      generalize smallerChild key n f hole = c at *
      apply ih (.child (by omega) (by rw [h₃]; exact hr))
      rw [update_hole f x (by omega)]
      apply h.move hr h₁ h₂ h₃
      · intro i hi hin hip
        rw [Function.update_of_ne (by omega), Function.update_of_ne (by omega)]
        exact hmin i hi hin hip
      · rw [Function.update_self, Function.update_of_ne (by omega)]
        exact hlt
  | case2 f hole hc hle =>
      apply h.stop
      intro i hi hin hip
      obtain ⟨-, -, -, hmin⟩ := smallerChild_spec key n f hc
      rw [Function.update_self, Function.update_of_ne (by omega)]
      exact (not_lt.mp hle).trans (hmin i hi hin hip)
  | case3 f hole hc =>
      apply h.stop
      intro i hi hin hip
      omega

variable (key) in
/-- `siftDown` only rearranges the entries below `r`. -/
theorem siftDown_rearranged (hr : Descends r hole) (hn : hole < n) :
    Rearranged (fun i => Descends r i ∧ i < n) (Function.update f hole x)
      (siftDown key n x f hole) := by
  fun_induction siftDown key n x f hole with
  | case1 f hole hc hlt ih =>
      obtain ⟨h₁, h₂, h₃, -⟩ := smallerChild_spec key n f hc
      generalize smallerChild key n f hole = c at *
      have hrc : Descends r c := .child (by omega) (by rw [h₃]; exact hr)
      have hstep := ih hrc h₂
      rw [update_hole f x (by omega)] at hstep
      exact (Rearranged.swap _ ⟨hr, hn⟩ ⟨hrc, h₂⟩).trans hstep
  | case2 f hole hc hle => exact .refl _ _
  | case3 f hole hc => exact .refl _ _

variable (key) in
/-- The entry at `hole` itself is sifted down. -/
theorem siftDown_self_rearranged (f : Nat → α) (hn : hole < n) :
    Rearranged (fun i => Descends hole i ∧ i < n) f (siftDown key n (f hole) f hole) := by
  have h := siftDown_rearranged key (f := f) (x := f hole) (.refl : Descends hole hole) hn
  rwa [Function.update_eq_self] at h

/-- The order below an entry, if it holds below its children. -/
theorem siftDown_self_heap (h : ∀ i, 0 < i → i < n → Descends hole ((i - 1) / 2) →
      (i - 1) / 2 ≠ hole → key (f ((i - 1) / 2)) ≤ key (f i)) :
    IsHeapBelow key hole n (siftDown key n (f hole) f hole) := by
  apply siftDown_heap .refl
  rw [Function.update_eq_self]
  exact ⟨h, fun _ _ _ _ hne => absurd rfl hne⟩

/-! ## Building a heap

Every node is sifted down, from the last parent back to the root. When it is the turn of a node, what
is below it is in order. -/

variable (key) in
/-- The order holds below the nodes from `k` on. -/
def IsHeapFrom (k n : Nat) (g : Nat → α) : Prop :=
  ∀ i, 0 < i → i < n → k ≤ (i - 1) / 2 → key (g ((i - 1) / 2)) ≤ key (g i)

/-- One more entry is in order with what is below it. -/
theorem IsHeapFrom.siftDown {k : Nat} (h : IsHeapFrom key (k + 1) n f) (hk : k < n) :
    IsHeapFrom key k n (siftDown key n (f k) f k) := by
  have hmoved := siftDown_self_rearranged key f hk
  have hbelow : IsHeapBelow key k n (Library.siftDown key n (f k) f k) := by
    apply siftDown_self_heap
    intro i hi hin hr hne
    have := hr.le
    exact h i hi hin (by omega)
  intro i hi hin hki
  by_cases hr : Descends k ((i - 1) / 2)
  · exact hbelow i hi hin hr
  · -- neither of the two is in the subtree of `k`
    have hnot : ¬ Descends k i := by
      intro hd
      cases hd with
      | refl => omega
      | child _ hd => exact hr hd
    have hne : (i - 1) / 2 ≠ k := by
      rintro heq
      exact hr (heq ▸ .refl)
    rw [hmoved.off (fun hd => hr hd.1), hmoved.off (fun hd => hnot hd.1)]
    exact h i hi hin (by omega)

/-- A heap with an entry more at its end. -/
theorem IsHeap.upTo (h : IsHeap key n g) (x : α) :
    UpTo key n (n + 1) (Function.update g n x) where
  order := by
    intro i hi hin hne
    rw [Function.update_of_ne hne, Function.update_of_ne (by omega)]
    exact h i hi (by omega)
  around := by
    intro i hi hin hip hpos
    omega

/-- A heap with another entry in its root. -/
theorem IsHeap.downFrom (h : IsHeap key n g) (x : α) :
    DownFrom key 0 0 n (Function.update g 0 x) where
  order := by
    intro i hi hin _ hne
    rw [Function.update_of_ne hne, Function.update_of_ne (by omega)]
    exact h i hi hin
  around := by
    intro i hi hin hip hne
    exact absurd rfl hne

/-- All entries are below the root. -/
theorem IsHeapBelow.isHeap (h : IsHeapBelow key 0 n g) : IsHeap key n g :=
  fun i hi hin => h i hi hin (descends_zero _)

/-! ## Replacing an entry -/

variable (key) in
/-- A heap except that the entry at `hole` may be anything. -/
structure HeapBut (hole n : Nat) (g : Nat → α) : Prop where
  order : ∀ i, 0 < i → i < n → i ≠ hole → (i - 1) / 2 ≠ hole → key (g ((i - 1) / 2)) ≤ key (g i)
  around : ∀ i, 0 < i → i < n → (i - 1) / 2 = hole → 0 < hole →
    key (g ((hole - 1) / 2)) ≤ key (g i)

/-- A heap in which one entry was replaced. -/
theorem IsHeap.heapBut (h : IsHeap key n g) (hole : Nat) (x : α) :
    HeapBut key hole n (Function.update g hole x) where
  order := by
    intro i hi hin hne hpne
    rw [Function.update_of_ne hne, Function.update_of_ne hpne]
    exact h i hi hin
  around := by
    intro i hi hin hip hpos
    rw [Function.update_of_ne (by omega), Function.update_of_ne (by omega)]
    have hup := h hole hpos (by omega)
    have hdown := h i hi hin
    rw [hip] at hdown
    exact hup.trans hdown

/-- An entry less than its parent is less than its children too. -/
theorem HeapBut.upTo (h : HeapBut key hole n g) (hpos : 0 < hole)
    (hle : key (g hole) ≤ key (g ((hole - 1) / 2))) : UpTo key hole n g where
  order := by
    intro i hi hin hne
    by_cases hip : (i - 1) / 2 = hole
    · rw [hip]
      exact hle.trans (h.around i hi hin hip hpos)
    · exact h.order i hi hin hne hip
  around := h.around

/-- If the new entry is not smaller than its parent it may have to go down. -/
theorem HeapBut.downFrom (h : HeapBut key hole n g)
    (hle : 0 < hole → key (g ((hole - 1) / 2)) ≤ key (g hole)) : DownFrom key 0 hole n g where
  order := by
    intro i hi hin _ hne
    by_cases hih : i = hole
    · subst hih
      exact hle hi
    · exact h.order i hi hin hih hne
  around := fun i hi hin hip hne => h.around i hi hin hip (Nat.pos_of_ne_zero hne)

end LinuxServer.Library
