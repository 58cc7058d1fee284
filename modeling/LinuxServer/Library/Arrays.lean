import Mathlib.Data.List.Perm.Basic
import Mathlib.Data.List.Nodup
import Mathlib.Logic.Equiv.Basic
import Mathlib.Tactic.Common

/-!
# Arrays as functions

An array is a function from indices, of which the first `n` count; its contents are
`(List.range n).map f`, in that order. Programs that keep a set in an array move entries around
(`Rearranged`), append one, or remove one by copying the last entry over it; the lemmas say what this
does to the contents up to order. `Indexes` is about tables that say where in a list an entry is.
-/

namespace LinuxServer.Library

variable {α : Type}

/-! ## Rearrangements -/

/-- `g` is `f` with its entries exchanged within the index set `S`. -/
def Rearranged (S : Nat → Prop) (f g : Nat → α) : Prop :=
  ∃ σ : Equiv.Perm Nat, g = f ∘ σ ∧ ∀ i, σ i ≠ i → S i

namespace Rearranged
variable {S : Nat → Prop} {f g k : Nat → α} {i j : Nat}

/-- Nothing was rearranged. -/
theorem refl (S : Nat → Prop) (f : Nat → α) : Rearranged S f f :=
  ⟨Equiv.refl Nat, rfl, fun _ h => absurd rfl h⟩

/-- Rearranged twice. -/
theorem trans (hfg : Rearranged S f g) (hgk : Rearranged S g k) : Rearranged S f k := by
  obtain ⟨σ, rfl, hσ⟩ := hfg
  obtain ⟨τ, rfl, hτ⟩ := hgk
  refine ⟨τ.trans σ, rfl, ?_⟩
  intro i hi
  by_cases h : τ i = i
  · apply hσ
    rwa [Equiv.trans_apply, h] at hi
  · exact hτ i h

/-- Two entries were swapped. -/
theorem swap (f : Nat → α) (hi : S i) (hj : S j) : Rearranged S f (f ∘ Equiv.swap i j) := by
  refine ⟨Equiv.swap i j, rfl, ?_⟩
  intro x hx
  rcases Equiv.swap_apply_ne_self_iff.mp hx with ⟨-, rfl | rfl⟩
  · exact hi
  · exact hj

/-- Nothing happens outside of `S`. -/
theorem off (h : Rearranged S f g) (hi : ¬ S i) : g i = f i := by
  obtain ⟨σ, rfl, hσ⟩ := h
  have hfix : σ i = i := by
    by_contra hne
    exact hi (hσ i hne)
  exact congrArg f hfix

/-- It is enough to know it of fewer indices. -/
theorem mono {T : Nat → Prop} (h : Rearranged S f g) (hST : ∀ i, S i → T i) : Rearranged T f g := by
  obtain ⟨σ, hg, hσ⟩ := h
  exact ⟨σ, hg, fun i hi => hST i (hσ i hi)⟩

/-- The entries at any set of indices that covers `S` are the same up to order. -/
theorem perm (h : Rearranged S f g) {l : List Nat} (hnd : l.Nodup) (hl : ∀ i, S i → i ∈ l) :
    (l.map g).Perm (l.map f) := by
  obtain ⟨σ, rfl, hσ⟩ := h
  have hmoved : ∀ i, σ i ≠ i → S (σ i) := by
    intro i hi
    apply hσ
    intro h
    exact hi (σ.injective h)
  -- `σ` maps `l` to itself, since what it moves lies in `S`
  have hσl : (l.map σ).Perm l := by
    rw [List.perm_ext_iff_of_nodup (hnd.map σ.injective) hnd]
    intro x
    rw [List.mem_map]
    constructor
    · rintro ⟨i, hi, rfl⟩
      by_cases h : σ i = i
      · rwa [h]
      · exact hl _ (hmoved i h)
    · intro hx
      by_cases h : σ x = x
      · exact ⟨x, hx, h⟩
      · refine ⟨σ.symm x, hl _ (hσ _ ?_), σ.apply_symm_apply x⟩
        rw [σ.apply_symm_apply]
        intro hfix
        apply h
        nth_rewrite 1 [hfix]
        exact σ.apply_symm_apply x
  rw [← List.map_map]
  exact hσl.map f

end Rearranged

/-! ## Growing and shrinking -/

/-- The entry at the end is the one that was written there. -/
theorem range_succ_map_update (f : Nat → α) (n : Nat) (x : α) :
    (List.range (n + 1)).map (Function.update f n x) = (List.range n).map f ++ [x] := by
  rw [List.range_succ, List.map_append, List.map_singleton, Function.update_self]
  congr 1
  apply List.map_congr_left
  intro i hi
  have hne : i ≠ n := Nat.ne_of_lt (List.mem_range.mp hi)
  exact Function.update_of_ne hne x f

/-- Taking the entry `i` out and the last one in its place. -/
theorem range_map_swap_last (f : Nat → α) {i n : Nat} (hi : i ≤ n) :
    ((List.range (n + 1)).map f).Perm
      (f i :: (List.range n).map (Function.update f i (f n))) := by
  have hswap := (Rearranged.swap (S := (· < n + 1)) f (show i < n + 1 by omega)
    (show n < n + 1 by omega)).perm List.nodup_range (fun j hj => List.mem_range.mpr hj)
  have hinit : (List.range n).map (f ∘ Equiv.swap i n) =
      (List.range n).map (Function.update f i (f n)) := by
    apply List.map_congr_left
    intro j hj
    have hjn : j ≠ n := Nat.ne_of_lt (List.mem_range.mp hj)
    show f (Equiv.swap i n j) = _
    by_cases hji : j = i
    · rw [hji, Equiv.swap_apply_left, Function.update_self]
    · rw [Equiv.swap_apply_of_ne_of_ne hji hjn, Function.update_of_ne hji]
  have hall : (List.range (n + 1)).map (f ∘ Equiv.swap i n) =
      (List.range n).map (Function.update f i (f n)) ++ [f i] := by
    rw [List.range_succ, List.map_append, hinit, List.map_singleton]
    show _ ++ [f (Equiv.swap i n n)] = _
    rw [Equiv.swap_apply_right]
  rw [hall] at hswap
  exact hswap.symm.trans (List.perm_append_singleton _ _)

/-! ## What is left of a scan -/

/-- The entries from `i` up to `n`, which is not one of them. -/
def between (f : Nat → α) (i n : Nat) : List α := (List.range' i (n - i)).map f

theorem between_self (f : Nat → α) (n : Nat) : between f n n = [] := by
  simp [between]

theorem between_zero (f : Nat → α) (n : Nat) : between f 0 n = (List.range n).map f := by
  rw [between, List.range_eq_range', Nat.sub_zero]

/-- The first entry, and those behind it. -/
theorem between_cons (f : Nat → α) {i n : Nat} (hi : i < n) :
    between f i n = f i :: between f (i + 1) n := by
  obtain ⟨k, hk⟩ : ∃ k, n - i = k + 1 := ⟨n - i - 1, by omega⟩
  rw [between, between, hk, List.range'_succ, List.map_cons, show n - (i + 1) = k by omega]

/-- One more entry at the end. -/
theorem between_update_last (f : Nat → α) {i n : Nat} (hi : i ≤ n) (x : α) :
    between (Function.update f n x) i (n + 1) = between f i n ++ [x] := by
  rw [between, between, show n + 1 - i = (n - i) + 1 by omega, List.range'_concat, List.map_append,
    List.map_singleton, show i + 1 * (n - i) = n by omega, Function.update_self]
  congr 1
  apply List.map_congr_left
  intro j hj
  have hne : j ≠ n := by
    have := List.mem_range'_1.mp hj
    omega
  exact Function.update_of_ne hne x f

/-- Taking the first of them out and the last one in its place. -/
theorem between_swap_last (f : Nat → α) {i n : Nat} (hi : i ≤ n) :
    (between f i (n + 1)).Perm (f i :: between (Function.update f i (f n)) i n) := by
  rcases Nat.lt_or_ge i n with hlt | hge
  · have hlast : between f i (n + 1) = between f i n ++ [f n] := by
      rw [← between_update_last f hi, Function.update_eq_self]
    have hrest : between (Function.update f i (f n)) (i + 1) n = between f (i + 1) n := by
      apply List.map_congr_left
      intro j hj
      have hne : j ≠ i := by
        have := List.mem_range'_1.mp hj
        omega
      exact Function.update_of_ne hne _ f
    rw [hlast, between_cons f hlt, between_cons _ hlt, hrest, Function.update_self, List.cons_append]
    exact (List.perm_append_singleton _ _).cons _
  · obtain rfl : i = n := by omega
    rw [between_cons f (Nat.lt_succ_self i), between_self, between_self]

/-! ## Places in a list -/

/-- `idx a` is the place of `a` in `l`, plus one, and 0 if it is not there. -/
def Indexes (idx : α → Nat) (l : List α) : Prop := ∀ a i, idx a = i + 1 ↔ l[i]? = some a

namespace Indexes
variable {idx : α → Nat} {l : List α} {a : α}

/-- Nothing is in an empty array. -/
theorem nil : Indexes (fun _ : α => 0) [] := by
  intro a i
  simp

/-- Nothing is in the array twice. -/
theorem nodup (h : Indexes idx l) : l.Nodup := by
  rw [List.nodup_iff_injective_getElem]
  intro ⟨i, hi⟩ ⟨j, hj⟩ heq
  dsimp only at heq
  have h₁ := (h _ i).mpr (List.getElem?_eq_getElem hi)
  have h₂ := (h _ j).mpr (List.getElem?_eq_getElem hj)
  rw [heq, h₂] at h₁
  simp only [Fin.mk.injEq]
  omega

/-- The index is 0 exactly for what is not in the array. -/
theorem eq_zero_iff (h : Indexes idx l) : idx a = 0 ↔ a ∉ l := by
  rw [List.mem_iff_getElem?]
  constructor
  · rintro hz ⟨i, hi⟩
    have := (h a i).mpr hi
    omega
  · intro hno
    by_contra hnz
    obtain ⟨i, hi⟩ : ∃ i, idx a = i + 1 := ⟨idx a - 1, by omega⟩
    exact hno ⟨i, (h a i).mp hi⟩

variable [DecidableEq α]

/-- One more at the end. -/
theorem append (h : Indexes idx l) (ha : a ∉ l) :
    Indexes (Function.update idx a (l.length + 1)) (l ++ [a]) := by
  intro a' i
  rw [List.getElem?_append]
  by_cases haa : a' = a
  · subst haa
    rw [Function.update_self]
    split
    · rename_i hi
      constructor
      · intro heq
        omega
      · intro hmem
        exact absurd (List.mem_of_getElem? hmem) ha
    · rw [List.getElem?_singleton]
      split
      · exact ⟨fun _ => rfl, fun _ => by omega⟩
      · constructor
        · intro heq
          omega
        · intro hnone
          cases hnone
  · rw [Function.update_of_ne haa, h]
    split
    · exact Iff.rfl
    · rename_i hi
      rw [List.getElem?_eq_none (by omega), List.getElem?_singleton]
      constructor
      · intro hnone
        cases hnone
      · intro hsome
        split at hsome
        · exact absurd (Option.some.inj hsome).symm haa
        · cases hsome

/-- The last one taken out. -/
theorem dropLast (h : Indexes idx l) (ha : l[l.length - 1]? = some a) :
    Indexes (Function.update idx a 0) (l.take (l.length - 1)) := by
  have hidx := (h a _).mpr ha
  intro a' i
  by_cases haa : a' = a
  · subst haa
    rw [Function.update_self, List.getElem?_take]
    constructor
    · intro hzero
      cases hzero
    · intro hmem
      split at hmem
      · have := (h a' i).mpr hmem
        omega
      · cases hmem
  · rw [Function.update_of_ne haa, h, List.getElem?_take]
    split
    · exact Iff.rfl
    · rename_i hi
      constructor
      · intro hsome
        obtain ⟨hlt, -⟩ := List.getElem?_eq_some_iff.mp hsome
        obtain rfl : i = l.length - 1 := by omega
        exact absurd (Option.some.inj (hsome.symm.trans ha)) haa
      · intro hnone
        cases hnone

/-- One taken out, and the last one put in its place. -/
theorem swapRemove {z : α} {i : Nat} (h : Indexes idx l) (ha : l[i]? = some a)
    (hz : l[l.length - 1]? = some z) (hi : i ≠ l.length - 1) :
    Indexes (Function.update (Function.update idx a 0) z (i + 1)) ((l.set i z).take (l.length - 1)) := by
  have hidx := (h a i).mpr ha
  have hidz := (h z _).mpr hz
  obtain ⟨hlt, -⟩ := List.getElem?_eq_some_iff.mp ha
  have hza : z ≠ a := by
    rintro rfl
    omega
  intro a' j
  rw [List.getElem?_take, List.getElem?_set]
  by_cases haz : a' = z
  · subst haz
    rw [Function.update_self]
    constructor
    · intro heq
      obtain rfl : i = j := by omega
      rw [if_pos (by omega), if_pos rfl, if_pos hlt]
    · intro hmem
      split at hmem
      · split at hmem
        · omega
        · have := (h a' j).mpr hmem
          omega
      · cases hmem
  · rw [Function.update_of_ne haz]
    by_cases haa : a' = a
    · subst haa
      rw [Function.update_self]
      constructor
      · intro hzero
        cases hzero
      · intro hmem
        split at hmem
        · split at hmem
          · exact absurd (Option.some.inj hmem).symm haz
          · have := (h a' j).mpr hmem
            omega
        · cases hmem
    · rw [Function.update_of_ne haa, h]
      constructor
      · intro hsome
        obtain ⟨hjl, -⟩ := List.getElem?_eq_some_iff.mp hsome
        have hjlast : j ≠ l.length - 1 := by
          rintro rfl
          exact haz (Option.some.inj (hsome.symm.trans hz))
        have hji : i ≠ j := by
          rintro rfl
          exact haa (Option.some.inj (hsome.symm.trans ha))
        rw [if_pos (by omega), if_neg hji]
        exact hsome
      · intro hmem
        split at hmem
        · split at hmem
          · exact absurd (Option.some.inj hmem).symm haz
          · exact hmem
        · cases hmem

end Indexes
end LinuxServer.Library
