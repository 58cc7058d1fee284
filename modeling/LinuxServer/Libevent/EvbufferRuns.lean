import LinuxServer.Libevent.Evbuffers

/-!
# Runs of programs with buffers

Two consequences for whole runs. A buffer to which bytes are only added at the end, and from which they are
only removed, is a pipe: what was removed and what it still holds is what was added (`pipe_exact`). And the
reference counts are right, so that memory is there as long as a chain of some buffer uses it, and no longer
(`memory_exact`).
-/

namespace LinuxServer.Libevent.Buffers

open Library

variable {s s' : Buffers} {act : BufferAction} {h : List (Buffers × BufferAction)} {i : Nat}

/-! ## Pipes -/

/-- What a call returns. -/
def outcome (s : Buffers) (act : BufferAction) : Answer :=
  match s.step act with
  | .ok s' => s'.answer
  | .error _ => done false

/-- The bytes that a call adds to the buffer `i`. -/
def given (i : Nat) (s : Buffers) : BufferAction → List UInt8
  | .add j data => if j = i ∧ (s.outcome (.add j data)).ret = 0 then data else []
  | .addReference j data => if j = i ∧ (s.outcome (.addReference j data)).ret = 0 then data else []
  | .new | .drain _ _ | .remove _ _ | .addBuffer _ _ | .addBufferReference _ _ | .freeze _ _ _ => []

/-- The bytes that a call gives back from the buffer `i`. -/
def taken (i : Nat) (s : Buffers) : BufferAction → List UInt8
  | .remove j len => if j = i then (s.outcome (.remove j len)).data else []
  | .new | .add _ _ | .addReference _ _ | .drain _ _ | .addBuffer _ _ | .addBufferReference _ _
  | .freeze _ _ _ => []

def allGiven (i : Nat) (h : List (Buffers × BufferAction)) : List UInt8 := h.flatMap fun x => given i x.1 x.2

def allTaken (i : Nat) (h : List (Buffers × BufferAction)) : List UInt8 := h.flatMap fun x => taken i x.1 x.2

/-- The call does not drain the buffer `i`, nor move data between it and another one, nor ask for more of it
than `ev_ssize_t` can say. -/
def Pipes (i : Nat) : BufferAction → Prop
  | .drain j _ => j ≠ i
  | .addBuffer out src => out ≠ i ∧ src ≠ i
  | .addBufferReference out _ => out ≠ i
  | .remove j len => j = i → len ≤ ssizeMax
  | .new | .add _ _ | .addReference _ _ | .freeze _ _ _ => True

theorem outcome_eq (hs : s.step act = .ok s') : s.outcome act = s'.answer := by rw [outcome, hs]

theorem Changes.other {j : Nat} {t : List UInt8} (hc : s.Changes s' j t) (hi : i < s.count) (hne : j ≠ i) :
    s'.text i = s.text i := hc.2.2 i hi (Ne.symm hne)

/-- A call that adds bytes to the end of some buffer. -/
theorem Changes.adds {j : Nat} {data : List UInt8} (hi : i < s.count)
    (hc : s.Changes s' j (if s'.answer.ret = 0 then s.text j ++ data else s.text j)) :
    s.text i ++ (if j = i ∧ s'.answer.ret = 0 then data else []) = s'.text i := by
  by_cases hj : j = i
  · subst hj
    have htext : s'.text j = _ := hc.2.1
    rw [htext]
    by_cases hret : s'.answer.ret = 0
    · rw [if_pos ⟨rfl, hret⟩, if_pos hret]
    · rw [if_neg (fun h => hret h.2), if_neg hret, List.append_nil]
  · rw [if_neg (fun h => hj h.1), List.append_nil, hc.other hi hj]

/-- What a call does to a pipe. -/
theorem Effect.passes (heff : s.Effect s' act) (hs : s.step act = .ok s') (hi : i < s.count) (hp : Pipes i act) :
    s.text i ++ given i s act = taken i s act ++ s'.text i := by
  have hidle : ∀ {t : List UInt8}, t = s.text i → s.text i ++ [] = [] ++ t := by
    rintro t rfl
    rw [List.append_nil, List.nil_append]
  cases act with
  | new => exact hidle (heff.2.2 i hi)
  | add j data =>
      rw [given, taken, outcome_eq hs]
      exact heff.1.adds hi
  | addReference j data =>
      rw [given, taken, outcome_eq hs]
      exact heff.1.adds hi
  | drain j len => exact hidle (heff.1.other hi hp)
  | remove j len =>
      rw [given, taken, outcome_eq hs]
      by_cases hj : j = i
      · subst hj
        rw [if_pos rfl, List.append_nil]
        by_cases hr : s.Refuses j len
        · obtain ⟨-, hdata, hch⟩ := heff.1 hr
          rw [hdata, List.nil_append]
          exact hch.2.1.symm
        · obtain ⟨-, hdata, hch⟩ := heff.2 hr
          have hlen : s'.answer.data.length ≤ ssizeMax := by
            rw [hdata, List.length_take]
            exact (Nat.min_le_left ..).trans (hp rfl)
          have htext : s'.text j = _ := hch.2.1
          rw [htext, if_pos hlen, hdata, List.take_append_drop]
      · rw [if_neg hj]
        by_cases hr : s.Refuses j len
        · exact hidle ((heff.1 hr).2.2.other hi hj)
        · exact hidle ((heff.2 hr).2.2.other hi hj)
  | addBuffer out src => exact hidle (heff.2.1 i hi (Ne.symm hp.1) (Ne.symm hp.2))
  | addBufferReference out src => exact hidle (heff.2.1 i hi (Ne.symm hp))
  | freeze j start on =>
      by_cases hj : j = i
      · subst hj
        exact hidle heff.2.1
      · exact hidle (Changes.other heff hi hj)

theorem all_append (f : Buffers → BufferAction → List UInt8) (x : Buffers × BufferAction) :
    ((h ++ [x]).flatMap fun x => f x.1 x.2) = (h.flatMap fun x => f x.1 x.2) ++ f x.1 x.2 := by
  rw [List.flatMap_append, List.flatMap_singleton]

/-- Before a buffer is made nothing is added to it or removed from it. -/
theorem none_early (he : s.Enabled act) (hi : s.count ≤ i) : given i s act = [] ∧ taken i s act = [] := by
  cases act with
  | add j data =>
      have hj : j < s.count := he
      exact ⟨if_neg (fun hk => by omega), rfl⟩
  | addReference j data =>
      have hj : j < s.count := he
      exact ⟨if_neg (fun hk => by omega), rfl⟩
  | remove j len =>
      have hj : j < s.count := he
      exact ⟨rfl, if_neg (by omega)⟩
  | new | drain | addBuffer | addBufferReference | freeze => exact ⟨rfl, rfl⟩

theorem Effect.count (heff : s.Effect s' act) :
    s'.count = s.count ∨ s'.count = s.count + 1 ∧ s'.text s.count = [] := by
  cases act with
  | new => exact .inr ⟨heff.1, heff.2.1⟩
  | freeze | addBuffer | addBufferReference => exact .inl heff.1
  | add | addReference | drain => exact .inl heff.1.1
  | remove i len =>
      by_cases hr : s.Refuses i len
      · exact .inl (heff.1 hr).2.2.1
      · exact .inl (heff.2 hr).2.2.1

theorem effect_of_step (hr : fitting.Reachable s) (he : fitting.enabled s act) (hs : fitting.step s act = .ok s') :
    s.Effect s' act := by
  obtain ⟨hbad, hgood⟩ := (sane_reachable hr).step he.1 he.2
  by_cases hd : s.DoubleFrees act
  · cases (hbad hd).symm.trans hs
  · obtain ⟨t, ht, -, heff⟩ := hgood hd
    obtain rfl := Except.ok.inj (ht.symm.trans hs)
    exact heff

/-- What was added to a pipe is what was removed from it and what is still in it, in this order. -/
theorem pipe_exact (hr : fitting.Run h s) (hp : Machine.Always (fun _ act => Pipes i act) h) (hi : i < s.count) :
    allGiven i h = allTaken i h ++ s.text i := by
  have hboth : (i < s.count → allGiven i h = allTaken i h ++ s.text i) ∧
      (s.count ≤ i → allGiven i h = [] ∧ allTaken i h = []) := by
    clear hi
    induction hr with
    | start hs => exact ⟨fun hi => by subst hs; exact absurd hi (Nat.not_lt_zero _), fun _ => ⟨rfl, rfl⟩⟩
    | @step h s act s' hr he hs ih =>
        rw [Machine.always_append] at hp
        obtain ⟨hmade, hearly⟩ := ih hp.1
        have heff := effect_of_step ⟨h, hr⟩ he hs
        rw [allGiven, allTaken, all_append, all_append]
        by_cases hi : i < s.count
        · have hpass := heff.passes hs hi (hp.2 (s, act) (List.mem_singleton_self _))
          have hcount : i < s'.count := by
            rcases heff.count with hc | ⟨hc, -⟩ <;> omega
          refine ⟨fun _ => ?_, fun hge => by omega⟩
          calc allGiven i h ++ given i s act
              = allTaken i h ++ (s.text i ++ given i s act) := by rw [hmade hi, List.append_assoc]
            _ = allTaken i h ++ taken i s act ++ s'.text i := by rw [hpass, List.append_assoc]
        · have hge : s.count ≤ i := Nat.le_of_not_lt hi
          obtain ⟨hgiven, htaken⟩ := hearly hge
          obtain ⟨hg, ht⟩ := none_early he.1 hge
          have hgiven' : (allGiven i h ++ given i s act) = [] := by rw [hgiven, hg, List.append_nil]
          have htaken' : (allTaken i h ++ taken i s act) = [] := by rw [htaken, ht, List.append_nil]
          refine ⟨fun hlt => ?_, fun _ => ⟨hgiven', htaken'⟩⟩
          -- it has just been made, empty
          rcases heff.count with hc | ⟨hc, htext⟩
          · omega
          · obtain rfl : i = s.count := by omega
            show allGiven s.count h ++ given s.count s act = allTaken s.count h ++ taken s.count s act ++ _
            rw [hgiven', htaken', htext, List.append_nil]
  exact hboth.1 hi

/-- Another buffer refers to the data of the pipe while it is added to, by copying and by reference, and
removed from. -/
theorem pipe_exact_shared : ∃ h s, fitting.Run h s ∧
    h.map Prod.snd = [.new, .new, .add 0 [1, 2], .addBufferReference 1 0, .addReference 0 [3], .remove 0 1,
      .drain 1 1, .remove 0 2] ∧ s.text 0 = [] ∧ s.text 1 = [2] ∧ allTaken 0 h = allGiven 0 h := by
  have hreplay : (fitting.replay start [.new, .new, .add 0 [1, 2], .addBufferReference 1 0, .addReference 0 [3],
      .remove 0 1, .drain 1 1, .remove 0 2]).map (fun s => (s.text 0, s.text 1, s.count)) =
        some ([], [2], 2) := by decide +kernel
  obtain ⟨h, s, hr, hacts, hf⟩ := Machine.Run.of_replay _ _ rfl hreplay
  obtain ⟨htext, hf⟩ := Prod.mk.inj hf
  obtain ⟨hother, hcount⟩ := Prod.mk.inj hf
  have hp : Machine.Always (fun _ act => Pipes 0 act) h := by
    intro x hx
    have hmem : x.2 ∈ h.map Prod.snd := List.mem_map_of_mem hx
    rw [hacts] at hmem
    revert hmem
    generalize x.2 = act
    simp only [List.mem_cons, List.not_mem_nil, or_false]
    rintro (rfl | rfl | rfl | rfl | rfl | rfl | rfl | rfl)
    all_goals simp [Pipes, ssizeMax]
  have hpipe := pipe_exact hr hp (by omega)
  rw [htext, List.append_nil] at hpipe
  exact ⟨h, s, hr, hacts, htext, hother, hpipe.symm⟩

/-! ## Reference counts -/

/-- How many chains use this piece of memory. -/
def users (s : Buffers) (p : Ptr) : Nat := ((s.chainsOf (List.range s.count)).map Chain.buffer).count p

/-- In every reachable state `total_len` is the number of bytes, and a piece of memory exists exactly as long
as there are chains that use it, whose number is its reference count. -/
theorem memory_exact (hr : fitting.Reachable s) :
    (∀ i < s.count, (s.buf i).totalLen = (s.text i).length) ∧
    ∀ p, (s.arena.mem.cells p).isSome = decide (0 < s.users p) ∧
      (s.arena.mem.cells p).elim 0 Cell.refcnt = s.users p := by
  have hsane := sane_reachable hr
  constructor
  · intro i hi
    exact ((hsane.ok i hi).length_content (hsane.one hi)).symm
  · intro p
    have hmap : ((s.chainsOf (List.range s.count)).map Chain.window).map Window.cell =
        (s.chainsOf (List.range s.count)).map Chain.buffer := by
      rw [List.map_map]
      rfl
    cases hc : s.arena.mem.cells p with
    | some cell =>
        obtain ⟨hpos, hcount⟩ := hsane.owns.holds.counts p cell hc
        rw [hmap] at hcount
        have husers : cell.refcnt = s.users p := hcount
        refine ⟨(decide_eq_true (by omega)).symm, husers⟩
    | none =>
        have hzero : s.users p = 0 := by
          refine List.count_eq_zero.mpr fun hmem => ?_
          rw [← hmap] at hmem
          obtain ⟨w, hw, rfl⟩ := List.mem_map.mp hmem
          obtain ⟨cell, hcell, -⟩ := hsane.owns.holds.live w hw
          rw [hc] at hcell
          cases hcell
        rw [hzero]
        exact ⟨rfl, rfl⟩

theorem memory_exact_shared : ∃ s, fitting.Reachable s ∧ s.text 0 = [7] ∧ s.text 1 = [7] ∧ s.users 0 = 2 ∧
    (s.arena.mem.cells 0).elim 0 Cell.refcnt = 2 := by
  have hreplay : (fitting.replay start [.new, .new, .add 1 [7], .addBufferReference 0 1]).map
      (fun s => (s.text 0, s.text 1, s.users 0)) = some ([7], [7], 2) := by decide +kernel
  obtain ⟨s, hr, hf⟩ := Machine.Reachable.of_replay _ _ rfl hreplay
  obtain ⟨hout, hf⟩ := Prod.mk.inj hf
  obtain ⟨hsrc, husers⟩ := Prod.mk.inj hf
  have hcount := ((memory_exact hr).2 0).2
  exact ⟨s, hr, hout, hsrc, husers, hcount.trans husers⟩

end LinuxServer.Libevent.Buffers
