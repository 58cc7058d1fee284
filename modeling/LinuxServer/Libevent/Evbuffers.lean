import LinuxServer.Library.Machine
import LinuxServer.Libevent.EvbufferOps

/-!
# Programs with buffers

A program makes any number of buffers and calls the functions on them in any order. What it sees of a
buffer is its data, a list of bytes, of which every call makes what the comments in `buffer.h` say
(`Effect`), in every reachable state, however the data is spread over chains and whoever shares them. The
only exception is a call that frees chains twice (`DoubleFrees`).

Only `evbuffer_add` makes sure that `total_len` does not overflow. Of the other calls that make a buffer
longer this is assumed (`Fits`).
-/

namespace LinuxServer.Libevent

open Library

/-! ## Any number of buffers -/

/-- What a call has returned, and what `evbuffer_remove` has written to `data_out`. -/
structure Answer where
  ret : Int
  data : List UInt8
  deriving Repr, DecidableEq

/-- All buffers, and what the last call has answered. -/
structure Buffers where
  arena : Arena
  count : Nat
  buf : Nat → Evbuffer
  answer : Answer

/-- The calls. `freeze` is `evbuffer_freeze` or `evbuffer_unfreeze`. -/
inductive BufferAction where
  | new
  | add (i : Nat) (data : List UInt8)
  | addReference (i : Nat) (data : List UInt8)
  | drain (i len : Nat)
  | remove (i len : Nat)
  | addBuffer (out src : Nat)
  | addBufferReference (out src : Nat)
  | freeze (i : Nat) (start on : Bool)
  deriving Repr, DecidableEq

namespace Buffers

/-- The data of a buffer. -/
def text (s : Buffers) (i : Nat) : List UInt8 := s.arena.content (s.buf i).chains

def put (s : Buffers) (i : Nat) (b : Evbuffer) (arena : Arena) (answer : Answer) : Buffers :=
  { s with arena, answer, buf := Function.update s.buf i b }

/-- The answer of a call that returns 0 or -1. -/
def done (r : Bool) : Answer where
  ret := if r then 0 else -1
  data := []

/-- With another buffer, the one of `evbuffer_new`. -/
def grown (s : Buffers) : Buffers :=
  { s.put s.count Evbuffer.make s.arena (done true) with count := s.count + 1 }

def step (s : Buffers) : BufferAction → Exec Buffers
  | .new => .ok s.grown
  | .add i data => do
      let (r, b, a) ← (s.buf i).evbufferAdd s.arena data
      .ok (s.put i b a (done r))
  | .addReference i data => do
      let (r, b, a) ← (s.buf i).evbufferAddReference s.arena data
      .ok (s.put i b a (done r))
  | .drain i len => do
      let (r, b, a) ← (s.buf i).evbufferDrain s.arena len
      .ok (s.put i b a (done r))
  | .remove i len => do
      let (ret, data, b, a) ← (s.buf i).evbufferRemove s.arena len
      .ok (s.put i b a { ret, data })
  | .addBuffer out src =>
      if out = src then .ok { s with answer := done true }
      else do
        let (r, b, c, a) ← (s.buf out).evbufferAddBuffer (s.buf src) s.arena
        .ok ((s.put out b a (done r)).put src c a (done r))
  | .addBufferReference out src =>
      if out = src then .ok { s with answer := done ((s.buf src).totalLen = 0) }
      else do
        let (r, b, c, a) ← (s.buf out).evbufferAddBufferReference (s.buf src) s.arena
        .ok ((s.put out b a (done r)).put src c a (done r))
  | .freeze i start on =>
      .ok (s.put i ((s.buf i).freeze start on) s.arena (done true))

/-- A call is about buffers that have been made. -/
def Enabled (s : Buffers) : BufferAction → Prop
  | .new => True
  | .add i _ | .addReference i _ | .drain i _ | .remove i _ | .freeze i _ _ => i < s.count
  | .addBuffer out src | .addBufferReference out src => out < s.count ∧ src < s.count

instance (s : Buffers) (act : BufferAction) : Decidable (s.Enabled act) :=
  match act with
  | .new => inferInstanceAs (Decidable True)
  | .add _ _ | .addReference _ _ | .drain _ _ | .remove _ _ | .freeze _ _ _ => inferInstanceAs (Decidable (_ < _))
  | .addBuffer _ _ | .addBufferReference _ _ => inferInstanceAs (Decidable (_ ∧ _))

def start : Buffers where
  arena := { mem := Mem.empty, made := 0 }
  count := 0
  buf := fun _ => Evbuffer.make
  answer := done true

def machine : Machine Buffers BufferAction where
  init s := s = start
  enabled := Enabled
  step := step

/-- No buffer gets more data than `size_t` can count. `evbuffer_add` sees to that itself. -/
def Fits (s : Buffers) : BufferAction → Prop
  | .addReference i data => (s.text i).length + data.length ≤ sizeMax
  | .addBuffer out src | .addBufferReference out src =>
      out = src ∨ (s.text out).length + (s.text src).length ≤ sizeMax
  | .new | .add _ _ | .drain _ _ | .remove _ _ | .freeze _ _ _ => True

instance (s : Buffers) (act : BufferAction) : Decidable (s.Fits act) :=
  match act with
  | .addReference _ _ => inferInstanceAs (Decidable (_ ≤ _))
  | .addBuffer _ _ | .addBufferReference _ _ => inferInstanceAs (Decidable (_ ∨ _))
  | .new | .add _ _ | .drain _ _ | .remove _ _ | .freeze _ _ _ => inferInstanceAs (Decidable True)

/-- The programs in which it never happens that `total_len` overflows. -/
def fitting : Machine Buffers BufferAction := machine.restrict Fits

instance (s : Buffers) (act : BufferAction) : Decidable (fitting.enabled s act) :=
  inferInstanceAs (Decidable (s.Enabled act ∧ s.Fits act))

variable {s s' : Buffers} {act : BufferAction} {a : Arena} {b c : Evbuffer} {i j : Nat} {r : Answer}

/-- The chains of the buffers with these numbers. -/
def chainsOf (s : Buffers) (is : List Nat) : List Chain := is.flatMap fun i => (s.buf i).chains

/-- The chains of all other buffers. -/
def others (s : Buffers) (is : List Nat) : List Chain := s.chainsOf ((List.range s.count).filter (· ∉ is))

structure Sane (s : Buffers) : Prop where
  owns : Owns s.arena (s.chainsOf (List.range s.count))
  ok : ∀ i < s.count, (s.buf i).Ok

/-- Some of the numbers below `n`, and all others. -/
theorem range_perm {n : Nat} {is : List Nat} (hnd : is.Nodup) (hlt : ∀ i ∈ is, i < n) :
    (List.range n).Perm (is ++ (List.range n).filter (· ∉ is)) := by
  refine (List.perm_ext_iff_of_nodup List.nodup_range ?_).mpr ?_
  · refine List.nodup_append.mpr ⟨hnd, List.nodup_range.filter _, ?_⟩
    intro i hi j hj heq
    have hmem := (List.mem_filter.mp hj).2
    rw [← heq] at hmem
    simp [hi] at hmem
  · intro i
    simp only [List.mem_range, List.mem_append, List.mem_filter, decide_eq_true_eq]
    constructor
    · intro hi
      by_cases hmem : i ∈ is
      · exact .inl hmem
      · exact .inr ⟨hi, hmem⟩
    · rintro (hi | ⟨hi, -⟩)
      · exact hlt i hi
      · exact hi

/-! ## Buffers that are replaced -/

theorem put_self : (s.put i b a r).buf i = b := Function.update_self ..

/-- The other buffers stay. -/
theorem put_other (j : Nat) (hj : j ∉ [i]) : (s.put i b a r).buf j = s.buf j :=
  Function.update_of_ne (by simpa using hj) _ _

theorem put_first (hne : i ≠ j) : ((s.put i b a r).put j c a r).buf i = b :=
  (Function.update_of_ne hne ..).trans (Function.update_self ..)

/-- The buffers other than two stay. -/
theorem put_two_other (k : Nat) (hk : k ∉ [i, j]) : ((s.put i b a r).put j c a r).buf k = s.buf k := by
  rw [List.mem_cons, List.mem_singleton, not_or] at hk
  exact (Function.update_of_ne hk.2 ..).trans (Function.update_of_ne hk.1 ..)

theorem nodup_pair (hne : i ≠ j) : [i, j].Nodup := by simpa using hne

/-- The chains of some buffers, and all others. -/
theorem owns_iff {is : List Nat} (hnd : is.Nodup) (hlt : ∀ i ∈ is, i < s.count) :
    Owns s.arena (s.chainsOf (List.range s.count)) ↔ Owns s.arena (s.chainsOf is ++ s.others is) := by
  have hperm : (s.chainsOf (List.range s.count)).Perm (s.chainsOf is ++ s.others is) := by
    rw [others, chainsOf, chainsOf, chainsOf, ← List.flatMap_append]
    exact (range_perm hnd hlt).flatMap_right _
  exact ⟨fun h => h.perm hperm, fun h => h.perm hperm.symm⟩

/-- The other buffers do not care. -/
theorem others_eq {is : List Nat} (hcount : s'.count = s.count) (hbuf : ∀ j, j ∉ is → s'.buf j = s.buf j) :
    s'.others is = s.others is := by
  rw [others, others, chainsOf, chainsOf, hcount, List.flatMap_def, List.flatMap_def]
  apply congrArg List.flatten
  apply List.map_congr_left
  intro j hj
  have hmem := (List.mem_filter.mp hj).2
  rw [hbuf j (by simpa using hmem)]

/-- The data of the other buffers stays. -/
theorem text_others {is : List Nat} (hs : Same s.arena s'.arena (s.others is))
    (hbuf : ∀ j, j ∉ is → s'.buf j = s.buf j) (hj : j < s.count) (hne : j ∉ is) : s'.text j = s.text j := by
  rw [text, text, hbuf j hne]
  apply Same.content
  intro c hc
  apply hs c
  refine List.mem_flatMap.mpr ⟨j, ?_, hc⟩
  simp [hj, hne]

namespace Sane

/-- The chains of a buffer, and those of all others. -/
theorem one (h : s.Sane) (hi : i < s.count) : Owns s.arena ((s.buf i).chains ++ s.others [i]) := by
  have hlt : ∀ k ∈ [i], k < s.count := by simpa using hi
  have ho := (owns_iff (List.nodup_singleton i) hlt).mp h.owns
  simpa [chainsOf] using ho

/-- The chains of two buffers, and those of all others. -/
theorem two (h : s.Sane) (hi : i < s.count) (hj : j < s.count) (hne : i ≠ j) :
    Owns s.arena ((s.buf i).chains ++ ((s.buf j).chains ++ s.others [i, j])) := by
  have hlt : ∀ k ∈ [i, j], k < s.count := by simp [hi, hj]
  have ho := (owns_iff (nodup_pair hne) hlt).mp h.owns
  simpa [chainsOf] using ho

/-- A buffer may be replaced by one that is right. -/
theorem put (h : s.Sane) (hi : i < s.count) (hok : b.Ok) (ho : Owns a (b.chains ++ s.others [i]))
    (r : Answer) : (s.put i b a r).Sane := by
  have hlt : ∀ k ∈ [i], k < (s.put i b a r).count := by
    intro k hk
    obtain rfl := List.mem_singleton.mp hk
    exact hi
  have hothers : (s.put i b a r).others [i] = s.others [i] := others_eq rfl put_other
  constructor
  · apply (owns_iff (List.nodup_singleton i) hlt).mpr
    have hchains : (s.put i b a r).chainsOf [i] = b.chains := by simp [chainsOf, put_self]
    rw [hothers, hchains]
    exact ho
  · intro j hj
    by_cases hji : j = i
    · rw [hji, put_self]
      exact hok
    · rw [put_other j (by simpa using hji)]
      exact h.ok j hj

/-- Two buffers may be replaced by ones that are right. -/
theorem put_two (h : s.Sane) (hi : i < s.count) (hj : j < s.count) (hne : i ≠ j) (hb : b.Ok) (hc : c.Ok)
    (ho : Owns a (b.chains ++ (c.chains ++ s.others [i, j]))) (r : Answer) :
    ((s.put i b a r).put j c a r).Sane := by
  obtain ⟨hi', hj'⟩ : ((s.put i b a r).put j c a r).buf i = b ∧ ((s.put i b a r).put j c a r).buf j = c :=
    ⟨put_first hne, put_self⟩
  have hlt : ∀ k ∈ [i, j], k < ((s.put i b a r).put j c a r).count := by simpa using ⟨hi, hj⟩
  have hothers : ((s.put i b a r).put j c a r).others [i, j] = s.others [i, j] :=
    others_eq rfl put_two_other
  constructor
  · apply (owns_iff (nodup_pair hne) hlt).mpr
    have hchains : ((s.put i b a r).put j c a r).chainsOf [i, j] = b.chains ++ c.chains := by
      simp [chainsOf, hi', hj']
    rw [hothers, hchains, List.append_assoc]
    exact ho
  · intro k hk
    by_cases hkj : k = j
    · rw [hkj, hj']
      exact hc
    · by_cases hki : k = i
      · rw [hki, hi']
        exact hb
      · rw [put_two_other k (by simp [hki, hkj])]
        exact h.ok k hk

end Sane

/-- Only the data of the buffer `i` has changed, to `t`. -/
def Changes (s s' : Buffers) (i : Nat) (t : List UInt8) : Prop :=
  s'.count = s.count ∧ s'.text i = t ∧ ∀ j < s.count, j ≠ i → s'.text j = s.text j

/-- `evbuffer_remove` is not allowed to take what there is. -/
def Refuses (s : Buffers) (i len : Nat) : Prop :=
  (s.buf i).freezeStart = true ∧ min len (s.text i).length ≠ 0

/-- What a call does to the data of the buffers. A call that fails changes nothing. What `evbuffer_remove`
returns is the number of bytes as an `int`; more bytes than `ev_ssize_t` can say are not taken away. -/
def Effect (s s' : Buffers) : BufferAction → Prop
  | .new => s'.count = s.count + 1 ∧ s'.text s.count = [] ∧ ∀ j < s.count, s'.text j = s.text j
  | .add i data =>
      s.Changes s' i (if s'.answer.ret = 0 then s.text i ++ data else s.text i) ∧
      (s'.answer.ret ≠ 0 → s'.answer.ret = -1 ∧ (s.buf i).Full data.length)
  | .addReference i data =>
      s.Changes s' i (if s'.answer.ret = 0 then s.text i ++ data else s.text i) ∧
      (s'.answer.ret ≠ 0 → s'.answer.ret = -1 ∧ (s.buf i).freezeEnd = true)
  | .drain i len =>
      s.Changes s' i (if s'.answer.ret = 0 then (s.text i).drop len else s.text i) ∧
      (s'.answer.ret ≠ 0 → s'.answer.ret = -1 ∧ (s.buf i).freezeStart = true)
  | .remove i len =>
      (s.Refuses i len → s'.answer.ret = -1 ∧ s'.answer.data = [] ∧ s.Changes s' i (s.text i)) ∧
      (¬ s.Refuses i len →
        s'.answer.ret = asInt s'.answer.data.length ∧ s'.answer.data = (s.text i).take len ∧
        s.Changes s' i (if s'.answer.data.length ≤ ssizeMax then (s.text i).drop len else s.text i))
  | .addBuffer out src =>
      s'.count = s.count ∧ (∀ j < s.count, j ≠ out → j ≠ src → s'.text j = s.text j) ∧
      (out = src ∨ s'.answer.ret ≠ 0 → s'.text out = s.text out ∧ s'.text src = s.text src) ∧
      (out ≠ src → s'.answer.ret = 0 → s'.text out = s.text out ++ s.text src ∧ s'.text src = []) ∧
      (s'.answer.ret ≠ 0 →
        s'.answer.ret = -1 ∧ ((s.buf out).freezeEnd || (s.buf src).freezeStart) = true)
  | .addBufferReference out src =>
      s'.count = s.count ∧ (∀ j < s.count, j ≠ out → s'.text j = s.text j) ∧
      (s'.text out = if out ≠ src ∧ s'.answer.ret = 0 then s.text out ++ s.text src else s.text out) ∧
      (s'.answer.ret ≠ 0 → s'.answer.ret = -1 ∧
        (out = src ∨ (s.buf out).freezeEnd = true ∨ (s.buf src).chains.any (·.multicast) = true))
  | .freeze i _ _ => s.Changes s' i (s.text i)

/-- The calls in which chains are freed twice. -/
def DoubleFrees (s : Buffers) : BufferAction → Prop
  | .addBufferReference out src => out ≠ src ∧ (s.buf out).DoubleFrees (s.buf src)
  | _ => False

instance (s : Buffers) (act : BufferAction) : Decidable (s.DoubleFrees act) :=
  match act with
  | .addBufferReference _ _ => inferInstanceAs (Decidable (_ ∧ _))
  | .new | .add _ _ | .addReference _ _ | .drain _ _ | .remove _ _ | .addBuffer _ _ | .freeze _ _ _ =>
      inferInstanceAs (Decidable False)

/-- A call returns 0 exactly if it succeeds. -/
theorem done_ret {r : Bool} : (done r).ret = 0 ↔ r = true := by cases r <;> decide

/-- A call that fails returns -1. -/
theorem done_failed {r : Bool} (h : (done r).ret ≠ 0) : (done r).ret = -1 ∧ r = false := by
  cases r with
  | false => exact ⟨rfl, rfl⟩
  | true => exact absurd rfl h

/-- One buffer has become another one. -/
theorem Sane.changed (h : s.Sane) (hi : i < s.count) (hb : b.Ok) (ho : Owns a (b.chains ++ s.others [i]))
    (hs : Same s.arena a (s.others [i])) (r : Answer) :
    (s.put i b a r).Sane ∧ s.Changes (s.put i b a r) i (a.content b.chains) := by
  refine ⟨h.put hi hb ho r, rfl, ?_, ?_⟩
  · rw [text, put_self]
    rfl
  · intro j hj hne
    exact text_others hs put_other hj (by simpa using hne)

/-- The data of one buffer changes as the call on it says. -/
theorem Sane.becomes (h : s.Sane) (hi : i < s.count) {t : List UInt8}
    (hb : Evbuffer.Becomes s.arena a (s.buf i) b (s.others [i]) t) (r : Answer) :
    (s.put i b a r).Sane ∧ s.Changes (s.put i b a r) i t := by
  obtain ⟨hsane, hch⟩ := h.changed hi hb.ok hb.owns hb.same r
  rw [hb.content] at hch
  exact ⟨hsane, hch⟩

/-- One buffer has become another one, or the call has failed. -/
theorem Sane.answers (h : s.Sane) (hi : i < s.count) {t : List UInt8} {ok : Bool} {why : Prop}
    (hb : Evbuffer.Becomes s.arena a (s.buf i) b (s.others [i]) (if ok then t else s.text i))
    (hfail : ok = false → why) :
    (s.put i b a (done ok)).Sane ∧
    s.Changes (s.put i b a (done ok)) i (if (done ok).ret = 0 then t else s.text i) ∧
    ((done ok).ret ≠ 0 → (done ok).ret = -1 ∧ why) := by
  obtain ⟨hsane, hch⟩ := h.becomes hi hb (done ok)
  refine ⟨hsane, ?_, fun hne => ⟨(done_failed hne).1, hfail (done_failed hne).2⟩⟩
  cases ok with
  | true => exact hch
  | false => exact hch

/-- A new buffer is empty and changes no other. -/
theorem Sane.new (h : s.Sane) :
    s.grown.Sane ∧ s.grown.text s.count = [] ∧ ∀ j < s.count, s.grown.buf j = s.buf j := by
  have hself : s.grown.buf s.count = Evbuffer.make := Function.update_self ..
  have hbuf : ∀ j < s.count, s.grown.buf j = s.buf j := fun j hj => Function.update_of_ne (by omega) _ _
  have hchains : s.grown.chainsOf (List.range s.grown.count) = s.chainsOf (List.range s.count) := by
    show (List.range (s.count + 1)).flatMap (fun j => (s.grown.buf j).chains) = _
    rw [List.range_succ, List.flatMap_append, List.flatMap_singleton, hself, chainsOf, List.flatMap_def,
      List.flatMap_def]
    show _ ++ [] = _
    rw [List.append_nil]
    apply congrArg List.flatten
    apply List.map_congr_left
    intro j hj
    rw [hbuf j (List.mem_range.mp hj)]
  refine ⟨⟨?_, ?_⟩, ?_, hbuf⟩
  · rw [hchains]
    exact h.owns
  · intro j hj
    rcases Nat.lt_succ_iff_lt_or_eq.mp hj with hlt | rfl
    · rw [hbuf j hlt]
      exact h.ok j hlt
    · rw [hself]
      exact Evbuffer.make_ok
  · rw [text, hself]
    rfl

/-- Two buffers have become others. -/
theorem Sane.changed_two (h : s.Sane) (hi : i < s.count) (hj : j < s.count) (hne : i ≠ j)
    (hb : b.Ok) (hc : c.Ok) (ho : Owns a (b.chains ++ (c.chains ++ s.others [i, j])))
    (hs : Same s.arena a (s.others [i, j])) (r : Answer) :
    ((s.put i b a r).put j c a r).Sane ∧
    ((s.put i b a r).put j c a r).text i = a.content b.chains ∧
    ((s.put i b a r).put j c a r).text j = a.content c.chains ∧
    ∀ k < s.count, k ≠ i → k ≠ j → ((s.put i b a r).put j c a r).text k = s.text k := by
  refine ⟨h.put_two hi hj hne hb hc ho r, ?_, ?_, ?_⟩
  · rw [text, put_first hne]
    rfl
  · rw [text, put_self]
    rfl
  · intro k hk hki hkj
    exact text_others hs put_two_other hk (by simp [hki, hkj])

/-- What the data of two buffers needs in one. -/
theorem Sane.fits (h : s.Sane) (hi : i < s.count) (hj : j < s.count)
    (hf : (s.text i).length + (s.text j).length ≤ sizeMax) :
    (s.buf i).totalLen + (s.buf j).totalLen ≤ sizeMax := by
  rw [← (h.ok i hi).length_content (h.one hi), ← (h.ok j hj).length_content (h.one hj)]
  exact hf

/-- `evbuffer_add_buffer` of any two buffers, also of a buffer to itself. -/
theorem Sane.addBuffer {out src : Nat} (h : s.Sane) (ho : out < s.count) (hs : src < s.count)
    (hf : s.Fits (.addBuffer out src)) :
    ∃ s', s.step (.addBuffer out src) = .ok s' ∧ s'.Sane ∧ s.Effect s' (.addBuffer out src) := by
  by_cases heq : out = src
  · subst heq
    refine ⟨{ s with answer := done true }, if_pos rfl, ⟨h.owns, h.ok⟩, rfl, ?_, ?_, ?_,
      fun hn => absurd rfl hn⟩
    · exact fun _ _ _ _ => rfl
    · exact fun _ => ⟨rfl, rfl⟩
    · exact fun hne => absurd rfl hne
  · obtain ⟨r, b, c, a, hrun, hb, hc, hown, hsame, hok, hfail⟩ :=
      (h.ok out ho).addBuffer (h.ok src hs) (h.two ho hs heq) (h.fits ho hs (hf.resolve_left heq))
    obtain ⟨hsane, hout, hsrc, hothers⟩ := h.changed_two ho hs heq hb hc hown hsame (done r)
    refine ⟨(s.put out b a (done r)).put src c a (done r), ?_, hsane, rfl, hothers, ?_, ?_,
      fun hne => ⟨(done_failed hne).1, (hfail (done_failed hne).2).2⟩⟩
    · rw [Buffers.step, if_neg heq, hrun, ok_bind]
    · rw [hout, hsrc]
      rintro (heq' | hne)
      · exact absurd heq' heq
      · obtain ⟨⟨rfl, rfl, rfl⟩, -⟩ := hfail (done_failed hne).2
        exact ⟨rfl, rfl⟩
    · intro _ hdone
      rw [hout, hsrc]
      exact hok (done_ret.mp hdone)

/-- `evbuffer_add_buffer_reference` of any two buffers, also of a buffer to itself. -/
theorem Sane.addBufferReference {out src : Nat} (h : s.Sane) (ho : out < s.count) (hs : src < s.count)
    (hf : s.Fits (.addBufferReference out src)) :
    (s.DoubleFrees (.addBufferReference out src) → s.step (.addBufferReference out src) = .error .dangling) ∧
    (¬ s.DoubleFrees (.addBufferReference out src) →
      ∃ s', s.step (.addBufferReference out src) = .ok s' ∧ s'.Sane ∧
        s.Effect s' (.addBufferReference out src)) := by
  by_cases heq : out = src
  · subst heq
    refine ⟨fun hd => absurd rfl hd.1, fun _ => ⟨_, if_pos rfl, ⟨h.owns, h.ok⟩, rfl, fun _ _ _ => rfl, ?_,
      fun hne => ⟨(done_failed hne).1, .inl rfl⟩⟩⟩
    rw [if_neg (fun hne => hne.1 rfl)]
    rfl
  · obtain ⟨hbad, hgood⟩ := (h.ok out ho).addBufferReference (h.ok src hs) (h.two ho hs heq)
      (h.fits ho hs (hf.resolve_left heq))
    constructor
    · rintro ⟨-, hd⟩
      rw [Buffers.step, if_neg heq, hbad hd, error_bind]
    · intro hnot
      obtain ⟨r, b, c, a, hrun, hb, hc, hown, hsame, hok, hfail⟩ := hgood fun hd => hnot ⟨heq, hd⟩
      obtain ⟨hsane, hout, hsrc, hothers⟩ := h.changed_two ho hs heq hb hc hown hsame (done r)
      refine ⟨(s.put out b a (done r)).put src c a (done r), ?_, hsane, rfl, ?_, ?_,
        fun hne => ⟨(done_failed hne).1, .inr (hfail (done_failed hne).2).2⟩⟩
      · rw [Buffers.step, if_neg heq, hrun, ok_bind]
      · intro j hj hne
        by_cases hjs : j = src
        · rw [hjs, hsrc]
          cases r with
          | true => exact (hok rfl).2
          | false =>
              obtain ⟨⟨rfl, rfl, rfl⟩, -⟩ := hfail rfl
              rfl
        · exact hothers j hj hne hjs
      · rw [hout]
        show _ = if out ≠ src ∧ (done r).ret = 0 then _ else _
        cases r with
        | true => rw [if_pos ⟨heq, rfl⟩, (hok rfl).1, text, text]
        | false =>
            obtain ⟨⟨rfl, rfl, rfl⟩, -⟩ := hfail rfl
            rw [if_neg (fun hr => Bool.noConfusion (done_ret.mp hr.2)), text]

/-- A call does what it says, or frees chains twice. -/
theorem Sane.step (h : s.Sane) (he : s.Enabled act) (hf : s.Fits act) :
    (s.DoubleFrees act → s.step act = .error .dangling) ∧
    (¬ s.DoubleFrees act → ∃ s', s.step act = .ok s' ∧ s'.Sane ∧ s.Effect s' act) := by
  cases act with
  | new =>
      obtain ⟨hsane, htext, hbuf⟩ := h.new
      refine ⟨False.elim, fun _ => ⟨s.grown, rfl, hsane, rfl, htext, ?_⟩⟩
      intro j hj
      rw [text, hbuf j hj]
      rfl
  | add i data =>
      obtain ⟨r, b, a, hrun, hb, hfail⟩ := (h.ok i he).add (h.one he) data
      refine ⟨False.elim, fun _ => ⟨s.put i b a (done r), by rw [Buffers.step, hrun, ok_bind], ?_⟩⟩
      exact h.answers he hb hfail
  | addReference i data =>
      have hfit : (s.buf i).totalLen + data.length ≤ sizeMax := by
        rw [← (h.ok i he).length_content (h.one he)]
        exact hf
      obtain ⟨r, b, a, hrun, hb, hfail⟩ := (h.ok i he).addReference (h.one he) hfit
      refine ⟨False.elim, fun _ => ⟨s.put i b a (done r), by rw [Buffers.step, hrun, ok_bind], ?_⟩⟩
      exact h.answers he hb hfail
  | drain i len =>
      obtain ⟨r, b, a, hrun, hb, hfail⟩ := (h.ok i he).drain (h.one he) len
      refine ⟨False.elim, fun _ => ⟨s.put i b a (done r), by rw [Buffers.step, hrun, ok_bind], ?_⟩⟩
      exact h.answers he hb hfail
  | remove i len =>
      obtain ⟨n, data, b, a, hrun, hbad, hgood⟩ := (h.ok i he).remove (h.one he) len
      rw [← (h.ok i he).length_content (h.one he)] at hbad hgood
      refine ⟨False.elim, fun _ => ⟨s.put i b a ⟨n, data⟩, by rw [Buffers.step, hrun, ok_bind], ?_⟩⟩
      by_cases hr : s.Refuses i len
      · obtain ⟨hn, hdata, hb⟩ := hbad hr
        obtain ⟨hsane, hch⟩ := h.becomes he hb ⟨n, data⟩
        exact ⟨hsane, fun _ => ⟨hn, hdata, hch⟩, fun hno => absurd hr hno⟩
      · obtain ⟨hn, hdata, hb⟩ := hgood hr
        obtain ⟨hsane, hch⟩ := h.becomes he hb ⟨n, data⟩
        exact ⟨hsane, fun hyes => absurd hyes hr, fun _ => ⟨hn, hdata, hch⟩⟩
  | addBuffer out src => exact ⟨False.elim, fun _ => h.addBuffer he.1 he.2 hf⟩
  | addBufferReference out src => exact h.addBufferReference he.1 he.2 hf
  | freeze i start on =>
      refine ⟨False.elim, fun _ => ⟨_, rfl, ?_⟩⟩
      have hchains : ((s.buf i).freeze start on).chains = (s.buf i).chains := by cases start <;> rfl
      have ho : Owns s.arena (((s.buf i).freeze start on).chains ++ s.others [i]) := hchains ▸ h.one he
      have hch := h.changed he ((h.ok i he).freeze start on) ho (Same.refl _ _) (done true)
      rw [hchains] at hch
      exact hch

theorem sane_start : start.Sane :=
  ⟨⟨⟨nofun, nofun, nofun, nofun⟩, List.nodup_nil, nofun, fun _ _ => rfl⟩, fun _ hi => absurd hi (Nat.not_lt_zero _)⟩

/-- The chains are owned and the buffers right in every reachable state. -/
theorem sane_reachable (hr : fitting.Reachable s) : s.Sane := by
  refine hr.invariant (fun s hs => hs ▸ sane_start) ?_
  rintro s act s' h ⟨he, hf⟩ hs
  obtain ⟨hbad, hgood⟩ := h.step he hf
  by_cases hd : s.DoubleFrees act
  · cases (hbad hd).symm.trans hs
  · obtain ⟨t, ht, hsane, -⟩ := hgood hd
    obtain rfl := Except.ok.inj (ht.symm.trans hs)
    exact hsane

end Buffers

end LinuxServer.Libevent
