import LinuxServer.Libevent.Evmap
import LinuxServer.Library.Arrays

/-!
# The poll backend

`poll.c` keeps an array of `struct pollfd` with one entry for each descriptor, and with each descriptor
the place of its entry in the array, plus one. An entry that is no longer needed is overwritten with the
last one. While the loop waits, other threads may add and delete events, so it waits with a copy of the
array. When `poll` returns, the entries are looked at in turn, from a random one on.

`pollops_serves` is the main result: the array is what the event map asks for.
-/

namespace LinuxServer.Libevent

open Library

/-- `struct pollfd`, without what the kernel writes into it. -/
structure PollFd where
  fd : Fd
  pollin : Bool
  pollout : Bool
  deriving Repr, DecidableEq

/-- `struct pollop`, with the `struct pollidx` of each descriptor. `eventSet` has the entries that are in
use, so `nfds` is its length; `copyCount` is the number of entries `event_set_copy` has space for. -/
structure Pollop where
  eventCount : Nat
  eventSet : List PollFd
  reallocCopy : Bool
  copyCount : Nat
  eventSetCopy : List PollFd
  idxplus1 : Fd → Nat

/-- `poll_init`. -/
def pollInit : Pollop :=
  { eventCount := 0, eventSet := [], reallocCopy := false, copyCount := 0, eventSetCopy := []
    idxplus1 := fun _ => 0 }

namespace PollFd

def want (p : PollFd) (events : Events) : PollFd :=
  { p with pollin := p.pollin || events.read, pollout := p.pollout || events.write }

def unwant (p : PollFd) (events : Events) : PollFd :=
  { p with pollin := p.pollin && !events.read, pollout := p.pollout && !events.write }

end PollFd

namespace Pollop

/-- The beginning of `poll_add`: there is space for one more. -/
def reserve (pop : Pollop) : Pollop :=
  if pop.eventSet.length + 1 ≥ pop.eventCount then
    { pop with eventCount := if pop.eventCount < 32 then 32 else pop.eventCount * 2
               reallocCopy := true }
  else pop

def pollAdd (pop : Pollop) (fd : Fd) (_old events : Events) : Option Pollop :=
  if !(events.read || events.write) then some pop
  else
    let pop := pop.reserve
    match pop.idxplus1 fd with
    | i + 1 => some { pop with eventSet := pop.eventSet.modify i (PollFd.want · events) }
    | 0 =>
        let pfd : PollFd := { fd := fd, pollin := false, pollout := false }
        some { pop with eventSet := pop.eventSet ++ [pfd.want events]
                        idxplus1 := Function.update pop.idxplus1 fd (pop.eventSet.length + 1) }

/-- The rest of `poll_del`, when the entry `i` is not needed any more. -/
def discard (pop : Pollop) (fd : Fd) (i : Nat) : Option Pollop :=
  let idxplus1 := Function.update pop.idxplus1 fd 0
  let nfds := pop.eventSet.length - 1
  if i ≠ nfds then
    match pop.eventSet[nfds]? with
    | none => none
    | some last =>
        some { pop with eventSet := (pop.eventSet.set i last).take nfds
                        idxplus1 := Function.update idxplus1 last.fd (i + 1) }
  else some { pop with eventSet := pop.eventSet.take nfds, idxplus1 := idxplus1 }

def pollDel (pop : Pollop) (fd : Fd) (_old events : Events) : Option Pollop :=
  if !(events.read || events.write) then some pop
  else
    match pop.idxplus1 fd with
    | 0 => none
    | i + 1 =>
        let pop := { pop with eventSet := pop.eventSet.modify i (PollFd.unwant · events) }
        match pop.eventSet[i]? with
        | none => none
        | some pfd => if pfd.pollin || pfd.pollout then some pop else pop.discard fd i

/-- `poll_dispatch` up to the call of `poll`, with locks. -/
def copy (pop : Pollop) : Pollop :=
  { pop with copyCount := if pop.reallocCopy then pop.eventCount else pop.copyCount
             reallocCopy := false
             eventSetCopy := pop.eventSet }

end Pollop

/-- `const struct eventop pollops`. -/
def pollops : EventOp Pollop := { add := Pollop.pollAdd, del := Pollop.pollDel }

/-- The `revents` of an entry: `POLLIN`, `POLLOUT`, and one of `POLLHUP`, `POLLERR` and `POLLNVAL`. -/
structure Revents where
  pollin : Bool
  pollout : Bool
  failed : Bool
  deriving Repr, DecidableEq

/-- What an entry is activated with, `res` in the source. -/
def Revents.res (what : Revents) : Events :=
  { read := what.pollin || what.failed, write := what.pollout || what.failed, closed := false
    et := false }

section
variable (active : Fd → Events → List (Nat × Events)) (eventSet : List PollFd) (revents : Nat → Revents)

/-- What is activated for the entry `i`. -/
def pollEntry (i : Nat) : List (Nat × Events) :=
  match eventSet[i]? with
  | none => []
  | some pfd =>
      let res := (revents i).res
      if res.read || res.write then active pfd.fd res else []

/-- `poll_dispatch` after the call of `poll`: the events activated by the next `n` turns of the loop. `i`
is the entry of the last turn, and `revents` what the kernel has written into each entry. -/
def pollScan : Nat → Nat → List (Nat × Events)
  | _, 0 => []
  | i, n + 1 =>
      let i := if i + 1 = eventSet.length then 0 else i + 1
      pollEntry active eventSet revents i ++ pollScan i n

end

/-! ## The array -/

namespace Pollop

/-- `poll_check_ok`, and what it does not look at: no entry is empty, and the array and its copy are
within what was allocated for them. -/
structure Ok (pop : Pollop) : Prop where
  indexes : Indexes pop.idxplus1 (pop.eventSet.map PollFd.fd)
  some : ∀ p ∈ pop.eventSet, p.pollin = true ∨ p.pollout = true
  bound : pop.eventSet.length ≤ pop.eventCount
  copied : pop.reallocCopy = true ∨ pop.copyCount = pop.eventCount
  nodup : (pop.eventSetCopy.map PollFd.fd).Nodup
  within : pop.eventSetCopy.length ≤ pop.copyCount

/-- The array has an entry for `f` if it is to be read or written, and this entry asks for it. -/
structure Watches (f : Fd) (pop : Pollop) (w : Events) : Prop where
  entry : ∀ p ∈ pop.eventSet, p.fd = f → p.pollin = w.read ∧ p.pollout = w.write
  there : w.read = true ∨ w.write = true → f ∈ pop.eventSet.map PollFd.fd

variable {pop pop' : Pollop} {f fd : Fd} {w old new res : Events} {i : Nat}

/-- There are no entries at first. -/
theorem Ok.init : pollInit.Ok where
  indexes := Indexes.nil
  some := by simp [pollInit]
  bound := Nat.le_refl _
  copied := .inr rfl
  nodup := List.nodup_nil
  within := Nat.le_refl _

/-- Making space keeps the entries. -/
theorem reserve_eventSet (pop : Pollop) : pop.reserve.eventSet = pop.eventSet := by
  unfold reserve
  split <;> rfl

/-- After `pop->event_count` was doubled there is space for one more entry. -/
theorem Ok.reserve (h : pop.Ok) : pop.reserve.Ok ∧
    pop.reserve.eventSet.length + 1 ≤ pop.reserve.eventCount := by
  have hb := h.bound
  unfold Pollop.reserve
  split
  · have hspace : pop.eventSet.length + 1 ≤
        if pop.eventCount < 32 then 32 else pop.eventCount * 2 := by
      split <;> omega
    refine ⟨⟨h.indexes, h.some, ?_, .inl rfl, h.nodup, h.within⟩, hspace⟩
    show pop.eventSet.length ≤ if pop.eventCount < 32 then 32 else pop.eventCount * 2
    omega
  · exact ⟨h, by omega⟩

/-- There is space for the copy. -/
theorem Ok.copyCount (h : pop.Ok) : pop.copy.copyCount = pop.eventCount := by
  show (if pop.reallocCopy then pop.eventCount else pop.copyCount) = pop.eventCount
  split
  · rfl
  · rename_i hno
    exact h.copied.resolve_left hno

/-- The copy that `poll` gets keeps everything as it was. -/
theorem Ok.copy (h : pop.Ok) : pop.copy.Ok where
  indexes := h.indexes
  some := h.some
  bound := h.bound
  copied := .inr h.copyCount
  nodup := h.indexes.nodup
  within := by
    rw [h.copyCount]
    exact h.bound

/-! ### Entries that stay -/

/-- The entry of `fd` is changed, and stays where it is. -/
def change (pop : Pollop) (i : Nat) (g : PollFd → PollFd) : Pollop :=
  { pop with eventSet := pop.eventSet.modify i g }

/-- The descriptors stay the same if an entry is changed in place. -/
theorem map_fd_modify {l : List PollFd} {g : PollFd → PollFd} (hg : ∀ p, (g p).fd = p.fd) :
    (l.modify i g).map PollFd.fd = l.map PollFd.fd := by
  apply List.ext_getElem?
  intro j
  rw [List.getElem?_map, List.getElem?_map, List.getElem?_modify]
  split
  · cases l[j]? <;> simp [hg]
  · simp

/-- An entry after the change is the changed one of `fd`, or one of another descriptor. -/
theorem Ok.mem_change (h : pop.Ok) (hidx : pop.idxplus1 fd = i + 1) {g : PollFd → PollFd} {p : PollFd}
    (hp : p ∈ (pop.change i g).eventSet) :
    (∃ q ∈ pop.eventSet, q.fd = fd ∧ p = g q) ∨ (p ∈ pop.eventSet ∧ p.fd ≠ fd) := by
  obtain ⟨j, hj⟩ := List.mem_iff_getElem?.mp hp
  have hplace := (h.indexes fd i).mp hidx
  rw [List.getElem?_map] at hplace
  simp only [change, List.getElem?_modify] at hj
  split at hj
  · rename_i hij
    obtain ⟨q, hq, rfl⟩ := Option.map_eq_some_iff.mp hj
    subst hij
    rw [hq] at hplace
    exact .inl ⟨q, List.mem_of_getElem? hq, Option.some.inj hplace, rfl⟩
  · rename_i hij
    obtain ⟨q, hq, rfl⟩ := Option.map_eq_some_iff.mp hj
    refine .inr ⟨List.mem_of_getElem? hq, ?_⟩
    rintro hfd
    have hother := (h.indexes q.fd j).mpr (by rw [List.getElem?_map, hq]; rfl)
    have hfd' : q.fd = fd := hfd
    rw [hfd', hidx] at hother
    omega

/-- Changing an entry in place keeps the indices. -/
theorem Ok.change (h : pop.Ok) (hidx : pop.idxplus1 fd = i + 1) {g : PollFd → PollFd}
    (hg : ∀ p, (g p).fd = p.fd)
    (hsome : ∀ p ∈ pop.eventSet, p.fd = fd → (g p).pollin = true ∨ (g p).pollout = true) :
    (pop.change i g).Ok where
  indexes := by
    show Indexes pop.idxplus1 ((pop.eventSet.modify i g).map PollFd.fd)
    rw [map_fd_modify hg]
    exact h.indexes
  some := by
    intro p hp
    rcases h.mem_change hidx hp with ⟨q, hq, hfd, rfl⟩ | ⟨hp, -⟩
    · exact hsome q hq hfd
    · exact h.some p hp
  bound := by
    show (pop.eventSet.modify i g).length ≤ pop.eventCount
    rw [List.length_modify]
    exact h.bound
  copied := h.copied
  nodup := h.nodup
  within := h.within

/-- What an entry waits for after it was changed in place. -/
theorem Watches.change (hw : Watches f pop w) (h : pop.Ok) (hidx : pop.idxplus1 fd = i + 1)
    {g : PollFd → PollFd} (hg : ∀ p, (g p).fd = p.fd)
    (hnew : ∀ p ∈ pop.eventSet, p.fd = fd → fd = f →
      (g p).pollin = new.read ∧ (g p).pollout = new.write)
    (hother : fd ≠ f → new = w) : Watches f (pop.change i g) new where
  entry := by
    intro p hp hpf
    rcases h.mem_change hidx hp with ⟨q, hq, hfd, rfl⟩ | ⟨hp, hne⟩
    · exact hnew q hq hfd (by rw [← hfd, ← hg q]; exact hpf)
    · rw [hother fun heq => hne (hpf.trans heq.symm)]
      exact hw.entry p hp hpf
  there := by
    intro hsome
    show f ∈ (pop.eventSet.modify i g).map PollFd.fd
    rw [map_fd_modify hg]
    by_cases hf : fd = f
    · subst hf
      exact List.mem_of_getElem? ((h.indexes fd i).mp hidx)
    · rw [hother hf] at hsome
      exact hw.there hsome

/-! ### Entries that come and go -/

/-- A new entry at the end. -/
def append (pop : Pollop) (p : PollFd) : Pollop :=
  { pop with eventSet := pop.eventSet ++ [p]
             idxplus1 := Function.update pop.idxplus1 p.fd (pop.eventSet.length + 1) }

/-- An entry at the end, for a descriptor that has none. -/
theorem Ok.append (h : pop.Ok) {p : PollFd} (hidx : pop.idxplus1 p.fd = 0)
    (hspace : pop.eventSet.length + 1 ≤ pop.eventCount) (hp : p.pollin = true ∨ p.pollout = true) :
    (pop.append p).Ok where
  indexes := by
    have hnew := h.indexes.append (h.indexes.eq_zero_iff.mp hidx)
    simpa only [Pollop.append, List.map_append, List.map_singleton, List.length_map] using hnew
  some := by
    intro q hq
    rcases List.mem_append.mp hq with hq | hq
    · exact h.some q hq
    · obtain rfl := List.mem_singleton.mp hq
      exact hp
  bound := by simpa [Pollop.append] using hspace
  copied := h.copied
  nodup := h.nodup
  within := h.within

/-- What is waited for after an entry was put at the end. -/
theorem Watches.append (hw : Watches f pop w) (h : pop.Ok) {p : PollFd} (hidx : pop.idxplus1 p.fd = 0)
    (hnew : p.fd = f → p.pollin = new.read ∧ p.pollout = new.write) (hother : p.fd ≠ f → new = w) :
    Watches f (pop.append p) new where
  entry := by
    intro q hq hqf
    rcases List.mem_append.mp hq with hq | hq
    · by_cases hf : p.fd = f
      · have hno := h.indexes.eq_zero_iff.mp hidx
        exact absurd (List.mem_map.mpr ⟨q, hq, hqf.trans hf.symm⟩) hno
      · rw [hother hf]
        exact hw.entry q hq hqf
    · obtain rfl := List.mem_singleton.mp hq
      exact hnew hqf
  there := by
    intro hsome
    simp only [Pollop.append, List.map_append, List.map_singleton, List.mem_append,
      List.mem_singleton]
    by_cases hf : p.fd = f
    · exact .inr hf.symm
    · rw [hother hf] at hsome
      exact .inl (hw.there hsome)

/-- `pop'` has the entries of `pop` but that of `fd`. -/
structure Without (fd : Fd) (pop pop' : Pollop) : Prop where
  indexes : Indexes pop'.idxplus1 (pop'.eventSet.map PollFd.fd)
  mem : ∀ p ∈ pop'.eventSet, p ∈ pop.eventSet ∧ p.fd ≠ fd
  stays : ∀ f, f ≠ fd → (f ∈ pop'.eventSet.map PollFd.fd ↔ f ∈ pop.eventSet.map PollFd.fd)
  length : pop'.eventSet.length ≤ pop.eventSet.length
  eventCount : pop'.eventCount = pop.eventCount
  reallocCopy : pop'.reallocCopy = pop.reallocCopy
  copyCount : pop'.copyCount = pop.copyCount
  eventSetCopy : pop'.eventSetCopy = pop.eventSetCopy

/-- The last entry is moved into the hole, and its index is corrected. -/
theorem discard_spec (hx : Indexes pop.idxplus1 (pop.eventSet.map PollFd.fd))
    (hidx : pop.idxplus1 fd = i + 1) :
    ∃ pop', pop.discard fd i = Option.some pop' ∧ Without fd pop pop' := by
  have hplace := (hx fd i).mp hidx
  obtain ⟨hlt, -⟩ := List.getElem?_eq_some_iff.mp hplace
  rw [List.length_map] at hlt
  have hlast : pop.eventSet.length - 1 < pop.eventSet.length := by omega
  -- once the places are right, `fd` has none, and who has one is a matter of the places alone
  have hgone : ∀ pop' : Pollop, Indexes pop'.idxplus1 (pop'.eventSet.map PollFd.fd) →
      pop'.idxplus1 fd = 0 → ∀ p ∈ pop'.eventSet, p.fd ≠ fd := by
    intro pop' hx' hz p hp hpf
    exact hx'.eq_zero_iff.mp hz (List.mem_map.mpr ⟨p, hp, hpf⟩)
  have hstays : ∀ pop' : Pollop, Indexes pop'.idxplus1 (pop'.eventSet.map PollFd.fd) →
      ∀ f, (pop'.idxplus1 f = 0 ↔ pop.idxplus1 f = 0) →
        (f ∈ pop'.eventSet.map PollFd.fd ↔ f ∈ pop.eventSet.map PollFd.fd) := by
    intro pop' hx' f hiff
    rw [hx'.eq_zero_iff, hx.eq_zero_iff] at hiff
    exact not_iff_not.mp hiff
  unfold discard
  dsimp only
  split
  · rename_i hi
    rw [List.getElem?_eq_getElem hlast]
    set last := pop.eventSet[pop.eventSet.length - 1] with hdef
    have hz : (pop.eventSet.map PollFd.fd)[(pop.eventSet.map PollFd.fd).length - 1]? =
        Option.some last.fd := by
      rw [List.length_map, List.getElem?_map, List.getElem?_eq_getElem hlast]
      rfl
    have hswap := hx.swapRemove hplace hz (by rw [List.length_map]; exact hi)
    rw [List.length_map, ← List.map_set, ← List.map_take] at hswap
    have hne : last.fd ≠ fd := by
      intro heq
      have := (hx _ _).mpr hz
      rw [heq, hidx, List.length_map] at this
      omega
    refine ⟨_, rfl, hswap, ?_, ?_, ?_, rfl, rfl, rfl, rfl⟩
    · intro p hp
      refine ⟨?_, hgone _ hswap ?_ p hp⟩
      · rcases List.mem_or_eq_of_mem_set (List.mem_of_mem_take hp) with hmem | rfl
        · exact hmem
        · exact List.getElem_mem _
      · dsimp only
        rw [Function.update_of_ne hne.symm, Function.update_self]
    · intro f hf
      refine hstays _ hswap f ?_
      by_cases hfl : f = last.fd
      · subst hfl
        have := (hx _ _).mpr hz
        dsimp only
        rw [Function.update_self]
        omega
      · dsimp only
        rw [Function.update_of_ne hfl, Function.update_of_ne hf]
    · dsimp only
      rw [List.length_take]
      omega
  · rename_i hi
    obtain rfl : i = pop.eventSet.length - 1 := Decidable.not_not.mp hi
    have hdrop := hx.dropLast (by rw [List.length_map]; exact hplace)
    rw [List.length_map, ← List.map_take] at hdrop
    refine ⟨_, rfl, hdrop, ?_, ?_, ?_, rfl, rfl, rfl, rfl⟩
    · intro p hp
      exact ⟨List.mem_of_mem_take hp, hgone _ hdrop (Function.update_self ..) p hp⟩
    · intro f hf
      refine hstays _ hdrop f ?_
      dsimp only
      rw [Function.update_of_ne hf]
    · dsimp only
      rw [List.length_take]
      omega

/-! ### Adding and deleting -/

/-- Either there is nothing to do, or the entry of the descriptor is changed, or it gets one. -/
theorem pollAdd_cases (h : pop.pollAdd fd old res = Option.some pop') :
    (pop' = pop ∧ res.read = false ∧ res.write = false) ∨
    (∃ i, pop.reserve.idxplus1 fd = i + 1 ∧ pop' = pop.reserve.change i (PollFd.want · res) ∧
      (res.read = true ∨ res.write = true)) ∨
    (pop.reserve.idxplus1 fd = 0 ∧ pop' = pop.reserve.append (PollFd.want ⟨fd, false, false⟩ res) ∧
      (res.read = true ∨ res.write = true)) := by
  unfold pollAdd at h
  split at h
  · rename_i hno
    exact .inl ⟨(Option.some.inj h).symm, by simpa using hno⟩
  · rename_i hany
    have hany : res.read = true ∨ res.write = true := by
      simpa only [Bool.not_eq_true', Bool.not_eq_false, Bool.or_eq_true] using hany
    dsimp only at h
    split at h
    · rename_i i hi
      exact .inr (.inl ⟨i, hi, (Option.some.inj h).symm, hany⟩)
    · rename_i hi
      exact .inr (.inr ⟨hi, (Option.some.inj h).symm, hany⟩)

/-- No descriptor has two entries. -/
theorem Ok.unique (h : pop.Ok) {p q : PollFd} (hp : p ∈ pop.eventSet) (hq : q ∈ pop.eventSet)
    (hfd : p.fd = q.fd) : p = q :=
  List.inj_on_of_nodup_map h.indexes.nodup hp hq hfd

variable (fd old res) in
/-- Either there is nothing to do, or the entry is changed, or nothing would be left in it and it is
taken out. If the descriptor has an entry, this does not fail. -/
theorem pollDel_cases (h : pop.Ok) :
    (pop.pollDel fd old res = Option.some pop ∧ res.read = false ∧ res.write = false) ∨
    (pop.pollDel fd old res = none ∧ pop.idxplus1 fd = 0) ∨
    (∃ i, pop.idxplus1 fd = i + 1 ∧
      pop.pollDel fd old res = Option.some (pop.change i (PollFd.unwant · res)) ∧
      ∀ p ∈ pop.eventSet, p.fd = fd → (p.unwant res).pollin = true ∨ (p.unwant res).pollout = true) ∨
    ∃ pop', pop.pollDel fd old res = Option.some pop' ∧ Without fd pop pop' ∧
      ∀ p ∈ pop.eventSet, p.fd = fd →
        (p.unwant res).pollin = false ∧ (p.unwant res).pollout = false := by
  unfold pollDel
  split
  · rename_i hno
    exact .inl ⟨rfl, by simpa using hno⟩
  · refine .inr ?_
    split
    · rename_i hz
      exact .inl ⟨rfl, hz⟩
    · rename_i i hidx
      refine .inr ?_
      have hplace := (h.indexes fd i).mp hidx
      rw [List.getElem?_map] at hplace
      obtain ⟨p, hp, hfd⟩ := Option.map_eq_some_iff.mp hplace
      have honly : ∀ q ∈ pop.eventSet, q.fd = fd → q = p :=
        fun q hq hqf => h.unique hq (List.mem_of_getElem? hp) (hqf.trans hfd.symm)
      dsimp only
      rw [List.getElem?_modify, hp]
      simp only [if_true, Option.map_eq_map, Option.map_some]
      split
      · rename_i hleft
        refine .inl ⟨i, hidx, rfl, ?_⟩
        intro q hq hqf
        rw [honly q hq hqf]
        simpa using hleft
      · rename_i hleft
        have hx : Indexes (pop.change i (PollFd.unwant · res)).idxplus1
            ((pop.change i (PollFd.unwant · res)).eventSet.map PollFd.fd) := by
          show Indexes pop.idxplus1 ((pop.eventSet.modify i _).map PollFd.fd)
          rw [map_fd_modify (g := (PollFd.unwant · res)) fun _ => rfl]
          exact h.indexes
        obtain ⟨pop', hdis, hwo⟩ := discard_spec hx hidx
        refine .inr ⟨pop', hdis, ⟨hwo.indexes, ?_, ?_, ?_, hwo.eventCount, hwo.reallocCopy,
          hwo.copyCount, hwo.eventSetCopy⟩, ?_⟩
        · intro q hq
          obtain ⟨hq, hne⟩ := hwo.mem q hq
          rcases h.mem_change hidx hq with ⟨q', -, hq', rfl⟩ | hold
          · exact absurd hq' hne
          · exact hold
        · intro f hf
          rw [hwo.stays f hf]
          show f ∈ (pop.eventSet.modify i _).map PollFd.fd ↔ _
          rw [map_fd_modify (g := (PollFd.unwant · res)) fun _ => rfl]
        · simpa [Pollop.change] using hwo.length
        · intro q hq hqf
          rw [honly q hq hqf]
          simpa using hleft

/-- An entry fewer. -/
theorem Ok.without (h : pop.Ok) (hwo : Without fd pop pop') : pop'.Ok where
  indexes := hwo.indexes
  some := fun p hp => h.some p (hwo.mem p hp).1
  bound := by
    rw [hwo.eventCount]
    exact Nat.le_trans hwo.length h.bound
  copied := by
    rw [hwo.eventCount, hwo.reallocCopy, hwo.copyCount]
    exact h.copied
  nodup := by
    rw [hwo.eventSetCopy]
    exact h.nodup
  within := by
    rw [hwo.eventSetCopy, hwo.copyCount]
    exact h.within

/-- `poll_add` keeps the entries and their indices right. -/
theorem Ok.pollAdd (h : pop.Ok) (hadd : pop.pollAdd fd old res = Option.some pop') : pop'.Ok := by
  obtain ⟨hres, hspace⟩ := h.reserve
  rcases pollAdd_cases hadd with ⟨rfl, -⟩ | ⟨i, hi, rfl, hany⟩ | ⟨hz, rfl, hany⟩
  · exact h
  · refine hres.change hi (fun _ => rfl) ?_
    intro p hp _
    rcases hres.some p hp with hp | hp
    · exact .inl (by simp [PollFd.want, hp])
    · exact .inr (by simp [PollFd.want, hp])
  · exact hres.append hz hspace (by simpa [PollFd.want] using hany)

/-- `poll_del` keeps the entries and their indices right. -/
theorem Ok.pollDel (h : pop.Ok) (hdel : pop.pollDel fd old res = Option.some pop') : pop'.Ok := by
  rcases pollDel_cases fd old res h with
    ⟨heq, -⟩ | ⟨hnone, -⟩ | ⟨i, hi, heq, hleft⟩ | ⟨pop₁, heq, hwo, -⟩
  · obtain rfl := Option.some.inj (heq.symm.trans hdel)
    exact h
  · rw [hnone] at hdel
    cases hdel
  · obtain rfl := Option.some.inj (heq.symm.trans hdel)
    exact h.change hi (fun _ => rfl) hleft
  · obtain rfl := Option.some.inj (heq.symm.trans hdel)
    exact h.without hwo

/-- Only what is read and written matters. -/
theorem Watches.congr (hw : Watches f pop w) (hr : new.read = w.read) (hwr : new.write = w.write) :
    Watches f pop new where
  entry := by
    rw [hr, hwr]
    exact hw.entry
  there := by
    rw [hr, hwr]
    exact hw.there

theorem Watches.reserve (hw : Watches f pop w) : Watches f pop.reserve w where
  entry := by
    rw [reserve_eventSet]
    exact hw.entry
  there := by
    rw [reserve_eventSet]
    exact hw.there

/-- `poll_add` does not concern other descriptors. -/
theorem Watches.pollAdd_other (hw : Watches f pop w) (h : pop.Ok) (hne : fd ≠ f)
    (hadd : pop.pollAdd fd old res = Option.some pop') : Watches f pop' w := by
  rcases pollAdd_cases hadd with ⟨rfl, -⟩ | ⟨i, hi, rfl, -⟩ | ⟨hz, rfl, -⟩
  · exact hw
  · exact hw.reserve.change h.reserve.1 hi (fun _ => rfl) (fun _ _ _ heq => absurd heq hne)
      fun _ => rfl
  · exact hw.reserve.append h.reserve.1 hz (fun heq => absurd heq hne) fun _ => rfl

/-- After `poll_add` the descriptor is waited for with the new events, too. -/
theorem Watches.pollAdd_self (hw : Watches f pop w) (h : pop.Ok)
    (hr : new.read = (w.read || res.read)) (hwr : new.write = (w.write || res.write))
    (hadd : pop.pollAdd f old res = Option.some pop') : Watches f pop' new := by
  rcases pollAdd_cases hadd with ⟨rfl, hr', hw'⟩ | ⟨i, hi, rfl, -⟩ | ⟨hz, rfl, -⟩
  · exact hw.congr (by simp [hr, hr']) (by simp [hwr, hw'])
  · refine hw.reserve.change h.reserve.1 hi (fun _ => rfl) ?_ fun hne => absurd rfl hne
    intro p hp hfd _
    obtain ⟨hpin, hpout⟩ := hw.reserve.entry p hp hfd
    simp [PollFd.want, hpin, hpout, hr, hwr]
  · refine hw.reserve.append h.reserve.1 hz ?_ fun hne => absurd rfl hne
    intro _
    -- a descriptor without an entry was neither read nor written
    have hno := h.reserve.1.indexes.eq_zero_iff.mp hz
    have hold : ¬ (w.read = true ∨ w.write = true) := fun hsome => hno (hw.reserve.there hsome)
    simp only [not_or, Bool.not_eq_true] at hold
    simp [PollFd.want, hr, hwr, hold]

/-- `poll_del` does not concern other descriptors. -/
theorem Watches.pollDel_other (hw : Watches f pop w) (h : pop.Ok) (hne : fd ≠ f)
    (hdel : pop.pollDel fd old res = Option.some pop') : Watches f pop' w := by
  rcases pollDel_cases fd old res h with
    ⟨heq, -⟩ | ⟨hnone, -⟩ | ⟨i, hi, heq, -⟩ | ⟨pop₁, heq, hwo, -⟩
  · obtain rfl := Option.some.inj (heq.symm.trans hdel)
    exact hw
  · rw [hnone] at hdel
    cases hdel
  · obtain rfl := Option.some.inj (heq.symm.trans hdel)
    exact hw.change h hi (fun _ => rfl) (fun _ _ _ heq => absurd heq hne) fun _ => rfl
  · obtain rfl := Option.some.inj (heq.symm.trans hdel)
    refine ⟨fun p hp => hw.entry p (hwo.mem p hp).1, ?_⟩
    intro hsome
    exact (hwo.stays f hne.symm).mpr (hw.there hsome)

/-- After `poll_del` the descriptor is waited for without the old events. -/
theorem Watches.pollDel_self (hw : Watches f pop w) (h : pop.Ok)
    (hsub : res.read = true → w.read = true) (hsub' : res.write = true → w.write = true)
    (hr : new.read = (w.read && !res.read)) (hwr : new.write = (w.write && !res.write)) :
    ∃ pop', pop.pollDel f old res = Option.some pop' ∧ Watches f pop' new := by
  rcases pollDel_cases f old res h with
    ⟨heq, hr', hw'⟩ | ⟨hnone, hz⟩ | ⟨i, hi, heq, -⟩ | ⟨pop', heq, hwo, hleft⟩
  · exact ⟨_, heq, hw.congr (by simp [hr, hr']) (by simp [hwr, hw'])⟩
  · -- what is deleted was wanted, so there is an entry
    have hno := h.indexes.eq_zero_iff.mp hz
    have hold : ¬ (w.read = true ∨ w.write = true) := fun hsome => hno (hw.there hsome)
    simp only [not_or] at hold
    have hr' : res.read = false := Bool.not_eq_true _ ▸ fun h => hold.1 (hsub h)
    have hw' : res.write = false := Bool.not_eq_true _ ▸ fun h => hold.2 (hsub' h)
    simp [pollDel, hr', hw'] at hnone
  · refine ⟨_, heq, hw.change h hi (fun _ => rfl) ?_ fun hne => absurd rfl hne⟩
    intro p hp hfd _
    obtain ⟨hpin, hpout⟩ := hw.entry p hp hfd
    simp [PollFd.unwant, hpin, hpout, hr, hwr]
  · refine ⟨pop', heq, ⟨fun p hp hfd => absurd hfd (hwo.mem p hp).2, ?_⟩⟩
    intro hsome
    exfalso
    have hold : w.read = true ∨ w.write = true := by
      rcases hsome with hs | hs
      · rw [hr] at hs
        exact .inl (by simp at hs; exact hs.1)
      · rw [hwr] at hs
        exact .inr (by simp at hs; exact hs.1)
    obtain ⟨p, hp, hfd⟩ := List.mem_map.mp (hw.there hold)
    obtain ⟨hpin, hpout⟩ := hw.entry p hp hfd
    obtain ⟨hl, hl'⟩ := hleft p hp hfd
    simp only [PollFd.unwant, hpin, hpout] at hl hl'
    rw [hr, hwr, hl, hl'] at hsome
    simp at hsome

end Pollop

/-- The poll backend does what `evmap.c` asks it for. -/
theorem pollops_serves (f : Fd) : Serves pollops Pollop.Ok f (Pollop.Watches f) where
  same := fun hw hs => hw.congr hs.1.symm hs.2.1.symm
  add_inv := by
    intro b fd old res b' h hadd
    have hadd : b.pollAdd fd old res = some b' := hadd
    exact h.pollAdd hadd
  del_inv := by
    intro b fd old res b' h hdel
    have hdel : b.pollDel fd old res = some b' := hdel
    exact h.pollDel hdel
  add_other := by
    intro b fd old res b' w h hne hadd hw
    have hadd : b.pollAdd fd old res = some b' := hadd
    exact hw.pollAdd_other h hne hadd
  del_other := by
    intro b fd old res b' w h hne hdel hw
    have hdel : b.pollDel fd old res = some b' := hdel
    exact hw.pollDel_other h hne hdel
  add_self := by
    intro b old new res b' h hw hsub hdiff hadd
    have hadd : b.pollAdd f old res = some b' := hadd
    refine hw.pollAdd_self h ?_ ?_ hadd
    · rw [hdiff.1]
      have := hsub.1
      cases hn : new.read <;> cases ho : old.read <;> simp_all
    · rw [hdiff.2.1]
      have := hsub.2.1
      cases hn : new.write <;> cases ho : old.write <;> simp_all
  del_self := by
    intro b old new res h hw hsub hdiff
    show ∃ b', b.pollDel f old res = some b' ∧ Pollop.Watches f b' new
    refine hw.pollDel_self h ?_ ?_ ?_ ?_
    · rw [hdiff.1]
      simp +contextual
    · rw [hdiff.2.1]
      simp +contextual
    · rw [hdiff.1]
      have := hsub.1
      cases hn : new.read <;> cases ho : old.read <;> simp_all
    · rw [hdiff.2.1]
      have := hsub.2.1
      cases hn : new.write <;> cases ho : old.write <;> simp_all

end LinuxServer.Libevent
