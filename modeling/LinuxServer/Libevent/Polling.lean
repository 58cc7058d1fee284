import LinuxServer.Libevent.Poll
import Mathlib.Data.List.Rotate

/-!
# Waiting in poll

Runs of the event map over the poll backend, with threads that add and delete events while the loop waits
or without. `pollfds_exact` says that the array is always what the events in the map ask for, and
`wake_activates` which events are activated when `poll` returns.
-/

namespace LinuxServer.Libevent

open Library

/-- The loop waits in `poll` if `waiting`; `activated` is what has come of it the last time. -/
structure PollLoop where
  base : IoBase Pollop
  waiting : Bool
  activated : List (Nat × Events)

/-- An event is added or deleted, the loop begins to wait, or `poll` returns. The scan of the entries then
begins after the entry `start`, which is random. -/
inductive PollAction where
  | add (ev : Nat)
  | del (ev : Nat)
  | poll
  | wake (start : Nat) (revents : Nat → Revents)

section
variable (threads debug : Bool) (evs : Nat → IoEvent)

/-- The array `poll` was called with. -/
def Pollop.polled (pop : Pollop) : List PollFd := if threads then pop.eventSetCopy else pop.eventSet

def PollLoop.wake (s : PollLoop) (start : Nat) (revents : Nat → Revents) : PollLoop :=
  let eventSet := s.base.backend.polled threads
  { s with waiting := false
           activated := pollScan (evmapIoActive evs s.base) eventSet revents start eventSet.length }

/-- Without threads there is no one to add or delete events while the loop waits, and no copy. -/
def pollMachine : Machine PollLoop PollAction where
  init s := (∀ fd, s.base.io fd = EvmapIo.init) ∧ s.base.backend = pollInit ∧ s.waiting = false
  enabled s
    | .add ev => (evs ev).events.any = true ∧ ev ∉ (s.base.io (evs ev).fd).events ∧
        (s.waiting = true → threads = true)
    | .del ev => ev ∈ (s.base.io (evs ev).fd).events ∧ (s.waiting = true → threads = true)
    | .poll => s.waiting = false
    | .wake start _ => s.waiting = true ∧
        let eventSet := s.base.backend.polled threads
        (start < eventSet.length ∨ eventSet = [])
  step s
    | .add ev => .ok { s with base := (evmapIoAdd pollops evs debug s.base ev).1 }
    | .del ev => .ok { s with base := (evmapIoDel pollops evs s.base ev).1 }
    | .poll => .ok { s with waiting := true
                            base := { s.base with backend :=
                              if threads then s.base.backend.copy else s.base.backend } }
    | .wake start revents => .ok (s.wake threads evs start revents)

variable {threads debug evs} {s s' : PollLoop} {f fd : Fd} {h : List (PollLoop × PollAction)}
  {act : PollAction}

/-- The array is what is wanted of `f`. -/
abbrev Polled (f : Fd) (evs : Nat → IoEvent) (base : IoBase Pollop) : Prop :=
  Served Pollop.Ok f (Pollop.Watches f) evs base

theorem Polled.start (hi : (pollMachine threads debug evs).init s) : Polled f evs s.base := by
  obtain ⟨hio, hb, -⟩ := hi
  have hbase : s.base = { io := fun _ => EvmapIo.init, backend := pollInit } := by
    rw [← hb, ← funext hio]
  rw [hbase]
  refine ⟨.init _, .init, by simp [pollInit], ?_⟩
  simp [EvmapIo.init, EvmapIo.wanted]

theorem Polled.step (hs : Polled f evs s.base) (he : (pollMachine threads debug evs).enabled s act)
    (h : (pollMachine threads debug evs).step s act = .ok s') : Polled f evs s'.base := by
  cases act with
  | add ev =>
      obtain rfl := Except.ok.inj h
      exact hs.add (pollops_serves f) he.1 he.2.1 rfl
  | del ev =>
      obtain rfl := Except.ok.inj h
      exact hs.del (pollops_serves f) he.1 rfl
  | poll =>
      obtain rfl := Except.ok.inj h
      dsimp only
      cases threads with
      | false => exact hs
      | true => exact ⟨hs.integrity.backend _, hs.inv.copy, hs.watches.entry, hs.watches.there⟩
  | wake start revents =>
      obtain rfl := Except.ok.inj h
      exact hs

theorem polled_of_run (hr : (pollMachine threads debug evs).Run h s) (f : Fd) : Polled f evs s.base :=
  hr.invariant (fun _ => Polled.start) fun _ _ _ hs he => hs.step he

/-- **The array has exactly one entry for each descriptor that an event wants to read or to write**, and
no other; the entry asks for what the events of the descriptor want, and `idxplus1` of the descriptor points
at it; the array and its copy are never beyond what was allocated for them. -/
theorem pollfds_exact (hr : (pollMachine threads debug evs).Run h s) :
    (s.base.backend.eventSet.map PollFd.fd).Nodup ∧
    (∀ fd i, s.base.backend.idxplus1 fd = i + 1 ↔ (s.base.backend.eventSet.map PollFd.fd)[i]? = some fd) ∧
    (∀ fd, fd ∈ s.base.backend.eventSet.map PollFd.fd ↔
      ∃ ev ∈ (s.base.io fd).events, (evs ev).events.read = true ∨ (evs ev).events.write = true) ∧
    (∀ p ∈ s.base.backend.eventSet,
      (p.pollin = true ↔ ∃ ev ∈ (s.base.io p.fd).events, (evs ev).events.read = true) ∧
      (p.pollout = true ↔ ∃ ev ∈ (s.base.io p.fd).events, (evs ev).events.write = true)) ∧
    s.base.backend.eventSet.length ≤ s.base.backend.eventCount ∧
    s.base.backend.eventSetCopy.length ≤ s.base.backend.copyCount := by
  have hs := polled_of_run hr
  have hok := (hs 0).inv
  have hi := (hs 0).integrity
  have hentry : ∀ p ∈ s.base.backend.eventSet,
      (p.pollin = true ↔ ∃ ev ∈ (s.base.io p.fd).events, (evs ev).events.read = true) ∧
      (p.pollout = true ↔ ∃ ev ∈ (s.base.io p.fd).events, (evs ev).events.write = true) := by
    intro p hp
    obtain ⟨hin, hout⟩ := (hs p.fd).watches.entry p hp rfl
    rw [hin, hout]
    exact ⟨hi.wanted_read p.fd, hi.wanted_write p.fd⟩
  refine ⟨hok.indexes.nodup, hok.indexes, ?_, hentry, hok.bound, hok.within⟩
  intro fd
  constructor
  · intro hmem
    obtain ⟨p, hp, rfl⟩ := List.mem_map.mp hmem
    rcases hok.some p hp with hin | hout
    · obtain ⟨ev, hev, hr'⟩ := (hentry p hp).1.mp hin
      exact ⟨ev, hev, .inl hr'⟩
    · obtain ⟨ev, hev, hw⟩ := (hentry p hp).2.mp hout
      exact ⟨ev, hev, .inr hw⟩
  · rintro ⟨ev, hev, hr' | hw⟩
    · exact (hs fd).watches.there (.inl ((hi.wanted_read fd).mpr ⟨ev, hev, hr'⟩))
    · exact (hs fd).watches.there (.inr ((hi.wanted_write fd).mpr ⟨ev, hev, hw⟩))

instance (s : PollLoop) (act : PollAction) : Decidable ((pollMachine threads debug evs).enabled s act) :=
  match act with
  | .add ev => inferInstanceAs (Decidable ((evs ev).events.any = true ∧
      ev ∉ (s.base.io (evs ev).fd).events ∧ (s.waiting = true → threads = true)))
  | .del ev => inferInstanceAs (Decidable (ev ∈ (s.base.io (evs ev).fd).events ∧
      (s.waiting = true → threads = true)))
  | .poll => inferInstanceAs (Decidable (s.waiting = false))
  | .wake start _ => inferInstanceAs (Decidable (s.waiting = true ∧
      (start < (s.base.backend.polled threads).length ∨ s.base.backend.polled threads = [])))

def PollLoop.start : PollLoop :=
  { base := { io := fun _ => EvmapIo.init, backend := pollInit }, waiting := false, activated := [] }

theorem init_start : (pollMachine threads debug evs).init PollLoop.start :=
  ⟨fun _ => rfl, rfl, rfl⟩

/-- Three descriptors are watched, and the first one is deleted while the loop waits: the third takes its
place. -/
theorem pollfds_moved :
    ∃ evs h s, (pollMachine true false evs).Run h s ∧ s.waiting = true ∧
      s.base.backend.eventSet.map PollFd.fd = [5, 4] ∧
      s.base.backend.eventSetCopy.map PollFd.fd = [3, 4, 5] ∧ s.base.backend.idxplus1 5 = 1 ∧
      s.base.backend.eventSet.length ≤ s.base.backend.eventCount ∧
      s.base.backend.eventSetCopy.length ≤ s.base.backend.copyCount := by
  let evs : Nat → IoEvent := fun ev => ⟨3 + ev, true, false, false, false⟩
  obtain ⟨h, s, hr, -, hb⟩ := Machine.Run.of_replay (M := pollMachine true false evs)
    [.add 0, .add 1, .add 2, .poll, .del 0]
    (fun s => (s.waiting, s.base.backend.eventSet.map PollFd.fd,
      s.base.backend.eventSetCopy.map PollFd.fd))
    init_start (b := (true, [5, 4], [3, 4, 5])) (by decide +kernel)
  simp only [Prod.mk.injEq] at hb
  obtain ⟨-, hidx, -, -, hbound, hcopy⟩ := pollfds_exact hr
  have hplace : s.base.backend.idxplus1 5 = 1 := by
    rw [hidx 5 0, hb.2.1]
    rfl
  exact ⟨evs, h, s, hr, hb.1, hb.2.1, hb.2.2, hplace, hbound, hcopy⟩

/-! ## The scan -/

section
variable {active : Fd → Events → List (Nat × Events)} {eventSet : List PollFd}
  {revents : Nat → Revents}

/-- The scan goes round the array. -/
theorem pollScan_eq {i : Nat} (hi : i < eventSet.length) (n : Nat) :
    pollScan active eventSet revents i n = (List.range n).flatMap fun k =>
      pollEntry active eventSet revents ((k + (i + 1)) % eventSet.length) := by
  induction n generalizing i with
  | zero => rfl
  | succ n ih =>
      have hnext : (if i + 1 = eventSet.length then 0 else i + 1) = (i + 1) % eventSet.length := by
        split
        · rename_i heq
          rw [heq, Nat.mod_self]
        · exact (Nat.mod_eq_of_lt (by omega)).symm
      rw [pollScan, hnext, ih (Nat.mod_lt _ (by omega)), List.range_succ_eq_map, List.flatMap_cons,
        List.flatMap_map, Nat.zero_add]
      congr 2
      funext k
      congr 1
      rw [show k + ((i + 1) % eventSet.length + 1) = k + 1 + (i + 1) % eventSet.length by omega]
      exact Nat.add_mod_mod ..

/-- Every entry has its turn, once. -/
theorem pollScan_perm {i : Nat} (hi : i < eventSet.length) :
    (pollScan active eventSet revents i eventSet.length).Perm
      ((List.range eventSet.length).flatMap (pollEntry active eventSet revents)) := by
  have hrot : (List.range eventSet.length).rotate (i + 1) =
      (List.range eventSet.length).map fun k => (k + (i + 1)) % eventSet.length := by
    apply List.ext_getElem
    · simp
    · intro k h₁ h₂
      rw [List.getElem_rotate]
      simp
  rw [pollScan_eq hi, ← List.flatMap_map, ← hrot]
  exact (List.rotate_perm _ _).flatMap_right _

end

theorem mem_evmapIoActive {σ : Type} {base : IoBase σ} {events : Events} {x : Nat × Events} :
    x ∈ evmapIoActive evs base fd events ↔
      x.1 ∈ (base.io fd).events ∧ x.2 = (evs x.1).events.inter events ∧
        (x.2.any || x.2.et) = true := by
  simp only [evmapIoActive, List.mem_filterMap]
  constructor
  · rintro ⟨ev, hev, hx⟩
    split at hx
    · rename_i hany
      obtain rfl := Option.some.inj hx
      exact ⟨hev, rfl, hany⟩
    · cases hx
  · rintro ⟨hev, hx, hany⟩
    refine ⟨x.1, hev, ?_⟩
    rw [hx] at hany
    rw [if_pos hany]
    exact congrArg some (Prod.ext rfl hx.symm)

theorem evmapIoActive_nodup {σ : Type} {base : IoBase σ} (hi : Integrity evs base) (events : Events) :
    ((evmapIoActive evs base fd events).map Prod.fst).Nodup := by
  refine List.Nodup.sublist ?_ (hi.nodup fd)
  rw [evmapIoActive]
  induction (base.io fd).events with
  | nil => exact List.Sublist.refl _
  | cons ev l ih =>
      rw [List.filterMap_cons]
      split
      · exact ih.cons ev
      · rename_i x hx
        dsimp only at hx
        split at hx
        · obtain rfl := Option.some.inj hx
          exact ih.cons_cons ev
        · cases hx

/-- **When `poll` returns, an event is activated exactly if an entry of its descriptor reports something
the event waits for**, and it is activated once, wherever the scan begins, and whatever other threads
have added and deleted while the loop was waiting. -/
theorem wake_activates {start : Nat} {revents : Nat → Revents}
    (hr : (pollMachine threads debug evs).Run h s)
    (he : (pollMachine threads debug evs).enabled s (.wake start revents))
    (hstep : (pollMachine threads debug evs).step s (.wake start revents) = .ok s') :
    (s'.activated.map Prod.fst).Nodup ∧
    ∀ ev res, (ev, res) ∈ s'.activated ↔
      ∃ i p, (s.base.backend.polled threads)[i]? = some p ∧ ev ∈ (s.base.io p.fd).events ∧
        res = (evs ev).events.inter (revents i).res ∧ res.any = true := by
  obtain rfl := Except.ok.inj hstep
  set l := s.base.backend.polled threads with hl
  have hi := (polled_of_run hr 0).integrity
  have hok := (polled_of_run hr 0).inv
  have hnd : (l.map PollFd.fd).Nodup := by
    rw [hl, Pollop.polled]
    split
    · exact hok.nodup
    · exact hok.indexes.nodup
  have hperm : (s.wake threads evs start revents).activated.Perm
      ((List.range l.length).flatMap (pollEntry (evmapIoActive evs s.base) l revents)) := by
    rcases he.2 with hlt | hnil
    · exact pollScan_perm hlt
    · have hz : l = [] := hnil
      rw [PollLoop.wake, ← hl, hz]
      exact List.Perm.refl _
  have hentry : ∀ i x, x ∈ pollEntry (evmapIoActive evs s.base) l revents i ↔
      ∃ p, l[i]? = some p ∧ x.1 ∈ (s.base.io p.fd).events ∧
        x.2 = (evs x.1).events.inter (revents i).res ∧ x.2.any = true := by
    intro i x
    unfold pollEntry
    cases hp : l[i]? with
    | none => simp
    | some p =>
        dsimp only
        simp only [Option.some.injEq, exists_eq_left']
        split
        · rw [mem_evmapIoActive]
          refine and_congr_right fun _ => and_congr_right fun hx => ?_
          rw [hx]
          simp [Events.inter, Revents.res]
        · rename_i hno
          simp only [Bool.or_eq_true, not_or, Bool.not_eq_true] at hno
          constructor
          · intro hmem
            cases hmem
          · rintro ⟨-, hx, hany⟩
            rw [hx] at hany
            simp only [Revents.res] at hno
            simp [Events.inter, Events.any, Revents.res, hno] at hany
  constructor
  · rw [(hperm.map Prod.fst).nodup_iff, List.map_flatMap, List.nodup_flatMap]
    constructor
    · intro i _
      unfold pollEntry
      split
      · exact List.nodup_nil
      · dsimp only
        split
        · exact evmapIoActive_nodup hi _
        · exact List.nodup_nil
    · -- the events of two entries are not the same, as the descriptors are not
      refine List.Pairwise.imp ?_ List.nodup_range
      intro i j hij
      refine List.disjoint_left.mpr ?_
      intro ev hev hev'
      obtain ⟨x, hx, rfl⟩ := List.mem_map.mp hev
      obtain ⟨y, hy, hxy⟩ := List.mem_map.mp hev'
      obtain ⟨p, hp, hpev, -⟩ := (hentry i x).mp hx
      obtain ⟨q, hq, hqev, -⟩ := (hentry j y).mp hy
      rw [hxy] at hqev
      have hfd : p.fd = q.fd := (hi.fd _ _ hpev).1.symm.trans (hi.fd _ _ hqev).1
      have hp' : (l.map PollFd.fd)[i]? = some p.fd := by rw [List.getElem?_map, hp]; rfl
      have hq' : (l.map PollFd.fd)[j]? = some p.fd := by rw [List.getElem?_map, hq, hfd]; rfl
      obtain ⟨hilt, -⟩ := List.getElem?_eq_some_iff.mp hp'
      exact hij ((List.getElem?_inj hilt hnd).mp (hp'.trans hq'.symm))
  · intro ev res
    rw [hperm.mem_iff, List.mem_flatMap]
    constructor
    · rintro ⟨i, -, hmem⟩
      obtain ⟨p, hp, hrest⟩ := (hentry i _).mp hmem
      exact ⟨i, p, hp, hrest⟩
    · rintro ⟨i, p, hp, hrest⟩
      obtain ⟨hlt, -⟩ := List.getElem?_eq_some_iff.mp hp
      exact ⟨i, List.mem_range.mpr hlt, (hentry i (ev, res)).mpr ⟨p, hp, hrest⟩⟩

/-- Of three descriptors all report a failure, but event 0 was deleted while the loop was waiting. -/
theorem wake_without_deleted :
    ∃ evs h s s', (pollMachine true false evs).Run h s ∧
      (pollMachine true false evs).step s (.wake 1 fun _ => ⟨false, false, true⟩) = .ok s' ∧
      (s'.activated.map Prod.fst).Nodup ∧ (2, ⟨true, false, false, false⟩) ∈ s'.activated ∧
      ∀ res, (0, res) ∉ s'.activated := by
  let evs : Nat → IoEvent := fun ev => ⟨3 + ev, true, false, false, false⟩
  obtain ⟨h, s, hr, -, hb⟩ := Machine.Run.of_replay (M := pollMachine true false evs)
    [.add 0, .add 1, .add 2, .poll, .del 0]
    (fun s => ((s.waiting, s.base.backend.eventSetCopy.map PollFd.fd),
      [(s.base.io 3).events, (s.base.io 4).events, (s.base.io 5).events]))
    init_start (b := ((true, [3, 4, 5]), [[], [1], [2]])) (by decide +kernel)
  simp only [Prod.mk.injEq, List.cons.injEq, and_true] at hb
  obtain ⟨⟨hwait, hcopy⟩, hev₃, hev₄, hev₅⟩ := hb
  have hlen : s.base.backend.eventSetCopy.length = 3 := by
    rw [← List.length_map (f := PollFd.fd), hcopy]
    rfl
  have he : (pollMachine true false evs).enabled s (.wake 1 fun _ => ⟨false, false, true⟩) :=
    ⟨hwait, .inl (by simp [Pollop.polled, hlen])⟩
  have hfds : ∀ (i : Nat) (p : PollFd), s.base.backend.eventSetCopy[i]? = some p →
      [(3 : Fd), 4, 5][i]? = some p.fd := by
    intro i p hp
    rw [← hcopy, List.getElem?_map, hp]
    rfl
  obtain ⟨hnd, hiff⟩ := wake_activates hr he rfl
  refine ⟨evs, h, s, _, hr, rfl, hnd, ?_, ?_⟩
  · obtain ⟨p, hp⟩ : ∃ p, s.base.backend.eventSetCopy[2]? = some p :=
      ⟨_, List.getElem?_eq_getElem (by omega)⟩
    have hpf : (5 : Fd) = p.fd := Option.some.inj (hfds 2 p hp)
    exact (hiff _ _).mpr ⟨2, p, hp, by rw [← hpf, hev₅]; simp, rfl, rfl⟩
  · intro res hmem
    obtain ⟨i, p, hp, hev, -⟩ := (hiff _ _).mp hmem
    have hpf := hfds i p hp
    have hi : (evs 0).fd = p.fd := ((polled_of_run hr 0).integrity.fd _ _ hev).1.symm.symm
    have h3 : p.fd = 3 := hi.symm
    rw [h3, hev₃] at hev
    cases hev

end
end LinuxServer.Libevent
