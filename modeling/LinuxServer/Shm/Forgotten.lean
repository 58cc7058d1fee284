import LinuxServer.Shm.Isolation

/-!
# Children that are not forgotten

When a child is reaped, the parent sets its entry in `sub_process` to -1, moves the last entry of `users`
into the place of the child, and lets `sub_process` lead to it there. If the child was the last one itself,
this undoes the first step: `sub_process` keeps leading from a child that is gone to an entry that is not
in use.

`forgotten_iff` says that this is the only case. Which child is the last one depends on those that were
reaped before it by the same `SIGCHLD`, and so the condition goes through them in order (`NeverLast`).
-/

namespace LinuxServer.Shm

open Library

/-- The children in the order of their entries. -/
def Parent.order (p : Parent) : List Nat := (List.range p.userCount).map fun i => (p.users.entry i).pid

/-- The last one is put in the place of `pid`. -/
def swapOut (order : List Nat) (pid : Nat) : List Nat :=
  match order.getLast? with
  | none => []
  | some last => order.dropLast.map fun q => if q = pid then last else q

/-- None of the children `reaped` is the last one when it is reaped. -/
def NeverLast : List Nat → List Nat → Prop
  | _, [] => True
  | order, pid :: reaped => order.getLast? ≠ some pid ∧ NeverLast (swapOut order pid) reaped

def decidableNeverLast : (order reaped : List Nat) → Decidable (NeverLast order reaped)
  | _, [] => inferInstanceAs (Decidable True)
  | order, pid :: reaped =>
      have := decidableNeverLast (swapOut order pid) reaped
      inferInstanceAs (Decidable (order.getLast? ≠ some pid ∧ NeverLast (swapOut order pid) reaped))

namespace Server

/-- Where `sub_process` leads somewhere, there is a child, and its entry; everywhere else it is -1. -/
def Forgets (s : Server) : Prop :=
  ∀ pid < processLimit,
    (0 ≤ s.parent.subProcess.entry pid → pid ∈ pids s.children ∧
      ∃ i < s.parent.userCount, s.parent.subProcess.entry pid = i ∧ (s.parent.users.entry i).pid = pid) ∧
    (pid ∉ pids s.children → s.parent.subProcess.entry pid = -1)

/-- No child is reaped that is the last one in `users`. -/
def NoneLast (s : Server) : Action → Prop
  | .chld reaped => NeverLast s.parent.order reaped
  | _ => True

instance (s : Server) (act : Action) : Decidable (s.NoneLast act) :=
  match act with
  | .chld reaped => decidableNeverLast s.parent.order reaped
  | .accept _ | .term => inferInstanceAs (Decidable True)

end Server

/-- The entries of `sub_process` for anyone else but the children are -1. -/
def Cleared (p : Parent) (cs : List Child) : Prop :=
  ∀ pid < processLimit, pid ∉ pids cs → p.subProcess.entry pid = -1

variable {p p' : Parent} {cs : List Child} {log : List Event} {pid : Nat} {s s' : Server} {act : Action}

theorem Server.Tabled.forgets_iff (ht : s.Tabled) : s.Forgets ↔ Cleared s.parent s.children := by
  constructor
  · intro h pid hlt
    exact (h pid hlt).2
  · intro h pid hlt
    refine ⟨fun hsub => ?_, h pid hlt⟩
    have hmem : pid ∈ pids s.children := by
      by_contra hnot
      rw [h pid hlt hnot] at hsub
      exact absurd hsub (by decide)
    obtain ⟨i, hi, hpid, hsub⟩ := Table.find ht hmem
    exact ⟨hmem, i, hi, hsub, hpid⟩

/-! ## Departures -/

section Reap
variable {i n : Nat} (ht : Table p cs log) (hi : i < p.userCount)
  (hipid : (p.users.entry i).pid = pid) (hn : p.userCount = n + 1)

include hn in
theorem getLast?_order : p.order.getLast? = some (p.users.entry n).pid := by
  rw [Parent.order, hn, List.range_succ, List.map_append]
  exact List.getLast?_concat

include ht hi hipid hn

theorem order_without : (p.without pid i n).order = swapOut p.order pid := by
  have hdrop : p.order.dropLast = (List.range n).map fun j => (p.users.entry j).pid := by
    rw [Parent.order, hn, List.range_succ, List.map_append]
    exact List.dropLast_concat
  rw [swapOut, getLast?_order hn, hdrop]
  dsimp only
  rw [List.map_map]
  apply List.map_congr_left
  intro j hj
  have hj : j < n := List.mem_range.mp hj
  show (Function.update p.users.entry i (p.users.entry n) j).pid =
    if (p.users.entry j).pid = pid then (p.users.entry n).pid else (p.users.entry j).pid
  by_cases hji : j = i
  · rw [hji, Function.update_self, if_pos hipid]
  · have hne : (p.users.entry j).pid ≠ pid := by
      intro h
      exact hji (ht.pid_inj (by omega) hi (h.trans hipid.symm))
    rw [Function.update_of_ne hji, if_neg hne]

/-- The child is forgotten if it is not the last one, and whoever was not forgotten before still is not. -/
theorem cleared_without : Cleared (p.without pid i n) (cs.filter (·.pid ≠ pid)) ↔
    Cleared p cs ∧ p.order.getLast? ≠ some pid := by
  have hmem : ∀ j < p.userCount, (p.users.entry j).pid ∈ pids cs := fun j hj =>
    ht.members.mem_iff.mp (List.mem_map.mpr ⟨j, List.mem_range.mpr hj, rfl⟩)
  have hp : pid ∈ pids cs := hipid ▸ hmem i hi
  have hpids : ∀ q, q ∈ pids (cs.filter (·.pid ≠ pid)) ↔ q ≠ pid ∧ q ∈ pids cs := by
    intro q
    rw [pids_filter_ne ht.nodup]
    exact ht.nodup.mem_erase_iff
  -- nothing is written for anyone who was no child before
  have hother : ∀ q, q ∉ pids cs → (p.without pid i n).subProcess.entry q = p.subProcess.entry q := by
    intro q hq
    have hqp : q ≠ pid := fun h => hq (h ▸ hp)
    have hqn : q ≠ (p.users.entry n).pid := fun h => hq (h ▸ hmem n (by omega))
    show Function.update (Function.update p.subProcess.entry pid (-1)) (p.users.entry n).pid (i : Int) q = _
    rw [Function.update_of_ne hqn, Function.update_of_ne hqp]
  rw [getLast?_order hn, Ne, Option.some.injEq]
  constructor
  · intro h
    refine ⟨fun q hlt hq => ?_, fun hlast => ?_⟩
    · rw [← hother q hq]
      exact h q hlt fun hq' => hq ((hpids q).mp hq').2
    · -- the second write is to the same entry
      have hgone : (p.without pid i n).subProcess.entry pid = -1 :=
        h pid (ht.below pid hp) fun hq => ((hpids pid).mp hq).1 rfl
      have hback : (p.without pid i n).subProcess.entry pid = i := by
        show Function.update (Function.update p.subProcess.entry pid (-1)) (p.users.entry n).pid (i : Int)
          pid = i
        rw [hlast, Function.update_self]
      omega
  · rintro ⟨h, hlast⟩ q hlt hq
    by_cases hqp : q = pid
    · show Function.update (Function.update p.subProcess.entry pid (-1)) (p.users.entry n).pid (i : Int)
        q = -1
      rw [hqp, Function.update_of_ne (Ne.symm hlast), Function.update_self]
    · have hq : q ∉ pids cs := fun hmem => hq ((hpids q).mpr ⟨hqp, hmem⟩)
      rw [hother q hq]
      exact h q hlt hq

end Reap

/-- The `waitpid` loop. -/
theorem Table.cleared_reapAll (ht : Table p cs log) {reaped : List Nat} {calls : List Call}
    (hnd : reaped.Nodup) (hp : ∀ q ∈ reaped, q ∈ pids cs) (heq : p.reapAll reaped = .ok (p', calls)) :
    Cleared p' (cs.filter (·.pid ∉ reaped)) ↔ Cleared p cs ∧ NeverLast p.order reaped := by
  induction reaped generalizing p cs log calls with
  | nil =>
      obtain ⟨rfl, -⟩ := Prod.mk.inj (Except.ok.inj heq)
      simp [NeverLast]
  | cons q reaped ih =>
      obtain ⟨i, hi, hipid, -⟩ := ht.find (hp q List.mem_cons_self)
      obtain ⟨n, hn⟩ : ∃ n, p.userCount = n + 1 := Nat.exists_eq_succ_of_ne_zero (by omega)
      simp only [Parent.reapAll, reap_eq ht hi hipid hn, ok_bind] at heq
      obtain ⟨⟨p₁, rest⟩, hrest, heq⟩ := bind_eq_ok.mp heq
      obtain ⟨rfl, -⟩ := Prod.mk.inj (Except.ok.inj heq)
      rw [filter_reaped_cons, ih (ht.without hi hipid hn) (List.nodup_cons.mp hnd).2
        (mem_pids_after ht.nodup hnd hp) hrest, cleared_without ht hi hipid hn,
        order_without ht hi hipid hn, and_assoc]
      rfl

/-! ## Whole runs -/

/-- A child that is forked is not forgotten. -/
theorem Server.Tabled.cleared_accept (ht : s.Tabled) (hc : Cleared s.parent s.children) {a : Arrival}
    (he : s.enabled (.accept a)) (hs : s.step (.accept a) = .ok s') : Cleared s'.parent s'.children := by
  obtain ⟨p', calls, heq, haccepts⟩ := Table.accepts ht (a := a) (by
    rintro connfd pipefd q rfl
    exact (he q rfl).2)
  simp only [Server.step, heq, ok_bind] at hs
  obtain rfl := Except.ok.inj hs
  cases haccepts with
  | failed | full | unforked => exact hc
  | @forked connfd pipefd q hroom =>
      intro pid hlt hpid
      have hpid : pid ∉ q :: pids s.children := hpid
      rw [List.mem_cons, not_or] at hpid
      obtain ⟨hne, hpid⟩ := hpid
      show Function.update s.parent.subProcess.entry q _ pid = -1
      rw [Function.update_of_ne hne]
      exact hc pid hlt hpid

theorem onTerm_subProcess {calls : List Call} (h : p.onTerm = .ok (p', calls)) :
    p'.subProcess = p.subProcess := by
  unfold Parent.onTerm at h
  split at h
  · obtain ⟨rfl, -⟩ := Prod.mk.inj (Except.ok.inj h)
    rfl
  · obtain ⟨kills, -, h⟩ := bind_eq_ok.mp h
    obtain ⟨rfl, -⟩ := Prod.mk.inj (Except.ok.inj h)
    rfl

/-- A step leaves nothing behind in `sub_process` exactly if it meets the condition. -/
theorem Server.Tabled.cleared_step (ht : s.Tabled) (hc : Cleared s.parent s.children)
    (he : s.enabled act) :
    ∃ s', s.step act = .ok s' ∧ s'.Tabled ∧ (Cleared s'.parent s'.children ↔ s.NoneLast act) := by
  obtain ⟨s', hs', ht', -⟩ := ht.step he
  refine ⟨s', hs', ht', ?_⟩
  cases act with
  | accept a => exact iff_of_true (ht.cleared_accept hc he hs') trivial
  | chld reaped =>
      obtain ⟨⟨p', calls⟩, hchld, hs'⟩ := bind_eq_ok.mp hs'
      obtain ⟨⟨p₁, calls₁⟩, hreap, hchld⟩ := bind_eq_ok.mp hchld
      obtain ⟨rfl, -⟩ := Prod.mk.inj (Except.ok.inj hchld)
      obtain rfl := Except.ok.inj hs'
      exact (Table.cleared_reapAll ht he.1 he.2 hreap).trans (and_iff_right hc)
  | term =>
      obtain ⟨⟨p', calls⟩, hterm, hs'⟩ := bind_eq_ok.mp hs'
      obtain rfl := Except.ok.inj hs'
      refine iff_of_true (fun pid hlt hpid => ?_) trivial
      show p'.subProcess.entry pid = -1
      rw [onTerm_subProcess hterm]
      exact hc pid hlt hpid

/-- **Throughout a run, `sub_process` leads to the entries of the children and is -1 for everyone else,
exactly if** no child is reaped in it that is the last one in `users`. No step of the parent faults. -/
theorem forgotten_iff {h : List (Server × Action)} (hr : Server.machine.Run h s) :
    (Machine.Throughout Server.Forgets h s ↔ Machine.Always Server.NoneLast h) ∧
    ∀ act, Server.machine.enabled s act → ∃ s', Server.machine.step s act = .ok s' := by
  have hstart : ∀ s, Server.machine.init s → s.Tabled ∧ s.Forgets := by
    rintro s rfl
    have ht : Server.Tabled { parent := Parent.make, children := [], log := [] } := Table.make
    exact ⟨ht, ht.forgets_iff.mpr fun pid _ _ => rfl⟩
  refine ⟨(hr.exact_of_iff hstart ?_).1, ?_⟩
  · intro s act ht hforgets he
    obtain ⟨s', hs', ht', hiff⟩ := ht.cleared_step (ht.forgets_iff.mp hforgets) he
    exact ⟨s', hs', ht', ht'.forgets_iff.trans hiff⟩
  · intro act he
    obtain ⟨s', hs', -⟩ := (Server.tabled_of_reachable ⟨h, hr⟩).step he
    exact ⟨s', hs'⟩

/-- Of three children, the first one is reaped, and then the last one, which has come in its place. -/
theorem forgotten_in_order :
    ∃ h s, Server.machine.Run h s ∧ s.children = [⟨11, 1⟩] ∧ s.parent.subProcess.entry 10 = -1 ∧
      s.parent.subProcess.entry 12 = -1 ∧ Machine.Throughout Server.Forgets h s := by
  obtain ⟨h, s, hr, -, hs⟩ := Machine.Run.of_replay (M := Server.machine.restrict Server.NoneLast)
    [.accept (.conn 20 (21, 22) (some 10)), .accept (.conn 23 (24, 25) (some 11)),
      .accept (.conn 26 (27, 28) (some 12)), .chld [10, 12]]
    (fun s => (s.children, s.parent.subProcess.entry 10, s.parent.subProcess.entry 12)) rfl
    (b := ([⟨11, 1⟩], -1, -1)) (by decide +kernel)
  obtain ⟨hchildren, h10, h12⟩ : _ ∧ _ ∧ _ := by simpa only [Prod.mk.injEq] using hs
  obtain ⟨hr, hC⟩ := hr.of_restrict
  exact ⟨h, s, hr, hchildren, h10, h12, (forgotten_iff hr).1.mpr hC⟩

/-- The only child leaves: `sub_process` still leads to entry 0. -/
theorem forgotten_last_fails :
    ∃ h s, Server.machine.Run h s ∧
      h.map Prod.snd = [.accept (.conn 20 (21, 22) (some 10)), .chld [10]] ∧
      s.children = [] ∧ s.parent.userCount = 0 ∧ s.parent.subProcess.entry 10 = 0 ∧ ¬ s.Forgets := by
  obtain ⟨h, s, hr, has, hs⟩ := Machine.Run.of_replay (M := Server.machine)
    [.accept (.conn 20 (21, 22) (some 10)), .chld [10]]
    (fun s => (s.children, s.parent.userCount, s.parent.subProcess.entry 10)) rfl
    (b := ([], 0, 0)) (by decide +kernel)
  obtain ⟨hchildren, hcount, hsub⟩ : _ ∧ _ ∧ _ := by simpa only [Prod.mk.injEq] using hs
  refine ⟨h, s, hr, has, hchildren, hcount, hsub, ?_⟩
  intro hforgets
  have hgone := (hforgets 10 (by decide)).2 (by simp [hchildren, pids])
  rw [hsub] at hgone
  exact absurd hgone (by decide)

end LinuxServer.Shm
