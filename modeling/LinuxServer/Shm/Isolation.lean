import LinuxServer.Shm.Basic
import LinuxServer.Library.Arrays
import LinuxServer.Library.Machine

/-!
# Who gets which part of the shared memory

The kernel's view of the server is the list of children that were forked and not yet reaped, each with
the number it was started with. The parent's tables agree with it in every reachable state (`Table`):
`user_count` is the number of these children, and the two tables are inverse to each other
(`process_tables`).

The numbers need not differ, however. A child is numbered with the value of `user_count` at its fork,
and that value comes back after as many departures as there were arrivals since, with the child still
running. `isolated_iff` says that this is exactly when two children share a segment.
-/

namespace LinuxServer.Shm

open Library

/-- A child that has not been reaped, and the number it was started with. -/
structure Child where
  pid : Nat
  idx : Nat
  deriving Repr, DecidableEq

inductive Event where
  | forked (pid : Nat)
  | reaped (pid : Nat)
  deriving Repr, DecidableEq

structure Server where
  parent : Parent
  children : List Child
  /-- arrivals and departures, newest first -/
  log : List Event

inductive Action where
  | accept (a : Arrival)
  | chld (pids : List Nat)
  | term
  deriving Repr, DecidableEq

/-- The children and their pipes, `users[i].pid` and `users[i].pipefd[0]`. -/
def Parent.members (p : Parent) : List (Nat × Nat) :=
  (List.range p.userCount).map fun i => ((p.users.entry i).pid, (p.users.entry i).pipefd.1)

/-- The calls made when the children `gone`, given with their pipes, have been reaped. -/
def drops (gone : List (Nat × Nat)) : List Call := gone.flatMap fun x => [.delfd x.2, .close x.2]

/-- The pids of the children. -/
def pids (cs : List Child) : List Nat := cs.map Child.pid

/-- The children a handler has started. -/
def started : List Call → List Child
  | [] => []
  | .runChild pid idx :: calls => { pid := pid, idx := idx } :: started calls
  | _ :: calls => started calls

/-- How many more children were forked than reaped since `pid` was forked, itself included; `none` if
it is not running. -/
def surplus : List Event → Nat → Option Int
  | [], _ => none
  | .forked q :: log, pid => if q = pid then some 1 else (surplus log pid).map (· + 1)
  | .reaped q :: log, pid => if q = pid then none else (surplus log pid).map (· - 1)

namespace Server

/-- `fork` returns a pid that is not in use; `waitpid` returns children that are. -/
def enabled (s : Server) : Action → Prop
  | .accept .failed => True
  | .accept (.conn _ _ fork) => ∀ pid ∈ fork, pid ∉ pids s.children ∧ pid < processLimit
  | .chld reaped => reaped.Nodup ∧ ∀ pid ∈ reaped, pid ∈ pids s.children
  | .term => True

def step (s : Server) : Action → Exec Server
  | .accept a => do
      let (p, calls) ← s.parent.onAccept a
      return { parent := p, children := started calls ++ s.children,
               log := (started calls).map (Event.forked ·.pid) ++ s.log }
  | .chld reaped => do
      let (p, _) ← s.parent.onChld reaped
      return { parent := p, children := s.children.filter (·.pid ∉ reaped),
               log := reaped.reverse.map Event.reaped ++ s.log }
  | .term => do
      let (p, _) ← s.parent.onTerm
      return { s with parent := p }

def machine : Machine Server Action where
  init s := s = { parent := Parent.make, children := [], log := [] }
  enabled := enabled
  step := step

instance (s : Server) (act : Action) : Decidable (machine.enabled s act) :=
  match act with
  | .accept .failed => inferInstanceAs (Decidable True)
  | .accept (.conn _ _ fork) => inferInstanceAs (Decidable (∀ pid ∈ fork,
      pid ∉ pids s.children ∧ pid < processLimit))
  | .chld reaped => inferInstanceAs (Decidable (reaped.Nodup ∧
      ∀ pid ∈ reaped, pid ∈ pids s.children))
  | .term => inferInstanceAs (Decidable True)

/-- Children have different numbers, disjoint segments `[idx * 1024, (idx + 1) * 1024)`, and these
lie within the shared memory. -/
def Isolated (s : Server) : Prop :=
  s.children.Pairwise (fun c d => c.idx ≠ d.idx ∧
    ((c.idx + 1) * bufferSize ≤ d.idx * bufferSize ∨
      (d.idx + 1) * bufferSize ≤ c.idx * bufferSize)) ∧
  ∀ c ∈ s.children, (c.idx + 1) * bufferSize ≤ userLimit * bufferSize

/-- No child is forked when some running child has been followed by as many departures as arrivals,
its own included. -/
def Unbalanced (s : Server) : Action → Prop
  | .accept (.conn _ _ (some _)) => s.children.length < userLimit →
      ∀ c ∈ s.children, surplus s.log c.pid ≠ some 0
  | _ => True

instance (s : Server) (act : Action) : Decidable (Unbalanced s act) :=
  match act with
  | .accept (.conn _ _ (some _)) => inferInstanceAs (Decidable (s.children.length < userLimit →
      ∀ c ∈ s.children, surplus s.log c.pid ≠ some 0))
  | .accept .failed | .accept (.conn _ _ none) | .chld _ | .term =>
      inferInstanceAs (Decidable True)

end Server

/-! ## The tables -/

/-- The parent's tables, against the children that are running. -/
structure Table (p : Parent) (cs : List Child) (log : List Event) : Prop where
  users : p.users.length = userLimit
  subProcess : p.subProcess.length = processLimit
  limit : p.userCount ≤ userLimit
  members : ((List.range p.userCount).map fun i => (p.users.entry i).pid).Perm (pids cs)
  nodup : (pids cs).Nodup
  below : ∀ pid ∈ pids cs, pid < processLimit
  inverse : ∀ i < p.userCount, p.subProcess.entry (p.users.entry i).pid = i
  number : ∀ c ∈ cs, ∃ k, surplus log c.pid = some k ∧ (c.idx : Int) + k = p.userCount

variable {p : Parent} {cs : List Child} {log : List Event} {pid : Nat}

/-- There are no children at first. -/
theorem Table.make : Table Parent.make [] [] where
  users := rfl
  subProcess := rfl
  limit := Nat.zero_le _
  members := List.Perm.refl _
  nodup := List.nodup_nil
  below := by
    intro pid h
    cases h
  inverse := by
    intro i hi
    exact absurd hi (Nat.not_lt_zero i)
  number := by
    intro c hc
    cases hc

/-- `user_count` is the number of children. -/
theorem Table.count_eq (ht : Table p cs log) : p.userCount = cs.length := by
  simpa [pids] using ht.members.length_eq

/-- The entries are those of the children. -/
theorem Table.members_pids (ht : Table p cs log) : (p.members.map Prod.fst).Perm (pids cs) := by
  unfold Parent.members
  rw [List.map_map]
  exact ht.members

/-- Every running child has its entry, and `sub_process` leads to it. -/
theorem Table.find (ht : Table p cs log) (hp : pid ∈ pids cs) :
    ∃ i < p.userCount, (p.users.entry i).pid = pid ∧ p.subProcess.entry pid = i := by
  obtain ⟨i, hi, heq⟩ := List.mem_map.mp (ht.members.mem_iff.mpr hp)
  have hi := List.mem_range.mp hi
  exact ⟨i, hi, heq, by rw [← heq]; exact ht.inverse i hi⟩

/-- No child has two entries. -/
theorem Table.pid_inj (ht : Table p cs log) {i j : Nat} (hi : i < p.userCount)
    (hj : j < p.userCount) (heq : (p.users.entry i).pid = (p.users.entry j).pid) : i = j := by
  have hi' := ht.inverse i hi
  have hj' := ht.inverse j hj
  rw [heq, hj'] at hi'
  omega

/-! ## Arrivals -/

/-- Something is written to the first free entry of `users`. -/
def Parent.put (p : Parent) (x : ClientData) : Parent :=
  { p with users := { p.users with entry := Function.update p.users.entry p.userCount x } }

/-- The entry behind the last one does not count. -/
theorem Table.spare (ht : Table p cs log) (x : ClientData) : Table (p.put x) cs log := by
  have hold : ∀ i < p.userCount,
      Function.update p.users.entry p.userCount x i = p.users.entry i := by
    intro i hi
    exact Function.update_of_ne (Nat.ne_of_lt hi) x p.users.entry
  have hmap : ((List.range p.userCount).map fun i =>
      (Function.update p.users.entry p.userCount x i).pid) =
      (List.range p.userCount).map fun i => (p.users.entry i).pid := by
    apply List.map_congr_left
    intro i hi
    rw [hold i (List.mem_range.mp hi)]
  refine ⟨ht.users, ht.subProcess, ht.limit, ?_, ht.nodup, ht.below, ?_, ht.number⟩
  · exact (List.Perm.of_eq hmap).trans ht.members
  · intro i hi
    show p.subProcess.entry (Function.update p.users.entry p.userCount x i).pid = i
    rw [hold i hi]
    exact ht.inverse i hi

/-- A new child gets the number `user_count`, and one more entry. -/
theorem Table.fork (ht : Table p cs log) (hnew : pid ∉ pids cs) (hlt : pid < processLimit)
    (hroom : p.userCount < userLimit) (x : ClientData) (hx : x.pid = pid) :
    Table { p.put x with
      subProcess := { p.subProcess with
        entry := Function.update p.subProcess.entry pid (p.userCount : Int) }
      userCount := p.userCount + 1 } ({ pid := pid, idx := p.userCount } :: cs)
      (.forked pid :: log) := by
  have hold : ∀ i, i ≠ p.userCount →
      Function.update p.users.entry p.userCount x i = p.users.entry i :=
    fun i hi => Function.update_of_ne hi x p.users.entry
  -- the other entries are of other children, so `sub_process` changes for none of them
  have hin : ∀ i < p.userCount, (p.users.entry i).pid ≠ pid := by
    rintro i hi rfl
    exact hnew (ht.members.mem_iff.mp (List.mem_map.mpr ⟨i, List.mem_range.mpr hi, rfl⟩))
  constructor
  · exact ht.users
  · exact ht.subProcess
  · exact hroom
  · have hmap : ((List.range (p.userCount + 1)).map fun i =>
        (Function.update p.users.entry p.userCount x i).pid) =
        ((List.range p.userCount).map fun i => (p.users.entry i).pid) ++ [pid] := by
      rw [List.range_succ, List.map_append, List.map_singleton, Function.update_self, hx]
      congr 1
      apply List.map_congr_left
      intro i hi
      rw [hold i (Nat.ne_of_lt (List.mem_range.mp hi))]
    exact (List.Perm.of_eq hmap).trans
      ((ht.members.append_right _).trans (List.perm_append_singleton _ _))
  · exact List.nodup_cons.mpr ⟨hnew, ht.nodup⟩
  · intro q hq
    rcases List.mem_cons.mp hq with rfl | hq
    · exact hlt
    · exact ht.below q hq
  · intro i hi
    show Function.update p.subProcess.entry pid (p.userCount : Int)
      (Function.update p.users.entry p.userCount x i).pid = i
    by_cases hip : i = p.userCount
    · rw [hip, Function.update_self, hx, Function.update_self]
    · have hi : i < p.userCount := by
        have : i < p.userCount + 1 := hi
        omega
      rw [hold i hip, Function.update_of_ne (hin i hi)]
      exact ht.inverse i hi
  · intro c hc
    rcases List.mem_cons.mp hc with rfl | hold
    · exact ⟨1, by simp [surplus], rfl⟩
    · obtain ⟨k, hk, hsum⟩ := ht.number c hold
      have hne : pid ≠ c.pid := by
        rintro rfl
        exact hnew (List.mem_map_of_mem hold)
      refine ⟨k + 1, by simp [surplus, hne, hk], ?_⟩
      show (c.idx : Int) + (k + 1) = ((p.userCount + 1 : Nat) : Int)
      omega

section Accept
variable (ht : Table p cs log) (hroom : p.userCount < userLimit) (connfd : Nat) (pipefd : Nat × Nat)
include ht hroom

/-- The `fork` fails. -/
theorem Table.onAccept_unforked : p.onAccept (.conn connfd pipefd none) =
    .ok (p.put { p.users.entry p.userCount with connfd := connfd, pipefd := pipefd },
      [.close connfd]) := by
  have hlt : p.userCount < p.users.length := by rw [ht.users]; exact hroom
  have hfree : ¬ p.userCount ≥ userLimit := by omega
  unfold Parent.onAccept
  dsimp only
  rw [if_neg hfree, Block.read_eq hlt, ok_bind, Block.write_eq hlt, ok_bind]
  rfl

/-- A child has been forked. -/
theorem Table.onAccept_forked (hpid : pid < processLimit) :
    p.onAccept (.conn connfd pipefd (some pid)) = .ok ({
      p.put { connfd := connfd, pid := pid, pipefd := pipefd } with
      subProcess := { p.subProcess with
        entry := Function.update p.subProcess.entry pid (p.userCount : Int) }
      userCount := p.userCount + 1 },
      [.runChild pid p.userCount, .close connfd, .close pipefd.2, .addfd pipefd.1]) := by
  have hlt : p.userCount < p.users.length := by rw [ht.users]; exact hroom
  have hlt' : pid < p.subProcess.length := by rw [ht.subProcess]; exact hpid
  have hfree : ¬ p.userCount ≥ userLimit := by omega
  unfold Parent.onAccept
  dsimp only
  rw [if_neg hfree, Block.read_eq hlt, ok_bind, Block.write_eq hlt, ok_bind, Block.write_eq, ok_bind,
    Block.write_eq hlt', ok_bind]
  · simp only [Function.update_idem]
    rfl
  · exact hlt

end Accept

/-- What the parent makes of an arrival, one constructor for each way through the branch. -/
inductive Parent.Accepts (p : Parent) : Arrival → Parent → List Call → Prop
  | failed : Accepts p .failed p []
  | full {connfd : Nat} {pipefd : Nat × Nat} {fork : Option Nat} : userLimit ≤ p.userCount →
      Accepts p (.conn connfd pipefd fork) p [.refuse connfd, .close connfd]
  | unforked {connfd : Nat} {pipefd : Nat × Nat} : p.userCount < userLimit →
      Accepts p (.conn connfd pipefd none)
        (p.put { p.users.entry p.userCount with connfd := connfd, pipefd := pipefd }) [.close connfd]
  | forked {connfd : Nat} {pipefd : Nat × Nat} {pid : Nat} : p.userCount < userLimit →
      Accepts p (.conn connfd pipefd (some pid)) {
        p.put { connfd := connfd, pid := pid, pipefd := pipefd } with
        subProcess := { p.subProcess with
          entry := Function.update p.subProcess.entry pid (p.userCount : Int) }
        userCount := p.userCount + 1 }
        [.runChild pid p.userCount, .close connfd, .close pipefd.2, .addfd pipefd.1]

/-- Whatever becomes of a connection keeps the table. -/
theorem Table.accepts (ht : Table p cs log) {a : Arrival}
    (hpid : ∀ connfd pipefd q, a = .conn connfd pipefd (some q) → q < processLimit) :
    ∃ p' calls, p.onAccept a = .ok (p', calls) ∧ p.Accepts a p' calls := by
  cases a with
  | failed => exact ⟨p, [], rfl, .failed⟩
  | conn connfd pipefd fork =>
      by_cases hfull : p.userCount ≥ userLimit
      · exact ⟨p, _, if_pos hfull, .full hfull⟩
      · have hroom : p.userCount < userLimit := by omega
        cases fork with
        | none => exact ⟨_, _, ht.onAccept_unforked hroom connfd pipefd, .unforked hroom⟩
        | some q =>
            have hlt := hpid connfd pipefd q rfl
            exact ⟨_, _, ht.onAccept_forked hroom connfd pipefd hlt, .forked hroom⟩

/-! ## Departures -/

/-- A child that was reaped is no longer there. -/
theorem pids_filter_ne (hnd : (pids cs).Nodup) (pid : Nat) :
    pids (cs.filter (·.pid ≠ pid)) = (pids cs).erase pid := by
  rw [hnd.erase_eq_filter]
  unfold pids
  rw [List.filter_map]
  congr 1
  apply List.filter_congr
  intro c _
  simp [bne, Bool.beq_eq_decide_eq]

/-- The tables after the child `pid`, with entry `i`, was reaped; the last entry was `n`. -/
def Parent.without (p : Parent) (pid i n : Nat) : Parent :=
  { p with
    users := { p.users with entry := Function.update p.users.entry i (p.users.entry n) }
    subProcess := { p.subProcess with
      entry := Function.update (Function.update p.subProcess.entry pid (-1))
        (p.users.entry n).pid (i : Int) }
    userCount := n }

section Reap
variable {i n : Nat} (ht : Table p cs log) (hi : i < p.userCount)
  (hipid : (p.users.entry i).pid = pid) (hn : p.userCount = n + 1)
include ht hi hipid hn

/-- `del_user` is in range, whatever the guard lets through. -/
theorem reap_eq : p.reap pid = .ok (p.without pid i n,
    [.delfd (p.users.entry i).pipefd.1, .close (p.users.entry i).pipefd.1]) := by
  have hsub : p.subProcess.entry pid = i := by rw [← hipid]; exact ht.inverse i hi
  have hlimit := ht.limit
  have hmem : ∀ j < p.userCount, (p.users.entry j).pid < p.subProcess.length := by
    intro j hj
    rw [ht.subProcess]
    apply ht.below
    exact ht.members.mem_iff.mp (List.mem_map.mpr ⟨j, List.mem_range.mpr hj, rfl⟩)
  have hi5 : i < p.users.length := by rw [ht.users]; omega
  have hn5 : n < p.users.length := by rw [ht.users]; omega
  have hpid : pid < p.subProcess.length := hipid ▸ hmem i hi
  unfold Parent.reap
  rw [Block.read_eq hpid, ok_bind, Block.write_eq hpid, ok_bind, hsub,
    if_neg (by simp only [userLimit] at *; omega), Int.toNat_natCast, Block.read_eq hi5, ok_bind, hn]
  dsimp only
  rw [Block.read_eq hn5, ok_bind, Block.write_eq hi5, ok_bind, Block.read_eq, ok_bind]
  · dsimp only
    rw [Function.update_self, Block.write_eq, ok_bind]
    · rfl
    · exact hmem n (by omega)
  · exact hi5

/-- Moving the last entry into the place of the one that leaves, which may be the same. -/
theorem Table.without : Table (p.without pid i n) (cs.filter (·.pid ≠ pid)) (.reaped pid :: log) := by
  have hlimit := ht.limit
  have hpids := pids_filter_ne ht.nodup pid
  have hp : pid ∈ pids cs :=
    ht.members.mem_iff.mp (List.mem_map.mpr ⟨i, List.mem_range.mpr hi, hipid⟩)
  constructor
  · exact ht.users
  · exact ht.subProcess
  · show n ≤ userLimit
    omega
  · have hswap := range_map_swap_last (fun j => (p.users.entry j).pid) (show i ≤ n by omega)
    have hupd : Function.update (fun j => (p.users.entry j).pid) i (p.users.entry n).pid =
        fun j => (Function.update p.users.entry i (p.users.entry n) j).pid := by
      funext j
      by_cases hji : j = i
      · simp [hji]
      · simp [hji]
    rw [hupd, ← hn] at hswap
    have hall := hswap.symm.trans (ht.members.trans (List.perm_cons_erase hp))
    rw [show (p.users.entry i).pid = pid from hipid] at hall
    rw [hpids]
    exact hall.cons_inv
  · rw [hpids]
    exact ht.nodup.erase pid
  · intro q hq
    rw [hpids] at hq
    exact ht.below q (List.mem_of_mem_erase hq)
  · intro j hj
    have hj : j < n := hj
    show Function.update (Function.update p.subProcess.entry pid (-1)) (p.users.entry n).pid (i : Int)
      (Function.update p.users.entry i (p.users.entry n) j).pid = j
    by_cases hji : j = i
    · -- the entry that was moved, and `sub_process` with it
      rw [hji, Function.update_self, Function.update_self]
    · have hjn : (p.users.entry j).pid ≠ (p.users.entry n).pid := by
        intro h
        have := ht.pid_inj (by omega) (by omega) h
        omega
      have hjp : (p.users.entry j).pid ≠ pid := by
        intro h
        exact hji (ht.pid_inj (by omega) hi (h.trans hipid.symm))
      rw [Function.update_of_ne hji, Function.update_of_ne hjn, Function.update_of_ne hjp]
      exact ht.inverse j (by omega)
  · intro c hc
    obtain ⟨hc, hne⟩ := List.mem_filter.mp hc
    have hne : pid ≠ c.pid := (of_decide_eq_true hne).symm
    obtain ⟨k, hk, hsum⟩ := ht.number c hc
    refine ⟨k - 1, by simp [surplus, hne, hk], ?_⟩
    show (c.idx : Int) + (k - 1) = (n : Int)
    omega

end Reap

/-- The last entry takes the place of the one that is removed. -/
theorem members_without (pid : Nat) {i n : Nat} (hi : i < p.userCount) (hn : p.userCount = n + 1) :
    p.members.Perm (((p.users.entry i).pid, (p.users.entry i).pipefd.1) ::
      (p.without pid i n).members) := by
  have hswap := range_map_swap_last (fun j => ((p.users.entry j).pid, (p.users.entry j).pipefd.1))
    (show i ≤ n by omega)
  have hupd : Function.update (fun j => ((p.users.entry j).pid, (p.users.entry j).pipefd.1)) i
      ((p.users.entry n).pid, (p.users.entry n).pipefd.1) =
      fun j => ((Function.update p.users.entry i (p.users.entry n) j).pid,
        (Function.update p.users.entry i (p.users.entry n) j).pipefd.1) := by
    funext j
    by_cases hji : j = i
    · simp [hji]
    · simp [hji]
  rw [hupd, ← hn] at hswap
  exact hswap

/-- The tables after the children `reaped` were, of which `gone` were the entries. -/
structure Reaps (p : Parent) (reaped : List Nat) (p' : Parent) (gone : List (Nat × Nat)) : Prop where
  pids : gone.map Prod.fst = reaped
  members : p.members.Perm (gone ++ p'.members)
  terminate : p'.terminate = p.terminate

/-- Those that are reaped after `q` are still there. -/
theorem mem_pids_after {q : Nat} {reaped : List Nat} (hcs : (pids cs).Nodup) (hnd : (q :: reaped).Nodup)
    (hp : ∀ x ∈ q :: reaped, x ∈ pids cs) : ∀ x ∈ reaped, x ∈ pids (cs.filter (·.pid ≠ q)) := by
  intro x hx
  rw [pids_filter_ne hcs]
  have hne : x ≠ q := fun h => (List.nodup_cons.mp hnd).1 (h ▸ hx)
  exact (List.mem_erase_of_ne hne).mpr (hp x (List.mem_cons_of_mem _ hx))

theorem filter_reaped_cons (cs : List Child) (q : Nat) (reaped : List Nat) :
    cs.filter (·.pid ∉ q :: reaped) = (cs.filter (·.pid ≠ q)).filter (·.pid ∉ reaped) := by
  rw [List.filter_filter]
  apply List.filter_congr
  intro c _
  simp [Bool.and_comm]

/-- All children of a signal are reaped. -/
theorem Table.reapAll (ht : Table p cs log) {reaped : List Nat} (hnd : reaped.Nodup)
    (hp : ∀ q ∈ reaped, q ∈ pids cs) :
    ∃ p' gone, p.reapAll reaped = .ok (p', drops gone) ∧
      Table p' (cs.filter (·.pid ∉ reaped)) (reaped.reverse.map Event.reaped ++ log) ∧
      Reaps p reaped p' gone ∧ p'.stopServer = p.stopServer := by
  induction reaped generalizing p cs log with
  | nil => exact ⟨p, [], rfl, by simpa using ht, ⟨rfl, List.Perm.refl _, rfl⟩, rfl⟩
  | cons q reaped ih =>
      obtain ⟨i, hi, hipid, -⟩ := ht.find (hp q List.mem_cons_self)
      obtain ⟨n, hn⟩ : ∃ n, p.userCount = n + 1 := Nat.exists_eq_succ_of_ne_zero (by omega)
      obtain ⟨p', gone, heq, ht', ⟨hpids, hperm, hterm⟩, hstop⟩ :=
        ih (ht.without hi hipid hn) (List.nodup_cons.mp hnd).2 (mem_pids_after ht.nodup hnd hp)
      refine ⟨p', (q, (p.users.entry i).pipefd.1) :: gone, ?_, ?_, ⟨?_, ?_, hterm⟩, hstop⟩
      · simp only [Parent.reapAll, reap_eq ht hi hipid hn, heq, ok_bind]
        rfl
      · rw [filter_reaped_cons]
        simpa using ht'
      · rw [List.map_cons, hpids]
      · have hfirst := members_without q hi hn
        rw [hipid] at hfirst
        exact hfirst.trans (hperm.cons _)

/-- Raising one of the two flags. -/
theorem Table.flags (ht : Table p cs log) (b b' : Bool) :
    Table { p with stopServer := b, terminate := b' } cs log :=
  ⟨ht.users, ht.subProcess, ht.limit, ht.members, ht.nodup, ht.below, ht.inverse, ht.number⟩

/-- Reaping children keeps the table. -/
theorem Table.onChld (ht : Table p cs log) {reaped : List Nat} (hnd : reaped.Nodup)
    (hp : ∀ q ∈ reaped, q ∈ pids cs) :
    ∃ p' gone, p.onChld reaped = .ok (p', drops gone) ∧
      Table p' (cs.filter (·.pid ∉ reaped)) (reaped.reverse.map Event.reaped ++ log) ∧
      Reaps p reaped p' gone ∧
      p'.stopServer = (p.stopServer || (p.terminate && p'.userCount == 0)) := by
  obtain ⟨p₁, gone, heq, ht₁, ⟨hpids, hperm, hterm⟩, hstop⟩ := ht.reapAll hnd hp
  refine ⟨{ p₁ with stopServer := p₁.stopServer || (p₁.terminate && p₁.userCount == 0) }, gone, ?_,
    ht₁.flags _ p₁.terminate, ⟨hpids, hperm, hterm⟩, ?_⟩
  · unfold Parent.onChld
    rw [heq, ok_bind]
    rfl
  · rw [hstop, hterm]

/-- The index of an entry is in bounds. -/
theorem Table.lt_users (ht : Table p cs log) {i : Nat} (hi : i < p.userCount) : i < p.users.length := by
  have := ht.limit
  rw [ht.users]
  omega

/-- Every child is signalled, and no one else. -/
theorem Table.onTerm (ht : Table p cs log) :
    ∃ p', p.onTerm = .ok (p', p.members.map fun x => .kill x.1) ∧ Table p' cs log ∧
      p'.members = p.members ∧ p'.stopServer = (p.stopServer || p.userCount == 0) := by
  unfold Parent.onTerm
  split
  · rename_i hnone
    have hcount : p.userCount = 0 := by simpa using hnone
    have hmembers : p.members = [] := by simp [Parent.members, hcount]
    refine ⟨{ p with stopServer := true }, ?_, ht.flags true p.terminate, rfl, ?_⟩
    · rw [hmembers]
      rfl
    · rw [hnone, Bool.or_true]
  · rename_i hsome
    have hkills : ((List.range p.userCount).mapM fun i => do
        let user ← p.users.read i
        return Call.kill user.pid) = .ok (p.members.map fun x => .kill x.1) := by
      unfold Parent.members
      rw [List.map_map]
      apply mapM_ok
      intro i hi
      rw [Block.read_eq (ht.lt_users (List.mem_range.mp hi)), ok_bind]
      rfl
    rw [hkills, ok_bind]
    refine ⟨{ p with terminate := true }, rfl, ht.flags p.stopServer true, rfl, ?_⟩
    rw [Bool.eq_false_iff.mpr hsome, Bool.or_false]

/-! ## Whole runs -/

variable {s s' : Server} {act : Action}

def Server.Tabled (s : Server) : Prop := Table s.parent s.children s.log

/-- Every step returns and keeps the tables; a fork adds a child numbered with the number of children,
and no other step adds one. -/
theorem Server.Tabled.step (ht : s.Tabled) (he : s.enabled act) :
    ∃ s', s.step act = .ok s' ∧ s'.Tabled ∧
      ((∃ connfd pipefd q, act = .accept (.conn connfd pipefd (some q)) ∧
          s.children.length < userLimit ∧
          s'.children = { pid := q, idx := s.children.length } :: s.children) ∨
        ((∀ connfd pipefd q, act = .accept (.conn connfd pipefd (some q)) →
            userLimit ≤ s.children.length) ∧ s'.children.Sublist s.children)) := by
  have hcount : s.parent.userCount = s.children.length := Table.count_eq ht
  cases act with
  | accept a =>
      obtain ⟨p', calls, heq, haccepts⟩ := Table.accepts ht (a := a) (by
        rintro connfd pipefd q rfl
        exact (he q rfl).2)
      refine ⟨_, by simp only [Server.step, heq, ok_bind]; rfl, ?_⟩
      cases haccepts with
      | failed => exact ⟨ht, .inr ⟨by simp, List.Sublist.refl _⟩⟩
      | full hfull => exact ⟨ht, .inr ⟨fun _ _ _ _ => hcount ▸ hfull, List.Sublist.refl _⟩⟩
      | unforked hroom => exact ⟨Table.spare ht _, .inr ⟨by simp, List.Sublist.refl _⟩⟩
      | @forked connfd pipefd q hroom =>
          obtain ⟨hnew, hlt⟩ := he q rfl
          refine ⟨Table.fork ht hnew hlt hroom _ rfl, .inl ⟨connfd, pipefd, q, rfl, by omega, ?_⟩⟩
          rw [hcount]
          rfl
  | chld reaped =>
      obtain ⟨p', gone, heq, ht', -⟩ := Table.onChld ht he.1 he.2
      refine ⟨{ parent := p', children := s.children.filter (·.pid ∉ reaped),
                log := reaped.reverse.map Event.reaped ++ s.log }, ?_, ht',
        .inr ⟨?_, List.filter_sublist⟩⟩
      · simp only [Server.step, heq, ok_bind]
        rfl
      · intro _ _ _ h
        cases h
  | term =>
      obtain ⟨p', heq, ht', -⟩ := Table.onTerm ht
      refine ⟨{ s with parent := p' }, ?_, ht', .inr ⟨?_, List.Sublist.refl _⟩⟩
      · simp only [Server.step, heq, ok_bind]
        rfl
      · intro _ _ _ h
        cases h

/-- The table is right in every reachable state. -/
theorem Server.tabled_of_reachable (hr : Server.machine.Reachable s) : s.Tabled := by
  apply hr.preserved
  · rintro s rfl
    exact Table.make
  · intro s act ht he
    obtain ⟨s', hs', ht', -⟩ := ht.step he
    exact ⟨s', hs', ht'⟩

/-! ## The tables agree with the children -/

/-- `user_count` is the number of children, and the two tables lead from each child to its entry and
back. -/
structure Server.Consistent (s : Server) : Prop where
  count : s.parent.userCount = s.children.length
  limit : s.parent.userCount ≤ userLimit
  entry : ∀ pid ∈ pids s.children, ∃! i, i < s.parent.userCount ∧ (s.parent.users.entry i).pid = pid
  inverse : ∀ i < s.parent.userCount, (s.parent.users.entry i).pid ∈ pids s.children ∧
    s.parent.subProcess.entry (s.parent.users.entry i).pid = i

theorem Server.Tabled.consistent (ht : s.Tabled) : s.Consistent where
  count := Table.count_eq ht
  limit := ht.limit
  entry := by
    intro pid hp
    obtain ⟨i, hi, hpid, -⟩ := Table.find ht hp
    refine ⟨i, ⟨hi, hpid⟩, ?_⟩
    rintro j ⟨hj, hpid'⟩
    exact Table.pid_inj ht hj hi (hpid'.trans hpid.symm)
  inverse := by
    intro i hi
    refine ⟨ht.members.mem_iff.mp (List.mem_map.mpr ⟨i, List.mem_range.mpr hi, rfl⟩), ?_⟩
    exact ht.inverse i hi

/-- Each child that a `SIGCHLD` reaps is found in the tables, as the earlier ones have left them. -/
theorem Table.reap_finds (ht : Table p cs log) {gone rest : List Nat}
    (hnd : (gone ++ pid :: rest).Nodup) (hp : ∀ q ∈ gone ++ pid :: rest, q ∈ pids cs) :
    ∃ p' calls, p.reapAll gone = .ok (p', calls) ∧
      ∃ i < p'.userCount, p'.subProcess.read pid = .ok (i : Int) := by
  obtain ⟨hgone, -, hdisj⟩ := List.nodup_append.mp hnd
  obtain ⟨p', calls, heq, ht', -⟩ :=
    ht.reapAll hgone (fun q hq => hp q (List.mem_append_left _ hq))
  have hmem : pid ∈ pids (cs.filter (·.pid ∉ gone)) := by
    obtain ⟨c, hc, rfl⟩ := List.mem_map.mp (hp pid (by simp))
    refine List.mem_map_of_mem (List.mem_filter.mpr ⟨hc, ?_⟩)
    simpa using fun h => hdisj c.pid h c.pid List.mem_cons_self rfl
  obtain ⟨i, hi, -, hsub⟩ := ht'.find hmem
  refine ⟨p', _, heq, i, hi, ?_⟩
  rw [Block.read_eq (by rw [ht'.subProcess]; exact ht'.below pid hmem), hsub]

/-- **The parent's tables agree with its children** in every reachable state. No index is out of range,
each child that is reaped is found among the first `user_count` entries, and `SIGTERM` is passed on to
the children and to no one else. -/
theorem process_tables (hr : Server.machine.Reachable s) :
    s.Consistent ∧
    (∀ act, Server.machine.enabled s act → ∃ s', Server.machine.step s act = .ok s') ∧
    (∀ gone pid rest, Server.machine.enabled s (.chld (gone ++ pid :: rest)) →
      ∃ p' calls, s.parent.reapAll gone = .ok (p', calls) ∧
        ∃ i < p'.userCount, p'.subProcess.read pid = .ok (i : Int)) ∧
    ∃ p' calls, s.parent.onTerm = .ok (p', calls) ∧
      calls.Perm ((pids s.children).map Call.kill) := by
  have ht := Server.tabled_of_reachable hr
  refine ⟨ht.consistent, ?_, ?_, ?_⟩
  · intro act he
    obtain ⟨s', hs', -⟩ := ht.step he
    exact ⟨s', hs'⟩
  · intro gone pid rest he
    exact Table.reap_finds ht he.1 he.2
  · obtain ⟨p', heq, -⟩ := Table.onTerm ht
    refine ⟨p', _, heq, ?_⟩
    have hperm : (s.parent.members.map Prod.fst).Perm (pids s.children) := Table.members_pids ht
    have hkills := hperm.map Call.kill
    rwa [List.map_map] at hkills

/-- Three children, one failed fork, and two of the children reaped at once. -/
theorem process_tables_two_leave :
    ∃ s, Server.machine.Reachable s ∧ s.children = [⟨11, 1⟩] ∧ s.parent.userCount = 1 ∧
      (s.parent.users.entry 0).pid = 11 ∧ s.Consistent := by
  obtain ⟨s, hr, hs⟩ := Machine.Reachable.of_replay (M := Server.machine)
    [.accept (.conn 20 (21, 22) (some 10)), .accept (.conn 23 (24, 25) (some 11)),
      .accept (.conn 26 (27, 28) none), .accept (.conn 26 (29, 30) (some 12)), .chld [12, 10]]
    (fun s => (s.children, s.parent.userCount, (s.parent.users.entry 0).pid)) rfl
    (b := ([⟨11, 1⟩], 1, 11)) (by decide +kernel)
  simp only [Prod.mk.injEq] at hs
  obtain ⟨hchildren, hcount, hpid⟩ := hs
  exact ⟨s, hr, hchildren, hcount, hpid, (process_tables hr).1⟩

/-! ## Segments -/

/-- The segments of two numbers are disjoint if the numbers differ. -/
theorem segments_disjoint {i j : Nat} (h : i ≠ j) :
    (i + 1) * bufferSize ≤ j * bufferSize ∨ (j + 1) * bufferSize ≤ i * bufferSize := by
  simp only [bufferSize]
  omega

/-- A newcomer's segment is free exactly if no running child has been followed by as many departures
as arrivals. -/
theorem isolated_fork (ht : s.Tabled) (hiso : s.Isolated) {q : Nat}
    (hroom : s.children.length < userLimit)
    (hchildren : s'.children = { pid := q, idx := s.children.length } :: s.children) :
    s'.Isolated ↔ ∀ c ∈ s.children, surplus s.log c.pid ≠ some 0 := by
  have hcount : s.parent.userCount = s.children.length := Table.count_eq ht
  -- a number plus what happened since is the number of children
  have hidx : ∀ c ∈ s.children, c.idx = s.children.length ↔ surplus s.log c.pid = some 0 := by
    intro c hc
    obtain ⟨k, hk, hsum⟩ := ht.number c hc
    rw [hk, Option.some.injEq]
    omega
  unfold Server.Isolated
  rw [hchildren, List.pairwise_cons]
  constructor
  · rintro ⟨⟨hnew, -⟩, -⟩ c hc h
    exact (hnew c hc).1 ((hidx c hc).mpr h).symm
  · intro h
    refine ⟨⟨?_, hiso.1⟩, ?_⟩
    · intro c hc
      have hne : s.children.length ≠ c.idx := fun heq => h c hc ((hidx c hc).mp heq.symm)
      exact ⟨hne, segments_disjoint hne⟩
    · intro c hc
      rcases List.mem_cons.mp hc with rfl | hc
      · exact Nat.mul_le_mul_right _ hroom
      · exact hiso.2 c hc

/-- With fewer children there are fewer that may share a segment. -/
theorem isolated_sublist (hiso : s.Isolated) (hsub : s'.children.Sublist s.children) :
    s'.Isolated :=
  ⟨hiso.1.sublist hsub, fun c hc => hiso.2 c (hsub.subset hc)⟩

/-- A step keeps the segments apart exactly if it meets the condition. -/
theorem Server.Tabled.isolated_step (ht : s.Tabled) (hiso : s.Isolated) (he : s.enabled act) :
    ∃ s', s.step act = .ok s' ∧ s'.Tabled ∧ (s'.Isolated ↔ s.Unbalanced act) := by
  obtain ⟨s', hs', ht', hcases⟩ := ht.step he
  refine ⟨s', hs', ht', ?_⟩
  rcases hcases with ⟨connfd, pipefd, q, rfl, hroom, hchildren⟩ | ⟨hfull, hsub⟩
  · rw [isolated_fork ht hiso hroom hchildren]
    exact ⟨fun h _ => h, fun h => h hroom⟩
  · refine iff_of_true (isolated_sublist hiso hsub) ?_
    cases act with
    | accept a =>
        cases a with
        | failed => trivial
        | conn connfd pipefd fork =>
            cases fork with
            | none => trivial
            | some q =>
                intro hroom
                exact absurd hroom (Nat.not_lt.mpr (hfull connfd pipefd q rfl))
    | chld reaped => trivial
    | term => trivial

/-- Throughout a run the children have segments of their own exactly if no child is forked in it while
some running child has been followed by as many departures as arrivals, its own included. No step of
the parent faults. -/
theorem isolated_iff {h : List (Server × Action)} (hr : Server.machine.Run h s) :
    (Machine.Throughout Server.Isolated h s ↔ Machine.Always Server.Unbalanced h) ∧
    ∀ act, Server.machine.enabled s act → ∃ s', Server.machine.step s act = .ok s' := by
  have hstart : ∀ s, Server.machine.init s → s.Tabled ∧ s.Isolated := by
    rintro s rfl
    exact ⟨Table.make, List.Pairwise.nil, by simp⟩
  refine ⟨(hr.exact_of_iff hstart fun s act ht hiso he => ht.isolated_step hiso he).1, ?_⟩
  intro act he
  obtain ⟨s', hs', -⟩ := (Server.tabled_of_reachable ⟨h, hr⟩).step he
  exact ⟨s', hs'⟩

/-- Last in, first out: a child leaves, the next one takes its number. -/
theorem isolated_last_leaves :
    ∃ h s, Server.machine.Run h s ∧ s.children = [⟨12, 1⟩, ⟨10, 0⟩] ∧
      Machine.Throughout Server.Isolated h s := by
  obtain ⟨h, s, hr, -, hs⟩ := Machine.Run.of_replay
    (M := Server.machine.restrict Server.Unbalanced)
    [.accept (.conn 20 (21, 22) (some 10)), .accept (.conn 23 (24, 25) (some 11)), .chld [11],
      .accept (.conn 20 (24, 25) (some 12))]
    Server.children rfl (b := [⟨12, 1⟩, ⟨10, 0⟩]) (by decide +kernel)
  obtain ⟨hr, hC⟩ := hr.of_restrict
  exact ⟨h, s, hr, hs, (isolated_iff hr).1.mpr hC⟩

/-- The first of two children leaves: the next one gets the number of the second. -/
theorem isolated_first_leaves_fails :
    ∃ h s, Server.machine.Run h s ∧
      h.map Prod.snd = [.accept (.conn 20 (21, 22) (some 10)),
        .accept (.conn 23 (24, 25) (some 11)), .chld [10],
        .accept (.conn 20 (21, 22) (some 12))] ∧
      s.children = [⟨12, 1⟩, ⟨11, 1⟩] ∧ ¬ s.Isolated := by
  obtain ⟨h, s, hr, has, hs⟩ := Machine.Run.of_replay (M := Server.machine)
    [.accept (.conn 20 (21, 22) (some 10)), .accept (.conn 23 (24, 25) (some 11)), .chld [10],
      .accept (.conn 20 (21, 22) (some 12))]
    Server.children rfl (b := [⟨12, 1⟩, ⟨11, 1⟩]) (by decide +kernel)
  refine ⟨h, s, hr, has, hs, ?_⟩
  rintro ⟨hpair, -⟩
  rw [hs, List.pairwise_cons] at hpair
  exact (hpair.1 ⟨11, 1⟩ (List.mem_singleton_self _)).1 rfl

end LinuxServer.Shm
