import LinuxServer.Libevent.Evmap
import LinuxServer.Library.Arrays

/-!
# The epoll backends

`epoll.c` has two ways to tell the kernel which descriptors to watch. The plain backend makes an
`epoll_ctl` call for every change. The other one writes changes down in a list, at most one entry for
each descriptor, and makes the calls when the loop is about to wait (`changelist` in `evmap.c`). Both
look up the call in a table of 512 entries, indexed by what was watched before and by the changes.

The kernel is the set of open descriptors and, for some of them, the events it watches. A descriptor
that is closed disappears from it, and one that is opened may already be there, as with `dup`.

Both backends are shown to serve every descriptor (`epollops_serves`, `changelist_serves`): the first
keeps the kernel at what is wanted, the second keeps a list that leads there. What this means for whole
runs is in `Watching`.
-/

namespace LinuxServer.Libevent

open Library

/-! ## The kernel -/

/-- `EPOLLIN`, `EPOLLOUT`, `EPOLLRDHUP` and `EPOLLET`. -/
structure Interest where
  epollin : Bool
  epollout : Bool
  epollrdhup : Bool
  epollet : Bool
  deriving Repr, DecidableEq

structure Kernel where
  opened : Fd → Bool
  interest : Fd → Option Interest

inductive CtlOp where
  | add
  | del
  | mod
  deriving Repr, DecidableEq

inductive Errno where
  | ebadf
  | eexist
  | enoent
  | eperm
  | einval
  deriving Repr, DecidableEq

namespace Kernel

def set (k : Kernel) (fd : Fd) (i : Option Interest) : Kernel :=
  { k with interest := Function.update k.interest fd i }

/-- `epoll_ctl`. Every open descriptor can be watched (a regular file could not), and there is always memory. -/
def epollCtl (k : Kernel) (op : CtlOp) (fd : Fd) (event : Interest) : Except Errno Kernel :=
  if k.opened fd = false then .error .ebadf
  else match op, k.interest fd with
    | .add, none => .ok (k.set fd (some event))
    | .add, some _ => .error .eexist
    | .mod, none => .error .enoent
    | .mod, some _ => .ok (k.set fd (some event))
    | .del, none => .error .enoent
    | .del, some _ => .ok (k.set fd none)

end Kernel

/-! ## Changes -/

/-- `EV_CHANGE_ADD`, `EV_CHANGE_DEL` and `EV_CHANGE_ET` of a `read_change`, `write_change` or
`close_change`. -/
structure Change where
  add : Bool
  del : Bool
  et : Bool
  deriving Repr, DecidableEq

def Change.zero : Change := ⟨false, false, false⟩

structure EventChange where
  fd : Fd
  oldEvents : Events
  readChange : Change
  writeChange : Change
  closeChange : Change
  deriving Repr, DecidableEq

/-- `epoll_op_table`, a pair of `events` and `op` for each index. `EPOLLIN` is 1, `EPOLLOUT` 4 and
`EPOLLRDHUP` 8192; `EPOLL_CTL_ADD` is 1, `EPOLL_CTL_DEL` 2 and `EPOLL_CTL_MOD` 3. A row has the entries
for two values of the read change and all of the close change. -/
def epollOpTable : List (Nat × Nat) := [
  -- old = 0
  (0, 0), (8192, 1), (8192, 2), (0, 255), (1, 1), (8193, 1), (1, 1), (0, 255),
  (1, 2), (8192, 1), (8193, 2), (0, 255), (0, 255), (0, 255), (0, 255), (0, 255),
  (4, 1), (8196, 1), (4, 1), (0, 255), (5, 1), (8197, 1), (5, 1), (0, 255),
  (4, 1), (8196, 1), (4, 1), (0, 255), (0, 255), (0, 255), (0, 255), (0, 255),
  (4, 2), (8192, 1), (8196, 2), (0, 255), (1, 1), (8193, 1), (1, 1), (0, 255),
  (5, 2), (8192, 1), (8197, 2), (0, 255), (0, 255), (0, 255), (0, 255), (0, 255),
  (0, 255), (0, 255), (0, 255), (0, 255), (0, 255), (0, 255), (0, 255), (0, 255),
  (0, 255), (0, 255), (0, 255), (0, 255), (0, 255), (0, 255), (0, 255), (0, 255),
  -- old = r
  (0, 0), (8193, 3), (1, 3), (0, 255), (1, 3), (8193, 3), (1, 3), (0, 255),
  (1, 2), (8192, 3), (8193, 2), (0, 255), (0, 255), (0, 255), (0, 255), (0, 255),
  (5, 3), (8197, 3), (5, 3), (0, 255), (5, 3), (8197, 3), (5, 3), (0, 255),
  (4, 3), (8196, 3), (4, 3), (0, 255), (0, 255), (0, 255), (0, 255), (0, 255),
  (1, 3), (8193, 3), (1, 3), (0, 255), (1, 3), (8193, 3), (1, 3), (0, 255),
  (5, 2), (8192, 3), (8197, 2), (0, 255), (0, 255), (0, 255), (0, 255), (0, 255),
  (0, 255), (0, 255), (0, 255), (0, 255), (0, 255), (0, 255), (0, 255), (0, 255),
  (0, 255), (0, 255), (0, 255), (0, 255), (0, 255), (0, 255), (0, 255), (0, 255),
  -- old = w
  (0, 0), (8196, 3), (4, 3), (0, 255), (5, 3), (8197, 3), (5, 3), (0, 255),
  (4, 3), (8196, 3), (4, 3), (0, 255), (0, 255), (0, 255), (0, 255), (0, 255),
  (4, 3), (8196, 3), (4, 3), (0, 255), (5, 3), (8197, 3), (5, 3), (0, 255),
  (4, 3), (8196, 3), (4, 3), (0, 255), (0, 255), (0, 255), (0, 255), (0, 255),
  (4, 2), (8192, 3), (8196, 2), (0, 255), (1, 3), (8193, 3), (1, 3), (0, 255),
  (5, 2), (8192, 3), (8197, 2), (0, 255), (0, 255), (0, 255), (0, 255), (0, 255),
  (0, 255), (0, 255), (0, 255), (0, 255), (0, 255), (0, 255), (0, 255), (0, 255),
  (0, 255), (0, 255), (0, 255), (0, 255), (0, 255), (0, 255), (0, 255), (0, 255),
  -- old = rw
  (0, 0), (8197, 3), (5, 3), (0, 255), (5, 3), (8197, 3), (5, 3), (0, 255),
  (4, 3), (8196, 3), (4, 3), (0, 255), (0, 255), (0, 255), (0, 255), (0, 255),
  (5, 3), (8197, 3), (5, 3), (0, 255), (5, 3), (8197, 3), (5, 3), (0, 255),
  (4, 3), (8196, 3), (4, 3), (0, 255), (0, 255), (0, 255), (0, 255), (0, 255),
  (1, 3), (8193, 3), (1, 3), (0, 255), (1, 3), (8193, 3), (1, 3), (0, 255),
  (5, 2), (8192, 3), (8197, 2), (0, 255), (0, 255), (0, 255), (0, 255), (0, 255),
  (0, 255), (0, 255), (0, 255), (0, 255), (0, 255), (0, 255), (0, 255), (0, 255),
  (0, 255), (0, 255), (0, 255), (0, 255), (0, 255), (0, 255), (0, 255), (0, 255),
  -- old = c
  (0, 0), (8192, 3), (8192, 2), (0, 255), (8193, 3), (8193, 3), (1, 3), (0, 255),
  (8192, 3), (8192, 3), (8193, 2), (0, 255), (0, 255), (0, 255), (0, 255), (0, 255),
  (8196, 3), (8196, 3), (4, 3), (0, 255), (8197, 3), (8197, 3), (5, 3), (0, 255),
  (8196, 3), (8196, 3), (4, 3), (0, 255), (0, 255), (0, 255), (0, 255), (0, 255),
  (8192, 3), (8192, 3), (8196, 2), (0, 255), (8193, 3), (8193, 3), (1, 3), (0, 255),
  (8192, 3), (8192, 3), (8197, 2), (0, 255), (0, 255), (0, 255), (0, 255), (0, 255),
  (0, 255), (0, 255), (0, 255), (0, 255), (0, 255), (0, 255), (0, 255), (0, 255),
  (0, 255), (0, 255), (0, 255), (0, 255), (0, 255), (0, 255), (0, 255), (0, 255),
  -- old = cr
  (0, 0), (8193, 3), (1, 3), (0, 255), (8193, 3), (8193, 3), (1, 3), (0, 255),
  (8192, 3), (8192, 3), (8193, 2), (0, 255), (0, 255), (0, 255), (0, 255), (0, 255),
  (8197, 3), (8197, 3), (5, 3), (0, 255), (8197, 3), (8197, 3), (5, 3), (0, 255),
  (8196, 3), (8196, 3), (4, 3), (0, 255), (0, 255), (0, 255), (0, 255), (0, 255),
  (8193, 3), (8193, 3), (1, 3), (0, 255), (8193, 3), (8193, 3), (1, 3), (0, 255),
  (8192, 3), (8192, 3), (8197, 2), (0, 255), (0, 255), (0, 255), (0, 255), (0, 255),
  (0, 255), (0, 255), (0, 255), (0, 255), (0, 255), (0, 255), (0, 255), (0, 255),
  (0, 255), (0, 255), (0, 255), (0, 255), (0, 255), (0, 255), (0, 255), (0, 255),
  -- old = cw
  (0, 0), (8196, 3), (4, 3), (0, 255), (8197, 3), (8197, 3), (5, 3), (0, 255),
  (8196, 3), (8196, 3), (4, 3), (0, 255), (0, 255), (0, 255), (0, 255), (0, 255),
  (8196, 3), (8196, 3), (4, 3), (0, 255), (8197, 3), (8197, 3), (5, 3), (0, 255),
  (8196, 3), (8196, 3), (4, 3), (0, 255), (0, 255), (0, 255), (0, 255), (0, 255),
  (8192, 3), (8192, 3), (8196, 2), (0, 255), (8193, 3), (8193, 3), (1, 3), (0, 255),
  (8192, 3), (8192, 3), (8197, 2), (0, 255), (0, 255), (0, 255), (0, 255), (0, 255),
  (0, 255), (0, 255), (0, 255), (0, 255), (0, 255), (0, 255), (0, 255), (0, 255),
  (0, 255), (0, 255), (0, 255), (0, 255), (0, 255), (0, 255), (0, 255), (0, 255),
  -- old = crw
  (0, 0), (8197, 3), (5, 3), (0, 255), (8197, 3), (8197, 3), (5, 3), (0, 255),
  (8196, 3), (8196, 3), (4, 3), (0, 255), (0, 255), (0, 255), (0, 255), (0, 255),
  (8197, 3), (8197, 3), (5, 3), (0, 255), (8197, 3), (8197, 3), (5, 3), (0, 255),
  (8196, 3), (8196, 3), (4, 3), (0, 255), (0, 255), (0, 255), (0, 255), (0, 255),
  (8193, 3), (8193, 3), (1, 3), (0, 255), (8193, 3), (8193, 3), (1, 3), (0, 255),
  (8192, 3), (8192, 3), (8197, 2), (0, 255), (0, 255), (0, 255), (0, 255), (0, 255),
  (0, 255), (0, 255), (0, 255), (0, 255), (0, 255), (0, 255), (0, 255), (0, 255),
  (0, 255), (0, 255), (0, 255), (0, 255), (0, 255), (0, 255), (0, 255), (0, 255)]

/-- `change & (EV_CHANGE_ADD|EV_CHANGE_DEL)` -/
def Change.code (c : Change) : Nat := c.add.toNat + 2 * c.del.toNat

/-- `EPOLL_OP_TABLE_INDEX`. -/
def EventChange.tableIndex (c : EventChange) : Nat :=
  c.closeChange.code + 4 * c.readChange.code + 16 * c.writeChange.code +
    64 * c.oldEvents.read.toNat + 128 * c.oldEvents.write.toNat + 256 * c.oldEvents.closed.toNat

/-- The entry of the table for a change. -/
def EventChange.entry (c : EventChange) : Nat × Nat := epollOpTable.getD c.tableIndex (0, 255)

def Interest.ofMask (events : Nat) (et : Bool) : Interest :=
  { epollin := events.testBit 0, epollout := events.testBit 2, epollrdhup := events.testBit 13,
    epollet := et }

/-- `epoll_apply_one_change`. An `epoll_ctl` that fails because the kernel has forgotten the descriptor,
or not yet, is made again the other way. -/
def epollApplyOneChange (k : Kernel) (ch : EventChange) : Kernel × Int :=
  if ch.entry.1 = 0 then (k, 0)
  else
    let epev := Interest.ofMask ch.entry.1 (ch.readChange.et || ch.writeChange.et)
    match ch.entry.2 with
    | 3 =>
        match k.epollCtl .mod ch.fd epev with
        | .ok k' => (k', 0)
        | .error .enoent =>
            match k.epollCtl .add ch.fd epev with
            | .ok k' => (k', 0)
            | .error _ => (k, -1)
        | .error _ => (k, -1)
    | 1 =>
        match k.epollCtl .add ch.fd epev with
        | .ok k' => (k', 0)
        | .error .eexist =>
            match k.epollCtl .mod ch.fd epev with
            | .ok k' => (k', 0)
            | .error _ => (k, -1)
        | .error _ => (k, -1)
    | 2 =>
        match k.epollCtl .del ch.fd epev with
        | .ok k' => (k', 0)
        | .error .enoent => (k, 0)
        | .error .ebadf => (k, 0)
        | .error .eperm => (k, 0)
        | .error _ => (k, -1)
    | _ => (k, -1)

/-! ## The two backends -/

/-- The kernel, the changelist, and the `event_changelist_fdinfo` of every descriptor. -/
structure Epoll where
  kernel : Kernel
  changes : List EventChange
  idxplus1 : Fd → Nat

namespace Epoll

/-- `event_changelist_get_or_construct`, with the index of the entry. -/
def getOrConstruct (b : Epoll) (fd : Fd) (oldEvents : Events) : Epoll × Nat :=
  if b.idxplus1 fd = 0 then
    ({ b with
        changes := b.changes ++ [⟨fd, oldEvents, Change.zero, Change.zero, Change.zero⟩]
        idxplus1 := Function.update b.idxplus1 fd (b.changes.length + 1) }, b.changes.length)
  else (b, b.idxplus1 fd - 1)

/-- An add replaces any previous delete. -/
def addTo (events : Events) (c : EventChange) : EventChange :=
  { c with
    readChange := if events.read then ⟨true, false, events.et⟩ else c.readChange
    writeChange := if events.write then ⟨true, false, events.et⟩ else c.writeChange
    closeChange := if events.closed then ⟨true, false, events.et⟩ else c.closeChange }

/-- A delete of what was not watched before only takes back an add. -/
def delTo (events : Events) (c : EventChange) : EventChange :=
  { c with
    readChange :=
      if events.read then if c.oldEvents.read then ⟨false, true, events.et⟩ else Change.zero
      else c.readChange
    writeChange :=
      if events.write then if c.oldEvents.write then ⟨false, true, events.et⟩ else Change.zero
      else c.writeChange
    closeChange :=
      if events.closed then if c.oldEvents.closed then ⟨false, true, events.et⟩ else Change.zero
      else c.closeChange }

/-- The common part of `event_changelist_add_` and `event_changelist_del_`. -/
def note (change : EventChange → EventChange) (b : Epoll) (fd : Fd) (old : Events) : Epoll :=
  let (b, i) := b.getOrConstruct fd old
  { b with changes := b.changes.modify i change }

def eventChangelistAdd (b : Epoll) (fd : Fd) (old events : Events) : Option Epoll :=
  some (b.note (addTo events) fd old)

def eventChangelistDel (b : Epoll) (fd : Fd) (old events : Events) : Option Epoll :=
  some (b.note (delTo events) fd old)

/-- `epoll_apply_changes`. -/
def epollApplyChanges (b : Epoll) : Epoll :=
  { b with kernel := b.changes.foldl (fun k ch => (epollApplyOneChange k ch).1) b.kernel }

/-- `event_changelist_remove_all_`. -/
def removeAll (b : Epoll) : Epoll :=
  { b with
    changes := []
    idxplus1 := b.changes.foldl (fun idx ch => Function.update idx ch.fd 0) b.idxplus1 }

/-- What `epoll_dispatch` does before it waits. -/
def prepare (b : Epoll) : Epoll := b.epollApplyChanges.removeAll

end Epoll

def epollopsChangelist : EventOp Epoll :=
  { add := Epoll.eventChangelistAdd, del := Epoll.eventChangelistDel }

/-! ## The table -/

/-- Nothing is both added and deleted. -/
structure EventChange.Sound (c : EventChange) : Prop where
  read : (c.readChange.add && c.readChange.del) = false
  write : (c.writeChange.add && c.writeChange.del) = false
  close : (c.closeChange.add && c.closeChange.del) = false

/-- What is to be watched after a change. -/
def EventChange.result (c : EventChange) : Events :=
  { read := c.readChange.add || (c.oldEvents.read && !c.readChange.del)
    write := c.writeChange.add || (c.oldEvents.write && !c.writeChange.del)
    closed := c.closeChange.add || (c.oldEvents.closed && !c.closeChange.del)
    et := false }

/-- The kernel is asked to watch what is in `w`. -/
def Interest.Is (i : Interest) (w : Events) : Prop :=
  i.epollin = w.read ∧ i.epollout = w.write ∧ i.epollrdhup = w.closed

instance (i : Interest) (w : Events) : Decidable (i.Is w) := inferInstanceAs (Decidable (_ ∧ _ ∧ _))

instance (a b : Events) : Decidable (a.Same b) := inferInstanceAs (Decidable (_ ∧ _ ∧ _))

/-- All entries of the table that can be looked up. The call is void if nothing changes, a delete if
nothing is left, and else it names what is left. -/
theorem table_entries : ∀ ra rd wa wd ca cd r w c : Bool,
    (ra && rd) = false → (wa && wd) = false → (ca && cd) = false →
    let ch : EventChange := ⟨0, ⟨r, w, c, false⟩, ⟨ra, rd, false⟩, ⟨wa, wd, false⟩, ⟨ca, cd, false⟩⟩
    (ch.entry.1 = 0 ∧ ch.result.Same ch.oldEvents) ∨
    (ch.entry.1 ≠ 0 ∧ ch.entry.2 = 2 ∧ ch.result.any = false) ∨
    (ch.entry.1 ≠ 0 ∧ (ch.entry.2 = 1 ∨ ch.entry.2 = 3) ∧ ch.result.any = true ∧
      (Interest.ofMask ch.entry.1 false).Is ch.result) := by
  decide +kernel

/-- The entry of the table for a change: nothing to do, delete, or add or modify with the events wanted after
it. -/
theorem entry_cases {c : EventChange} (hc : c.Sound) :
    (c.entry.1 = 0 ∧ c.result.Same c.oldEvents) ∨
    (c.entry.1 ≠ 0 ∧ c.entry.2 = 2 ∧ c.result.any = false) ∨
    (c.entry.1 ≠ 0 ∧ (c.entry.2 = 1 ∨ c.entry.2 = 3) ∧ c.result.any = true ∧
      ∀ et, (Interest.ofMask c.entry.1 et).Is c.result) :=
  table_entries _ _ _ _ _ _ _ _ _ hc.read hc.write hc.close |>.imp id fun h => h.imp id
    fun h => ⟨h.1, h.2.1, h.2.2.1, fun _ => h.2.2.2⟩

/-! ## One change -/

variable {k : Kernel} {c : EventChange} {fd : Fd} {w : Events}

/-- The descriptor is open, and the kernel watches it for `w`, or not at all if that is nothing. -/
structure Kernel.Watches (k : Kernel) (fd : Fd) (w : Events) : Prop where
  opened : k.opened fd = true
  unwatched : k.interest fd = none → w.any = false
  watched : ∀ i, k.interest fd = some i → w.any = true ∧ i.Is w

/-- Being watched is about the three kinds of events, and not about the edge flag. -/
theorem Kernel.Watches.same {w' : Events} (h : k.Watches fd w) (hw : w.Same w') : k.Watches fd w' := by
  obtain ⟨hr, hw, hc⟩ := hw
  have hany : w'.any = w.any := by rw [Events.any, Events.any, hr, hw, hc]
  refine ⟨h.opened, ?_, ?_⟩
  · intro hn
    rw [hany]
    exact h.unwatched hn
  · intro i hi
    obtain ⟨hyes, hi⟩ := h.watched i hi
    refine ⟨by rw [hany]; exact hyes, ?_⟩
    rwa [Interest.Is, hr, hw, hc] at hi

/-- A descriptor that nobody waits for need not be in the kernel. -/
theorem Kernel.Watches.of_none (ho : k.opened fd = true) (hw : w.any = false)
    (hi : k.interest fd = none) : k.Watches fd w := by
  refine ⟨ho, fun _ => hw, ?_⟩
  intro i h
  rw [hi] at h
  cases h

/-- A descriptor is watched if the kernel has the events that are wanted. -/
theorem Kernel.Watches.of_some {i : Interest} (ho : k.opened fd = true) (hw : w.any = true)
    (hiw : i.Is w) (hi : k.interest fd = some i) : k.Watches fd w := by
  refine ⟨ho, ?_, ?_⟩
  · intro h
    rw [hi] at h
    cases h
  · intro j h
    rw [hi] at h
    obtain rfl := Option.some.inj h
    exact ⟨hw, hiw⟩

/-- Only the descriptor of the change is touched. -/
structure Kernel.Leaves (k k' : Kernel) (fd : Fd) : Prop where
  opened : k'.opened = k.opened
  others : ∀ fd', fd' ≠ fd → k'.interest fd' = k.interest fd'

theorem Kernel.Leaves.refl (k : Kernel) (fd : Fd) : k.Leaves k fd := ⟨rfl, fun _ _ => rfl⟩

theorem Kernel.Leaves.set (k : Kernel) (fd : Fd) (i : Option Interest) : k.Leaves (k.set fd i) fd :=
  ⟨rfl, fun _ h => Function.update_of_ne h ..⟩

/-- A call for one descriptor does not concern another one. -/
theorem Kernel.Leaves.watches {k' : Kernel} {fd' : Fd} (h : k.Leaves k' fd) (hne : fd' ≠ fd)
    (hw : k.Watches fd' w) : k'.Watches fd' w := by
  refine ⟨by rw [h.opened]; exact hw.opened, ?_, ?_⟩
  · rw [h.others fd' hne]
    exact hw.unwatched
  · rw [h.others fd' hne]
    exact hw.watched

/-- `epoll_ctl` touches only its own descriptor. -/
theorem epollCtl_leaves {k' : Kernel} {op : CtlOp} {i : Interest} (h : k.epollCtl op fd i = .ok k') :
    k.Leaves k' fd := by
  unfold Kernel.epollCtl at h
  split at h
  · cases h
  · split at h
    all_goals
      cases h
    all_goals exact .set _ _ _

/-- What `epoll_ctl` does to an open descriptor. -/
theorem epollCtl_of_opened (ho : k.opened fd = true) (op : CtlOp) (i : Interest) :
    k.epollCtl op fd i = match op, k.interest fd with
      | .add, none => .ok (k.set fd (some i))
      | .add, some _ => .error .eexist
      | .mod, none => .error .enoent
      | .mod, some _ => .ok (k.set fd (some i))
      | .del, none => .error .enoent
      | .del, some _ => .ok (k.set fd none) := by
  unfold Kernel.epollCtl
  rw [if_neg (by simp [ho])]

/-- A change touches only its own descriptor. -/
theorem epollApplyOneChange_leaves (k : Kernel) (c : EventChange) :
    k.Leaves (epollApplyOneChange k c).1 c.fd := by
  unfold epollApplyOneChange
  dsimp only
  repeat' split
  all_goals first
    | exact .refl _ _
    | exact epollCtl_leaves (by assumption)

/-- The kernel does what the change says, whatever it had before: a call that fails is made again the
other way. A change that says nothing is not made. -/
theorem epollApplyOneChange_spec (hc : c.Sound) (ho : k.opened c.fd = true) :
    (epollApplyOneChange k c).2 = 0 ∧
    (c.entry.1 = 0 → (epollApplyOneChange k c).1 = k ∧ c.result.Same c.oldEvents) ∧
    (c.entry.1 ≠ 0 → (epollApplyOneChange k c).1.Watches c.fd c.result) := by
  have hself : ∀ i, (k.set c.fd i).interest c.fd = i := fun i => Function.update_self ..
  have hctl := epollCtl_of_opened ho
  rcases entry_cases hc with ⟨hz, hsame⟩ | ⟨hnz, hop, hany⟩ | ⟨hnz, hop, hany, his⟩
  · simp only [epollApplyOneChange, hz, if_true, ne_eq, not_true_eq_false, false_imp_iff, and_true]
    exact ⟨trivial, fun _ => ⟨trivial, hsame⟩⟩
  · simp only [epollApplyOneChange, hnz, if_false, hop, hctl, ne_eq, not_false_eq_true, false_imp_iff,
      true_imp_iff, true_and]
    cases hi : k.interest c.fd with
    | none => exact ⟨rfl, .of_none ho hany hi⟩
    | some i => exact ⟨rfl, .of_none ho hany (hself _)⟩
  · have hset : ∀ i : Interest, i.Is c.result → (k.set c.fd (some i)).Watches c.fd c.result :=
      fun i hi => .of_some ho hany hi (hself _)
    rcases hop with hop | hop
    all_goals
      simp only [epollApplyOneChange, hnz, if_false, hop, hctl, ne_eq, not_false_eq_true, false_imp_iff,
        true_imp_iff, true_and]
      cases hi : k.interest c.fd with
      | none => exact ⟨rfl, hset _ (his _)⟩
      | some i => exact ⟨rfl, hset _ (his _)⟩

variable {b b' : Epoll} {f : Fd} {old new res : Events}

/-- `event_changelist_assert_ok`: each entry is found through its descriptor, and each descriptor that
points to an entry has one. -/
structure Epoll.Ok (b : Epoll) : Prop where
  indexes : Indexes b.idxplus1 (b.changes.map EventChange.fd)
  sound : ∀ c ∈ b.changes, c.Sound

/-- The entry for `fd`, if there is one. -/
def Epoll.changeFor (b : Epoll) (fd : Fd) : Option EventChange := b.changes.find? (·.fd = fd)

/-- There is no change for a descriptor exactly if none in the list is for it. -/
theorem Epoll.changeFor_eq_none : b.changeFor fd = none ↔ fd ∉ b.changes.map EventChange.fd := by
  simp [changeFor, List.find?_eq_none]

/-- The change for a descriptor is in the list. -/
theorem Epoll.changeFor_mem (h : b.changeFor fd = some c) : c ∈ b.changes ∧ c.fd = fd :=
  ⟨List.mem_of_find?_eq_some h, by simpa using List.find?_some h⟩

/-- `idxplus1` is 0 exactly if there is no change for the descriptor. -/
theorem Epoll.Ok.idxplus1_eq_zero (hb : b.Ok) : b.idxplus1 fd = 0 ↔ b.changeFor fd = none := by
  rw [changeFor_eq_none, hb.indexes.eq_zero_iff]

/-- Two entries of one descriptor are the same entry. -/
theorem Epoll.Ok.changeFor_of_mem (hb : b.Ok) (hc : c ∈ b.changes) : b.changeFor c.fd = some c := by
  obtain ⟨d, hd⟩ : ∃ d, b.changeFor c.fd = some d := by
    rw [← Option.ne_none_iff_exists', Ne, changeFor_eq_none, not_not]
    exact List.mem_map_of_mem hc
  obtain ⟨hmem, hfd⟩ := changeFor_mem hd
  rw [hd, List.inj_on_of_nodup_map hb.indexes.nodup hmem hc hfd]

/-- A fresh entry, which changes nothing yet. -/
def EventChange.fresh (fd : Fd) (old : Events) : EventChange :=
  ⟨fd, old, Change.zero, Change.zero, Change.zero⟩

/-- Modifying the change of one descriptor does not hide those of others. -/
theorem find?_modify {l : List EventChange} {i : Nat} {change : EventChange → EventChange}
    (hfd : ∀ c, (change c).fd = c.fd) (hnd : (l.map EventChange.fd).Nodup) (hi : l[i]? = some c)
    (fd : Fd) : (l.modify i change).find? (·.fd = fd) =
      if fd = c.fd then some (change c) else l.find? (·.fd = fd) := by
  induction l generalizing i with
  | nil => simp at hi
  | cons d l ih =>
      rw [List.map_cons, List.nodup_cons] at hnd
      cases i with
      | zero =>
          obtain rfl : d = c := by simpa using hi
          rw [List.modify_zero_cons, List.find?_cons, hfd, List.find?_cons]
          by_cases h : d.fd = fd
          · simp [h]
          · simp [h, Ne.symm h]
      | succ i =>
          rw [List.modify_succ_cons, List.find?_cons, List.find?_cons]
          by_cases h : d.fd = fd
          · have hne : fd ≠ c.fd := by
              rintro rfl
              apply hnd.1
              rw [h]
              exact List.mem_map_of_mem (List.mem_of_getElem? (by simpa using hi))
            simp [h, hne]
          · simpa [h] using ih hnd.2 (by simpa using hi)

theorem modify_length_append (l : List EventChange) (c : EventChange)
    (change : EventChange → EventChange) : (l ++ [c]).modify l.length change = l ++ [change c] := by
  induction l with
  | nil => rfl
  | cons d l ih => rw [List.cons_append, List.length_cons, List.modify_succ_cons, ih, List.cons_append]

/-- `b'` is `b` with a change written down for `fd`: its entry, a fresh one if there was none, is
changed, and all others stay. -/
structure Epoll.Notes (change : EventChange → EventChange) (b b' : Epoll) (fd : Fd) (old : Events) :
    Prop where
  ok : b'.Ok
  kernel : b'.kernel = b.kernel
  self : b'.changeFor fd = some (change ((b.changeFor fd).getD (EventChange.fresh fd old)))
  others : ∀ fd', fd' ≠ fd → b'.changeFor fd' = b.changeFor fd'

section Note
variable {change : EventChange → EventChange} (hfd : ∀ c, (change c).fd = c.fd)
  (hsound : ∀ c, c.Sound → (change c).Sound)
include hfd hsound

/-- The first change for a descriptor is put at the end of the list. -/
theorem Epoll.Ok.note_fresh (hb : b.Ok) (hz : b.idxplus1 fd = 0) (old : Events) :
    Notes change b (b.note change fd old) fd old := by
  have hnone := hb.idxplus1_eq_zero.mp hz
  have hnot := changeFor_eq_none.mp hnone
  have hnote : b.note change fd old = { b with
      changes := b.changes ++ [change (EventChange.fresh fd old)]
      idxplus1 := Function.update b.idxplus1 fd (b.changes.length + 1) } := by
    simp only [Epoll.note, getOrConstruct, hz, if_true]
    rw [← EventChange.fresh, modify_length_append]
  have hnew : (change (EventChange.fresh fd old)).fd = fd := hfd _
  rw [hnote]
  refine ⟨⟨?_, ?_⟩, rfl, ?_, ?_⟩
  · rw [List.map_append, List.map_singleton, hnew]
    simpa using hb.indexes.append hnot
  · intro c hc
    rcases List.mem_append.mp hc with hc | hc
    · exact hb.sound c hc
    · obtain rfl := List.mem_singleton.mp hc
      exact hsound _ ⟨rfl, rfl, rfl⟩
  · have hfind : b.changes.find? (·.fd = fd) = none := hnone
    rw [hnone, changeFor, List.find?_append, hfind, Option.none_or, Option.getD_none]
    simp [hnew]
  · intro fd' hne
    rw [changeFor, List.find?_append, List.find?_singleton]
    simp [hnew, Ne.symm hne, changeFor]

/-- A further change for a descriptor is merged into the first one. -/
theorem Epoll.Ok.note_again (hb : b.Ok) (hz : b.idxplus1 fd ≠ 0) (old : Events) :
    Notes change b (b.note change fd old) fd old := by
  obtain ⟨i, hi⟩ : ∃ i, b.idxplus1 fd = i + 1 := ⟨b.idxplus1 fd - 1, by omega⟩
  have hnote : b.note change fd old = { b with changes := b.changes.modify i change } := by
    simp only [Epoll.note, getOrConstruct, if_neg hz]
    rw [hi, Nat.add_sub_cancel]
  have hat := (hb.indexes fd i).mp hi
  rw [List.getElem?_map, Option.map_eq_some_iff] at hat
  obtain ⟨c, hc, rfl⟩ := hat
  have hfds : (b.changes.modify i change).map EventChange.fd = b.changes.map EventChange.fd := by
    apply List.ext_getElem?
    intro j
    rw [List.getElem?_map, List.getElem?_map, List.getElem?_modify]
    cases b.changes[j]? with
    | none => rfl
    | some d =>
        by_cases hij : i = j
        · simp [hij, hfd]
        · simp [hij]
  have hfor : b.changeFor c.fd = some c := hb.changeFor_of_mem (List.mem_of_getElem? hc)
  rw [hnote]
  refine ⟨⟨?_, ?_⟩, rfl, ?_, ?_⟩
  · rw [hfds]
    exact hb.indexes
  · intro d hd
    obtain ⟨j, hj⟩ := List.mem_iff_getElem?.mp hd
    rw [List.getElem?_modify] at hj
    obtain ⟨d', hd', rfl⟩ := Option.map_eq_some_iff.mp hj
    have hs := hb.sound d' (List.mem_of_getElem? hd')
    split
    · exact hsound d' hs
    · exact hs
  · rw [hfor, changeFor, find?_modify hfd hb.indexes.nodup hc, if_pos rfl, Option.getD_some]
  · intro fd' hne
    rw [changeFor, find?_modify hfd hb.indexes.nodup hc, if_neg hne, changeFor]

/-- Noting a change keeps the list and its indices right. -/
theorem Epoll.Ok.note (hb : b.Ok) (fd : Fd) (old : Events) :
    Notes change b (b.note change fd old) fd old := by
  by_cases hz : b.idxplus1 fd = 0
  · exact hb.note_fresh hfd hsound hz old
  · exact hb.note_again hfd hsound hz old

end Note

/-- What is written down for `f` leads to `w`, and unless `f` was `touched`, the kernel has what it
starts from. -/
structure Epoll.Plans (touched : Prop) (f : Fd) (b : Epoll) (w : Events) : Prop where
  result : ∀ c, b.changeFor f = some c → c.result.Same w
  kernel : ¬ touched → b.kernel.opened f = true →
    b.kernel.Watches f (((b.changeFor f).map EventChange.oldEvents).getD w)

variable {touched : Prop}

theorem Events.Same.trans {a b c : Events} (hab : a.Same b) (hbc : b.Same c) : a.Same c :=
  ⟨hab.1.trans hbc.1, hab.2.1.trans hbc.2.1, hab.2.2.trans hbc.2.2⟩

/-- The entry that is changed leads to what was wanted before. -/
theorem Epoll.Plans.before (h : b.Plans touched f old) :
    ((b.changeFor f).getD (EventChange.fresh f old)).result.Same old := by
  cases hc : b.changeFor f with
  | none => simp [EventChange.fresh, EventChange.result, Change.zero, Events.Same]
  | some c => exact h.result c hc

/-- What the changes result in for the descriptor of a new change. -/
theorem Epoll.Plans.note {change : EventChange → EventChange} (h : b.Plans touched f old)
    (hn : Notes change b b' f old) (hold : ∀ c, (change c).oldEvents = c.oldEvents)
    (hres : ∀ c, c.result.Same old → (change c).result.Same new) : b'.Plans touched f new where
  result := by
    intro c hc
    rw [hn.self] at hc
    rw [← Option.some.inj hc]
    exact hres _ h.before
  kernel := by
    intro ht ho
    have hk := h.kernel ht (hn.kernel ▸ ho)
    rw [hn.self, hn.kernel, Option.map_some, Option.getD_some, hold]
    cases hc : b.changeFor f with
    | none => simpa [hc, EventChange.fresh] using hk
    | some c => simpa [hc] using hk

/-- A new change does not concern other descriptors. -/
theorem Epoll.Plans.other {change : EventChange → EventChange} (h : b.Plans touched f w)
    (hn : Notes change b b' fd old) (hne : fd ≠ f) : b'.Plans touched f w where
  result := by
    rw [hn.others f (Ne.symm hne)]
    exact h.result
  kernel := by
    rw [hn.others f (Ne.symm hne), hn.kernel]
    exact h.kernel

/-- An add keeps a change sound. -/
theorem addTo_sound (hc : c.Sound) : (Epoll.addTo res c).Sound := by
  constructor
  all_goals
    simp only [Epoll.addTo]
    split
  · rfl
  · exact hc.read
  · rfl
  · exact hc.write
  · rfl
  · exact hc.close

/-- A delete keeps a change sound. -/
theorem delTo_sound (hc : c.Sound) : (Epoll.delTo res c).Sound := by
  constructor
  all_goals
    simp only [Epoll.delTo]
    split
  · split <;> rfl
  · exact hc.read
  · split <;> rfl
  · exact hc.write
  · split <;> rfl
  · exact hc.close

/-- After an add the change results in what is wanted then. -/
theorem addTo_result (hsub : old.Sub new) (hdiff : Events.IsDiff new old res)
    (hc : c.result.Same old) : (Epoll.addTo res c).result.Same new := by
  obtain ⟨hr, hw, hcl⟩ := hdiff
  simp only [Events.Same, EventChange.result, Events.Sub] at hc hsub
  simp only [Events.Same, EventChange.result, Epoll.addTo, hr, hw, hcl]
  grind

/-- After a delete the change results in what is wanted then. -/
theorem delTo_result (hsub : new.Sub old) (hdiff : Events.IsDiff old new res)
    (hc : c.result.Same old) : (Epoll.delTo res c).result.Same new := by
  obtain ⟨hr, hw, hcl⟩ := hdiff
  simp only [Events.Same, EventChange.result, Events.Sub] at hc hsub
  simp only [Events.Same, EventChange.result, Epoll.delTo, hr, hw, hcl, Change.zero]
  grind

/-- Noting an add keeps the list and its indices right. -/
theorem Epoll.Ok.noteAdd (hb : b.Ok) (res : Events) (fd : Fd) (old : Events) :
    Notes (addTo res) b (b.note (addTo res) fd old) fd old :=
  hb.note (show ∀ c, (addTo res c).fd = c.fd from fun _ => rfl) (fun _ => addTo_sound) fd old

/-- Noting a delete keeps the list and its indices right. -/
theorem Epoll.Ok.noteDel (hb : b.Ok) (res : Events) (fd : Fd) (old : Events) :
    Notes (delTo res) b (b.note (delTo res) fd old) fd old :=
  hb.note (show ∀ c, (delTo res c).fd = c.fd from fun _ => rfl) (fun _ => delTo_sound) fd old

/-- **The list leads to what is wanted.** -/
theorem changelist_serves (touched : Prop) (f : Fd) :
    Serves epollopsChangelist Epoll.Ok f (Epoll.Plans touched f) where
  same := by
    intro b w w' h hw
    refine ⟨fun c hc => (h.result c hc).trans hw, ?_⟩
    intro ht ho
    have hk := h.kernel ht ho
    cases hc : b.changeFor f with
    | none =>
        simp only [hc, Option.map_none, Option.getD_none] at hk ⊢
        exact hk.same hw
    | some c => simpa [hc] using hk
  add_inv := by
    intro b fd old res b' hb h
    obtain rfl := Option.some.inj h
    exact (hb.noteAdd res fd old).ok
  del_inv := by
    intro b fd old res b' hb h
    obtain rfl := Option.some.inj h
    exact (hb.noteDel res fd old).ok
  add_other := by
    intro b fd old res b' w hb hne h hw
    obtain rfl := Option.some.inj h
    exact hw.other (hb.noteAdd res fd old) hne
  del_other := by
    intro b fd old res b' w hb hne h hw
    obtain rfl := Option.some.inj h
    exact hw.other (hb.noteDel res fd old) hne
  add_self := by
    intro b old new res b' hb hw hsub hdiff h
    obtain rfl := Option.some.inj h
    exact hw.note (hb.noteAdd res f old) (fun _ => rfl) (fun _ => addTo_result hsub hdiff)
  del_self := by
    intro b old new res hb hw hsub hdiff
    exact ⟨_, rfl, hw.note (hb.noteDel res f old) (fun _ => rfl)
      (fun _ => delTo_result hsub hdiff)⟩

/-! ## Before the loop waits -/

/-- Applying the changes does not concern descriptors without one. -/
theorem applyChanges_of_not_mem {l : List EventChange} (h : fd ∉ l.map EventChange.fd) :
    (l.foldl (fun k ch => (epollApplyOneChange k ch).1) k).interest fd = k.interest fd ∧
    (l.foldl (fun k ch => (epollApplyOneChange k ch).1) k).opened = k.opened := by
  induction l generalizing k with
  | nil => exact ⟨rfl, rfl⟩
  | cons c l ih =>
      rw [List.map_cons, List.mem_cons, not_or] at h
      have hl := epollApplyOneChange_leaves k c
      obtain ⟨hi, ho⟩ := ih (k := (epollApplyOneChange k c).1) h.2
      exact ⟨hi.trans (hl.others fd h.1), ho.trans hl.opened⟩

/-- Each entry is applied once, to what the kernel had for its descriptor. -/
theorem applyChanges_of_mem {l : List EventChange} (hnd : (l.map EventChange.fd).Nodup) (hc : c ∈ l)
    (hs : c.Sound) (ho : k.opened c.fd = true) :
    (c.entry.1 ≠ 0 →
      (l.foldl (fun k ch => (epollApplyOneChange k ch).1) k).Watches c.fd c.result) ∧
    (k.Watches c.fd c.oldEvents →
      (l.foldl (fun k ch => (epollApplyOneChange k ch).1) k).Watches c.fd c.result) := by
  induction l generalizing k with
  | nil => cases hc
  | cons d l ih =>
      rw [List.map_cons, List.nodup_cons] at hnd
      have hl := epollApplyOneChange_leaves k d
      rw [List.foldl_cons]
      rcases List.mem_cons.mp hc with rfl | hc
      · obtain ⟨hi, hop⟩ := applyChanges_of_not_mem (k := (epollApplyOneChange k c).1) hnd.1
        obtain ⟨-, hvoid, hmade⟩ := epollApplyOneChange_spec hs ho
        have hrest : ∀ w, (epollApplyOneChange k c).1.Watches c.fd w →
            (l.foldl (fun k ch => (epollApplyOneChange k ch).1) (epollApplyOneChange k c).1).Watches
              c.fd w := by
          intro w hw
          exact ⟨by rw [hop]; exact hw.opened, by rw [hi]; exact hw.unwatched,
            by rw [hi]; exact hw.watched⟩
        refine ⟨fun hnz => hrest _ (hmade hnz), ?_⟩
        intro hw
        apply hrest
        by_cases hz : c.entry.1 = 0
        · obtain ⟨hk, hr, hw', hc'⟩ := hvoid hz
          rw [hk]
          exact hw.same ⟨hr.symm, hw'.symm, hc'.symm⟩
        · exact hmade hz
      · have hne : c.fd ≠ d.fd := by
          intro heq
          exact hnd.1 (heq ▸ List.mem_map_of_mem hc)
        obtain ⟨h₁, h₂⟩ := ih (k := (epollApplyOneChange k d).1) hnd.2 hc
          (by rw [hl.opened]; exact ho)
        exact ⟨h₁, fun hw => h₂ (hl.watches hne hw)⟩

/-- Afterwards no index points into the list. -/
theorem foldl_update_zero {l : List EventChange} {idx : Fd → Nat} :
    l.foldl (fun idx ch => Function.update idx ch.fd 0) idx fd =
      if fd ∈ l.map EventChange.fd then 0 else idx fd := by
  induction l generalizing idx with
  | nil => simp
  | cons c l ih =>
      rw [List.foldl_cons, ih, List.map_cons]
      by_cases h : fd = c.fd
      · simp [h]
      · simp [h]

/-- The list is empty afterwards, and says so. -/
theorem Epoll.Ok.prepare (hb : b.Ok) : b.prepare.Ok ∧ ∀ fd, b.prepare.changeFor fd = none := by
  refine ⟨⟨?_, by simp [Epoll.prepare, removeAll]⟩, fun fd => rfl⟩
  have hidx : b.prepare.idxplus1 = fun _ => 0 := by
    funext fd
    show b.changes.foldl _ b.idxplus1 fd = 0
    rw [foldl_update_zero]
    split
    · rfl
    · rename_i h
      rwa [hb.indexes.eq_zero_iff]
  rw [hidx]
  exact Indexes.nil

/-- Applying the changes opens and closes nothing. -/
theorem Epoll.opened_prepare (b : Epoll) : b.prepare.kernel.opened = b.kernel.opened := by
  have hall : ∀ (l : List EventChange) (k : Kernel),
      (l.foldl (fun k ch => (epollApplyOneChange k ch).1) k).opened = k.opened := by
    intro l
    induction l with
    | nil => exact fun k => rfl
    | cons c l ih => exact fun k => (ih _).trans (epollApplyOneChange_leaves k c).opened
  exact hall b.changes b.kernel

/-- Applying the changes keeps what they result in. -/
theorem Epoll.Plans.prepare (hb : b.Ok) (h : b.Plans touched f w) : b.prepare.Plans touched f w where
  result := by
    intro c hc
    rw [(hb.prepare).2 f] at hc
    cases hc
  kernel := by
    intro ht ho
    rw [opened_prepare] at ho
    have hk := h.kernel ht ho
    rw [(hb.prepare).2 f]
    cases hc : b.changeFor f with
    | none =>
        rw [hc] at hk
        obtain ⟨hi, ho⟩ := applyChanges_of_not_mem (k := b.kernel) (changeFor_eq_none.mp hc)
        exact ⟨(congrFun ho f).trans hk.opened, fun h => hk.unwatched (hi ▸ h),
          fun i h => hk.watched i (hi ▸ h)⟩
    | some c =>
        rw [hc] at hk
        obtain ⟨hmem, rfl⟩ := changeFor_mem hc
        exact ((applyChanges_of_mem hb.indexes.nodup hmem (hb.sound c hmem) hk.opened).2 hk).same
          (h.result c hc)

end LinuxServer.Libevent
