import LinuxServer.Library.Machine
import Mathlib.Data.List.Count

/-!
# The map from descriptors to events

`evmap.c` keeps for each descriptor the events that wait on it, and counts how many of them want to
read, to write, or to hear that the peer has closed. The backend (epoll, poll, …) is told only when one
of these counts leaves 0 or comes back to it.

The backend is a parameter, a `struct eventop`. `Integrity` is what `evmap_io_check_integrity_fn`
asserts. From it follows what a backend may rely on: it is asked to add only what is not wanted yet, and
to delete only what is no longer wanted. `Serves` is what it has to do in turn.
-/

namespace LinuxServer.Libevent

/-- `evutil_socket_t`. -/
abbrev Fd := Int

/-- The bits `EV_READ`, `EV_WRITE`, `EV_CLOSED` and `EV_ET` of a set of events. -/
structure Events where
  read : Bool
  write : Bool
  closed : Bool
  et : Bool
  deriving Repr, DecidableEq

namespace Events

/-- `events & (EV_READ|EV_WRITE|EV_CLOSED)` -/
def any (e : Events) : Bool := e.read || e.write || e.closed

/-- `e & events` -/
def inter (e events : Events) : Events :=
  { read := e.read && events.read, write := e.write && events.write
    closed := e.closed && events.closed, et := e.et && events.et }

/-- Both have the same of `EV_READ`, `EV_WRITE` and `EV_CLOSED`. -/
def Same (a b : Events) : Prop := a.read = b.read ∧ a.write = b.write ∧ a.closed = b.closed

/-- `c` is what is in `a` and not in `b`, apart from `EV_ET`. -/
def IsDiff (a b c : Events) : Prop :=
  c.read = (a.read && !b.read) ∧ c.write = (a.write && !b.write) ∧ c.closed = (a.closed && !b.closed)

/-- `a` has nothing that `b` does not have. -/
def Sub (a b : Events) : Prop :=
  (a.read = true → b.read = true) ∧ (a.write = true → b.write = true) ∧
    (a.closed = true → b.closed = true)

end Events

/-- What `event_assign` has put into a `struct event`, as far as the map looks at it. -/
structure IoEvent where
  fd : Fd
  events : Events
  deriving Repr, DecidableEq

/-- `struct evmap_io`, with the events named by numbers. -/
structure EvmapIo where
  events : List Nat
  nread : Nat
  nwrite : Nat
  nclose : Nat
  deriving Repr, DecidableEq

/-- `evmap_io_init`. -/
def EvmapIo.init : EvmapIo := { events := [], nread := 0, nwrite := 0, nclose := 0 }

/-- The events the backend has been told about, `old` in the source. -/
def EvmapIo.wanted (ctx : EvmapIo) : Events :=
  { read := ctx.nread != 0, write := ctx.nwrite != 0, closed := ctx.nclose != 0, et := false }

/-- `struct eventop`: `add` and `del` are given the descriptor, the old events and those to be added or
deleted. `σ` is what the backend keeps, its `fdinfo` included; `none` is a result of -1. -/
structure EventOp (σ : Type) where
  add : σ → Fd → Events → Events → Option σ
  del : σ → Fd → Events → Events → Option σ

/-- The part of `struct event_base` that is about descriptors. -/
structure IoBase (σ : Type) where
  io : Fd → EvmapIo
  backend : σ

/-- Another entry for `fd`, and another state of the backend. -/
def IoBase.put {σ : Type} (base : IoBase σ) (fd : Fd) (ctx : EvmapIo) (b : σ) : IoBase σ :=
  { io := Function.update base.io fd ctx, backend := b }

/-- The descriptor that was written. -/
theorem io_put_self {σ : Type} (base : IoBase σ) (fd : Fd) (ctx : EvmapIo) (b : σ) :
    (base.put fd ctx b).io fd = ctx := Function.update_self ..

/-- The other descriptors stay. -/
theorem io_put_of_ne {σ : Type} {base : IoBase σ} {fd fd' : Fd} {ctx : EvmapIo} {b : σ} (h : fd' ≠ fd) :
    (base.put fd ctx b).io fd' = base.io fd' := Function.update_of_ne h ..

section
variable {σ : Type} (B : EventOp σ) (evs : Nat → IoEvent)

/-- `ev_uint16_t` holds no more. -/
def maxEvents : Nat := 0xffff

/-- `Tried to mix edge-triggered and non-edge-triggered events`, which is looked for in debug mode. -/
def mixes (ctx : EvmapIo) (e : IoEvent) : Bool :=
  match ctx.events with
  | [] => false
  | old :: _ => (evs old).events.et != e.events.et

/-- The entry with one event more. -/
def EvmapIo.insert (ctx : EvmapIo) (ev : Nat) (e : Events) : EvmapIo :=
  { events := ev :: ctx.events, nread := ctx.nread + e.read.toNat,
    nwrite := ctx.nwrite + e.write.toNat, nclose := ctx.nclose + e.closed.toNat }

/-- The entry with one event less. -/
def EvmapIo.remove (ctx : EvmapIo) (ev : Nat) (e : Events) : EvmapIo :=
  { events := ctx.events.erase ev, nread := ctx.nread - e.read.toNat,
    nwrite := ctx.nwrite - e.write.toNat, nclose := ctx.nclose - e.closed.toNat }

/-- The events whose count the event `e` has brought to `n`, `res` in the source. -/
def EvmapIo.reached (ctx : EvmapIo) (n : Nat) (e : Events) : Events :=
  { read := e.read && ctx.nread == n, write := e.write && ctx.nwrite == n,
    closed := e.closed && ctx.nclose == n, et := e.et }

/-- `evmap_io_add_`. The result is -1 on error, 0 if the backend was not told, and 1 if it was. -/
def evmapIoAdd (debug : Bool) (base : IoBase σ) (ev : Nat) : IoBase σ × Int :=
  let e := evs ev
  if e.fd < 0 then (base, 0)
  else
    let ctx := base.io e.fd
    let ctx' := ctx.insert ev e.events
    let res := ctx'.reached 1 e.events
    if maxEvents < ctx'.nread ∨ maxEvents < ctx'.nwrite ∨ maxEvents < ctx'.nclose then (base, -1)
    else if debug && mixes evs ctx e then (base, -1)
    else if res.any then
      match B.add base.backend e.fd ctx.wanted res with
      | none => (base, -1)
      | some b => (base.put e.fd ctx' b, 1)
    else (base.put e.fd ctx' base.backend, 0)

/-- `evmap_io_del_`. If the backend fails, the event is forgotten all the same. -/
def evmapIoDel (base : IoBase σ) (ev : Nat) : IoBase σ × Int :=
  let e := evs ev
  if e.fd < 0 then (base, 0)
  else
    let ctx := base.io e.fd
    let ctx' := ctx.remove ev e.events
    let res := ctx'.reached 0 e.events
    if res.any then
      match B.del base.backend e.fd ctx.wanted res with
      | none => (base.put e.fd ctx' base.backend, -1)
      | some b => (base.put e.fd ctx' b, 1)
    else (base.put e.fd ctx' base.backend, 0)

/-- `evmap_io_active_`: the events to be activated, each with the part of `events` it waits for. -/
def evmapIoActive (base : IoBase σ) (fd : Fd) (events : Events) : List (Nat × Events) :=
  (base.io fd).events.filterMap fun ev =>
    let res := (evs ev).events.inter events
    if res.any || res.et then some (ev, res) else none

/-! ## Integrity -/

/-- How many of the events `l` want `x`. -/
def countOf (x : Events → Bool) (l : List Nat) : Nat := l.countP fun ev => x (evs ev).events

structure Integrity (base : IoBase σ) : Prop where
  fd : ∀ fd, ∀ ev ∈ (base.io fd).events, (evs ev).fd = fd ∧ 0 ≤ fd
  any : ∀ fd, ∀ ev ∈ (base.io fd).events, (evs ev).events.any = true
  nodup : ∀ fd, (base.io fd).events.Nodup
  nread : ∀ fd, (base.io fd).nread = countOf evs Events.read (base.io fd).events
  nwrite : ∀ fd, (base.io fd).nwrite = countOf evs Events.write (base.io fd).events
  nclose : ∀ fd, (base.io fd).nclose = countOf evs Events.closed (base.io fd).events

variable {evs} {base base' : IoBase σ} {ev : Nat} {l : List Nat} {x : Events → Bool} {r : Int}

/-- One more event. -/
theorem countOf_cons : countOf evs x (ev :: l) = countOf evs x l + (x (evs ev).events).toNat := by
  cases h : x (evs ev).events <;> simp [countOf, h]

/-- One event fewer. -/
theorem countOf_erase (h : ev ∈ l) :
    countOf evs x (l.erase ev) = countOf evs x l - (x (evs ev).events).toNat := by
  have hperm := (List.perm_cons_erase h).countP_eq fun e => x (evs e).events
  have hcons : countOf evs x l = countOf evs x (ev :: l.erase ev) := hperm
  rw [countOf_cons] at hcons
  omega

/-- An event that is there is counted. -/
theorem countOf_pos (h : ev ∈ l) (hx : x (evs ev).events = true) : 0 < countOf evs x l :=
  List.countP_pos_iff.mpr ⟨ev, h, hx⟩

/-- What is wanted of a descriptor is what one of its events wants. -/
theorem Integrity.wanted_read (hi : Integrity evs base) (fd : Fd) :
    (base.io fd).wanted.read = true ↔ ∃ ev ∈ (base.io fd).events, (evs ev).events.read = true := by
  rw [EvmapIo.wanted, hi.nread fd, bne_iff_ne, ← Nat.pos_iff_ne_zero]
  exact List.countP_pos_iff

/-- Writing is wanted exactly if some event wants it. -/
theorem Integrity.wanted_write (hi : Integrity evs base) (fd : Fd) :
    (base.io fd).wanted.write = true ↔ ∃ ev ∈ (base.io fd).events, (evs ev).events.write = true := by
  rw [EvmapIo.wanted, hi.nwrite fd, bne_iff_ne, ← Nat.pos_iff_ne_zero]
  exact List.countP_pos_iff

/-- Replacing the entry of one descriptor. -/
theorem Integrity.update (hi : Integrity evs base) {fd : Fd} {ctx : EvmapIo} (b : σ)
    (hfd : ∀ ev ∈ ctx.events, (evs ev).fd = fd ∧ 0 ≤ fd)
    (hany : ∀ ev ∈ ctx.events, (evs ev).events.any = true) (hnd : ctx.events.Nodup)
    (hr : ctx.nread = countOf evs Events.read ctx.events)
    (hw : ctx.nwrite = countOf evs Events.write ctx.events)
    (hc : ctx.nclose = countOf evs Events.closed ctx.events) :
    Integrity evs (base.put fd ctx b) := by
  have hcases : ∀ fd', (base.put fd ctx b).io fd' = base.io fd' ∧ fd' ≠ fd ∨
      (base.put fd ctx b).io fd' = ctx ∧ fd' = fd := by
    intro fd'
    by_cases h : fd' = fd
    · subst h
      exact .inr ⟨io_put_self .., rfl⟩
    · exact .inl ⟨io_put_of_ne h, h⟩
  constructor
  all_goals
    intro fd'
    rcases hcases fd' with ⟨heq, hne⟩ | ⟨heq, rfl⟩
  · simpa only [heq] using hi.fd fd'
  · simpa only [heq] using hfd
  · simpa only [heq] using hi.any fd'
  · simpa only [heq] using hany
  · simpa only [heq] using hi.nodup fd'
  · simpa only [heq] using hnd
  · simpa only [heq] using hi.nread fd'
  · simpa only [heq] using hr
  · simpa only [heq] using hi.nwrite fd'
  · simpa only [heq] using hw
  · simpa only [heq] using hi.nclose fd'
  · simpa only [heq] using hc

/-- There are no events at first. -/
theorem Integrity.init (b : σ) :
    Integrity evs ({ io := fun _ => EvmapIo.init, backend := b } : IoBase σ) where
  fd := by simp [EvmapIo.init]
  any := by simp [EvmapIo.init]
  nodup := by simp [EvmapIo.init]
  nread := by simp [EvmapIo.init, countOf]
  nwrite := by simp [EvmapIo.init, countOf]
  nclose := by simp [EvmapIo.init, countOf]

/-! ## What the backend is told -/

variable {B}

/-- An event that is put into its list is counted. -/
theorem Integrity.insert (hi : Integrity evs base) (hfd : 0 ≤ (evs ev).fd)
    (hany : (evs ev).events.any = true) (hnew : ev ∉ (base.io (evs ev).fd).events) (b : σ) :
    Integrity evs (base.put (evs ev).fd ((base.io (evs ev).fd).insert ev (evs ev).events) b) := by
  refine hi.update b ?_ ?_ (List.nodup_cons.mpr ⟨hnew, hi.nodup _⟩) ?_ ?_ ?_
  · intro ev' hev'
    rcases List.mem_cons.mp hev' with rfl | hev'
    · exact ⟨rfl, hfd⟩
    · exact hi.fd _ ev' hev'
  · intro ev' hev'
    rcases List.mem_cons.mp hev' with rfl | hev'
    · exact hany
    · exact hi.any _ ev' hev'
  · rw [EvmapIo.insert, hi.nread, countOf_cons]
  · rw [EvmapIo.insert, hi.nwrite, countOf_cons]
  · rw [EvmapIo.insert, hi.nclose, countOf_cons]

/-- An event that is taken out of its list is no longer counted. -/
theorem Integrity.remove (hi : Integrity evs base) (hev : ev ∈ (base.io (evs ev).fd).events) (b : σ) :
    Integrity evs (base.put (evs ev).fd ((base.io (evs ev).fd).remove ev (evs ev).events) b) := by
  refine hi.update b ?_ ?_ ((hi.nodup _).erase ev) ?_ ?_ ?_
  · intro ev' hev'
    exact hi.fd _ ev' (List.mem_of_mem_erase hev')
  · intro ev' hev'
    exact hi.any _ ev' (List.mem_of_mem_erase hev')
  · rw [EvmapIo.remove, hi.nread, countOf_erase hev]
  · rw [EvmapIo.remove, hi.nwrite, countOf_erase hev]
  · rw [EvmapIo.remove, hi.nclose, countOf_erase hev]

/-- One more event wants more, and the difference is what was not wanted before. -/
theorem wanted_insert (ctx : EvmapIo) (ev : Nat) (e : Events) :
    ctx.wanted.Sub (ctx.insert ev e).wanted ∧
      Events.IsDiff (ctx.insert ev e).wanted ctx.wanted ((ctx.insert ev e).reached 1 e) := by
  constructor
  · simp only [Events.Sub, EvmapIo.wanted, EvmapIo.insert, bne_iff_ne]
    omega
  · simp only [Events.IsDiff, EvmapIo.wanted, EvmapIo.insert, EvmapIo.reached]
    refine ⟨?_, ?_, ?_⟩
    · cases e.read <;> simp [bne]
    · cases e.write <;> simp [bne]
    · cases e.closed <;> simp [bne]

/-- The counts say that someone wants what the event wants. -/
theorem wanted_remove (ctx : EvmapIo) (ev : Nat) {e : Events} (hr : e.read.toNat ≤ ctx.nread)
    (hw : e.write.toNat ≤ ctx.nwrite) (hc : e.closed.toNat ≤ ctx.nclose) :
    (ctx.remove ev e).wanted.Sub ctx.wanted ∧
      Events.IsDiff ctx.wanted (ctx.remove ev e).wanted ((ctx.remove ev e).reached 0 e) := by
  have hbit : ∀ {b : Bool} {n : Nat}, b.toNat ≤ n →
      (b && n - b.toNat == 0) = (n != 0 && !(n - b.toNat != 0)) := by
    intro b n h
    cases b with
    | false => cases n <;> simp [bne]
    | true =>
        obtain ⟨n, rfl⟩ : ∃ k, n = k + 1 := ⟨n - 1, by simp at h; omega⟩
        simp [bne]
  constructor
  · simp only [Events.Sub, EvmapIo.wanted, EvmapIo.remove, bne_iff_ne]
    omega
  · exact ⟨hbit hr, hbit hw, hbit hc⟩

/-- The counts cover each event. -/
theorem Integrity.toNat_le (hi : Integrity evs base) (hev : ev ∈ (base.io (evs ev).fd).events) :
    (evs ev).events.read.toNat ≤ (base.io (evs ev).fd).nread ∧
    (evs ev).events.write.toNat ≤ (base.io (evs ev).fd).nwrite ∧
    (evs ev).events.closed.toNat ≤ (base.io (evs ev).fd).nclose := by
  have hle : ∀ x : Events → Bool,
      (x (evs ev).events).toNat ≤ countOf evs x (base.io (evs ev).fd).events := by
    intro x
    cases hx : x (evs ev).events with
    | false => exact Nat.zero_le _
    | true => exact countOf_pos hev hx
  rw [hi.nread, hi.nwrite, hi.nclose]
  exact ⟨hle _, hle _, hle _⟩

/-- An event is either refused, and nothing has changed, or it is entered, and the backend is asked to
add what was not wanted before. -/
theorem evmapIoAdd_cases {debug : Bool} (h : evmapIoAdd B evs debug base ev = (base', r)) :
    base' = base ∨
    (0 ≤ (evs ev).fd ∧ ∃ b,
      base' = base.put (evs ev).fd ((base.io (evs ev).fd).insert ev (evs ev).events) b ∧
      ∀ res, res = ((base.io (evs ev).fd).insert ev (evs ev).events).reached 1 (evs ev).events →
        (res.any = false → b = base.backend) ∧
        (res.any = true →
          B.add base.backend (evs ev).fd (base.io (evs ev).fd).wanted res = some b)) := by
  unfold evmapIoAdd at h
  dsimp only at h
  split at h
  · exact .inl (Prod.mk.inj h).1.symm
  · rename_i hfd
    split at h
    · exact .inl (Prod.mk.inj h).1.symm
    · split at h
      · exact .inl (Prod.mk.inj h).1.symm
      · split at h
        · rename_i hany
          split at h
          · exact .inl (Prod.mk.inj h).1.symm
          · rename_i b hb
            refine .inr ⟨Int.not_lt.mp hfd, b, (Prod.mk.inj h).1.symm, ?_⟩
            rintro res rfl
            exact ⟨fun hno => absurd hany (by simp [hno]), fun _ => hb⟩
        · rename_i hany
          refine .inr ⟨Int.not_lt.mp hfd, base.backend, (Prod.mk.inj h).1.symm, ?_⟩
          rintro res rfl
          exact ⟨fun _ => rfl, fun hyes => absurd hyes hany⟩

/-- A result of -1 says that nothing has changed; otherwise the event is in the map, unless it has no
descriptor. -/
theorem evmapIoAdd_result {debug : Bool} (h : evmapIoAdd B evs debug base ev = (base', r)) :
    (r = -1 ∧ base' = base) ∨ (r ≠ -1 ∧ (evs ev).fd < 0 ∧ base' = base) ∨
    (r ≠ -1 ∧ 0 ≤ (evs ev).fd ∧ ∃ b,
      base' = base.put (evs ev).fd ((base.io (evs ev).fd).insert ev (evs ev).events) b) := by
  unfold evmapIoAdd at h
  dsimp only at h
  split at h
  · rename_i hfd
    obtain ⟨rfl, rfl⟩ := Prod.mk.inj h
    exact .inr (.inl ⟨by decide, hfd, rfl⟩)
  · rename_i hfd
    have hfd := Int.not_lt.mp hfd
    split at h
    · exact .inl ⟨(Prod.mk.inj h).2.symm, (Prod.mk.inj h).1.symm⟩
    · split at h
      · exact .inl ⟨(Prod.mk.inj h).2.symm, (Prod.mk.inj h).1.symm⟩
      · split at h
        · split at h
          · exact .inl ⟨(Prod.mk.inj h).2.symm, (Prod.mk.inj h).1.symm⟩
          · rename_i b hb
            obtain ⟨rfl, rfl⟩ := Prod.mk.inj h
            exact .inr (.inr ⟨by decide, hfd, b, rfl⟩)
        · obtain ⟨rfl, rfl⟩ := Prod.mk.inj h
          exact .inr (.inr ⟨by decide, hfd, base.backend, rfl⟩)

/-- An event is always taken out, and the backend is asked to delete what is no longer wanted. -/
theorem evmapIoDel_cases (hfd : 0 ≤ (evs ev).fd) (h : evmapIoDel B evs base ev = (base', r)) :
    ∃ b, base' = base.put (evs ev).fd ((base.io (evs ev).fd).remove ev (evs ev).events) b ∧
      ∀ res, res = ((base.io (evs ev).fd).remove ev (evs ev).events).reached 0 (evs ev).events →
        (res.any = false → b = base.backend) ∧
        (res.any = true →
          B.del base.backend (evs ev).fd (base.io (evs ev).fd).wanted res = some b ∨
          B.del base.backend (evs ev).fd (base.io (evs ev).fd).wanted res = none ∧
            b = base.backend) := by
  unfold evmapIoDel at h
  dsimp only at h
  rw [if_neg (Int.not_lt.mpr hfd)] at h
  split at h
  · rename_i hany
    split at h
    · rename_i hb
      refine ⟨base.backend, (Prod.mk.inj h).1.symm, ?_⟩
      rintro res rfl
      exact ⟨fun _ => rfl, fun _ => .inr ⟨hb, rfl⟩⟩
    · rename_i b hb
      refine ⟨b, (Prod.mk.inj h).1.symm, ?_⟩
      rintro res rfl
      exact ⟨fun hno => absurd hany (by simp [hno]), fun _ => .inl hb⟩
  · rename_i hany
    refine ⟨base.backend, (Prod.mk.inj h).1.symm, ?_⟩
    rintro res rfl
    exact ⟨fun _ => rfl, fun hyes => absurd hyes hany⟩

variable {debug : Bool}

/-- `evmap_io_add_` keeps the counts. -/
theorem Integrity.add (hi : Integrity evs base) (hwant : (evs ev).events.any = true)
    (hnew : ev ∉ (base.io (evs ev).fd).events) (h : evmapIoAdd B evs debug base ev = (base', r)) :
    Integrity evs base' := by
  rcases evmapIoAdd_cases h with rfl | ⟨hfd, b, rfl, -⟩
  · exact hi
  · exact hi.insert hfd hwant hnew b

/-- `evmap_io_del_` keeps the counts. -/
theorem Integrity.del (hi : Integrity evs base) (hev : ev ∈ (base.io (evs ev).fd).events)
    (h : evmapIoDel B evs base ev = (base', r)) : Integrity evs base' := by
  obtain ⟨b, rfl, -⟩ := evmapIoDel_cases (hi.fd _ ev hev).2 h
  exact hi.remove hev b

theorem Integrity.backend (hi : Integrity evs base) (b : σ) :
    Integrity evs { base with backend := b } :=
  ⟨hi.fd, hi.any, hi.nodup, hi.nread, hi.nwrite, hi.nclose⟩

/-! ## What a backend has to do -/

/-- The backend looks after the descriptor `f`. It keeps its invariant `I`; `Watches b w` says that in
state `b` it watches `f` for `w`, and it is so after it has been told about `f`, and still so after it has
been told about another descriptor. -/
structure Serves (B : EventOp σ) (I : σ → Prop) (f : Fd) (Watches : σ → Events → Prop) : Prop where
  same : ∀ {b w w'}, Watches b w → Events.Same w w' → Watches b w'
  add_inv : ∀ {b fd old res b'}, I b → B.add b fd old res = some b' → I b'
  del_inv : ∀ {b fd old res b'}, I b → B.del b fd old res = some b' → I b'
  add_other : ∀ {b fd old res b' w}, I b → fd ≠ f → B.add b fd old res = some b' →
    Watches b w → Watches b' w
  del_other : ∀ {b fd old res b' w}, I b → fd ≠ f → B.del b fd old res = some b' →
    Watches b w → Watches b' w
  add_self : ∀ {b old new res b'}, I b → Watches b old → old.Sub new → Events.IsDiff new old res →
    B.add b f old res = some b' → Watches b' new
  del_self : ∀ {b old new res}, I b → Watches b old → new.Sub old → Events.IsDiff old new res →
    ∃ b', B.del b f old res = some b' ∧ Watches b' new

/-- What is left to tell is nothing only if nothing has changed. -/
theorem Events.IsDiff.same {old new res : Events} (h : Events.IsDiff new old res)
    (hsub : old.Sub new) (hno : res.any = false) : Events.Same old new := by
  obtain ⟨hr, hw, hc⟩ := h
  simp only [Events.any, hr, hw, hc] at hno
  simp only [Events.Sub, Events.Same] at hsub ⊢
  grind

/-- The backend watches `f` for what is wanted of it. -/
structure Served (I : σ → Prop) (f : Fd) (Watches : σ → Events → Prop) (evs : Nat → IoEvent)
    (base : IoBase σ) : Prop where
  integrity : Integrity evs base
  inv : I base.backend
  watches : Watches base.backend (base.io f).wanted

variable {I : σ → Prop} {f : Fd} {Watches : σ → Events → Prop}

/-- After `evmap_io_add_` the backend still watches for what is wanted. -/
theorem Served.add (hB : Serves B I f Watches) (hs : Served I f Watches evs base)
    (hwant : (evs ev).events.any = true) (hnew : ev ∉ (base.io (evs ev).fd).events)
    (h : evmapIoAdd B evs debug base ev = (base', r)) :
    Served I f Watches evs base' := by
  rcases evmapIoAdd_cases h with rfl | ⟨hfd, b, rfl, hb⟩
  · exact hs
  · obtain ⟨hsub, hdiff⟩ := wanted_insert (base.io (evs ev).fd) ev (evs ev).events
    obtain ⟨hno, hyes⟩ := hb _ rfl
    cases hany : (((base.io (evs ev).fd).insert ev (evs ev).events).reached 1 (evs ev).events).any with
    | false =>
        obtain rfl := hno hany
        refine ⟨hs.integrity.insert hfd hwant hnew _, hs.inv, ?_⟩
        by_cases hf : f = (evs ev).fd
        · subst hf
          rw [io_put_self]
          exact hB.same hs.watches (hdiff.same hsub hany)
        · rw [io_put_of_ne hf]
          exact hs.watches
    | true =>
        have hcall := hyes hany
        refine ⟨hs.integrity.insert hfd hwant hnew _, hB.add_inv hs.inv hcall, ?_⟩
        by_cases hf : f = (evs ev).fd
        · subst hf
          rw [io_put_self]
          exact hB.add_self hs.inv hs.watches hsub hdiff hcall
        · rw [io_put_of_ne hf]
          exact hB.add_other hs.inv (Ne.symm hf) hcall hs.watches

/-- After `evmap_io_del_` the backend still watches for what is wanted. -/
theorem Served.del (hB : Serves B I f Watches) (hs : Served I f Watches evs base)
    (hev : ev ∈ (base.io (evs ev).fd).events) (h : evmapIoDel B evs base ev = (base', r)) :
    Served I f Watches evs base' := by
  obtain ⟨b, rfl, hb⟩ := evmapIoDel_cases (hs.integrity.fd _ ev hev).2 h
  obtain ⟨hr, hw, hc⟩ := hs.integrity.toNat_le hev
  obtain ⟨hsub, hdiff⟩ := wanted_remove (base.io (evs ev).fd) ev hr hw hc
  obtain ⟨hno, hyes⟩ := hb _ rfl
  have hint := hs.integrity.remove hev b
  cases hany : (((base.io (evs ev).fd).remove ev (evs ev).events).reached 0 (evs ev).events).any with
  | false =>
      obtain rfl := hno hany
      refine ⟨hint, hs.inv, ?_⟩
      by_cases hf : f = (evs ev).fd
      · subst hf
        rw [io_put_self]
        obtain ⟨hr, hw, hc⟩ := hdiff.same hsub hany
        exact hB.same hs.watches ⟨hr.symm, hw.symm, hc.symm⟩
      · rw [io_put_of_ne hf]
        exact hs.watches
  | true =>
      by_cases hf : f = (evs ev).fd
      · subst hf
        obtain ⟨b', hb', hw'⟩ := hB.del_self hs.inv hs.watches hsub hdiff
        rcases hyes hany with hcall | ⟨hcall, -⟩
        · obtain rfl : b' = b := Option.some.inj (hb'.symm.trans hcall)
          refine ⟨hint, hB.del_inv hs.inv hcall, ?_⟩
          rw [io_put_self]
          exact hw'
        · rw [hcall] at hb'
          cases hb'
      · rcases hyes hany with hcall | ⟨-, rfl⟩
        · refine ⟨hint, hB.del_inv hs.inv hcall, ?_⟩
          rw [io_put_of_ne hf]
          exact hB.del_other hs.inv (Ne.symm hf) hcall hs.watches
        · refine ⟨hint, hs.inv, ?_⟩
          rw [io_put_of_ne hf]
          exact hs.watches

/-! ## Two backends -/

variable {τ : Type} {B' : EventOp τ} {other : IoBase τ}

end
end LinuxServer.Libevent
