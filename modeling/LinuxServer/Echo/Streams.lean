import LinuxServer.Echo.Basic

/-!
# What clients get back

`Conn.Ok` is about the bytes of one connection, and `Server.Inv` about descriptors: whatever can be read is
noticed, as its descriptor is in the kernel's list, or still to be looked at, or being read. `echo_sublist`
and `all_echoed` are read off them.
-/

namespace LinuxServer.Echo

open Library

/-! ## One connection -/

/-- `full` stands for the assumption that `send` takes whatever it is given. -/
structure Conn.Ok (full : Prop) (c : Conn) : Prop where
  echoed : c.echoed.Sublist c.received
  complete : full → c.echoed = c.received
  received : c.received ++ c.buffer <+: c.arrived
  whole : c.reset = false → c.received ++ c.buffer = c.arrived
  /-- a connection is closed when its client has ended it and everything was read -/
  ended : c.closed = true → c.buffer = [] ∧ (c.fin = true ∨ c.reset = true)

/-- What a step may do to a connection. -/
inductive Changed (full : Prop) (c : Conn) : Conn → Prop
  | same : Changed full c c
  | make : Changed full c Conn.make
  | deliver {bytes : List Byte} : c.reset = false → c.closed = false → Changed full c (c.deliver bytes)
  | finish : c.closed = false → Changed full c { c with fin := true }
  | breakOff {kept : Nat} : c.closed = false → Changed full c (c.breakOff kept)
  | echo {n k : Nat} : (full → k = n) → Changed full c (c.echo n k)
  | close : c.buffer = [] → (c.fin = true ∨ c.reset = true) → Changed full c { c with closed := true }

section
variable {full : Prop} {c c' : Conn}

/-- What holds of a connection is kept by each change of it. -/
theorem Conn.Ok.changed (h : c.Ok full) (hc : Changed full c c') : c'.Ok full := by
  cases hc with
  | same => exact h
  | make => exact ⟨List.Sublist.refl _, fun _ => rfl, List.prefix_rfl, fun _ => rfl, nofun⟩
  | @deliver bytes hreset hclosed =>
      have hall : c.received ++ (c.buffer ++ bytes) = c.arrived ++ bytes := by
        rw [← List.append_assoc, h.whole hreset]
      refine ⟨h.echoed, h.complete, ?_, fun _ => hall, ?_⟩
      · show c.received ++ (c.buffer ++ bytes) <+: c.arrived ++ bytes
        rw [hall]
      · intro hc
        have hc : c.closed = true := hc
        rw [hclosed] at hc
        cases hc
  | finish hclosed =>
      refine ⟨h.echoed, h.complete, h.received, h.whole, ?_⟩
      intro hc
      have hc : c.closed = true := hc
      rw [hclosed] at hc
      cases hc
  | @breakOff kept hclosed =>
      refine ⟨h.echoed, h.complete, ?_, nofun, ?_⟩
      · show c.received ++ c.buffer.take kept <+: c.arrived
        exact ((List.prefix_append_right_inj _).mpr (List.take_prefix _ _)).trans h.received
      · intro hc
        have hc : c.closed = true := hc
        rw [hclosed] at hc
        cases hc
  | @echo n k hk =>
      have hall : (c.received ++ c.buffer.take n) ++ c.buffer.drop n = c.received ++ c.buffer := by
        rw [List.append_assoc, List.take_append_drop]
      refine ⟨h.echoed.append (List.take_sublist _ _), ?_, ?_, ?_, ?_⟩
      · intro hf
        show c.echoed ++ (c.buffer.take n).take k = c.received ++ c.buffer.take n
        rw [h.complete hf, hk hf, List.take_take, Nat.min_self]
      · show (c.received ++ c.buffer.take n) ++ c.buffer.drop n <+: c.arrived
        rw [hall]
        exact h.received
      · intro hr
        exact hall.trans (h.whole hr)
      · intro hc
        obtain ⟨hnil, hend⟩ := h.ended hc
        refine ⟨?_, hend⟩
        show c.buffer.drop n = []
        rw [hnil, List.drop_nil]
  | close hnil hend => exact ⟨h.echoed, h.complete, h.received, h.whole, fun _ => ⟨hnil, hend⟩⟩

/-- Nothing is to be read afterwards that was not to be read before, unless the client has done something. -/
theorem readable_echo {n k : Nat} (h : (c.echo n k).readable = true) : c.readable = true := by
  unfold Conn.readable at h ⊢
  simp only [Conn.echo, Bool.or_eq_true, Bool.not_eq_true', List.isEmpty_eq_false_iff, ne_eq,
    List.drop_eq_nil_iff] at h ⊢
  rcases h with (h | h) | h
  · refine .inl (.inl ?_)
    rintro hnil
    rw [hnil] at h
    exact h (Nat.zero_le _)
  · exact .inl (.inr h)
  · exact .inr h

end

/-- `send` takes all that it is given. -/
def Action.Full : Action → Prop
  | .recv n k => k = some n
  | _ => True

instance (act : Action) : Decidable act.Full :=
  match act with
  | .recv n k => inferInstanceAs (Decidable (k = some n))
  | .connect | .deliver _ _ | .finish _ | .breakOff _ _ | .datagram _ _ | .wait _ | .fail | .accept _
  | .reply _ | .begin => inferInstanceAs (Decidable True)

namespace Server
variable {F : Fds} {s s' : Server} {act : Action} {full : Prop} {fd : Fd} {id : Nat}

/-- A change of one connection. -/
theorem changed_update {c : Conn} (i : Nat) (h : Changed full (s.conns id) c) :
    Changed full (s.conns i) (Function.update s.conns id c i) := by
  by_cases hi : i = id
  · subst hi
    rw [Function.update_self]
    exact h
  · rw [Function.update_of_ne hi]
    exact .same

/-- A descriptor is closed when there is nothing left to read from its connection. -/
theorem conns_close (i : Nat)
    (h : ∀ id, s.desc fd = some id → (s.conns id).buffer = [] ∧
      ((s.conns id).fin = true ∨ (s.conns id).reset = true)) :
    Changed full (s.conns i) ((s.close fd).conns i) := by
  unfold close
  split
  · exact .same
  · rename_i id hd
    obtain ⟨hnil, hend⟩ := h id hd
    exact changed_update i (.close hnil hend)

/-- A `recv` and the `send` of what it gave. -/
theorem conns_recvOne {n : Nat} {k : Option Nat} (hk : full → k = some n) (i : Nat) :
    Changed full (s.conns i) ((s.recvOne fd n k).conns i) := by
  unfold recvOne
  split
  · exact .same
  · rename_i id hd
    split
    · refine changed_update i (.echo ?_)
      intro hf
      rw [hk hf]
      rfl
    · rename_i hbuf
      have hnil : (s.conns id).buffer = [] := by simpa using hbuf
      have hend : ((s.conns id).fin = true ∨ (s.conns id).reset = true) → ∀ id', s.desc fd = some id' →
          (s.conns id').buffer = [] ∧ ((s.conns id').fin = true ∨ (s.conns id').reset = true) := by
        intro he id' hd'
        obtain rfl := Option.some.inj (hd.symm.trans hd')
        exact ⟨hnil, he⟩
      split
      · rename_i hreset
        exact conns_close i (hend (.inr hreset))
      · split
        · rename_i hfin
          exact conns_close i (hend (.inl hfin))
        · exact .same

/-- Every step changes each connection in one of these ways, or not at all. -/
theorem changed (he : s.Enabled F act) (hfull : full → act.Full) (i : Nat) :
    Changed full (s.conns i) ((s.step F act).conns i) := by
  cases act with
  | connect => exact changed_update i .make
  | deliver id bytes =>
      obtain ⟨⟨-, -, hreset, hclosed⟩, -⟩ := he
      exact changed_update i (.deliver hreset hclosed)
  | finish id => exact changed_update i (.finish he.2.2.2)
  | breakOff id kept => exact changed_update i (.breakOff he.2)
  | datagram addr bytes => exact .same
  | wait fds => exact .same
  | fail => exact .same
  | accept connFd =>
      show Changed full (s.conns i) ((s.acceptOne connFd).conns i)
      unfold acceptOne
      split <;> exact .same
  | reply sent =>
      show Changed full (s.conns i) ((s.replyOne sent).conns i)
      unfold replyOne
      split <;> exact .same
  | begin => exact .same
  | recv n k =>
      obtain ⟨-, fd, hfd, -⟩ := he
      have hfd : s.sockFd = some fd := hfd
      show Changed full (s.conns i) ((s.sockFd.elim s fun fd => s.recvOne fd n k).conns i)
      rw [hfd]
      exact conns_recvOne hfull i

variable (full) in
/-- What holds for the bytes of all connections, in every run. -/
theorem conn_ok {h : List (Server × Action)} (hr : (machine F).Run h s)
    (hfull : full → Machine.Always (fun _ act => act.Full) h) (i : Nat) : (s.conns i).Ok full := by
  induction hr with
  | start hi =>
      subst hi
      exact ⟨List.Sublist.refl _, fun _ => rfl, List.prefix_rfl, fun _ => rfl, nofun⟩
  | @step h s a s' hr he hs ih =>
      obtain rfl := Except.ok.inj hs
      have hall : full → Machine.Always (fun _ act => act.Full) h ∧ a.Full := by
        intro hf
        have := Machine.always_append.mp (hfull hf)
        exact ⟨this.1, this.2 (s, a) (by simp)⟩
      exact (ih fun hf => (hall hf).1).changed (changed he (fun hf => (hall hf).2) i)

/-- **What a client gets back is part of what it has sent**, in order; without gaps and from the beginning,
if `send` has always taken what it was given. -/
theorem echo_sublist {h : List (Server × Action)} (hr : (machine F).Run h s) (id : Nat) :
    (s.conns id).echoed.Sublist (s.conns id).arrived ∧
    (Machine.Always (fun _ act => act.Full) h →
      (s.conns id).echoed <+: (s.conns id).arrived ∧
      ((s.conns id).reset = false →
        (s.conns id).echoed ++ (s.conns id).buffer = (s.conns id).arrived)) := by
  have hok := conn_ok False hr (fun hf => hf.elim) id
  have hpre : (s.conns id).received <+: (s.conns id).arrived :=
    (List.prefix_append _ _).trans hok.received
  refine ⟨hok.echoed.trans hpre.sublist, ?_⟩
  intro hfull
  have hall := (conn_ok True hr (fun _ => hfull) id).complete trivial
  rw [hall]
  exact ⟨hpre, hok.whole⟩

/-- The second `send` takes one byte less than it is given. -/
theorem echo_sublist_gap : ∃ s, (machine smallFds).Reachable s ∧ (s.conns 0).arrived = [1, 2, 3, 4] ∧
    (s.conns 0).echoed = [1, 2, 4] ∧ (s.conns 0).echoed.Sublist (s.conns 0).arrived := by
  obtain ⟨h, s, hr, -, hb⟩ := Machine.Run.of_replay (M := machine smallFds)
    [.connect, .deliver 0 [1, 2, 3], .wait [3], .accept (some 6), .wait [6], .begin, .recv 1 (some 1),
      .recv 2 (some 1), .deliver 0 [4], .recv 1 (some 1)]
    (fun s => ((s.conns 0).arrived, (s.conns 0).echoed)) rfl (b := ([1, 2, 3, 4], [1, 2, 4]))
    (by decide +kernel)
  obtain ⟨ha, he⟩ := Prod.mk.inj hb
  exact ⟨s, ⟨h, hr⟩, ha, he, (echo_sublist hr 0).1⟩

/-! ## Descriptors -/

/-- A connection is in the queue of the listening socket, or has one descriptor, or was closed; and what is
to be read is noticed. -/
structure Inv (F : Fds) (s : Server) : Prop where
  queued : ∀ id ∈ s.backlog, id < s.made ∧ (s.conns id).closed = false ∧ ∀ fd, s.desc fd ≠ some id
  nodup : s.backlog.Nodup
  accepted : ∀ fd id, s.desc fd = some id → id < s.made ∧ (s.conns id).closed = false
  inj : ∀ fd fd' id, s.desc fd = some id → s.desc fd' = some id → fd = fd'
  somewhere : ∀ id < s.made, (s.conns id).closed = false → id ∈ s.backlog ∨ ∃ fd, s.desc fd = some id
  names : ∀ fd, s.desc fd ≠ none → fd ≠ F.listenFd ∧ fd ≠ F.udpFd
  noticed : ∀ fd id, s.desc fd = some id → (s.conns id).readable = true →
    s.edge fd = true ∨ fd ∈ s.batch ∨ s.sockFd = some fd
  batch : s.batch.Nodup
  reported : ∀ fd ∈ s.batch, fd = F.listenFd ∨ fd = F.udpFd ∨ s.desc fd ≠ none
  /-- the descriptor that is read is not reported a second time -/
  busy : ∀ fd, s.sockFd = some fd → fd ∉ s.batch ∧ fd ≠ F.listenFd ∧ fd ≠ F.udpFd

theorem Inv.start (F : Fds) : Inv F start where
  queued := nofun
  nodup := List.nodup_nil
  accepted := nofun
  inj := nofun
  somewhere := fun _ h => absurd h (Nat.not_lt_zero _)
  names := fun _ h => absurd rfl h
  noticed := nofun
  batch := List.nodup_nil
  reported := nofun
  busy := nofun

/-- Whether a connection is closed does not depend on its data. -/
theorem closed_update {c : Conn} (hc : c.closed = (s.conns id).closed) (i : Nat) :
    (Function.update s.conns id c i).closed = (s.conns i).closed := by
  by_cases hi : i = id
  · subst hi
    rw [Function.update_self, hc]
  · rw [Function.update_of_ne hi]

/-- A client does something to its connection. -/
theorem Inv.touch {c : Conn} (h : Inv F s) (hc : c.closed = (s.conns id).closed) : Inv F (s.touch id c) where
  queued := by
    intro i hi
    obtain ⟨hlt, hcl, hno⟩ := h.queued i hi
    exact ⟨hlt, (closed_update hc i).trans hcl, hno⟩
  nodup := h.nodup
  accepted := by
    intro fd i hd
    obtain ⟨hlt, hcl⟩ := h.accepted fd i hd
    exact ⟨hlt, (closed_update hc i).trans hcl⟩
  inj := h.inj
  somewhere := by
    intro i hi hcl
    exact h.somewhere i hi ((closed_update hc i).symm.trans hcl)
  names := h.names
  noticed := by
    intro fd i hd hr
    have hd : s.desc fd = some i := hd
    have hr : (Function.update s.conns id c i).readable = true := hr
    show (s.edge fd || decide (s.desc fd = some id)) = true ∨ _
    by_cases hi : i = id
    · rw [hi] at hd
      exact .inl (by simp [hd])
    · rw [Function.update_of_ne hi] at hr
      rcases h.noticed fd i hd hr with he | hrest
      · exact .inl (by simp [he])
      · exact .inr hrest
  batch := h.batch
  reported := h.reported
  busy := h.busy

/-- A client that connects waits to be accepted. -/
theorem Inv.connect (h : Inv F s) : Inv F (s.step F .connect) where
  queued := by
    intro i hi
    rcases List.mem_append.mp hi with hi | hi
    · obtain ⟨hlt, hcl, hno⟩ := h.queued i hi
      refine ⟨Nat.lt_succ_of_lt hlt, ?_, hno⟩
      show (Function.update s.conns s.made Conn.make i).closed = false
      rw [Function.update_of_ne (by omega)]
      exact hcl
    · obtain rfl := List.mem_singleton.mp hi
      refine ⟨Nat.lt_succ_self _, ?_, ?_⟩
      · show (Function.update s.conns s.made Conn.make s.made).closed = false
        rw [Function.update_self]
        rfl
      · intro fd hd
        exact absurd (h.accepted fd _ hd).1 (Nat.lt_irrefl _)
  nodup := by
    refine List.nodup_append.mpr ⟨h.nodup, List.nodup_singleton _, ?_⟩
    rintro i hi j hj rfl
    obtain rfl := List.mem_singleton.mp hj
    exact absurd (h.queued _ hi).1 (Nat.lt_irrefl _)
  accepted := by
    intro fd i hd
    obtain ⟨hlt, hcl⟩ := h.accepted fd i hd
    refine ⟨Nat.lt_succ_of_lt hlt, ?_⟩
    show (Function.update s.conns s.made Conn.make i).closed = false
    rw [Function.update_of_ne (by omega)]
    exact hcl
  inj := h.inj
  somewhere := by
    intro i hi hcl
    have hcl : (Function.update s.conns s.made Conn.make i).closed = false := hcl
    rcases Nat.lt_succ_iff_lt_or_eq.mp hi with hlt | rfl
    · rw [Function.update_of_ne (by omega)] at hcl
      rcases h.somewhere i hlt hcl with hb | hd
      · exact .inl (List.mem_append_left _ hb)
      · exact .inr hd
    · exact .inl (List.mem_append_right _ (List.mem_singleton.mpr rfl))
  names := h.names
  noticed := by
    intro fd i hd hr
    have hd : s.desc fd = some i := hd
    have hlt := (h.accepted fd i hd).1
    have hr : (Function.update s.conns s.made Conn.make i).readable = true := hr
    rw [Function.update_of_ne (by omega)] at hr
    show Function.update s.edge F.listenFd true fd = true ∨ _
    rw [Function.update_of_ne (h.names fd (by rw [hd]; exact Option.some_ne_none i)).1]
    exact h.noticed fd i hd hr
  batch := h.batch
  reported := h.reported
  busy := h.busy

/-- `epoll_wait` reports descriptors. -/
theorem Inv.wait {fds : List Fd} (h : Inv F s) (hw : s.Waiting) (hnd : fds.Nodup) :
    Inv F (s.step F (.wait fds)) where
  queued := h.queued
  nodup := h.nodup
  accepted := h.accepted
  inj := h.inj
  somewhere := h.somewhere
  names := h.names
  noticed := by
    intro fd i hd hr
    have hd : s.desc fd = some i := hd
    have hr : (s.conns i).readable = true := hr
    obtain ⟨-, hsock, hbatch⟩ := hw
    have hedge : s.edge fd = true := by
      rcases h.noticed fd i hd hr with he | hb | hs
      · exact he
      · rw [hbatch] at hb
        cases hb
      · rw [hsock] at hs
        cases hs
    show (s.edge fd && decide (fd ∉ fds)) = true ∨ fd ∈ fds.filter (s.ready F) ∨ _
    by_cases hmem : fd ∈ fds
    · -- it is reported now, as it is still ready
      obtain ⟨hl, hu⟩ := h.names fd (by rw [hd]; exact Option.some_ne_none i)
      have hready : s.ready F fd = true := by
        unfold ready
        rw [if_neg hl, if_neg hu, hd]
        exact hr
      exact .inr (.inl (List.mem_filter.mpr ⟨hmem, hready⟩))
    · exact .inl (by simp [hedge, hmem])
  batch := hnd.filter _
  reported := by
    intro fd hfd
    obtain ⟨-, hready⟩ := List.mem_filter.mp hfd
    by_cases hl : fd = F.listenFd
    · exact .inl hl
    · by_cases hu : fd = F.udpFd
      · exact .inr (.inl hu)
      · refine .inr (.inr ?_)
        intro hnone
        have hnone : s.desc fd = none := hnone
        unfold ready at hready
        rw [if_neg hl, if_neg hu, hnone] at hready
        cases hready
  busy := by
    intro fd hfd
    have hfd : s.sockFd = some fd := hfd
    rw [hw.2.1] at hfd
    cases hfd

/-- `events[i]` has been dealt with. -/
theorem Inv.tail (h : Inv F s) (hat : s.batch.head? = some fd) (hfd : fd = F.listenFd ∨ fd = F.udpFd)
    : Inv F { s with batch := s.batch.tail } where
  queued := h.queued
  nodup := h.nodup
  accepted := h.accepted
  inj := h.inj
  somewhere := h.somewhere
  names := h.names
  noticed := by
    intro f i hd hr
    have hd : s.desc f = some i := hd
    rcases h.noticed f i hd hr with he | hb | hs
    · exact .inl he
    · obtain ⟨rest, hrest⟩ := List.head?_eq_some_iff.mp hat
      have hne : f ≠ fd := by
        rintro rfl
        obtain ⟨hl, hu⟩ := h.names f (by rw [hd]; exact Option.some_ne_none i)
        exact hfd.elim hl hu
      rw [hrest] at hb
      refine .inr (.inl ?_)
      show f ∈ s.batch.tail
      rw [hrest]
      exact (List.mem_cons.mp hb).resolve_left hne
    · exact .inr (.inr hs)
  batch := h.batch.sublist (List.tail_sublist _)
  reported := fun f hf => h.reported f (List.mem_of_mem_tail hf)
  busy := by
    intro f hf
    obtain ⟨hnot, hnames⟩ := h.busy f hf
    exact ⟨fun hf' => hnot (List.mem_of_mem_tail hf'), hnames⟩

/-- The next descriptor of the batch is that of a connection. -/
theorem Inv.begin (h : Inv F s) (hidle : s.sockFd = none) (hat : s.batch.head? = some fd)
    (hl : fd ≠ F.listenFd) (hu : fd ≠ F.udpFd) : Inv F (s.step F .begin) := by
  obtain ⟨rest, hrest⟩ := List.head?_eq_some_iff.mp hat
  have hnd := h.batch
  rw [hrest] at hnd
  refine ⟨h.queued, h.nodup, h.accepted, h.inj, h.somewhere, h.names, ?_, ?_, ?_, ?_⟩
  · intro f i hd hr
    have hd : s.desc f = some i := hd
    show _ ∨ f ∈ s.batch.tail ∨ s.batch.head? = some f
    rcases h.noticed f i hd hr with he | hb | hs
    · exact .inl he
    · rw [hrest] at hb ⊢
      rcases List.mem_cons.mp hb with rfl | hb
      · exact .inr (.inr rfl)
      · exact .inr (.inl hb)
    · rw [hidle] at hs
      cases hs
  · exact h.batch.sublist (List.tail_sublist _)
  · exact fun f hf => h.reported f (List.mem_of_mem_tail hf)
  · intro f hf
    have hf : s.batch.head? = some f := hf
    obtain rfl := Option.some.inj (hat.symm.trans hf)
    refine ⟨?_, hl, hu⟩
    show fd ∉ s.batch.tail
    rw [hrest]
    exact (List.nodup_cons.mp hnd).1

/-- One connection is accepted, or `accept` fails. -/
theorem Inv.acceptOne {connFd : Option Fd} (h : Inv F s) (hfree : ∀ fd ∈ connFd, s.Free F fd)
    (hidle : s.sockFd = none) : Inv F (s.acceptOne connFd) := by
  unfold Server.acceptOne
  split
  · rename_i connFd backlog fd id rest hb
    obtain ⟨hnone, hl, hu, -⟩ := hfree fd rfl
    have hnd := h.nodup
    rw [hb] at hnd
    obtain ⟨hnot, hnd⟩ := List.nodup_cons.mp hnd
    obtain ⟨hlt, hcl, hno⟩ := h.queued id (by rw [hb]; exact List.mem_cons_self)
    -- the new descriptor is that of `id`, and the others are as they were
    have hdesc : ∀ f i, Function.update s.desc fd (some id) f = some i →
        (f = fd ∧ i = id) ∨ (f ≠ fd ∧ i ≠ id ∧ s.desc f = some i) := by
      intro f i hd
      by_cases hf : f = fd
      · rw [hf, Function.update_self] at hd
        exact .inl ⟨hf, (Option.some.inj hd).symm⟩
      · rw [Function.update_of_ne hf] at hd
        refine .inr ⟨hf, ?_, hd⟩
        rintro rfl
        exact hno f hd
    refine ⟨?_, hnd, ?_, ?_, ?_, ?_, ?_, h.batch, ?_, ?_⟩
    · intro i hi
      obtain ⟨hlt', hcl', hno'⟩ := h.queued i (by rw [hb]; exact List.mem_cons_of_mem _ hi)
      refine ⟨hlt', hcl', ?_⟩
      intro f hd
      rcases hdesc f i hd with ⟨-, rfl⟩ | ⟨-, -, hd⟩
      · exact hnot hi
      · exact hno' f hd
    · intro f i hd
      rcases hdesc f i hd with ⟨-, rfl⟩ | ⟨-, -, hd⟩
      · exact ⟨hlt, hcl⟩
      · exact h.accepted f i hd
    · intro f f' i hd hd'
      rcases hdesc f i hd with ⟨rfl, rfl⟩ | ⟨hf, hi, hd⟩
      · rcases hdesc f' i hd' with ⟨rfl, -⟩ | ⟨-, hi, -⟩
        · rfl
        · exact absurd rfl hi
      · rcases hdesc f' i hd' with ⟨-, rfl⟩ | ⟨-, -, hd'⟩
        · exact absurd rfl hi
        · exact h.inj f f' i hd hd'
    · intro i hi hcl'
      rcases h.somewhere i hi hcl' with hmem | ⟨f, hd⟩
      · rw [hb] at hmem
        rcases List.mem_cons.mp hmem with rfl | hmem
        · exact .inr ⟨fd, Function.update_self ..⟩
        · exact .inl hmem
      · refine .inr ⟨f, ?_⟩
        show Function.update s.desc fd (some id) f = some i
        rw [Function.update_of_ne, hd]
        rintro rfl
        rw [hnone] at hd
        cases hd
    · intro f hd
      by_cases hf : f = fd
      · rw [hf]
        exact ⟨hl, hu⟩
      · refine h.names f ?_
        have hd : Function.update s.desc fd (some id) f ≠ none := hd
        rwa [Function.update_of_ne hf] at hd
    · intro f i hd hr
      show Function.update s.edge fd (s.conns id).readable f = true ∨ _
      rcases hdesc f i hd with ⟨rfl, rfl⟩ | ⟨hf, hi, hd⟩
      · rw [Function.update_self]
        exact .inl hr
      · rw [Function.update_of_ne hf]
        exact h.noticed f i hd hr
    · intro f hf
      rcases h.reported f hf with hf' | hf' | hd
      · exact .inl hf'
      · exact .inr (.inl hf')
      · refine .inr (.inr ?_)
        show Function.update s.desc fd (some id) f ≠ none
        rw [Function.update_of_ne]
        · exact hd
        · rintro rfl
          exact hd hnone
    · intro f hf
      have hf : s.sockFd = some f := hf
      rw [hidle] at hf
      cases hf
  · exact h

/-- The server closes the descriptor. -/
theorem Inv.close (h : Inv F s) (hbusy : s.sockFd = some fd) : Inv F (s.close fd) := by
  unfold Server.close
  split
  · exact h
  · rename_i id hd
    have hdesc : ∀ f i, Function.update s.desc fd none f = some i → f ≠ fd ∧ i ≠ id ∧ s.desc f = some i := by
      intro f i hf
      by_cases hfd : f = fd
      · rw [hfd, Function.update_self] at hf
        cases hf
      · rw [Function.update_of_ne hfd] at hf
        refine ⟨hfd, ?_, hf⟩
        rintro rfl
        exact hfd (h.inj f fd i hf hd)
    have hconn : ∀ i, i ≠ id →
        Function.update s.conns id { s.conns id with closed := true } i = s.conns i :=
      fun i hi => Function.update_of_ne hi ..
    refine ⟨?_, h.nodup, ?_, ?_, ?_, ?_, ?_, h.batch, ?_, h.busy⟩
    · intro i hi
      obtain ⟨hlt, hcl, hno⟩ := h.queued i hi
      have hne : i ≠ id := by
        rintro rfl
        exact hno fd hd
      refine ⟨hlt, ?_, fun f hf => hno f (hdesc f i hf).2.2⟩
      show (Function.update s.conns id { s.conns id with closed := true } i).closed = false
      rw [hconn i hne]
      exact hcl
    · intro f i hf
      obtain ⟨-, hne, hf⟩ := hdesc f i hf
      obtain ⟨hlt, hcl⟩ := h.accepted f i hf
      refine ⟨hlt, ?_⟩
      show (Function.update s.conns id { s.conns id with closed := true } i).closed = false
      rw [hconn i hne]
      exact hcl
    · intro f f' i hf hf'
      exact h.inj f f' i (hdesc f i hf).2.2 (hdesc f' i hf').2.2
    · intro i hi hcl
      have hcl : (Function.update s.conns id { s.conns id with closed := true } i).closed = false := hcl
      by_cases hne : i = id
      · rw [hne, Function.update_self] at hcl
        cases hcl
      · rw [hconn i hne] at hcl
        rcases h.somewhere i hi hcl with hmem | ⟨f, hf⟩
        · exact .inl hmem
        · refine .inr ⟨f, ?_⟩
          show Function.update s.desc fd none f = some i
          rw [Function.update_of_ne, hf]
          rintro rfl
          exact hne (Option.some.inj (hf.symm.trans hd))
    · intro f hf
      by_cases hfd : f = fd
      · rw [hfd]
        exact h.names fd (by rw [hd]; exact Option.some_ne_none id)
      · have hf : Function.update s.desc fd none f ≠ none := hf
        rw [Function.update_of_ne hfd] at hf
        exact h.names f hf
    · intro f i hf hr
      obtain ⟨hfd, hne, hf⟩ := hdesc f i hf
      have hr : (Function.update s.conns id { s.conns id with closed := true } i).readable = true := hr
      rw [hconn i hne] at hr
      show Function.update s.edge fd false f = true ∨ _
      rw [Function.update_of_ne hfd]
      exact h.noticed f i hf hr
    · intro f hf
      have hfd : f ≠ fd := by
        rintro rfl
        exact (h.busy f hbusy).1 hf
      show f = F.listenFd ∨ f = F.udpFd ∨ Function.update s.desc fd none f ≠ none
      rw [Function.update_of_ne hfd]
      exact h.reported f hf

/-- The inner loop is left when its descriptor has nothing to read, or is not open any more. -/
theorem Inv.leave (h : Inv F s) (hbusy : s.sockFd = some fd)
    (hdone : ∀ id, s.desc fd = some id → (s.conns id).readable = false) :
    Inv F { s with sockFd := none } := by
  refine ⟨h.queued, h.nodup, h.accepted, h.inj, h.somewhere, h.names, ?_, h.batch, h.reported, nofun⟩
  intro f i hd hr
  have hd : s.desc f = some i := hd
  rcases h.noticed f i hd hr with he | hb | hs
  · exact .inl he
  · exact .inr (.inl hb)
  · obtain rfl := Option.some.inj (hbusy.symm.trans hs)
    have hfalse := hdone i hd
    rw [show (s.conns i).readable = true from hr] at hfalse
    cases hfalse

/-- What was to be read is read in part. -/
theorem Inv.echo {n k : Nat} (h : Inv F s) (stopped : Bool) :
    Inv F { s with conns := Function.update s.conns id ((s.conns id).echo n k), stopped := stopped } := by
  have hcl : ∀ i, (Function.update s.conns id ((s.conns id).echo n k) i).closed = (s.conns i).closed :=
    closed_update rfl
  refine ⟨?_, h.nodup, ?_, h.inj, ?_, h.names, ?_, h.batch, h.reported, h.busy⟩
  · intro i hi
    obtain ⟨hlt, hc, hno⟩ := h.queued i hi
    exact ⟨hlt, (hcl i).trans hc, hno⟩
  · intro f i hd
    obtain ⟨hlt, hc⟩ := h.accepted f i hd
    exact ⟨hlt, (hcl i).trans hc⟩
  · intro i hi hc
    exact h.somewhere i hi ((hcl i).symm.trans hc)
  · intro f i hd hr
    refine h.noticed f i hd ?_
    have hr : (Function.update s.conns id ((s.conns id).echo n k) i).readable = true := hr
    by_cases hi : i = id
    · rw [hi, Function.update_self] at hr
      rw [hi]
      exact readable_echo hr
    · rwa [Function.update_of_ne hi] at hr

theorem close_sockFd : (s.close fd).sockFd = s.sockFd := by
  unfold Server.close
  split <;> rfl

/-- A closed descriptor belongs to no connection. -/
theorem close_desc : (s.close fd).desc fd = none := by
  unfold Server.close
  split
  · assumption
  · exact Function.update_self ..

/-- One `recv` of the loop. -/
theorem Inv.recvOne {n : Nat} {k : Option Nat} (h : Inv F s) (hbusy : s.sockFd = some fd) :
    Inv F (s.recvOne fd n k) := by
  unfold Server.recvOne
  split
  · rename_i hnone
    refine h.leave hbusy ?_
    intro id hd
    rw [hnone] at hd
    cases hd
  · rename_i id hd
    split
    · exact h.echo _
    · rename_i hbuf
      split
      · refine (h.close hbusy).leave (close_sockFd.trans hbusy) ?_
        intro i hi
        rw [close_desc] at hi
        cases hi
      · rename_i hreset
        split
        · exact h.close hbusy
        · rename_i hfin
          refine h.leave hbusy ?_
          intro i hi
          obtain rfl := Option.some.inj (hd.symm.trans hi)
          simp_all [Conn.readable]

/-- Every step keeps the invariant. -/
theorem Inv.step (h : Inv F s) (he : s.Enabled F act) : Inv F (s.step F act) := by
  cases act with
  | connect => exact h.connect
  | deliver id bytes => exact h.touch rfl
  | finish id => exact h.touch rfl
  | breakOff id kept => exact h.touch rfl
  | datagram addr bytes =>
      refine ⟨h.queued, h.nodup, h.accepted, h.inj, h.somewhere, h.names, ?_, h.batch, h.reported, h.busy⟩
      intro fd i hd hr
      have hd : s.desc fd = some i := hd
      show Function.update s.edge F.udpFd true fd = true ∨ _
      rw [Function.update_of_ne (h.names fd (by rw [hd]; exact Option.some_ne_none i)).2]
      exact h.noticed fd i hd hr
  | wait fds => exact h.wait he.1 he.2.1
  | fail =>
      exact ⟨h.queued, h.nodup, h.accepted, h.inj, h.somewhere, h.names, h.noticed, h.batch, h.reported,
        h.busy⟩
  | accept connFd =>
      obtain ⟨⟨-, hidle, hat⟩, hfree⟩ := he
      have hbatch : (s.acceptOne connFd).batch = s.batch := by
        unfold Server.acceptOne
        split <;> rfl
      have := (h.acceptOne hfree hidle).tail (by rw [hbatch]; exact hat) (.inl rfl)
      rw [hbatch] at this
      exact this
  | reply sent =>
      obtain ⟨-, -, hat⟩ := he
      have htail := h.tail hat (.inr rfl)
      show Inv F { s.replyOne sent with batch := s.batch.tail }
      unfold Server.replyOne
      split
      · exact htail
      · exact ⟨htail.queued, htail.nodup, htail.accepted, htail.inj, htail.somewhere, htail.names,
          htail.noticed, htail.batch, htail.reported, htail.busy⟩
  | begin =>
      obtain ⟨-, hidle, fd, hat, hl, hu⟩ := he
      exact h.begin hidle hat hl hu
  | recv n k =>
      obtain ⟨-, fd, hbusy, -⟩ := he
      have hbusy : s.sockFd = some fd := hbusy
      show Inv F (s.sockFd.elim s fun fd => s.recvOne fd n k)
      rw [hbusy]
      exact h.recvOne hbusy

/-- The invariant holds in every run. -/
theorem inv_of_run {h : List (Server × Action)} (hr : (machine F).Run h s) : Inv F s := by
  refine hr.invariant ?_ ?_
  · rintro s rfl
    exact .start F
  · intro s a s' h he hs
    obtain rfl := Except.ok.inj hs
    exact h.step he

/-- **Nothing is left unread.** Whenever the loop waits and the kernel has nothing to report about
connections, each connection that was accepted has got back all that it has sent, if `send` has always
taken what it was given and the connection was not reset; and those that are closed are exactly those that
their clients have ended. -/
theorem all_echoed {h : List (Server × Action)} (hr : (machine F).Run h s)
    (hfull : Machine.Always (fun _ act => act.Full) h) (hwait : s.Waiting)
    (hquiet : ∀ fd, s.desc fd ≠ none → s.edge fd = false) :
    ∀ id < s.made, id ∉ s.backlog →
      ((s.conns id).reset = false → (s.conns id).echoed = (s.conns id).arrived) ∧
      ((s.conns id).closed = true ↔ (s.conns id).fin = true ∨ (s.conns id).reset = true) := by
  intro id hid hnot
  have hinv := inv_of_run hr
  have hok := conn_ok True hr (fun _ => hfull) id
  have hecho : (s.conns id).buffer = [] → (s.conns id).reset = false →
      (s.conns id).echoed = (s.conns id).arrived := by
    intro hnil hreset
    have := hok.whole hreset
    rw [hnil, List.append_nil] at this
    exact (hok.complete trivial).trans this
  by_cases hcl : (s.conns id).closed = true
  · obtain ⟨hnil, hend⟩ := hok.ended hcl
    exact ⟨hecho hnil, iff_of_true hcl hend⟩
  · -- the connection is open, so that its descriptor would be in the list if there were anything to read
    obtain ⟨fd, hd⟩ := (hinv.somewhere id hid (by simpa using hcl)).resolve_left hnot
    have hunread : (s.conns id).readable = false := by
      by_contra hr
      rcases hinv.noticed fd id hd (by simpa using hr) with he | hb | hs
      · rw [hquiet fd (by rw [hd]; exact Option.some_ne_none id)] at he
        cases he
      · rw [hwait.2.2] at hb
        cases hb
      · rw [hwait.2.1] at hs
        cases hs
    simp only [Conn.readable, Bool.or_eq_false_iff, Bool.not_eq_false', List.isEmpty_iff] at hunread
    obtain ⟨⟨hnil, hfin⟩, hreset⟩ := hunread
    refine ⟨hecho hnil, iff_of_false hcl ?_⟩
    rw [hfin, hreset]
    simp

/-- Bytes arrive while the descriptor is being read, and the descriptor is closed twice. -/
theorem all_echoed_closed : ∃ s, (machine smallFds).Reachable s ∧ s.desc 6 = none ∧
    (s.conns 0).arrived = [1, 2, 3, 4] ∧ (s.conns 0).echoed = (s.conns 0).arrived := by
  obtain ⟨s, ⟨h, hr⟩, hb⟩ := Machine.Reachable.of_replay
    (M := (machine smallFds).restrict fun _ act => act.Full)
    [.connect, .deliver 0 [1, 2, 3], .wait [3], .accept (some 6), .wait [6], .begin, .recv 2 (some 2),
      .deliver 0 [4], .recv 2 (some 2), .finish 0, .recv 0 (some 0), .recv 0 (some 0)]
    (fun s => ((s.desc 6, (s.conns 0).arrived, (s.conns 0).reset, (s.conns 0).closed),
      (decide s.Waiting, s.made, s.backlog)))
    rfl (b := ((none, [1, 2, 3, 4], false, true), (true, 1, []))) (by decide +kernel)
  simp only [Prod.mk.injEq, decide_eq_true_eq] at hb
  obtain ⟨⟨hd, ha, hreset, hclosed⟩, hwait, hmade, hback⟩ := hb
  obtain ⟨hr, hfull⟩ := hr.of_restrict
  have hquiet : ∀ fd, s.desc fd ≠ none → s.edge fd = false := by
    intro fd hfd
    obtain ⟨id, hid⟩ := Option.ne_none_iff_exists'.mp hfd
    obtain ⟨hlt, hopen⟩ := (inv_of_run hr).accepted fd id hid
    obtain rfl : id = 0 := by omega
    rw [hclosed] at hopen
    cases hopen
  obtain ⟨hecho, -⟩ := all_echoed hr hfull hwait hquiet 0 (by omega) (by simp [hback])
  exact ⟨s, ⟨h, hr⟩, hd, ha, hecho hreset⟩

end Server
end LinuxServer.Echo
