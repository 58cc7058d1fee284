import LinuxServer.Library.Windows
import Mathlib

/-!
# Buffers

An `evbuffer` is a list of chains. Its data is in the first of them; chains that have space but no data
may follow. `last_with_datap` points at the `next` pointer that points at the last chain with data, so a
pointer like it is a `Slot` here: `first` of the buffer, or `next` of a chain. It may dangle, which is a
fault when it is used.

The memory of a chain is a cell of its own with the reference count of the chain, for a chain of
`evbuffer_add_buffer_reference` shares the memory of another one. The data of `evbuffer_add_reference` is
such a cell, too; it is freed when the cleanup function is called.
-/

namespace LinuxServer.Libevent

open Library

/-! ## Chains -/

/-- `struct evbuffer_chain`, with its address. -/
structure Chain where
  id : Nat
  buffer : Ptr
  bufferLen : Nat
  misalign : Nat
  off : Nat
  immutable : Bool
  multicast : Bool
  deriving Repr, DecidableEq

/-- What a chain shows of its memory. A chain that may be written to, or has nothing to show, shares it with
no other. -/
def Chain.window (c : Chain) : Window where
  cell := c.buffer
  size := c.bufferLen
  start := c.misalign
  count := c.off
  sole := !c.immutable || c.off == 0

/-- The chain with other data. -/
def Chain.slide (c : Chain) (misalign off : Nat) : Chain := { c with misalign, off }

/-- The memory of all chains, and the next address. -/
structure Arena where
  mem : Mem (Cell UInt8)
  made : Nat

/-- `EVBUFFER_CHAIN_MAX`, `EVBUFFER_CHAIN_SIZE`, `EV_SIZE_MAX` and `EV_SSIZE_MAX`. -/
def chainMax : Nat := 2 ^ 63 - 1
def chainSize : Nat := 48
def sizeMax : Nat := 2 ^ 64 - 1
def ssizeMax : Nat := 2 ^ 63 - 1

/-- A number as `size_t`, as `ev_ssize_t` and as `int`. -/
def asSize (n : Nat) : Nat := n % 2 ^ 64
def asSsize (n : Nat) : Int := (n : Int).bmod (2 ^ 64)
def asInt (n : Int) : Int := n.bmod (2 ^ 32)

/-- `while (to_alloc < size) to_alloc <<= 1;` -/
def roundUp : Nat → Nat → Nat → Nat
  | 0, toAlloc, _ => toAlloc
  | fuel + 1, toAlloc, size => if toAlloc < size then roundUp fuel (2 * toAlloc) size else toAlloc

/-- The `buffer_len` that `evbuffer_chain_new` gives to a chain for `size` bytes. -/
def chainRoom (size : Nat) : Nat :=
  (if size + chainSize < chainMax / 2 then roundUp 64 1024 (size + chainSize) else size + chainSize) - chainSize

namespace Arena

/-- A chain with memory of its own. -/
def chainWith (a : Arena) (block : Block UInt8) (off : Nat) (immutable : Bool) : Chain × Arena :=
  ({ id := a.made, buffer := a.made, bufferLen := block.length, misalign := 0, off, immutable,
     multicast := false },
   { mem := a.mem.new a.made { block, refcnt := 1 }, made := a.made + 1 })

/-- `evbuffer_chain_new`. The memory has zeros for the bytes that nobody has written. -/
def chainNew (a : Arena) (size : Nat) : Option Chain × Arena :=
  if chainMax - chainSize < size then (none, a)
  else
    let (chain, a) := a.chainWith (Block.fill (chainRoom size) 0) 0 false
    (some chain, a)

/-- `evbuffer_chain_free`. -/
def chainFree (a : Arena) (c : Chain) : Exec Arena := do
  let mem ← a.mem.release c.buffer
  .ok { a with mem }

/-- `evbuffer_free_all_chains`. -/
def freeAllChains (a : Arena) : List Chain → Exec Arena
  | [] => .ok a
  | c :: cs => do
      let a ← a.chainFree c
      a.freeAllChains cs

/-- `memcpy` into the memory of a chain. -/
def store (a : Arena) (c : Chain) (i : Nat) (xs : List UInt8) : Exec Arena := do
  let mem ← a.mem.store c.buffer i xs
  .ok { a with mem }

end Arena

/-! ## Buffers -/

/-- A pointer to a pointer to a chain. -/
inductive Slot where
  | first
  | next (id : Nat)
  deriving Repr, DecidableEq

namespace Slot

/-- The chains up to the pointer, and those that it leads to. -/
def split : Slot → List Chain → Exec (List Chain × List Chain)
  | .first, cs => .ok ([], cs)
  | .next _, [] => .error .dangling
  | .next id, c :: cs =>
      if c.id = id then .ok ([c], cs)
      else do
        let (front, back) ← split (.next id) cs
        .ok (c :: front, back)

/-- The pointer behind some chains, `&last->next`. -/
def behind (cs : List Chain) : Slot := cs.getLast?.elim .first fun c => .next c.id

end Slot

/-- `struct evbuffer`. -/
structure Evbuffer where
  chains : List Chain
  last : Option Nat
  lastWithDatap : Slot
  totalLen : Nat
  freezeStart : Bool
  freezeEnd : Bool
  deriving Repr, DecidableEq

/-- `evbuffer_chain_should_realign`. -/
def Chain.shouldRealign (c : Chain) (datlen : Nat) : Bool :=
  datlen ≤ c.bufferLen - c.off && c.off < c.bufferLen / 2 && c.off ≤ 2048

namespace Evbuffer

/-- `evbuffer_new`. -/
def make : Evbuffer where
  chains := []
  last := none
  lastWithDatap := .first
  totalLen := 0
  freezeStart := false
  freezeEnd := false

/-- `evbuffer_freeze`, or `evbuffer_unfreeze` if not `on`. -/
def freeze (b : Evbuffer) (start on : Bool) : Evbuffer :=
  if start then { b with freezeStart := on } else { b with freezeEnd := on }

/-- `evbuffer_free_trailing_empty_chains`, with the chains that are left. -/
def freeTrailingEmptyChains (b : Evbuffer) (a : Arena) : Exec (List Chain × Arena) := do
  let (front, back) ← b.lastWithDatap.split b.chains
  let a ← a.freeAllChains (back.dropWhile (·.off ≠ 0))
  .ok (front ++ back.takeWhile (·.off ≠ 0), a)

/-- A chain behind those that are kept. -/
def insertBehind (b : Evbuffer) (kept : List Chain) (chain : Chain) : Evbuffer :=
  { b with chains := kept ++ [chain], last := some chain.id,
           lastWithDatap := if chain.off ≠ 0 then Slot.behind kept else b.lastWithDatap,
           totalLen := asSize (b.totalLen + chain.off) }

/-- `evbuffer_chain_insert`. -/
def chainInsert (b : Evbuffer) (a : Arena) (chain : Chain) : Exec (Evbuffer × Arena) := do
  let (_, back) ← b.lastWithDatap.split b.chains
  match back with
  | [] =>
      .ok ({ b with chains := [chain], last := some chain.id, totalLen := asSize (b.totalLen + chain.off) }, a)
  | _ :: _ => do
      let (kept, a) ← b.freeTrailingEmptyChains a
      .ok (b.insertBehind kept chain, a)

/-- The chain with the address of `chain` becomes `chain`, and the buffer longer by `n`. -/
def update (b : Evbuffer) (chain : Chain) (n : Nat) : Evbuffer :=
  { b with chains := b.chains.map fun c => if c.id = chain.id then chain else c,
           totalLen := asSize (b.totalLen + n) }

/-- `if (remain)`: what fits goes into `chain`. -/
def addRemain (b : Evbuffer) (a : Arena) (chain : Chain) (remain : Nat) (data : List UInt8) :
    Exec (Evbuffer × Arena) :=
  if remain = 0 then .ok (b, a)
  else do
    let a ← a.store chain (chain.misalign + chain.off) (data.take remain)
    .ok (b.update (chain.slide chain.misalign (chain.off + remain)) remain, a)

/-- The end of `evbuffer_add`: what fits goes into `chain`, the rest into a new one. -/
def addChain (b : Evbuffer) (a : Arena) (chain : Chain) (remain : Nat) (data : List UInt8) :
    Exec (Bool × Evbuffer × Arena) := do
  let toAlloc := if chain.bufferLen ≤ 2048 then 2 * chain.bufferLen else chain.bufferLen
  match a.chainNew (max toAlloc data.length) with
  | (none, a) => .ok (false, b, a)
  | (some tmp, a) => do
      let (b, a) ← b.addRemain a chain remain data
      let a ← a.store tmp 0 (data.drop remain)
      let (b, a) ← b.chainInsert a (tmp.slide 0 (data.drop remain).length)
      .ok (true, b, a)

/-- The part of `evbuffer_add` after `chain` was found. -/
def addTo (b : Evbuffer) (a : Arena) (chain : Chain) (data : List UInt8) :
    Exec (Bool × Evbuffer × Arena) := do
  let remain := if chain.immutable then 0 else chain.bufferLen - chain.misalign - chain.off
  if chain.immutable = false ∧ data.length ≤ remain then do
    let a ← a.store chain (chain.misalign + chain.off) data
    .ok (true, b.update (chain.slide chain.misalign (chain.off + data.length)) data.length, a)
  else if chain.immutable = false ∧ chain.shouldRealign data.length then do
    -- `evbuffer_chain_align`
    let old ← a.mem.load chain.buffer chain.misalign chain.off
    let a ← a.store chain 0 old
    let a ← a.store chain chain.off data
    .ok (true, b.update (chain.slide 0 (chain.off + data.length)) data.length, a)
  else b.addChain a chain remain data

/-- `evbuffer_add`. The result is false for -1. -/
def evbufferAdd (b : Evbuffer) (a : Arena) (data : List UInt8) : Exec (Bool × Evbuffer × Arena) := do
  if b.freezeEnd then .ok (false, b, a)
  else if sizeMax - b.totalLen < data.length then .ok (false, b, a)
  else do
    let (_, back) ← b.lastWithDatap.split b.chains
    match back with
    | chain :: _ => b.addTo a chain data
    | [] =>
        match b.chains.find? fun c => b.last = some c.id with
        | some chain => b.addTo a chain data
        | none =>
            match a.chainNew data.length with
            | (none, a) => .ok (false, b, a)
            | (some chain, a) => do
                let (b, a) ← b.chainInsert a chain
                b.addTo a chain data

/-- The address a slot leads to. -/
def target (chains : List Chain) (slot : Slot) : Exec (Option Nat) := do
  let (_, back) ← slot.split chains
  .ok (back.head?.map Chain.id)

/-- The loop of `evbuffer_drain` over the chains of `b` that are left, with `last_with_datap`. -/
def drainLoop (b : Evbuffer) (a : Arena) (slot : Slot) (remaining : Nat) :
    List Chain → Exec (List Chain × Slot × Arena)
  | [] => .error .nullDeref
  | chain :: rest =>
      if chain.off ≤ remaining then do
        let data ← target b.chains slot
        let slot := if data = some chain.id then .first else slot
        let slot := if slot = .next chain.id then .first else slot
        let a ← a.chainFree chain
        b.drainLoop a slot (remaining - chain.off) rest
      else .ok (chain.slide (chain.misalign + remaining) (chain.off - remaining) :: rest, slot, a)

/-- `ZERO_CHAIN`. -/
def zeroChain (b : Evbuffer) : Evbuffer :=
  { b with chains := [], last := none, lastWithDatap := .first, totalLen := 0 }

/-- `evbuffer_drain`. -/
def evbufferDrain (b : Evbuffer) (a : Arena) (len : Nat) : Exec (Bool × Evbuffer × Arena) := do
  if b.totalLen = 0 then .ok (true, b, a)
  else if b.freezeStart then .ok (false, b, a)
  else if b.totalLen ≤ len then do
    let a ← a.freeAllChains b.chains
    .ok (true, b.zeroChain, a)
  else do
    let (chains, lastWithDatap, a) ← b.drainLoop a b.lastWithDatap len b.chains
    .ok (true, { b with chains, lastWithDatap, totalLen := b.totalLen - len }, a)

/-- The loop of `evbuffer_copyout_from`, and the copy behind it. -/
def copyLoop (a : Arena) : List Chain → Nat → Exec (List UInt8)
  | [], 0 => .ok []
  | [], _ + 1 => .error .nullDeref
  | c :: cs, datlen =>
      if datlen = 0 then .ok []
      else if c.off ≤ datlen then do
        let xs ← a.mem.load c.buffer c.misalign c.off
        let ys ← copyLoop a cs (datlen - c.off)
        .ok (xs ++ ys)
      else a.mem.load c.buffer c.misalign datlen

/-- `evbuffer_copyout`, from the beginning. The result is none for -1. -/
def evbufferCopyout (b : Evbuffer) (a : Arena) (datlen : Nat) : Exec (Option (List UInt8)) := do
  let datlen := min datlen b.totalLen
  if datlen = 0 then .ok (some [])
  else if b.freezeStart then .ok none
  else do
    let data ← copyLoop a b.chains datlen
    .ok (some data)

/-- `evbuffer_remove`, with what it returns and what it has written to `data_out`. -/
def evbufferRemove (b : Evbuffer) (a : Arena) (datlen : Nat) :
    Exec (Int × List UInt8 × Evbuffer × Arena) := do
  let data ← b.evbufferCopyout a datlen
  match data with
  | none => .ok (asInt (-1), [], b, a)
  | some data =>
      let n := asSsize data.length
      if 0 < n then do
        let (ok, b, a) ← b.evbufferDrain a n.toNat
        .ok (asInt (if ok then n else -1), data, b, a)
      else .ok (asInt n, data, b, a)

/-- `COPY_CHAIN` after the chains of `out` were freed. -/
def copyChain (out src : Evbuffer) : Evbuffer :=
  { out with chains := src.chains, last := src.last, lastWithDatap := src.lastWithDatap,
             totalLen := src.totalLen }

/-- `APPEND_CHAIN` after the empty chains at the end of `out` were freed. -/
def appendChain (out src : Evbuffer) (kept : List Chain) : Evbuffer :=
  { out with chains := kept ++ src.chains, last := src.last,
             lastWithDatap := if src.lastWithDatap = .first then Slot.behind kept else src.lastWithDatap,
             totalLen := asSize (out.totalLen + src.totalLen) }

/-- `evbuffer_add_buffer` for two different buffers. -/
def evbufferAddBuffer (out src : Evbuffer) (a : Arena) : Exec (Bool × Evbuffer × Evbuffer × Arena) := do
  if src.totalLen = 0 then .ok (true, out, src, a)
  else if out.freezeEnd || src.freezeStart then .ok (false, out, src, a)
  else if out.totalLen = 0 then do
    let a ← a.freeAllChains out.chains
    .ok (true, out.copyChain src, src.zeroChain, a)
  else do
    let (kept, a) ← out.freeTrailingEmptyChains a
    .ok (true, out.appendChain src kept, src.zeroChain, a)

/-- `evbuffer_add_reference`. -/
def evbufferAddReference (b : Evbuffer) (a : Arena) (data : List UInt8) :
    Exec (Bool × Evbuffer × Arena) := do
  if b.freezeEnd then .ok (false, b, a)
  else do
    let block : Block UInt8 := { length := data.length, entry := fun i => data.getD i 0 }
    let (chain, a) := a.chainWith block data.length true
    let (b, a) ← b.chainInsert a chain
    .ok (true, b, a)

/-- The loop of `APPEND_CHAIN_MULTICAST`, with the chains of the other buffer that were seen. -/
def appendMulticast (out : Evbuffer) (a : Arena) : List Chain → Exec (List Chain × Evbuffer × Arena)
  | [] => .ok ([], out, a)
  | chain :: rest =>
      if chain.off = 0 then do
        let (seen, out, a) ← out.appendMulticast a rest
        .ok (chain :: seen, out, a)
      else do
        let mem ← a.mem.hold chain.buffer
        let chain := { chain with immutable := true }
        let tmp := { chain with id := a.made, multicast := true }
        let (out, a) ← out.chainInsert { mem, made := a.made + 1 } tmp
        let (seen, out, a) ← out.appendMulticast a rest
        .ok (chain :: seen, out, a)

/-- `if (out_total_len == 0)`: the chains at the start of `out` are freed, but `out` keeps them. -/
def freeEmpty (out : Evbuffer) (a : Arena) : Exec Arena :=
  if out.totalLen = 0 then a.freeAllChains out.chains else .ok a

/-- `evbuffer_add_buffer_reference` for two different buffers. -/
def evbufferAddBufferReference (out src : Evbuffer) (a : Arena) :
    Exec (Bool × Evbuffer × Evbuffer × Arena) := do
  if src.totalLen = 0 then .ok (true, out, src, a)
  else if out.freezeEnd then .ok (false, out, src, a)
  else if src.chains.any (·.multicast) then .ok (false, out, src, a)
  else do
    let a ← out.freeEmpty a
    let (chains, out, a) ← out.appendMulticast a src.chains
    .ok (true, out, { src with chains }, a)

end Evbuffer

/-! ## The chains there are -/

section
variable {a a' a'' : Arena} {c d : Chain} {cs ds : List Chain} {data xs : List UInt8} {n size : Nat}

/-- The chains `cs`, of whatever buffers, are all there are. -/
structure Owns (a : Arena) (cs : List Chain) : Prop where
  holds : Holds a.mem (cs.map Chain.window)
  nodup : (cs.map Chain.id).Nodup
  lt : ∀ c ∈ cs, c.id < a.made
  fresh : ∀ p, a.made ≤ p → a.mem.cells p = none

namespace Arena

/-- The data of a chain. -/
def bytes (a : Arena) (c : Chain) : List UInt8 := c.window.read a.mem

/-- The data of a buffer with these chains. -/
def content (a : Arena) (cs : List Chain) : List UInt8 := cs.flatMap a.bytes

/-- The data of chains is that of the first ones and then that of the rest. -/
theorem content_append (cs ds : List Chain) : a.content (cs ++ ds) = a.content cs ++ a.content ds :=
  List.flatMap_append

theorem content_cons (c : Chain) (cs : List Chain) : a.content (c :: cs) = a.bytes c ++ a.content cs := rfl

end Arena

/-- Nobody sees a difference in the chains `cs`. -/
def Same (a a' : Arena) (cs : List Chain) : Prop := ∀ c ∈ cs, a'.bytes c = a.bytes c

namespace Same

/-- Nothing has changed. -/
theorem refl (a : Arena) (cs : List Chain) : Same a a cs := fun _ _ => rfl

theorem trans (h : Same a a' cs) (h' : Same a' a'' cs) : Same a a'' cs :=
  fun c hc => (h' c hc).trans (h c hc)

/-- It is enough to know it of more chains. -/
theorem subset (h : Same a a' cs) (hsub : ∀ c ∈ ds, c ∈ cs) : Same a a' ds := fun c hc => h c (hsub c hc)

/-- What is read from memory that has not changed is the same. -/
theorem of_unchanged (h : Unchanged a.mem a'.mem (cs.map Chain.window)) : Same a a' cs :=
  fun _ hc => h _ (List.mem_map_of_mem hc)

/-- The same bytes in each chain are the same data. -/
theorem content (h : Same a a' cs) : a'.content cs = a.content cs := by
  unfold Arena.content
  rw [List.flatMap_def, List.flatMap_def, List.map_congr_left h]

end Same

namespace Owns

/-- The order of the chains does not matter. -/
theorem perm (h : Owns a cs) (hp : cs.Perm ds) : Owns a ds where
  holds := h.holds.perm (hp.map _)
  nodup := (hp.map Chain.id).nodup_iff.mp h.nodup
  lt c hc := h.lt c (hp.mem_iff.mpr hc)
  fresh := h.fresh

/-- The data of a chain is inside its memory. -/
theorem fits (h : Owns a cs) (hc : c ∈ cs) : c.misalign + c.off ≤ c.bufferLen :=
  h.holds.fits _ (List.mem_map_of_mem hc)

/-- A chain has as many bytes as `off` says. -/
theorem length_bytes (h : Owns a cs) (hc : c ∈ cs) : (a.bytes c).length = c.off :=
  h.holds.length_read (List.mem_map_of_mem hc)

/-- An empty chain has no bytes. -/
theorem bytes_nil (h : Owns a cs) (hc : c ∈ cs) (hoff : c.off = 0) : a.bytes c = [] :=
  List.eq_nil_of_length_eq_zero ((h.length_bytes hc).trans hoff)

/-- The data is as long as the chains together. -/
theorem length_content (h : Owns a cs) (hsub : ∀ d ∈ ds, d ∈ cs) :
    (a.content ds).length = (ds.map Chain.off).sum := by
  rw [Arena.content, List.length_flatMap]
  exact congrArg List.sum (List.map_congr_left fun d hd => h.length_bytes (hsub d hd))

/-- Empty chains have no data. -/
theorem content_empty (h : Owns a cs) (hsub : ∀ d ∈ ds, d ∈ cs) (hoff : ∀ d ∈ ds, d.off = 0) :
    a.content ds = [] := by
  apply List.flatMap_eq_nil_iff.mpr
  intro d hd
  exact h.bytes_nil (hsub d hd) (hoff d hd)

/-- The data of a chain can be read. -/
theorem load (h : Owns a cs) (hc : c ∈ cs) : a.mem.load c.buffer c.misalign c.off = .ok (a.bytes c) :=
  h.holds.load (List.mem_map_of_mem hc)

/-- A part of the data at the beginning of a chain can be read. -/
theorem load_prefix (h : Owns a cs) (hc : c ∈ cs) (hn : n ≤ c.off) :
    a.mem.load c.buffer c.misalign n = .ok ((a.bytes c).take n) := by
  have hload := h.holds.load_part (List.mem_map_of_mem hc) (i := 0) (n := n) (by rw [Nat.zero_add]; exact hn)
  rwa [Nat.add_zero, List.drop_zero] at hload

/-- `evbuffer_chain_free`. -/
theorem chainFree (h : Owns a (c :: cs)) :
    ∃ a', a.chainFree c = .ok a' ∧ Owns a' cs ∧ Same a a' cs := by
  obtain ⟨mem, hrun, hh, hun, hnone⟩ := h.holds.release
  have hrun : a.mem.release c.buffer = .ok mem := hrun
  refine ⟨{ a with mem }, by rw [Arena.chainFree, hrun, ok_bind], ⟨hh, ?_, ?_, ?_⟩, Same.of_unchanged hun⟩
  · exact (List.nodup_cons.mp h.nodup).2
  · exact fun d hd => h.lt d (List.mem_cons_of_mem _ hd)
  · exact fun p hp => hnone p (h.fresh p hp)

/-- `evbuffer_free_all_chains`. -/
theorem freeAllChains (h : Owns a (cs ++ ds)) :
    ∃ a', a.freeAllChains cs = .ok a' ∧ Owns a' ds ∧ Same a a' ds := by
  induction cs generalizing a with
  | nil => exact ⟨a, rfl, h, Same.refl a _⟩
  | cons c cs ih =>
      obtain ⟨a₁, hrun₁, ho₁, hs₁⟩ := h.chainFree
      obtain ⟨a₂, hrun₂, ho₂, hs₂⟩ := ih ho₁
      refine ⟨a₂, by rw [Arena.freeAllChains, hrun₁, ok_bind, hrun₂], ho₂, ?_⟩
      exact (hs₁.subset fun d hd => List.mem_append_right _ hd).trans hs₂

/-- What was freed cannot be freed again. -/
theorem chainFree_twice (h : Owns a (c :: cs)) (hs : c.window.sole = true) (hrun : a.chainFree c = .ok a') :
    a'.mem.cells c.buffer = none := by
  obtain ⟨cell, hc, -⟩ := h.holds.live _ (List.mem_map_of_mem List.mem_cons_self)
  have hc : a.mem.cells c.buffer = some cell := hc
  have hone : cell.refcnt = 1 :=
    (h.holds.counts _ _ hc).2.trans (h.holds.sole _ (List.mem_map_of_mem List.mem_cons_self) hs)
  rw [Arena.chainFree, Mem.release, Mem.deref_eq hc, ok_bind, if_neg (by omega), Mem.delete_eq hc,
    ok_bind] at hrun
  obtain rfl := Except.ok.inj hrun
  exact Mem.cells_set_self ..

theorem window_slide (hm : c.immutable = false) (misalign off : Nat) :
    (c.slide misalign off).window = c.window.slide misalign off := by
  simp [Chain.window, Chain.slide, Window.slide, hm]

/-- Other data is shown. -/
theorem slide (h : Owns a (c :: cs)) {misalign off : Nat} (hfits : misalign + off ≤ c.bufferLen)
    (hsole : c.immutable = true → off ≠ 0) : Owns a (c.slide misalign off :: cs) where
  holds := by
    have hh : Holds a.mem (c.window.slide misalign off :: cs.map Chain.window) := h.holds.slide hfits
    rw [List.map_cons]
    cases hi : c.immutable with
    | false =>
        rw [window_slide hi]
        exact hh
    | true =>
        have heq : (c.slide misalign off).window = { c.window.slide misalign off with sole := false } := by
          simp [Chain.window, Chain.slide, Window.slide, hi, hsole hi]
        rw [heq]
        exact hh.give_up
  nodup := h.nodup
  lt := by
    intro d hd
    rcases List.mem_cons.mp hd with rfl | hd
    · exact h.lt c List.mem_cons_self
    · exact h.lt d (List.mem_cons_of_mem _ hd)
  fresh := h.fresh

/-- Moving the start of a chain drops the bytes before it. -/
theorem bytes_slide (h : Owns a cs) (hc : c ∈ cs) (hn : n ≤ c.off) :
    a.bytes (c.slide (c.misalign + n) (c.off - n)) = (a.bytes c).drop n := by
  obtain ⟨cell, hcell, -, hr⟩ := h.holds.read_eq (List.mem_map_of_mem hc)
  have hcell : a.mem.cells c.buffer = some cell := hcell
  have hr : c.window.read a.mem = cell.block.slice c.misalign c.off := hr
  rw [Arena.bytes, Arena.bytes, hr, Block.drop_slice hn, Window.read]
  show (a.mem.cells c.buffer).elim [] _ = _
  rw [hcell]
  rfl

/-- The memory of a chain that is not shared has changed. -/
theorem of_store {mem : Mem (Cell UInt8)} {i : Nat} (h : Owns a (c :: cs)) (hm : c.immutable = false)
    {misalign off : Nat} (hrun : a.mem.store c.buffer i xs = .ok mem)
    (hh : Holds mem (c.window.slide misalign off :: cs.map Chain.window))
    (hun : Unchanged a.mem mem (cs.map Chain.window)) :
    ∃ a', a.store c i xs = .ok a' ∧ a'.mem = mem ∧ Owns a' (c.slide misalign off :: cs) ∧ Same a a' cs := by
  refine ⟨{ a with mem }, by rw [Arena.store, hrun, ok_bind], rfl, ⟨?_, h.nodup, ?_, ?_⟩, Same.of_unchanged hun⟩
  · rw [List.map_cons, window_slide hm]
    exact hh
  · intro d hd
    rcases List.mem_cons.mp hd with rfl | hd
    · exact h.lt c List.mem_cons_self
    · exact h.lt d (List.mem_cons_of_mem _ hd)
  · intro p hp
    obtain ⟨cell, hc, -⟩ := h.holds.live _ (List.mem_map_of_mem List.mem_cons_self)
    have hc : a.mem.cells c.buffer = some cell := hc
    rw [Mem.store, Mem.deref_eq hc, ok_bind] at hrun
    obtain ⟨block, -, hset⟩ := bind_eq_ok.mp hrun
    obtain rfl := Except.ok.inj hset
    rw [Mem.cells_set_ne, h.fresh p hp]
    rintro rfl
    rw [h.fresh _ hp] at hc
    cases hc

/-- Data is written behind what a chain has. -/
theorem store_behind (h : Owns a (c :: cs)) (hm : c.immutable = false)
    (hin : c.misalign + c.off + xs.length ≤ c.bufferLen) :
    ∃ a', a.store c (c.misalign + c.off) xs = .ok a' ∧
      Owns a' (c.slide c.misalign (c.off + xs.length) :: cs) ∧ Same a a' cs ∧
      a'.bytes (c.slide c.misalign (c.off + xs.length)) = a.bytes c ++ xs := by
  obtain ⟨mem, hrun, hh, hun, hread⟩ :=
    h.holds.store_behind (w := c.window) (by simp [Chain.window, hm]) hin
  obtain ⟨a', hrun', rfl, ho, hs⟩ := h.of_store hm hrun hh hun
  exact ⟨a', hrun', ho, hs, by rw [Arena.bytes, window_slide hm]; exact hread⟩

/-- The data of a chain is written anew. -/
theorem store_anew (h : Owns a (c :: cs)) (hm : c.immutable = false) (hin : xs.length ≤ c.bufferLen) :
    ∃ a', a.store c 0 xs = .ok a' ∧ Owns a' (c.slide 0 xs.length :: cs) ∧ Same a a' cs ∧
      a'.bytes (c.slide 0 xs.length) = xs := by
  obtain ⟨mem, hrun, hh, hun, hread⟩ :=
    h.holds.store_anew (w := c.window) (i := 0) (by simp [Chain.window, hm]) (by rw [Nat.zero_add]; exact hin)
  obtain ⟨a', hrun', rfl, ho, hs⟩ := h.of_store hm hrun hh hun
  exact ⟨a', hrun', ho, hs, by rw [Arena.bytes, window_slide hm]; exact hread⟩

/-- A chain with memory of its own. -/
theorem chainWith (h : Owns a cs) (block : Block UInt8) {off : Nat} (hoff : off ≤ block.length)
    (immutable : Bool) :
    Owns (a.chainWith block off immutable).2 ((a.chainWith block off immutable).1 :: cs) ∧
      Same a (a.chainWith block off immutable).2 cs ∧
      (a.chainWith block off immutable).2.bytes (a.chainWith block off immutable).1 = block.slice 0 off := by
  have hfits : 0 + off ≤ block.length := by omega
  obtain ⟨hh, hun⟩ := h.holds.new (h.fresh a.made le_rfl) block hfits (!immutable || off == 0)
  refine ⟨⟨hh, ?_, ?_, ?_⟩, Same.of_unchanged hun, ?_⟩
  · rw [List.map_cons]
    refine List.nodup_cons.mpr ⟨?_, h.nodup⟩
    intro hmem
    obtain ⟨d, hd, heq⟩ := List.mem_map.mp hmem
    have hlt := h.lt d hd
    rw [heq] at hlt
    exact absurd hlt (Nat.lt_irrefl _)
  · intro d hd
    rcases List.mem_cons.mp hd with rfl | hd
    · exact Nat.lt_succ_self _
    · exact Nat.lt_succ_of_lt (h.lt d hd)
  · intro p hp
    have hp : a.made + 1 ≤ p := hp
    have hne : p ≠ a.made := by omega
    show (a.mem.new a.made _).cells p = none
    rw [Mem.new, Mem.cells_set_ne _ _ hne]
    exact h.fresh p (by omega)
  · show ((a.mem.new a.made _).cells a.made).elim [] _ = _
    rw [Mem.new, Mem.cells_set_self]
    rfl

end Owns

/-- The memory of a new chain is large enough. -/
theorem roundUp_ge (fuel : Nat) {toAlloc : Nat} (h : size ≤ toAlloc * 2 ^ fuel) : size ≤ roundUp fuel toAlloc size := by
  induction fuel generalizing toAlloc with
  | zero => simpa [roundUp] using h
  | succ fuel ih =>
      rw [roundUp]
      split
      · apply ih
        rw [Nat.pow_succ] at h
        rw [Nat.mul_comm 2, Nat.mul_assoc, Nat.mul_comm 2]
        exact h
      · omega

/-- There is room for what was asked for. -/
theorem chainRoom_ge (size : Nat) : size ≤ chainRoom size := by
  unfold chainRoom
  have hround : size + chainSize < chainMax / 2 → size + chainSize ≤ roundUp 64 1024 (size + chainSize) := by
    intro hlt
    apply roundUp_ge
    have hmax : chainMax / 2 ≤ 1024 * 2 ^ 64 := by decide
    omega
  split
  · rename_i hlt
    have := hround hlt
    omega
  · omega

/-- `evbuffer_chain_new` fails only if it is asked for too much. -/
theorem Owns.chainNew (h : Owns a cs) (size : Nat) :
    (chainMax - chainSize < size ∧ a.chainNew size = (none, a)) ∨
    ∃ c a', a.chainNew size = (some c, a') ∧ Owns a' (c :: cs) ∧ Same a a' cs ∧ c.immutable = false ∧
      c.misalign = 0 ∧ c.off = 0 ∧ size ≤ c.bufferLen := by
  unfold Arena.chainNew
  by_cases hsize : chainMax - chainSize < size
  · exact .inl ⟨hsize, if_pos hsize⟩
  · rw [if_neg hsize]
    obtain ⟨ho, hs, -⟩ := h.chainWith (Block.fill (chainRoom size) 0) (Nat.zero_le _) false
    exact .inr ⟨_, _, rfl, ho, hs, rfl, rfl, rfl, chainRoom_ge size⟩

/-- A chain is shared with a new one. -/
theorem Owns.share (h : Owns a (c :: cs)) (hoff : c.off ≠ 0) :
    ∃ mem, a.mem.hold c.buffer = .ok mem ∧
      Owns { mem, made := a.made + 1 }
        ({ c with id := a.made, immutable := true, multicast := true } :: { c with immutable := true } :: cs) ∧
      Same a { mem, made := a.made + 1 } (c :: cs) := by
  have hgive := h.holds.give_up
  have hsole : ∀ d : Chain, d.immutable = true → d.off ≠ 0 → d.window.sole = false := by
    intro d hd hdoff
    simp [Chain.window, hd, hdoff]
  have hh : Holds a.mem ({ c with immutable := true }.window :: cs.map Chain.window) := by
    have heq : ({ c with immutable := true } : Chain).window = { c.window with sole := false } := by
      simp [Chain.window, hoff]
    rw [heq]
    exact hgive
  obtain ⟨mem, hrun, hshare, hun⟩ := hh.share (hsole _ rfl hoff)
  have heq : ({ c with id := a.made, immutable := true, multicast := true } : Chain).window =
      ({ c with immutable := true } : Chain).window := rfl
  refine ⟨mem, hrun, ⟨?_, ?_, ?_, ?_⟩, ?_⟩
  · rw [List.map_cons, List.map_cons, heq]
    exact hshare
  · rw [List.map_cons]
    refine List.nodup_cons.mpr ⟨?_, h.nodup⟩
    intro hmem
    have hmem : a.made ∈ (c :: cs).map Chain.id := hmem
    obtain ⟨d, hd, heq⟩ := List.mem_map.mp hmem
    have hlt := h.lt d hd
    omega
  · intro d hd
    rcases List.mem_cons.mp hd with rfl | hd
    · exact Nat.lt_succ_self _
    · rcases List.mem_cons.mp hd with rfl | hd
      · exact Nat.lt_succ_of_lt (h.lt c List.mem_cons_self)
      · exact Nat.lt_succ_of_lt (h.lt d (List.mem_cons_of_mem _ hd))
  · intro p hp
    have hp : a.made + 1 ≤ p := hp
    obtain ⟨cell, hc, -⟩ := h.holds.live _ (List.mem_map_of_mem List.mem_cons_self)
    have hc : a.mem.cells c.buffer = some cell := hc
    have hrun : a.mem.modify (some c.buffer) _ = .ok mem := hrun
    rw [Mem.modify_eq hc] at hrun
    obtain rfl := Except.ok.inj hrun
    have hnone := h.fresh p (by omega)
    rw [Mem.cells_set_ne _ _ (by rintro rfl; rw [hnone] at hc; cases hc)]
    exact hnone
  · intro d hd
    rcases List.mem_cons.mp hd with rfl | hd
    · have hread := hun ({ d with immutable := true } : Chain).window List.mem_cons_self
      exact hread
    · exact hun _ (List.mem_cons_of_mem _ (List.mem_map_of_mem hd))

end

/-! ## The parts of a buffer -/

section
variable {a a' : Arena} {b b' : Evbuffer} {c chain : Chain} {front back rest fr : List Chain}
  {data xs text : List UInt8} {n : Nat}

/-- A number up to `EV_SIZE_MAX` is a `size_t`. -/
theorem asSize_of_le (h : n ≤ sizeMax) : asSize n = n := Nat.mod_eq_of_lt (Nat.lt_of_le_pred (by decide) h)

/-- A `size_t` is at most `EV_SIZE_MAX`. -/
theorem asSize_le (n : Nat) : asSize n ≤ sizeMax := Nat.le_pred_of_lt (Nat.mod_lt n (by decide))

/-- Beyond `EV_SSIZE_MAX` a `size_t` is negative as an `ev_ssize_t`. -/
theorem asSsize_eq (hn : n ≤ sizeMax) : asSsize n = if n ≤ ssizeMax then (n : Int) else n - 2 ^ 64 := by
  unfold sizeMax at hn
  have hmod : (n : Int) % (2 ^ 64 : Nat) = n := by omega
  unfold asSsize ssizeMax
  rw [Int.bmod_def, hmod]
  norm_num
  split <;> split <;> omega

/-- To an `int` it makes no difference whether the number was an `ev_ssize_t` before. -/
theorem asInt_asSsize (n : Nat) : asInt (asSsize n) = asInt n :=
  Int.bmod_bmod_of_dvd (by decide)

/-- Chains without data are empty. -/
theorem sum_off_eq_zero : ∀ {cs : List Chain}, (cs.map Chain.off).sum = 0 ↔ ∀ c ∈ cs, c.off = 0
  | [] => by simp
  | c :: cs => by
      have ih : (cs.map Chain.off).sum = 0 ↔ ∀ c ∈ cs, c.off = 0 := sum_off_eq_zero
      rw [List.map_cons, List.sum_cons, Nat.add_eq_zero_iff, ih, List.forall_mem_cons]

/-- The pointer `next` of a chain leads to the chains behind it. -/
theorem Slot.split_next (c : Chain) (front back : List Chain) (hne : ∀ d ∈ front, d.id ≠ c.id) :
    (Slot.next c.id).split (front ++ c :: back) = .ok (front ++ [c], back) := by
  induction front with
  | nil => exact if_pos rfl
  | cons d front ih =>
      rw [List.cons_append, Slot.split, if_neg (hne d List.mem_cons_self),
        ih fun e he => hne e (List.mem_cons_of_mem _ he), ok_bind]
      rfl

/-- The pointer behind some chains leads to those that follow. -/
theorem Slot.split_behind (hnd : ((front ++ back).map Chain.id).Nodup) :
    (Slot.behind front).split (front ++ back) = .ok (front, back) := by
  rcases List.eq_nil_or_concat front with rfl | ⟨init, c, rfl⟩
  · simp [Slot.behind, Slot.split]
  · have hbehind : Slot.behind (init ++ [c]) = .next c.id := by simp [Slot.behind]
    rw [List.concat_eq_append] at hnd ⊢
    rw [hbehind, List.append_assoc, List.singleton_append]
    apply Slot.split_next
    intro d hd heq
    rw [List.append_assoc, List.singleton_append, List.map_append, List.map_cons] at hnd
    exact (List.nodup_append.mp hnd).2.2 _ (List.mem_map_of_mem hd) _ List.mem_cons_self heq

namespace Evbuffer

/-- `front` are the chains before the last one with data, which is the first of `back`. If there is no data,
all chains are in `back`. -/
structure Parts (b : Evbuffer) (front back : List Chain) : Prop where
  chains : b.chains = front ++ back
  slot : b.lastWithDatap = Slot.behind front
  data : front ≠ [] → ∃ c, back.head? = some c ∧ c.off ≠ 0
  empty : ∀ c ∈ back.tail, c.off = 0
  last : b.last = b.chains.getLast?.map Chain.id
  total : b.totalLen = (b.chains.map Chain.off).sum
  small : b.totalLen ≤ sizeMax

/-- `last_with_datap`, `last` and `total_len` are right. -/
def Ok (b : Evbuffer) : Prop := ∃ front back, b.Parts front back

/-- From `b` to `b'`, which holds `text`. The chains `fr` of others look as before. -/
structure Becomes (a a' : Arena) (b b' : Evbuffer) (fr : List Chain) (text : List UInt8) : Prop where
  ok : b'.Ok
  owns : Owns a' (b'.chains ++ fr)
  same : Same a a' fr
  content : a'.content b'.chains = text
  flags : b'.freezeStart = b.freezeStart ∧ b'.freezeEnd = b.freezeEnd

theorem Becomes.refl (hok : b.Ok) (ho : Owns a (b.chains ++ fr)) :
    Becomes a a b b fr (a.content b.chains) :=
  ⟨hok, ho, Same.refl a fr, rfl, rfl, rfl⟩

/-- A new buffer is right. -/
theorem make_ok : make.Ok := ⟨[], [], rfl, rfl, by simp, by simp, rfl, rfl, Nat.zero_le _⟩

/-- If `total_len` is 0 all chains are empty. -/
theorem Ok.total_eq_zero (hok : b.Ok) (hzero : b.totalLen = 0) : ∀ c ∈ b.chains, c.off = 0 := by
  obtain ⟨front, back, hp⟩ := hok
  exact sum_off_eq_zero.mp (hp.total.symm.trans hzero)

/-- `total_len` is the number of bytes. -/
theorem Ok.length_content (hok : b.Ok) (ho : Owns a (b.chains ++ fr)) :
    (a.content b.chains).length = b.totalLen := by
  obtain ⟨front, back, hp⟩ := hok
  rw [ho.length_content fun d hd => List.mem_append_left _ hd, hp.total]

/-- `total_len` is a `size_t`. -/
theorem Ok.small (hok : b.Ok) : b.totalLen ≤ sizeMax := by
  obtain ⟨front, back, hp⟩ := hok
  exact hp.small

namespace Parts

/-- No two chains of a buffer have the same address. -/
theorem nodup (hp : b.Parts front back) (ho : Owns a (b.chains ++ fr)) :
    ((front ++ back).map Chain.id).Nodup := by
  have hnd := ho.nodup
  rw [List.map_append] at hnd
  rw [← hp.chains]
  exact hnd.of_append_left

/-- `last_with_datap` can be followed. -/
theorem split (hp : b.Parts front back) (ho : Owns a (b.chains ++ fr)) :
    b.lastWithDatap.split b.chains = .ok (front, back) := by
  rw [hp.slot, hp.chains]
  exact Slot.split_behind (hp.nodup ho)

/-- What is kept ends with data. -/
theorem freeTrailing (hp : b.Parts front back) (ho : Owns a (b.chains ++ fr)) :
    ∃ kept a', b.freeTrailingEmptyChains a = .ok (kept, a') ∧
      (kept = [] ∧ front = [] ∨ ∃ c, kept = front ++ [c] ∧ c.off ≠ 0) ∧
      Owns a' (kept ++ fr) ∧ Same a a' (kept ++ fr) ∧ a'.content kept = a.content b.chains ∧
      (kept.map Chain.off).sum = b.totalLen := by
  obtain ⟨kept, dropped, hkept, hcat, hempty, hends⟩ : ∃ kept dropped,
      (front ++ back.takeWhile (·.off ≠ 0) = kept ∧ back.dropWhile (·.off ≠ 0) = dropped) ∧
      b.chains = kept ++ dropped ∧ (∀ d ∈ dropped, d.off = 0) ∧
      (kept = [] ∧ front = [] ∨ ∃ c, kept = front ++ [c] ∧ c.off ≠ 0) := by
    have hcat : b.chains = (front ++ back.takeWhile (·.off ≠ 0)) ++ back.dropWhile (·.off ≠ 0) := by
      rw [List.append_assoc, List.takeWhile_append_dropWhile, hp.chains]
    have hnone : ∀ l : List Chain, (∀ d ∈ l, d.off = 0) →
        l.takeWhile (·.off ≠ 0) = [] ∧ l.dropWhile (·.off ≠ 0) = l := by
      intro l hl
      cases l with
      | nil => exact ⟨rfl, rfl⟩
      | cons d l =>
          have hd := hl d List.mem_cons_self
          simp [hd]
    refine ⟨_, _, ⟨rfl, rfl⟩, hcat, ?_⟩
    cases back with
    | nil =>
        refine ⟨by simp, .inl ?_⟩
        by_contra hne
        have hfront : front ≠ [] := by
          rintro rfl
          exact hne ⟨rfl, rfl⟩
        obtain ⟨c, hc, -⟩ := hp.data hfront
        cases hc
    | cons c rest =>
        obtain ⟨htake, hdrop⟩ := hnone rest hp.empty
        by_cases hc : c.off = 0
        · have hfront : front = [] := by
            by_contra hne
            obtain ⟨d, hd, hoff⟩ := hp.data hne
            obtain rfl := Option.some.inj hd
            exact hoff hc
          obtain ⟨htake', hdrop'⟩ := hnone (c :: rest) (by
            intro d hd
            rcases List.mem_cons.mp hd with rfl | hd
            · exact hc
            · exact hp.empty d hd)
          rw [htake', hdrop', hfront]
          refine ⟨?_, .inl ⟨rfl, rfl⟩⟩
          intro d hd
          rcases List.mem_cons.mp hd with rfl | hd
          · exact hc
          · exact hp.empty d hd
        · rw [List.takeWhile_cons_of_pos (by simpa using hc), List.dropWhile_cons_of_pos (by simpa using hc),
            htake, hdrop]
          exact ⟨hp.empty, .inr ⟨c, rfl, hc⟩⟩
  have hperm : (b.chains ++ fr).Perm (dropped ++ (kept ++ fr)) := by
    rw [hcat, List.append_assoc, ← List.append_assoc dropped, ← List.append_assoc kept]
    exact List.perm_append_comm.append_right fr
  obtain ⟨a', hrun, ho', hs⟩ := (ho.perm hperm).freeAllChains
  refine ⟨kept, a', ?_, hends, ho', hs, ?_, ?_⟩
  · rw [freeTrailingEmptyChains, hp.split ho, ok_bind]
    dsimp only
    rw [hkept.2, hrun, ok_bind, hkept.1]
  · rw [hcat, Arena.content_append,
      ho.content_empty (fun d hd => by rw [hcat]; simp [hd]) hempty, List.append_nil]
    exact (hs.subset fun d hd => List.mem_append_left _ hd).content
  · rw [hp.total, hcat, List.map_append, List.sum_append, sum_off_eq_zero.mpr hempty,
      Nat.add_zero]

end Parts

/-- `evbuffer_chain_insert`. -/
theorem Ok.chainInsert (hok : b.Ok) (ho : Owns a (chain :: (b.chains ++ fr)))
    (hfit : b.totalLen + chain.off ≤ sizeMax) :
    ∃ b' a', b.chainInsert a chain = .ok (b', a') ∧
      Becomes a a' b b' fr (a.content b.chains ++ a.bytes chain) ∧ b'.chains.getLast? = some chain := by
  obtain ⟨front, back, hp⟩ := hok
  have ho' : Owns a (b.chains ++ chain :: fr) := ho.perm List.perm_middle.symm
  rw [Evbuffer.chainInsert, hp.split ho', ok_bind]
  dsimp only
  cases back with
  | nil =>
      have hfront : front = [] := by
        by_contra hne
        obtain ⟨c, hc, -⟩ := hp.data hne
        cases hc
      have hnil : b.chains = [] := by rw [hp.chains, hfront]; rfl
      have htotal : b.totalLen = 0 := by rw [hp.total, hnil]; rfl
      rw [hnil] at ho
      refine ⟨_, a, rfl, ⟨⟨[], [chain], rfl, ?_, by simp, by simp, rfl, ?_, asSize_le _⟩, ho, Same.refl a fr, ?_,
        rfl, rfl⟩, rfl⟩
      · exact hp.slot.trans (by rw [hfront])
      · show asSize (b.totalLen + chain.off) = _
        rw [asSize_of_le hfit]
        simp [htotal]
      · simp [hnil, Arena.content]
  | cons c rest =>
      obtain ⟨kept, a', hrun, hends, ho₁, hs, hcont, hsum⟩ := hp.freeTrailing ho'
      dsimp only
      rw [hrun, ok_bind]
      have htotal : (b.insertBehind kept chain).totalLen = b.totalLen + chain.off := asSize_of_le hfit
      have hsmall : (b.insertBehind kept chain).totalLen ≤ sizeMax := asSize_le _
      have hparts : (b.insertBehind kept chain).Ok := by
        by_cases hoff : chain.off = 0
        · rcases hends with ⟨rfl, hf⟩ | ⟨d, rfl, hd⟩
          · refine ⟨[], [chain], rfl, ?_, by simp, by simp, by simp [insertBehind], ?_, hsmall⟩
            · simp [insertBehind, hoff, hp.slot, hf]
            · rw [htotal]
              simp [insertBehind, ← hsum]
          · refine ⟨front, [d, chain], by simp [insertBehind], ?_, fun _ => ⟨d, rfl, hd⟩, by simp [hoff],
              by simp [insertBehind], ?_, hsmall⟩
            · simp [insertBehind, hoff, hp.slot]
            · rw [htotal]
              simp [insertBehind, ← hsum, Nat.add_assoc]
        · refine ⟨kept, [chain], rfl, ?_, fun _ => ⟨chain, rfl, hoff⟩, by simp, by simp [insertBehind], ?_, hsmall⟩
          · simp [insertBehind, hoff]
          · rw [htotal]
            simp [insertBehind, ← hsum]
      refine ⟨_, a', rfl, ⟨hparts, ?_, ?_, ?_, rfl, rfl⟩, ?_⟩
      · exact ho₁.perm (by simp [insertBehind])
      · exact hs.subset fun d hd => List.mem_append_right _ (List.mem_cons_of_mem _ hd)
      · show a'.content (kept ++ [chain]) = _
        rw [Arena.content_append, hcont]
        congr 1
        have hsame := hs chain (List.mem_append_right _ List.mem_cons_self)
        simpa [Arena.content] using hsame
      · simp [insertBehind]

end Evbuffer
end


end LinuxServer.Libevent
