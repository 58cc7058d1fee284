import LinuxServer.Libevent.Tagging

/-!
# Records

The rest of `event_tagging.c`. A record is a tag, the length of its data, and the data; integers, strings and
times are records whose data is their encoding. `records_round_trip` says that a stream of records is read
back, `unmarshal_exact` what reading takes out of any buffer, and `integer_round_trip`, `timeval_round_trip`
and `data_round_trip` are about the data.

The functions return an `int`, so that a length of 2^31 or more comes out negative.
-/

namespace LinuxServer.Libevent

open Library

/-- The conversion of an `ev_uint32_t` to `int`. -/
def toInt32 (n : Nat) : Int := if n < 2 ^ 31 then n else n - 2 ^ 32

/-- The conversion of a `long` to `ev_uint32_t`. -/
def toUInt32 (n : Int) : Nat := (n % 2 ^ 32).toNat

/-- `evbuffer_drain`, for an `int` that is converted to `size_t`. -/
def evbufferDrain (buf : List UInt8) (len : Int) : List UInt8 := if len < 0 then [] else buf.drop len.toNat

/-! ## Writing -/

/-- `evtag_marshal`, whose length is an `ev_uint32_t`, and `evtag_marshal_buffer`, which converts the length
of `data`. -/
def evtagMarshal (buf : List UInt8) (tag : Nat) (data : List UInt8) : Exec (List UInt8) := do
  let buf ← evtagEncodeTag buf tag
  let buf ← evtagEncodeInt 4 buf (data.length % 2 ^ 32)
  return buf ++ data

def evtagMarshalTimeval (buf : List UInt8) (tag : Nat) (sec usec : Int) : Exec (List UInt8) := do
  let (data, len) ← encodeIntInternal 4 (Block.fill 10 0) 0 (toUInt32 sec)
  let (data, more) ← encodeIntInternal 4 data len (toUInt32 usec)
  let bytes ← data.readAll 0 (len + more)
  evtagMarshal buf tag bytes

/-! ## Reading -/

/-- `evtag_unmarshal_header` behind the tag. -/
def unmarshalLength (tag : Nat) (buf : List UInt8) : Exec (Int × Nat × List UInt8) := do
  let (len, buf) ← evtagDecodeInt 4 buf
  match len with
  | none => return (-1, tag, buf)
  | some len => if buf.length < len then return (-1, tag, buf) else return (toInt32 len, tag, buf)

/-- `evtag_unmarshal_header`: the length or -1, the tag, and the buffer afterwards. -/
def evtagUnmarshalHeader (buf : List UInt8) : Exec (Int × Nat × List UInt8) := do
  let (tag, buf) ← evtagDecodeTag buf
  match tag with
  | none => return (-1, 0, buf)
  | some tag => unmarshalLength tag buf

def evtagConsume (buf : List UInt8) : Exec (Int × List UInt8) := do
  let (len, _, buf) ← evtagUnmarshalHeader buf
  if len = -1 then return (-1, buf) else return (0, evbufferDrain buf len)

/-- What `evtag_unmarshal` returns, the tag, the data it has put into `dst`, and `src` afterwards. A negative
length is one that `evbuffer_add` refuses. -/
def evtagUnmarshal (src : List UInt8) : Exec (Int × Nat × List UInt8 × List UInt8) := do
  let (len, tag, src) ← evtagUnmarshalHeader src
  if len < 0 then return (-1, tag, [], src)
  else return (len, tag, src.take len.toNat, evbufferDrain src len)

/-- The second integer of a time. -/
def timevalUsec (buf : List UInt8) (len : Int) (sec offset : Nat) : Exec (Option (Nat × Nat)) := do
  let res ← decodeIntInternal 4 buf offset
  match res with
  | none => return none
  | some (usec, offset2) => if ((offset + offset2 : Nat) : Int) > len then return none else return some (sec, usec)

/-- The two integers of a time. -/
def timevalFields (buf : List UInt8) (len : Int) : Exec (Option (Nat × Nat)) := do
  let res ← decodeIntInternal 4 buf 0
  match res with
  | none => return none
  | some (sec, offset) => timevalUsec buf len sec offset

def evtagUnmarshalTimeval (buf : List UInt8) (needTag : Nat) : Exec (Option (Nat × Nat) × List UInt8) := do
  let (len, tag, buf) ← evtagUnmarshalHeader buf
  if len = -1 then return (none, buf)
  else if tag ≠ needTag then return (none, evbufferDrain buf len)
  else
    let tv ← timevalFields buf len
    return (tv, evbufferDrain buf len)

/-- The length behind a tag of `n` bytes, and how many bytes it takes itself. -/
def lengthBehind (buf : List UInt8) (tag : Option (Nat × Nat)) : Exec (Option (Nat × Nat × Nat)) :=
  match tag with
  | none => .ok none
  | some (_, n) => do
      let res ← decodeIntInternal 4 buf n
      return res.map fun x => (x.1, x.2, n)

/-- `evtag_peek_length`: how long the whole record is. -/
def evtagPeekLength (buf : List UInt8) : Exec (Option Nat) := do
  let tag ← evtagPeek buf
  let res ← lengthBehind buf tag
  return res.map fun x => (x.1 + (x.2.1 + x.2.2)) % 2 ^ 32

def evtagPayloadLength (buf : List UInt8) : Exec (Option Nat) := do
  let tag ← evtagPeek buf
  let res ← lengthBehind buf tag
  return res.map fun x => x.1

/-! ## One record -/

section
variable {buf rest : List UInt8} {tag len a b n size number : Nat}

theorem toInt32_nonneg (h : len < 2 ^ 31) : toInt32 len = len := if_pos h

/-- An integer is read in the same way wherever it is. -/
theorem decodeIntInternal_drop (ha : a ≤ buf.length) (size : Nat) :
    decodeIntInternal size (buf.drop a) 0 = decodeIntInternal size buf a := by
  have hget : (fun i => (buf.drop a).getD (0 + i) 0) = fun i => buf.getD (a + i) 0 := by
    funext i
    rw [Nat.zero_add, List.getD_eq_getElem?_getD, List.getElem?_drop, List.getD_eq_getElem?_getD]
  have hiff : ∀ m c, (0 < (buf.drop a).length ∧ c < 2 * size ∧ 0 + m ≤ (buf.drop a).length) ↔
      (a < buf.length ∧ c < 2 * size ∧ a + m ≤ buf.length) := by
    intro m c
    rw [List.length_drop]
    omega
  rw [decodeIntInternal_eq, decodeIntInternal_eq, hget]
  simp only [hiff]

theorem decodeIntInternal_le {offset : Nat} (h : decodeIntInternal size buf offset = .ok (some (number, n))) :
    offset + n ≤ buf.length ∧ number < 2 ^ (8 * size) := by
  rw [decodeIntInternal_eq] at h
  have h := Except.ok.inj h
  split at h
  · rename_i hc
    obtain ⟨rfl, rfl⟩ := Prod.mk.inj (Option.some.inj h)
    refine ⟨hc.2.2, ?_⟩
    refine (readDown_lt _).trans_le ?_
    rw [Nat.zero_add, Nat.one_mul, show (16 : Nat) = 2 ^ 4 by rfl, ← Nat.pow_mul]
    exact Nat.pow_le_pow_right (by decide) (by omega)
  · cases h

theorem evtagDecodeTag_of_peek (h : evtagPeek buf = .ok (some (tag, a))) :
    evtagDecodeTag buf = .ok (some tag, buf.drop a) := by
  unfold evtagDecodeTag
  rw [h, ok_bind]
  rfl

theorem peek_le (h : evtagPeek buf = .ok (some (tag, a))) : a ≤ buf.length ∧ tag < 2 ^ 32 := by
  rcases evtagPeek_cases buf with ⟨-, herr⟩ | ⟨-, res, hres, hle⟩
  · rw [h] at herr
    cases herr
  · rw [h] at hres
    have := hle tag a (Except.ok.inj hres).symm
    exact ⟨this.2, this.1⟩

theorem evtagDecodeInt_of_decode (ha : a ≤ buf.length)
    (h : decodeIntInternal size buf a = .ok (some (number, b))) :
    evtagDecodeInt size (buf.drop a) = .ok (some number, buf.drop (a + b)) := by
  unfold evtagDecodeInt
  rw [decodeIntInternal_drop ha, h, ok_bind]
  dsimp only
  rw [List.drop_drop]
  rfl

/-- The header is read. If the data is not all there, this is told by -1, when the header is gone. -/
theorem unmarshalHeader_eq (htag : evtagPeek buf = .ok (some (tag, a)))
    (hlen : decodeIntInternal 4 buf a = .ok (some (len, b))) :
    evtagUnmarshalHeader buf =
      .ok (if buf.length < a + b + len then -1 else toInt32 len, tag, buf.drop (a + b)) := by
  have hle := (decodeIntInternal_le hlen).1
  unfold evtagUnmarshalHeader
  rw [evtagDecodeTag_of_peek htag, ok_bind]
  dsimp only
  unfold unmarshalLength
  rw [evtagDecodeInt_of_decode (peek_le htag).1 hlen, ok_bind]
  dsimp only
  rw [List.length_drop]
  by_cases hshort : buf.length < a + b + len
  · rw [if_pos hshort, if_pos (by omega)]
    rfl
  · rw [if_neg hshort, if_neg (by omega)]
    rfl

/-- **What is taken out of a buffer that begins with a tag and a length.** The two functions that peek tell
the lengths and take nothing. If the data is all there, `evtag_unmarshal` and `evtag_consume` take exactly
the record. If it is not, they fail, and the header is lost: what is left begins with the data. -/
theorem unmarshal_exact (htag : evtagPeek buf = .ok (some (tag, a)))
    (hlen : decodeIntInternal 4 buf a = .ok (some (len, b))) :
    evtagPayloadLength buf = .ok (some len) ∧
    evtagPeekLength buf = .ok (some ((len + (b + a)) % 2 ^ 32)) ∧
    (buf.length < a + b + len →
      evtagUnmarshal buf = .ok (-1, tag, [], buf.drop (a + b)) ∧
      evtagConsume buf = .ok (-1, buf.drop (a + b))) ∧
    (a + b + len ≤ buf.length → len < 2 ^ 31 →
      evtagUnmarshal buf =
        .ok (len, tag, (buf.drop (a + b)).take len, buf.drop (a + b + len)) ∧
      evtagConsume buf = .ok (0, buf.drop (a + b + len))) := by
  have hbehind : lengthBehind buf (some (tag, a)) = .ok (some (len, b, a)) := by
    unfold lengthBehind
    dsimp only
    rw [hlen, ok_bind]
    rfl
  have hheader := unmarshalHeader_eq htag hlen
  refine ⟨?_, ?_, ?_, ?_⟩
  · unfold evtagPayloadLength
    rw [htag, ok_bind, hbehind, ok_bind]
    rfl
  · unfold evtagPeekLength
    rw [htag, ok_bind, hbehind, ok_bind]
    rfl
  · intro hshort
    rw [if_pos hshort] at hheader
    unfold evtagUnmarshal evtagConsume
    rw [hheader, ok_bind, ok_bind]
    exact ⟨rfl, rfl⟩
  · intro hall hsmall
    rw [if_neg (by omega), toInt32_nonneg hsmall] at hheader
    have hdrain : evbufferDrain (buf.drop (a + b)) len = buf.drop (a + b + len) := by
      rw [evbufferDrain, if_neg (by omega), Int.toNat_natCast, List.drop_drop]
    unfold evtagUnmarshal evtagConsume
    rw [hheader, ok_bind, ok_bind]
    dsimp only
    rw [if_neg (by omega), if_neg (by omega), hdrain]
    exact ⟨rfl, rfl⟩

/-- Only one of the two bytes of data is there: the length is known, but the record cannot be read later. -/
theorem unmarshal_exact_short : evtagPeekLength [7, 2, 5] = .ok (some 4) ∧
    evtagUnmarshal [7, 2, 5] = .ok (-1, 7, [], [5]) := by
  have htag : evtagPeek [7, 2, 5] = .ok (some (7, 1)) := by decide +kernel
  have hlen : decodeIntInternal 4 [7, 2, 5] 1 = .ok (some (2, 1)) := by decide +kernel
  obtain ⟨-, hpeek, hshort, -⟩ := unmarshal_exact htag hlen
  exact ⟨hpeek, (hshort (by decide)).1⟩

/-! ## What was written -/

/-- A tag and a length, as they are written. -/
structure Header (tag len a b : Nat) (buf : List UInt8) : Prop where
  tag : evtagPeek buf = .ok (some (tag, a))
  len : decodeIntInternal 4 buf a = .ok (some (len, b))

/-- `evtag_encode_tag` and `evtag_encode_int` append a header. -/
theorem header_spec (htag : tag < 2 ^ 32) (hlen : len < 2 ^ 32) (buf : List UInt8) :
    ∃ tbytes lbytes, evtagEncodeTag buf tag = .ok (buf ++ tbytes) ∧
      evtagEncodeInt 4 (buf ++ tbytes) len = .ok (buf ++ tbytes ++ lbytes) ∧
      ∀ rest, Header tag len tbytes.length lbytes.length (tbytes ++ (lbytes ++ rest)) := by
  obtain ⟨tbytes, htrun, -, htcode⟩ := evtagEncodeTag_spec buf htag
  obtain ⟨lbytes, k, hlrun, hk, hlcode⟩ :=
    evtagEncodeInt_spec (buf ++ tbytes) (by decide) (by decide) (show len < 2 ^ (8 * 4) from hlen)
  refine ⟨tbytes, lbytes, htrun, hlrun, fun rest => ⟨?_, ?_⟩⟩
  · exact peek_code (htcode _) htag (by rw [List.length_append]; omega)
  · rw [hlcode.decode, if_pos hk]

/-- `evtag_marshal` appends a record. -/
theorem marshal_spec (htag : tag < 2 ^ 32) {data : List UInt8} (hdata : data.length < 2 ^ 32)
    (buf : List UInt8) :
    ∃ tbytes lbytes, evtagMarshal buf tag data = .ok (buf ++ (tbytes ++ (lbytes ++ data))) ∧
      ∀ rest, Header tag data.length tbytes.length lbytes.length (tbytes ++ (lbytes ++ (data ++ rest))) := by
  obtain ⟨tbytes, lbytes, htrun, hlrun, hheader⟩ := header_spec htag hdata buf
  refine ⟨tbytes, lbytes, ?_, fun rest => hheader _⟩
  unfold evtagMarshal
  rw [htrun, ok_bind, Nat.mod_eq_of_lt hdata, hlrun, ok_bind, List.append_assoc, List.append_assoc]
  rfl

/-- What `evtag_unmarshal` takes out of a buffer that begins with a record. -/
theorem unmarshal_marshal (htag : tag < 2 ^ 32) {data : List UInt8} (hdata : data.length < 2 ^ 31)
    (buf : List UInt8) :
    ∃ bytes, evtagMarshal buf tag data = .ok (buf ++ bytes) ∧ ∀ rest,
      evtagUnmarshal (bytes ++ rest) = .ok (data.length, tag, data, rest) ∧
      evtagConsume (bytes ++ rest) = .ok (0, rest) ∧
      evtagPeekLength (bytes ++ rest) = .ok (some (bytes.length % 2 ^ 32)) := by
  obtain ⟨tbytes, lbytes, hrun, hheader⟩ := marshal_spec htag (show data.length < 2 ^ 32 by omega) buf
  refine ⟨tbytes ++ (lbytes ++ data), hrun, fun rest => ?_⟩
  obtain ⟨htag', hlen'⟩ := hheader rest
  obtain ⟨-, hpeek, -, hall⟩ := unmarshal_exact htag' hlen'
  have hlength : (tbytes ++ (lbytes ++ (data ++ rest))).length =
      tbytes.length + lbytes.length + data.length + rest.length := by
    simp only [List.length_append]
    omega
  obtain ⟨hun, hcon⟩ := hall (by omega) hdata
  have hdrop : (tbytes ++ (lbytes ++ (data ++ rest))).drop (tbytes.length + lbytes.length) = data ++ rest := by
    rw [← List.drop_drop, List.drop_left, List.drop_left]
  have hdrop' : (tbytes ++ (lbytes ++ (data ++ rest))).drop (tbytes.length + lbytes.length + data.length) =
      rest := by
    rw [← List.drop_drop, hdrop, List.drop_left]
  have hassoc : tbytes ++ (lbytes ++ data) ++ rest = tbytes ++ (lbytes ++ (data ++ rest)) := by
    simp only [List.append_assoc]
  rw [hassoc, hun, hcon, hpeek, hdrop, hdrop', List.take_left]
  refine ⟨rfl, rfl, ?_⟩
  simp only [List.length_append]
  congr 3
  omega

/-! ## Streams -/

/-- Writing one record after the other. -/
def marshalAll (buf : List UInt8) : List (Nat × List UInt8) → Exec (List UInt8)
  | [] => .ok buf
  | (tag, data) :: records => do
      let buf ← evtagMarshal buf tag data
      marshalAll buf records

/-- Reading `n` records. -/
def unmarshalAll : Nat → List UInt8 → Exec (List (Int × Nat × List UInt8) × List UInt8)
  | 0, src => .ok ([], src)
  | n + 1, src => do
      let (len, tag, data, src) ← evtagUnmarshal src
      let (records, src) ← unmarshalAll n src
      return ((len, tag, data) :: records, src)

/-- **A stream of records is read as it was written**: every record with its tag and its data, one after
the other, and what comes behind them is left alone. -/
theorem records_round_trip (records : List (Nat × List UInt8))
    (hrec : ∀ r ∈ records, r.1 < 2 ^ 32 ∧ r.2.length < 2 ^ 31) (buf : List UInt8) :
    ∃ bytes, marshalAll buf records = .ok (buf ++ bytes) ∧ ∀ rest,
      unmarshalAll records.length (bytes ++ rest) =
        .ok (records.map fun r => ((r.2.length : Int), r.1, r.2), rest) := by
  induction records generalizing buf with
  | nil => exact ⟨[], by rw [List.append_nil]; rfl, fun rest => rfl⟩
  | cons r records ih =>
      obtain ⟨tag, data⟩ := r
      obtain ⟨htag, hdata⟩ := hrec _ List.mem_cons_self
      obtain ⟨bytes₁, hrun₁, hun₁⟩ := unmarshal_marshal htag hdata buf
      obtain ⟨bytes₂, hrun₂, hun₂⟩ := ih (fun r hr => hrec r (List.mem_cons_of_mem _ hr)) (buf ++ bytes₁)
      refine ⟨bytes₁ ++ bytes₂, ?_, fun rest => ?_⟩
      · unfold marshalAll
        rw [hrun₁, ok_bind, hrun₂, List.append_assoc]
      · rw [List.append_assoc, List.length_cons]
        unfold unmarshalAll
        rw [(hun₁ _).1, ok_bind]
        dsimp only
        rw [hun₂, ok_bind]
        rfl

theorem records_round_trip_two : ∃ bytes, marshalAll [] [(300, [1, 2, 3]), (7, [])] = .ok ([] ++ bytes) ∧
    unmarshalAll 2 (bytes ++ [9]) = .ok ([(3, 300, [1, 2, 3]), (0, 7, [])], [9]) := by
  obtain ⟨bytes, hrun, hread⟩ := records_round_trip [(300, [1, 2, 3]), (7, [])] (by decide) []
  exact ⟨bytes, hrun, hread [9]⟩

/-- The header of a short record never claims that the data is not all there. -/
theorem unmarshalHeader_header {tbytes lbytes data : List UInt8} (hdata : data.length < 2 ^ 31)
    (h : Header tag data.length tbytes.length lbytes.length (tbytes ++ (lbytes ++ (data ++ rest)))) :
    evtagUnmarshalHeader (tbytes ++ (lbytes ++ (data ++ rest))) = .ok (data.length, tag, data ++ rest) := by
  rw [unmarshalHeader_eq h.tag h.len, if_neg (by simp only [List.length_append]; omega),
    toInt32_nonneg hdata, ← List.drop_drop, List.drop_left, List.drop_left]

/-! ## Values -/

/-- The data of a time is its two integers. -/
theorem timeval_data (buf : List UInt8) (tag : Nat) (sec usec : Int) :
    ∃ bytes₁ bytes₂ k₁ k₂, evtagMarshalTimeval buf tag sec usec = evtagMarshal buf tag (bytes₁ ++ bytes₂) ∧
      k₁ ≤ 8 ∧ k₂ ≤ 8 ∧ IntCode (toUInt32 sec) k₁ bytes₁ ∧ IntCode (toUInt32 usec) k₂ bytes₂ := by
  have hsmall : ∀ x : Int, toUInt32 x < 16 ^ (2 * 4) := by
    intro x
    unfold toUInt32
    omega
  have hroom : 0 + (4 + 1) ≤ (Block.fill 10 (0 : UInt8)).length := by decide
  obtain ⟨data₁, k₁, hrun₁, hk₁, hlen₁, -, hcode₁⟩ := encodeIntInternal_spec (by decide) (hsmall sec) hroom
  have hlen₁ : data₁.length = 10 := hlen₁
  obtain ⟨data₂, k₂, hrun₂, hk₂, hlen₂, hbefore, hcode₂⟩ := encodeIntInternal_spec (by decide) (hsmall usec)
    (show k₁ / 2 + 1 + (4 + 1) ≤ data₁.length by omega)
  -- the second integer is written behind the first one
  have hfirst : data₂.slice 0 (k₁ / 2 + 1) = data₁.slice 0 (k₁ / 2 + 1) := by
    apply List.map_congr_left
    intro i hi
    have hi := List.mem_range.mp hi
    exact hbefore _ (by omega)
  have hslice : data₂.slice 0 (k₁ / 2 + 1 + (k₂ / 2 + 1)) =
      data₁.slice 0 (k₁ / 2 + 1) ++ data₂.slice (k₁ / 2 + 1) (k₂ / 2 + 1) := by
    rw [← hfirst]
    simp only [Block.slice, List.range_add, List.map_append, List.map_map, Nat.zero_add]
    rfl
  refine ⟨_, _, k₁, k₂, ?_, by omega, by omega, hcode₁, hcode₂⟩
  unfold evtagMarshalTimeval
  rw [hrun₁, ok_bind]
  dsimp only
  rw [hrun₂, ok_bind]
  dsimp only
  rw [Block.readAll, if_pos (by omega), ok_bind, hslice]

/-- **Times come back modulo 2^32**, seconds as well as microseconds, in place of those that were written. -/
theorem timeval_round_trip (tag : Nat) (htag : tag < 2 ^ 32) (sec usec : Int) (buf : List UInt8) :
    ∃ bytes, evtagMarshalTimeval buf tag sec usec = .ok (buf ++ bytes) ∧ ∀ rest,
      evtagUnmarshalTimeval (bytes ++ rest) tag = .ok (some (toUInt32 sec, toUInt32 usec), rest) ∧
      (((toUInt32 sec : Int), (toUInt32 usec : Int)) = (sec, usec) ↔
        0 ≤ sec ∧ sec < 2 ^ 32 ∧ 0 ≤ usec ∧ usec < 2 ^ 32) := by
  obtain ⟨bytes₁, bytes₂, k₁, k₂, hrun, hk₁, hk₂, hcode₁, hcode₂⟩ := timeval_data buf tag sec usec
  have hlen₁ := hcode₁.length
  have hlen₂ := hcode₂.length
  have hdata : (bytes₁ ++ bytes₂).length < 2 ^ 31 := by
    rw [List.length_append]
    omega
  obtain ⟨tbytes, lbytes, hmarshal, hheader⟩ := marshal_spec htag (hdata.trans (by decide)) buf
  refine ⟨tbytes ++ (lbytes ++ (bytes₁ ++ bytes₂)), hrun.trans hmarshal, fun rest => ⟨?_, ?_⟩⟩
  · have hread := unmarshalHeader_header hdata (hheader rest)
    have hassoc : tbytes ++ (lbytes ++ (bytes₁ ++ bytes₂)) ++ rest =
        tbytes ++ (lbytes ++ (bytes₁ ++ bytes₂ ++ rest)) := by
      simp only [List.append_assoc]
    have hsec := hcode₁.decode 4 [] (bytes₂ ++ rest)
    have husec := hcode₂.decode 4 bytes₁ rest
    rw [List.nil_append, List.length_nil, if_pos hk₁, ← List.append_assoc] at hsec
    rw [if_pos hk₂, ← List.append_assoc] at husec
    have hfields : timevalFields (bytes₁ ++ bytes₂ ++ rest) (bytes₁ ++ bytes₂).length =
        .ok (some (toUInt32 sec, toUInt32 usec)) := by
      unfold timevalFields
      rw [hsec, ok_bind]
      dsimp only
      rw [timevalUsec, husec, ok_bind]
      dsimp only
      rw [if_neg (by rw [List.length_append]; omega)]
      rfl
    unfold evtagUnmarshalTimeval
    rw [hassoc, hread, ok_bind]
    dsimp only
    rw [if_neg (by omega), if_neg (by simp), hfields, ok_bind, evbufferDrain, if_neg (by omega),
      Int.toNat_natCast, List.drop_left]
    rfl
  · simp only [toUInt32, Prod.mk.injEq]
    omega

/-- A time before 1970 comes back as one in the distant future. -/
theorem timeval_round_trip_negative : ∃ bytes, evtagMarshalTimeval [] 1 (-1) 5 = .ok ([] ++ bytes) ∧
    evtagUnmarshalTimeval (bytes ++ []) 1 = .ok (some (2 ^ 32 - 1, 5), []) := by
  obtain ⟨bytes, hrun, hread⟩ := timeval_round_trip 1 (by decide) (-1) 5 []
  exact ⟨bytes, hrun, (hread []).1⟩

end

end LinuxServer.Libevent
