import LinuxServer.Library.Bytes

/-!
# Tags and integers

`event_tagging.c`: how tags and integers are written into a buffer and read from it. A tag is written seven
bits to a byte, the lowest ones first, and all bytes but the last have their high bit set. An integer is
written as the number of its nibbles less one, and then its nibbles, the lowest one first.

An `evbuffer` is the list of its bytes here. What `evbuffer_pullup` gives out may be read up to the size that
was asked for.
-/

namespace LinuxServer.Libevent

open Library

/-- `evbuffer_pullup`: the first `size` bytes in one piece, or `NULL`. -/
def evbufferPullup (buf : List UInt8) (size : Nat) : Option (Block UInt8) :=
  if size = 0 ∨ buf.length < size then none
  else some { length := size, entry := fun i => buf.getD i 0 }

/-! ## Integers -/

/-- The loop of `ENCODE_INT_INTERNAL`: the nibble `off` is the next one to be written. -/
def encodeIntLoop (base : Nat) : Nat → Block UInt8 → Nat → Nat → Exec (Block UInt8 × Nat)
  | 0, _, _, _ => .error .diverges
  | fuel + 1, data, off, number =>
    if number = 0 then .ok (data, off)
    else do
      let b ← data.read (base + off / 2)
      let x := UInt8.ofNat (number % 16)
      let data ← data.write (base + off / 2) (if off % 2 = 1 then setLo b x else setHi b x)
      encodeIntLoop base fuel data (off + 1) (number / 16)

/-- `ENCODE_INT_INTERNAL`, for numbers of `size` bytes: `encode_int_internal` is this for 4, and
`encode_int64_internal` for 8. The result is written from `data + base` on, and is this many bytes long. -/
def encodeIntInternal (size : Nat) (data : Block UInt8) (base number : Nat) : Exec (Block UInt8 × Nat) := do
  let data ← data.writeAll base (List.replicate (size + 1) 0)
  let (data, off) ← encodeIntLoop base (2 * size + 1) data 1 number
  let nibbles := if off > 2 then off - 2 else 0
  let b ← data.read base
  let data ← data.write base (setHi b (UInt8.ofNat (nibbles % 16)))
  return (data, (off + 1) / 2)

/-- `evtag_encode_int` and `evtag_encode_int64`. -/
def evtagEncodeInt (size : Nat) (buf : List UInt8) (number : Nat) : Exec (List UInt8) := do
  let (data, len) ← encodeIntInternal size (Block.fill (size + 1) 0) 0 number
  let bytes ← data.readAll 0 len
  return buf ++ bytes

/-- The loop of `DECODE_INT_INTERNAL`. -/
def decodeIntLoop (size : Nat) (data : Block UInt8) (offset : Nat) : Nat → Nat → Exec Nat
  | 0, number => .ok number
  | nibbles + 1, number => do
      let b ← data.read (offset + (nibbles + 1) / 2)
      let number := number * 16 % 2 ^ (8 * size)
      decodeIntLoop size data offset nibbles
        (number ||| if (nibbles + 1) % 2 = 1 then (lo b).toNat else (hi b).toNat)

/-- The rest of `DECODE_INT_INTERNAL`, when the number of nibbles is known. The check for `NULL` comes after
`offset` was added. -/
def decodeNibbles (size : Nat) (buf : List UInt8) (offset nibbles : Nat) : Exec (Option (Nat × Nat)) :=
  if nibbles > 2 * size ∨ nibbles / 2 + 1 > buf.length - offset then .ok none
  else
    match evbufferPullup buf (offset + (nibbles / 2 + 1)) with
    | none => if offset = 0 then .ok none else .error .nullDeref
    | some data => do
        let number ← decodeIntLoop size data offset nibbles 0
        return some (number, nibbles / 2 + 1)

/-- `DECODE_INT_INTERNAL`: the number and its length, or -1. -/
def decodeIntInternal (size : Nat) (buf : List UInt8) (offset : Nat) : Exec (Option (Nat × Nat)) :=
  if buf.length ≤ offset then .ok none
  else
    match evbufferPullup buf (offset + 1) with
    | none => if offset = 0 then .ok none else .error .nullDeref
    | some data => do
        let b ← data.read offset
        decodeNibbles size buf offset ((hi b).toNat + 1)

/-- `evtag_decode_int` and `evtag_decode_int64`: the number, or -1, and the buffer afterwards. -/
def evtagDecodeInt (size : Nat) (buf : List UInt8) : Exec (Option Nat × List UInt8) := do
  let res ← decodeIntInternal size buf 0
  match res with
  | none => return (none, buf)
  | some (number, len) => return (some number, buf.drop len)

/-! ## Tags -/

/-- The loop of `evtag_encode_tag`. -/
def encodeTagLoop : Nat → Block UInt8 → Nat → Nat → Exec (Block UInt8 × Nat)
  | 0, _, _, _ => .error .diverges
  | fuel + 1, data, bytes, tag => do
      let lower := UInt8.ofNat (tag % 128)
      let data ← data.write bytes (if tag / 128 ≠ 0 then lower ||| 0x80 else lower)
      if tag / 128 ≠ 0 then encodeTagLoop fuel data (bytes + 1) (tag / 128)
      else return (data, bytes + 1)

def evtagEncodeTag (buf : List UInt8) (tag : Nat) : Exec (List UInt8) := do
  let (data, bytes) ← encodeTagLoop (tag + 1) (Block.fill 5 0) 0 tag
  let lowers ← data.readAll 0 bytes
  return buf ++ lowers

/-- The loop of `decode_tag_internal`: the tag and the number of bytes, or -1. -/
def decodeTagLoop (data : Block UInt8) (len : Nat) : Nat → Nat → Nat → Nat → Exec (Option (Nat × Nat))
  | 0, _, _, _ => .error .diverges
  | fuel + 1, count, shift, number =>
    if count < len then do
      let lower ← data.read count
      if shift ≥ 28 ∧ (shift > 28 ∨ (lower &&& 0x7f).toNat > 15) then return none
      else
        let number := number ||| ((lower &&& 0x7f).toNat <<< shift)
        if lower &&& 0x80 = 0 then return some (number, count + 1)
        else decodeTagLoop data len fuel (count + 1) (shift + 7) number
    else .ok none

/-- `decode_tag_internal` without draining, which is `evtag_peek`. -/
def evtagPeek (buf : List UInt8) : Exec (Option (Nat × Nat)) :=
  match evbufferPullup buf (if buf.length < 5 then buf.length else 5) with
  | none => .ok none
  | some data => decodeTagLoop data buf.length (buf.length + 1) 0 0 0

/-- `evtag_decode_tag`: the tag, or -1, and the buffer afterwards. -/
def evtagDecodeTag (buf : List UInt8) : Exec (Option Nat × List UInt8) := do
  let res ← evtagPeek buf
  match res with
  | none => return (none, buf)
  | some (number, count) => return (some number, buf.drop count)

/-! ## What integers look like

The header is nibble 0, and the digits are the nibbles from 1 on. -/

section
variable {size base off number fuel k : Nat} {data : Block UInt8} {buf : List UInt8}

/-- The bytes from `base` on. -/
def bytesFrom (data : Block UInt8) (base : Nat) (i : Nat) : UInt8 := data.entry (base + i)

theorem write_spec {i : Nat} (hi : i < data.length) (b : UInt8) :
    ∃ data', data.write i b = .ok data' ∧ data'.length = data.length ∧
      data'.entry = Function.update data.entry i b := ⟨_, Block.write_eq hi b, rfl, rfl⟩

theorem encodeIntLoop_spec (hnum : number < 16 ^ k) (hroom : base + (off + k + 1) / 2 ≤ data.length)
    (hfuel : k < fuel) :
    ∃ data' d, encodeIntLoop base fuel data off number = .ok (data', off + d) ∧ d ≤ k ∧
      number < 16 ^ d ∧ (d ≠ 0 → 16 ^ (d - 1) ≤ number) ∧ data'.length = data.length ∧
      (∀ i < base, data'.entry i = data.entry i) ∧
      ∀ j, nib (bytesFrom data' base) j =
        if off ≤ j ∧ j < off + d then number / 16 ^ (j - off) % 16 else nib (bytesFrom data base) j := by
  induction fuel generalizing data off number k with
  | zero => omega
  | succ fuel ih =>
      unfold encodeIntLoop
      by_cases hz : number = 0
      · rw [if_pos hz]
        refine ⟨data, 0, rfl, Nat.zero_le _, by rw [hz]; decide, by simp, rfl, fun _ _ => rfl, ?_⟩
        intro j
        rw [if_neg (by omega)]
      · rw [if_neg hz]
        obtain ⟨k, rfl⟩ : ∃ k', k = k' + 1 := by
          refine ⟨k - 1, ?_⟩
          have : k ≠ 0 := by
            rintro rfl
            exact hz (by simpa using hnum)
          omega
        have hlt : base + off / 2 < data.length := by omega
        have hx : (UInt8.ofNat (number % 16)).toNat = number % 16 := by
          rw [UInt8.toNat_ofNat']
          omega
        have hdiv : number / 16 < 16 ^ k := by
          rw [Nat.pow_succ] at hnum
          exact Nat.div_lt_of_lt_mul (by rwa [Nat.mul_comm])
        rw [Block.read_eq hlt, ok_bind]
        dsimp only
        obtain ⟨data₁, hwrite, hlen₁, hentry₁⟩ := write_spec hlt (if off % 2 = 1
          then setLo (data.entry (base + off / 2)) (UInt8.ofNat (number % 16))
          else setHi (data.entry (base + off / 2)) (UInt8.ofNat (number % 16)))
        rw [hwrite, ok_bind]
        have hfrom : bytesFrom data₁ base = setNib (bytesFrom data base) off (UInt8.ofNat (number % 16)) := by
          funext i
          unfold bytesFrom setNib
          rw [hentry₁]
          by_cases hi : i = off / 2
          · rw [hi, Function.update_self, Function.update_self]
          · rw [Function.update_of_ne (by omega), Function.update_of_ne hi]
        obtain ⟨data', d, hrun, hd, hlt', hmin, hlen, hbefore, hnib⟩ :=
          ih hdiv (show base + (off + 1 + k + 1) / 2 ≤ data₁.length by omega) (by omega)
        refine ⟨data', d + 1, ?_, by omega, ?_, ?_, hlen.trans hlen₁, ?_, ?_⟩
        · rw [hrun]
          congr 2
          omega
        · rw [Nat.pow_succ]
          omega
        · intro _
          rw [Nat.add_sub_cancel]
          cases d with
          | zero => exact Nat.one_le_iff_ne_zero.mpr hz
          | succ d =>
              have := hmin (Nat.succ_ne_zero d)
              rw [Nat.add_sub_cancel] at this
              rw [Nat.pow_succ]
              omega
        · intro i hi
          rw [hbefore i hi, hentry₁]
          exact Function.update_of_ne (by omega) ..
        · intro j
          rw [hnib j, hfrom, nib_setNib (by rw [hx]; omega), hx]
          by_cases hj : j = off
          · rw [if_neg (by omega), if_pos hj, if_pos (by omega), hj, Nat.sub_self, Nat.pow_zero,
              Nat.div_one]
          · rw [if_neg hj]
            by_cases hin : off + 1 ≤ j ∧ j < off + 1 + d
            · rw [if_pos hin, if_pos (by omega), Nat.div_div_eq_div_mul,
                show j - off = j - (off + 1) + 1 by omega, Nat.pow_succ, Nat.mul_comm 16]
            · rw [if_neg hin, if_neg (by omega)]

/-- The bytes of an integer of `k` nibbles. -/
structure IntCode (number k : Nat) (bytes : List UInt8) : Prop where
  length : bytes.length = k / 2 + 1
  pos : 0 < k
  /-- no leading zeros -/
  minimal : k = 1 ∨ 16 ^ (k - 1) ≤ number
  count : nib (bytes.getD · 0) 0 + 1 = k
  digits : Stores (bytes.getD · 0) 1 k number

theorem nib_congr {f g : Nat → UInt8} {j : Nat} (h : f (j / 2) = g (j / 2)) : nib f j = nib g j := by
  unfold nib
  rw [h]

/-- Nibbles of what was copied out of an array. -/
theorem nib_slice {n j : Nat} (hj : j / 2 < n) :
    nib ((data.slice base n).getD · 0) j = nib (bytesFrom data base) j := by
  apply nib_congr
  simp [Block.slice, bytesFrom, List.getD, hj]

theorem encodeIntInternal_spec (hsize : size ≤ 8) (hnum : number < 16 ^ (2 * size))
    (hroom : base + (size + 1) ≤ data.length) :
    ∃ data' k, encodeIntInternal size data base number = .ok (data', k / 2 + 1) ∧ k ≤ max 1 (2 * size) ∧
      data'.length = data.length ∧ (∀ i < base, data'.entry i = data.entry i) ∧
      IntCode number k (data'.slice base (k / 2 + 1)) := by
  have hzeros : base + (List.replicate (size + 1) (0 : UInt8)).length ≤ data.length := by
    rw [List.length_replicate]
    exact hroom
  unfold encodeIntInternal
  rw [Block.writeAll_eq hzeros, ok_bind]
  set data₀ := data.overlay base (List.replicate (size + 1) 0) with hdata₀
  have hlen₀ : data₀.length = data.length := Block.length_overlay
  have hzero : ∀ j, j / 2 ≤ size → nib (bytesFrom data₀ base) j = 0 := by
    intro j hj
    have hentry : bytesFrom data₀ base (j / 2) = 0 := by
      simp [bytesFrom, hdata₀, Block.overlay, Nat.lt_succ_of_le hj]
    unfold nib
    rw [hentry]
    split <;> rfl
  obtain ⟨data₁, d, hloop, hd, hlt, hmin, hlen₁, hbefore, hnib⟩ :=
    encodeIntLoop_spec hnum (show base + (1 + 2 * size + 1) / 2 ≤ data₀.length by omega)
      (Nat.lt_succ_self _)
  rw [hloop, ok_bind]
  dsimp only
  obtain ⟨data₂, hwrite, hlen₂, hentry₂⟩ := write_spec (show base < data₁.length by omega)
    (setHi (data₁.entry base) (UInt8.ofNat ((if 1 + d > 2 then 1 + d - 2 else 0) % 16)))
  rw [Block.read_eq (by omega), ok_bind, hwrite, ok_bind]
  -- 0 is written as one nibble, though the loop has written none
  have hcount : (UInt8.ofNat ((if 1 + d > 2 then 1 + d - 2 else 0) % 16)).toNat + 1 = max 1 d := by
    rw [UInt8.toNat_ofNat']
    split <;> omega
  have hfrom : bytesFrom data₂ base = setNib (bytesFrom data₁ base) 0
      (UInt8.ofNat ((if 1 + d > 2 then 1 + d - 2 else 0) % 16)) := by
    funext i
    unfold bytesFrom setNib
    rw [hentry₂]
    by_cases hi : i = 0
    · subst hi
      rw [Nat.add_zero, Function.update_self, Nat.zero_div, Function.update_self]
      rfl
    · rw [Function.update_of_ne (by omega), Nat.zero_div, Function.update_of_ne hi]
  have hslice : ∀ j, j ≤ max 1 d →
      nib ((data₂.slice base (max 1 d / 2 + 1)).getD · 0) j = nib (bytesFrom data₂ base) j :=
    fun j hj => nib_slice (by omega)
  refine ⟨data₂, max 1 d, ?_, by omega, hlen₂.trans (hlen₁.trans hlen₀), ?_, ?_⟩
  · rw [pure_eq_ok]
    congr 2
    omega
  · intro i hi
    rw [hentry₂, Function.update_of_ne (by omega), hbefore i hi, hdata₀]
    exact if_neg (by omega)
  · refine ⟨Block.length_slice, by omega, ?_, ?_, ?_, ?_⟩
    · by_cases hz : d = 0
      · exact .inl (by omega)
      · refine .inr ?_
        rw [show max 1 d = d by omega]
        exact hmin hz
    · rw [hslice 0 (Nat.zero_le _), hfrom, nib_setNib (by omega), if_pos rfl, hcount]
    · exact hlt.trans_le (Nat.pow_le_pow_right (by decide) (by omega))
    · intro i hi
      rw [hslice (1 + i) (by omega), hfrom, nib_setNib (by omega), if_neg (by omega), hnib]
      by_cases hin : i < d
      · rw [if_pos (by omega), Nat.add_sub_cancel_left]
      · obtain rfl : d = 0 := by omega
        obtain rfl : i = 0 := by omega
        rw [if_neg (by omega), hzero _ (by omega)]
        obtain rfl : number = 0 := by simpa using hlt
        rfl

variable (buf) in
/-- `evtag_encode_int` appends the bytes of the integer. -/
theorem evtagEncodeInt_spec (hsize : size ≤ 8) (hpos : 0 < size) (hnum : number < 2 ^ (8 * size)) :
    ∃ bytes k, evtagEncodeInt size buf number = .ok (buf ++ bytes) ∧ k ≤ 2 * size ∧
      IntCode number k bytes := by
  have hpow : 2 ^ (8 * size) = 16 ^ (2 * size) := by
    rw [show (16 : Nat) = 2 ^ 4 by rfl, ← Nat.pow_mul]
    congr 1
    omega
  have hroom : 0 + (size + 1) ≤ (Block.fill (size + 1) (0 : UInt8)).length := (Nat.zero_add _).le
  obtain ⟨data, k, hrun, hk, hlen, -, hcode⟩ := encodeIntInternal_spec hsize (hpow ▸ hnum) hroom
  refine ⟨_, k, ?_, by omega, hcode⟩
  have hlen : data.length = size + 1 := hlen
  unfold evtagEncodeInt
  rw [hrun, ok_bind]
  dsimp only
  rw [Block.readAll, if_pos (by omega), ok_bind]
  rfl

/-! ## Reading integers -/

theorem evbufferPullup_eq {n : Nat} (hn : 0 < n) (hle : n ≤ buf.length) :
    evbufferPullup buf n = some { length := n, entry := (buf.getD · 0) } :=
  if_neg (by omega)

/-- The loop does not look beyond its digits, and nothing is lost on the way. -/
theorem decodeIntLoop_eq {offset nibbles : Nat} (hroom : offset + (nibbles / 2 + 1) ≤ data.length)
    (hnum : number * 16 ^ nibbles + 16 ^ nibbles ≤ 2 ^ (8 * size)) :
    decodeIntLoop size data offset nibbles number =
      .ok (readDown (bytesFrom data offset) 1 nibbles number) := by
  induction nibbles generalizing number with
  | zero => rfl
  | succ k ih =>
      have hpow : 0 < 16 ^ k := Nat.pow_pos (by decide)
      have hsucc : number * 16 ^ (k + 1) + 16 ^ (k + 1) = (number * 16 + 16) * 16 ^ k := by ring
      have hsmall : number * 16 < 2 ^ (8 * size) := by nlinarith
      have hnib : (if (k + 1) % 2 = 1 then (lo (data.entry (offset + (k + 1) / 2))).toNat
          else (hi (data.entry (offset + (k + 1) / 2))).toNat) = nib (bytesFrom data offset) (1 + k) := by
        rw [Nat.add_comm 1 k]
        rfl
      have hlt : nib (bytesFrom data offset) (1 + k) < 16 := nib_lt
      have hor : number * 16 ||| nib (bytesFrom data offset) (1 + k) =
          number * 16 + nib (bytesFrom data offset) (1 + k) := by
        rw [Nat.mul_comm]
        exact (Nat.two_pow_add_eq_or_of_lt (i := 4) hlt number).symm
      unfold decodeIntLoop
      rw [Block.read_eq (by omega), ok_bind, Nat.mod_eq_of_lt hsmall]
      dsimp only
      rw [hnib, hor, ih (by omega)]
      · rfl
      · rw [hsucc] at hnum
        have : number * 16 + nib (bytesFrom data offset) (1 + k) + 1 ≤ number * 16 + 16 := by omega
        calc (number * 16 + nib (bytesFrom data offset) (1 + k)) * 16 ^ k + 16 ^ k
            = (number * 16 + nib (bytesFrom data offset) (1 + k) + 1) * 16 ^ k := by ring
          _ ≤ (number * 16 + 16) * 16 ^ k := Nat.mul_le_mul_right _ this
          _ ≤ 2 ^ (8 * size) := hnum

/-- An integer can be read wherever there is one: it is refused if it has too many nibbles or is not all
there, and nothing beyond it is looked at. -/
theorem decodeIntInternal_eq {offset : Nat} :
    decodeIntInternal size buf offset =
      .ok (if offset < buf.length ∧ nib (fun i => buf.getD (offset + i) 0) 0 < 2 * size ∧
          offset + ((nib (fun i => buf.getD (offset + i) 0) 0 + 1) / 2 + 1) ≤ buf.length
        then some (readDown (fun i => buf.getD (offset + i) 0) 1
          (nib (fun i => buf.getD (offset + i) 0) 0 + 1) 0,
          (nib (fun i => buf.getD (offset + i) 0) 0 + 1) / 2 + 1)
        else none) := by
  set count := nib (fun i => buf.getD (offset + i) 0) 0 with hcount
  have hhi : (hi (buf.getD offset 0)).toNat = count := rfl
  unfold decodeIntInternal
  by_cases hoff : buf.length ≤ offset
  · rw [if_pos hoff, if_neg (by omega)]
  · rw [if_neg hoff, evbufferPullup_eq (Nat.succ_pos _) (by omega)]
    dsimp only
    rw [Block.read_eq (show offset < offset + 1 by omega), ok_bind, hhi]
    unfold decodeNibbles
    by_cases hbad : count + 1 > 2 * size ∨ (count + 1) / 2 + 1 > buf.length - offset
    · rw [if_pos hbad, if_neg (by omega)]
    · obtain ⟨hmax, hlen⟩ := not_or.mp hbad
      have hpow : (16 : Nat) ^ (count + 1) ≤ 2 ^ (8 * size) := by
        rw [show (16 : Nat) = 2 ^ 4 by rfl, ← Nat.pow_mul]
        exact Nat.pow_le_pow_right (by decide) (by omega)
      rw [if_neg hbad, evbufferPullup_eq (by omega) (by omega)]
      dsimp only
      rw [decodeIntLoop_eq le_rfl (by simpa using hpow), ok_bind,
        if_pos ⟨by omega, by omega, by omega⟩]
      rfl

variable (size) in
/-- An integer between other bytes is found, unless it has too many nibbles. -/
theorem IntCode.decode {bytes : List UInt8} (h : IntCode number k bytes) (before rest : List UInt8) :
    decodeIntInternal size (before ++ (bytes ++ rest)) before.length =
      .ok (if k ≤ 2 * size then some (number, bytes.length) else none) := by
  have hget : ∀ i < bytes.length, (before ++ (bytes ++ rest)).getD (before.length + i) 0 = bytes.getD i 0 := by
    intro i hi
    simp only [List.getD_eq_getElem?_getD, List.getElem?_append_right (Nat.le_add_right _ i),
      Nat.add_sub_cancel_left, List.getElem?_append_left hi]
  have hnib : ∀ j ≤ k, nib (fun i => (before ++ (bytes ++ rest)).getD (before.length + i) 0) j =
      nib (bytes.getD · 0) j := by
    intro j hj
    exact nib_congr (hget _ (by rw [h.length]; omega))
  have hlen := h.length
  have hcount := h.count
  rw [decodeIntInternal_eq, hnib 0 (Nat.zero_le _), hcount]
  by_cases hk : k ≤ 2 * size
  · have hstores : Stores (fun i => (before ++ (bytes ++ rest)).getD (before.length + i) 0) 1 k number := by
      refine ⟨h.digits.1, ?_⟩
      intro i hi
      rw [hnib (1 + i) (by omega)]
      exact h.digits.2 i hi
    rw [if_pos hk, if_pos, readDown_stores hstores, hlen]
    simp only [List.length_append]
    omega
  · rw [if_neg hk, if_neg]
    omega

/-- The number of nibbles says how large an integer is. -/
theorem IntCode.le_iff {bytes : List UInt8} (h : IntCode number k bytes) (hsize : 0 < size) :
    k ≤ 2 * size ↔ number < 2 ^ (8 * size) := by
  have hpow : 2 ^ (8 * size) = 16 ^ (2 * size) := by
    rw [show (16 : Nat) = 2 ^ 4 by rfl, ← Nat.pow_mul]
    congr 1
    omega
  rw [hpow]
  constructor
  · intro hk
    exact h.digits.1.trans_le (Nat.pow_le_pow_right (by decide) hk)
  · intro hlt
    rcases h.minimal with rfl | hmin
    · omega
    · by_contra hk
      have : 16 ^ (2 * size) ≤ 16 ^ (k - 1) := Nat.pow_le_pow_right (by decide) (by omega)
      omega

/-- **Integers come back as they were.** Written with 4 or 8 bytes, an integer is read as the same number,
and exactly its bytes are drained; and reading 4 bytes where an integer does not fit into these fails, and
leaves the buffer alone. -/
theorem int_round_trip (size size' : Nat) (hsize : size = 4 ∨ size = 8) (hsize' : size' = 4 ∨ size' = 8)
    (number : Nat) (hnum : number < 2 ^ (8 * size)) (buf rest : List UInt8) :
    ∃ bytes, evtagEncodeInt size buf number = .ok (buf ++ bytes) ∧ bytes.length ≤ size + 1 ∧
      evtagDecodeInt size' (bytes ++ rest) =
        .ok (if number < 2 ^ (8 * size') then (some number, rest) else (none, bytes ++ rest)) := by
  obtain ⟨bytes, k, hrun, hk, hcode⟩ := evtagEncodeInt_spec buf (by omega) (by omega) hnum
  refine ⟨bytes, hrun, ?_, ?_⟩
  · rw [hcode.length]
    omega
  · unfold evtagDecodeInt
    have hdec := hcode.decode size' [] rest
    rw [List.nil_append, List.length_nil] at hdec
    rw [hdec, ok_bind]
    by_cases hk' : k ≤ 2 * size'
    · rw [if_pos hk', if_pos ((hcode.le_iff (by omega)).mp hk')]
      dsimp only
      rw [List.drop_left]
      rfl
    · rw [if_neg hk', if_neg fun hlt => hk' ((hcode.le_iff (by omega)).mpr hlt)]
      rfl

/-- This number needs nine bytes, and is not read as one of 32 bits. -/
theorem int_round_trip_large : ∃ bytes, evtagEncodeInt 8 [1] 0x123456789abcdef0 = .ok ([1] ++ bytes) ∧
    evtagDecodeInt 8 (bytes ++ [2]) = .ok (some 0x123456789abcdef0, [2]) := by
  obtain ⟨bytes, hrun, -, hdec⟩ := int_round_trip 8 8 (.inr rfl) (.inr rfl) 0x123456789abcdef0 (by decide) [1] [2]
  exact ⟨bytes, hrun, hdec⟩

/-! ## What tags look like -/

/-- The bytes of a tag: seven bits each, and all but the last have their high bit set. -/
structure TagCode (tag n : Nat) (bytes : Nat → UInt8) : Prop where
  pos : 0 < n
  lt : tag < 128 ^ n
  minimal : n = 1 ∨ 128 ^ (n - 1) ≤ tag
  low : ∀ i < n, (bytes i).toNat % 128 = tag / 128 ^ i % 128
  more : ∀ i < n, (bytes i).toNat < 128 ↔ i + 1 = n

variable {tag n : Nat}

theorem TagCode.cons {bytes : Nat → UInt8} (h : TagCode (tag / 128) n (fun i => bytes (i + 1)))
    (hlow : (bytes 0).toNat = tag % 128 + 128) (hne : tag / 128 ≠ 0) : TagCode tag (n + 1) bytes := by
  refine ⟨Nat.succ_pos _, ?_, .inr ?_, ?_, ?_⟩
  · have := h.lt
    rw [Nat.pow_succ]
    omega
  · rw [Nat.add_sub_cancel]
    have hpos := h.pos
    rcases h.minimal with rfl | hmin
    · omega
    · obtain ⟨m, rfl⟩ : ∃ m, n = m + 1 := ⟨n - 1, by omega⟩
      rw [Nat.add_sub_cancel] at hmin
      rw [Nat.pow_succ]
      omega
  · intro i hi
    cases i with
    | zero =>
        rw [hlow]
        simp
    | succ i =>
        rw [h.low i (by omega), Nat.div_div_eq_div_mul, Nat.pow_succ, Nat.mul_comm 128]
  · intro i hi
    cases i with
    | zero =>
        have := h.pos
        rw [hlow]
        omega
    | succ i =>
        rw [h.more i (by omega)]
        omega

/-- The loop writes a tag that is small enough for what is left of the array. -/
theorem encodeTagLoop_spec {bytes : Nat} (htag : tag < 128 ^ k) (hpos : 0 < k)
    (hroom : bytes + k ≤ data.length) (hfuel : tag < fuel) :
    ∃ data' n, encodeTagLoop fuel data bytes tag = .ok (data', bytes + n) ∧ n ≤ k ∧
      data'.length = data.length ∧ (∀ i < bytes, data'.entry i = data.entry i) ∧
      TagCode tag n (bytesFrom data' bytes) := by
  induction fuel generalizing data bytes tag k with
  | zero => omega
  | succ fuel ih =>
      have hlower : (UInt8.ofNat (tag % 128)).toNat = tag % 128 := by
        rw [UInt8.toNat_ofNat']
        omega
      unfold encodeTagLoop
      dsimp only
      obtain ⟨data₁, hwrite, hlen₁, hentry₁⟩ := write_spec (show bytes < data.length by omega)
        (if tag / 128 ≠ 0 then UInt8.ofNat (tag % 128) ||| 0x80 else UInt8.ofNat (tag % 128))
      rw [hwrite, ok_bind]
      by_cases hne : tag / 128 ≠ 0
      · rw [if_pos hne]
        rw [if_pos hne] at hentry₁
        obtain ⟨k, rfl⟩ : ∃ k', k = k' + 1 := ⟨k - 1, by omega⟩
        have hk : 0 < k := by
          rcases Nat.eq_zero_or_pos k with rfl | hk
          · rw [Nat.zero_add, Nat.pow_one] at htag
            omega
          · exact hk
        have hdiv : tag / 128 < 128 ^ k := by
          rw [Nat.pow_succ] at htag
          exact Nat.div_lt_of_lt_mul (by rwa [Nat.mul_comm])
        obtain ⟨data', n, hrun, hn, hlen, hbefore, hcode⟩ := ih hdiv hk
          (show bytes + 1 + k ≤ data₁.length by omega) (by omega)
        refine ⟨data', n + 1, ?_, by omega, hlen.trans hlen₁, ?_, TagCode.cons ?_ ?_ hne⟩
        · rw [hrun, Nat.add_assoc, Nat.add_comm 1 n]
        · intro i hi
          rw [hbefore i (by omega), hentry₁, Function.update_of_ne (by omega)]
        · have hshift : (fun i => bytesFrom data' bytes (i + 1)) = bytesFrom data' (bytes + 1) := by
            funext i
            rw [bytesFrom, bytesFrom, Nat.add_assoc, Nat.add_comm 1 i]
          rw [hshift]
          exact hcode
        · rw [bytesFrom, Nat.add_zero, hbefore bytes (by omega), hentry₁, Function.update_self,
            toNat_or_0x80 (by omega), hlower]
      · rw [if_neg hne]
        rw [if_neg hne] at hentry₁
        have hsmall : tag < 128 := by omega
        refine ⟨data₁, 1, rfl, hpos, hlen₁, ?_, Nat.one_pos, by simpa using hsmall, .inl rfl, ?_, ?_⟩
        · intro i hi
          rw [hentry₁, Function.update_of_ne (by omega)]
        · intro i hi
          obtain rfl : i = 0 := by omega
          rw [bytesFrom, Nat.add_zero, hentry₁, Function.update_self, hlower, Nat.pow_zero, Nat.div_one]
          omega
        · intro i hi
          obtain rfl : i = 0 := by omega
          rw [bytesFrom, Nat.add_zero, hentry₁, Function.update_self, hlower]
          omega

/-- A tag of 32 bits has at most five bytes. -/
theorem TagCode.le_five {bytes : Nat → UInt8} (h : TagCode tag n bytes) (htag : tag < 2 ^ 32) : n ≤ 5 := by
  rcases h.minimal with rfl | hmin
  · decide
  · by_contra hn
    have : 128 ^ 5 ≤ 128 ^ (n - 1) := Nat.pow_le_pow_right (by decide) (by omega)
    omega

/-! ## Reading tags -/

/-- The next seven bits go above those that are there. -/
theorem or_shiftLeft {number x count : Nat} (hnum : number < 128 ^ count) :
    number ||| (x <<< (7 * count)) = number + x * 128 ^ count := by
  have hpow : 2 ^ (7 * count) = 128 ^ count := by rw [Nat.pow_mul]
  rw [Nat.shiftLeft_eq, hpow, Nat.or_comm, Nat.mul_comm, ← hpow, Nat.add_comm]
  exact (Nat.two_pow_add_eq_or_of_lt (hpow ▸ hnum) x).symm

/-- After `count` bytes of a tag, the rest is read. -/
theorem decodeTagLoop_code {len count : Nat} (h : TagCode tag n data.entry) (htag : tag < 2 ^ 32)
    (hlen : n ≤ len) (hroom : n ≤ data.length) (hcount : count < n) (hfuel : n - count < fuel) :
    decodeTagLoop data len fuel count (7 * count) (tag % 128 ^ count) = .ok (some (tag, n)) := by
  induction fuel generalizing count with
  | zero => omega
  | succ fuel ih =>
      have hfive := h.le_five htag
      have hlow : (data.entry count &&& 0x7f).toNat = tag / 128 ^ count % 128 := by
        rw [toNat_and_0x7f, h.low count hcount]
      have hfits : ¬ (7 * count ≥ 28 ∧ (7 * count > 28 ∨ (data.entry count &&& 0x7f).toNat > 15)) := by
        rintro ⟨hge, hgt | hgt⟩
        · omega
        · obtain rfl : count = 4 := by omega
          rw [hlow] at hgt
          omega
      have hnext : tag % 128 ^ count ||| (data.entry count &&& 0x7f).toNat <<< (7 * count) =
          tag % 128 ^ (count + 1) := by
        rw [or_shiftLeft (Nat.mod_lt _ (Nat.pow_pos (by decide))), hlow, Nat.pow_succ, Nat.mod_mul,
          Nat.mul_comm (128 ^ count)]
      unfold decodeTagLoop
      rw [if_pos (by omega), Block.read_eq (by omega), ok_bind, if_neg hfits, hnext]
      dsimp only
      by_cases hlast : count + 1 = n
      · rw [if_pos ((and_0x80_eq_zero _).mpr ((h.more count hcount).mpr hlast)), hlast,
          Nat.mod_eq_of_lt h.lt]
        rfl
      · rw [if_neg (mt (and_0x80_eq_zero _).mp (mt (h.more count hcount).mp hlast)), ← Nat.mul_succ]
        exact ih (by omega) (by omega)

/-- What `decode_tag_internal` looks at. -/
def tagBlock (buf : List UInt8) : Block UInt8 := { length := min buf.length 5, entry := (buf.getD · 0) }

theorem evtagPeek_eq (hne : buf ≠ []) :
    evtagPeek buf = decodeTagLoop (tagBlock buf) buf.length (buf.length + 1) 0 0 0 := by
  have hpos := List.length_pos_of_ne_nil hne
  have hmin : (if buf.length < 5 then buf.length else 5) = min buf.length 5 := by
    split <;> omega
  unfold evtagPeek
  rw [hmin, evbufferPullup_eq (by omega) (by omega)]
  rfl

/-- A tag in front of other bytes is found. -/
theorem peek_code (h : TagCode tag n (buf.getD · 0)) (htag : tag < 2 ^ 32) (hlen : n ≤ buf.length) :
    evtagPeek buf = .ok (some (tag, n)) := by
  have hpos := h.pos
  have hfive := h.le_five htag
  have hne : buf ≠ [] := List.ne_nil_of_length_pos (by omega)
  have hentry : TagCode tag n (tagBlock buf).entry := h
  have hroom : n ≤ (tagBlock buf).length := Nat.le_min.mpr ⟨hlen, hfive⟩
  have hloop := decodeTagLoop_code hentry htag hlen hroom hpos (show n - 0 < buf.length + 1 by omega)
  rw [evtagPeek_eq hne]
  rw [Nat.pow_zero, Nat.mod_one] at hloop
  exact hloop

variable (buf) in
/-- `evtag_encode_tag` appends the bytes of the tag. -/
theorem evtagEncodeTag_spec (htag : tag < 2 ^ 32) :
    ∃ bytes, evtagEncodeTag buf tag = .ok (buf ++ bytes) ∧ bytes.length ≤ 5 ∧
      ∀ rest, TagCode tag bytes.length ((bytes ++ rest).getD · 0) := by
  have hroom : 0 + 5 ≤ (Block.fill 5 (0 : UInt8)).length := le_rfl
  obtain ⟨data, n, hrun, hn, hlen, -, hcode⟩ :=
    encodeTagLoop_spec (htag.trans (by decide)) (by decide) hroom (Nat.lt_succ_self tag)
  have hlen : data.length = 5 := hlen
  have hslice : (data.slice 0 n).length = n := Block.length_slice
  refine ⟨data.slice 0 n, ?_, by omega, ?_⟩
  · unfold evtagEncodeTag
    rw [hrun, ok_bind]
    dsimp only
    rw [Nat.zero_add, Block.readAll, if_pos (by omega), ok_bind]
    rfl
  · intro rest
    have hget : ∀ i < n, (data.slice 0 n ++ rest).getD i 0 = bytesFrom data 0 i := by
      intro i hi
      rw [List.getD_eq_getElem?_getD, List.getElem?_append_left (by omega)]
      simp [Block.slice, bytesFrom, hi]
    rw [hslice]
    refine ⟨hcode.pos, hcode.lt, hcode.minimal, ?_, ?_⟩
    · intro i hi
      rw [hget i hi]
      exact hcode.low i hi
    · intro i hi
      rw [hget i hi]
      exact hcode.more i hi

/-- **Tags come back as they were**: a tag of 32 bits has at most five bytes, and exactly these are
drained when it is read, whatever comes behind it. -/
theorem tag_round_trip (tag : Nat) (htag : tag < 2 ^ 32) (buf rest : List UInt8) :
    ∃ bytes, evtagEncodeTag buf tag = .ok (buf ++ bytes) ∧ bytes.length ≤ 5 ∧
      evtagDecodeTag (bytes ++ rest) = .ok (some tag, rest) := by
  obtain ⟨bytes, hrun, hlen, hcode⟩ := evtagEncodeTag_spec buf htag
  refine ⟨bytes, hrun, hlen, ?_⟩
  unfold evtagDecodeTag
  rw [peek_code (hcode rest) htag (by rw [List.length_append]; omega), ok_bind]
  dsimp only
  rw [List.drop_left]
  rfl

theorem tag_round_trip_largest : ∃ bytes, evtagEncodeTag [] (2 ^ 32 - 1) = .ok ([] ++ bytes) ∧
    evtagDecodeTag (bytes ++ [7]) = .ok (some (2 ^ 32 - 1), [7]) := by
  obtain ⟨bytes, hrun, -, hdec⟩ := tag_round_trip (2 ^ 32 - 1) (by decide) [] [7]
  exact ⟨bytes, hrun, hdec⟩

/-- The bytes after which `decode_tag_internal` takes a sixth one. -/
def Overlong (buf : List UInt8) : Prop :=
  5 < buf.length ∧ (∀ i < 5, 128 ≤ (buf.getD i 0).toNat) ∧ (buf.getD 4 0).toNat ≤ 143

theorem decodeTagLoop_cases {count number : Nat} (hcount : count ≤ 5)
    (hmore : ∀ i < count, 128 ≤ (buf.getD i 0).toNat) (hfits : count = 5 → (buf.getD 4 0).toNat ≤ 143)
    (hnum : number < 128 ^ count) (hfour : count = 5 → number < 2 ^ 32)
    (hfuel : buf.length - count < fuel) :
    (Overlong buf ∧ decodeTagLoop (tagBlock buf) buf.length fuel count (7 * count) number =
      .error .outOfBounds) ∨
    (¬ Overlong buf ∧ ∃ res, decodeTagLoop (tagBlock buf) buf.length fuel count (7 * count) number =
      .ok res ∧ ∀ t n, res = some (t, n) → t < 2 ^ 32 ∧ n ≤ buf.length) := by
  induction fuel generalizing count number with
  | zero => omega
  | succ fuel ih =>
      unfold decodeTagLoop
      by_cases hlen : count < buf.length
      · rw [if_pos hlen]
        by_cases hfive : count = 5
        · -- the sixth byte is read, though only five may be
          subst hfive
          refine .inl ⟨⟨hlen, hmore, hfits rfl⟩, ?_⟩
          rw [Block.read, if_neg (by simp [tagBlock])]
          rfl
        · have hread : (tagBlock buf).read count = .ok (buf.getD count 0) :=
            Block.read_eq (show count < min buf.length 5 by omega)
          rw [hread, ok_bind]
          by_cases hbig : 7 * count ≥ 28 ∧ (7 * count > 28 ∨ (buf.getD count 0 &&& 0x7f).toNat > 15)
          · rw [if_pos hbig]
            refine .inr ⟨?_, none, rfl, nofun⟩
            rintro ⟨-, hall, hle⟩
            obtain rfl : count = 4 := by omega
            have := hall 4 (by decide)
            rw [toNat_and_0x7f] at hbig
            omega
          · rw [if_neg hbig, or_shiftLeft hnum]
            dsimp only
            have hx : (buf.getD count 0 &&& 0x7f).toNat < 128 := by
              rw [toNat_and_0x7f]
              omega
            have hnum' : number + (buf.getD count 0 &&& 0x7f).toNat * 128 ^ count < 128 ^ (count + 1) := by
              rw [Nat.pow_succ]
              nlinarith [Nat.pow_pos (n := count) (show 0 < 128 by decide)]
            have hsmall : number + (buf.getD count 0 &&& 0x7f).toNat * 128 ^ count < 2 ^ 32 := by
              by_cases hfour : count = 4
              · subst hfour
                omega
              · have : 128 ^ (count + 1) ≤ 128 ^ 4 := Nat.pow_le_pow_right (by decide) (by omega)
                omega
            by_cases hlast : (buf.getD count 0) &&& 0x80 = 0
            · rw [if_pos hlast]
              refine .inr ⟨?_, _, rfl, ?_⟩
              · rintro ⟨-, hall, -⟩
                have := hall count (by omega)
                have := (and_0x80_eq_zero _).mp hlast
                omega
              · intro t n hsome
                obtain ⟨rfl, rfl⟩ := Prod.mk.inj (Option.some.inj hsome)
                exact ⟨hsmall, hlen⟩
            · have hhigh : 128 ≤ (buf.getD count 0).toNat := Nat.not_lt.mp (mt (and_0x80_eq_zero _).mpr hlast)
              rw [if_neg hlast, ← Nat.mul_succ]
              refine ih (by omega) ?_ ?_ hnum' (fun _ => hsmall) (by omega)
              · intro i hi
                rcases Nat.lt_succ_iff_lt_or_eq.mp hi with hi | rfl
                · exact hmore i hi
                · exact hhigh
              · intro hfive'
                obtain rfl : count = 4 := by omega
                rw [toNat_and_0x7f] at hbig
                have := (buf.getD 4 0).toNat_lt
                omega
      · rw [if_neg hlen]
        refine .inr ⟨?_, none, rfl, nofun⟩
        rintro ⟨hlong, -⟩
        omega

theorem evtagPeek_cases (buf : List UInt8) :
    (Overlong buf ∧ evtagPeek buf = .error .outOfBounds) ∨
    (¬ Overlong buf ∧ ∃ res, evtagPeek buf = .ok res ∧
      ∀ t n, res = some (t, n) → t < 2 ^ 32 ∧ n ≤ buf.length) := by
  by_cases hnil : buf = []
  · subst hnil
    exact .inr ⟨fun h => absurd h.1 (by decide), none, rfl, nofun⟩
  · rw [evtagPeek_eq hnil]
    exact decodeTagLoop_cases (Nat.zero_le 5) nofun nofun Nat.one_pos nofun (by omega)

/-- **A tag is read out of bounds exactly if it is too long by one byte**: if there are more than five
bytes, of which the first five have their high bit set and the fifth would still fit. Of any other bytes
nothing is read that was not asked for, and a tag that is found has 32 bits. -/
theorem tag_overread (buf : List UInt8) :
    (evtagDecodeTag buf = .error .outOfBounds ↔ Overlong buf) ∧
    (¬ Overlong buf → ∃ tag rest, evtagDecodeTag buf = .ok (tag, rest) ∧ rest <:+ buf ∧
      (tag = none → rest = buf) ∧ ∀ t, tag = some t → t < 2 ^ 32) := by
  unfold evtagDecodeTag
  rcases evtagPeek_cases buf with ⟨hover, hpeek⟩ | ⟨hnot, res, hpeek, hres⟩
  · rw [hpeek, error_bind]
    exact ⟨iff_of_true rfl hover, fun hn => absurd hover hn⟩
  · rw [hpeek, ok_bind]
    cases res with
    | none =>
        exact ⟨iff_of_false nofun hnot, fun _ => ⟨none, buf, rfl, List.suffix_rfl, fun _ => rfl, nofun⟩⟩
    | some r =>
        obtain ⟨t, n⟩ := r
        refine ⟨iff_of_false nofun hnot, fun _ => ⟨some t, buf.drop n, rfl, List.drop_suffix _ _, nofun, ?_⟩⟩
        intro t' ht
        obtain rfl := Option.some.inj ht
        exact (hres t n rfl).1

end

end LinuxServer.Libevent
