import LinuxServer.Library.Arrays
import LinuxServer.Library.Memory

/-!
# Reading a line

The clients `TcpEchoClient.cpp`, `UdpEchoClient.cpp` and `SignalClient.cpp` read what their user types with
the same function `s_gets`. It calls `fgets`, looks for a newline in what it got, and replaces it by a NUL.
If it comes to a NUL first, it takes this for a line that did not fit, and discards the rest of the line.

There may be no rest: the input may have ended without a newline, and then `getchar` returns `EOF` for
ever; or the NUL was one of the characters of the line, and it is the next line that is discarded.
`line_read_iff` says that in all other cases the function does as it should.

The standard input is represented by the characters that are still to be read.
-/

namespace LinuxServer.LineInput

open Library

def newline : UInt8 := 10

/-- What `fgets` reads: up to `k` characters, and none after a newline. -/
def chars : Nat → List UInt8 → List UInt8
  | 0, _ => []
  | _, [] => []
  | k + 1, c :: stdin => if c = newline then [c] else c :: chars k stdin

/-- `fgets(st, n, stdin)`: whether it returns `st` (or `NULL`, at the end of the input), what is in `st`,
and what is left of the input. -/
def fgets (st : Block UInt8) (n : Nat) : List UInt8 → Exec (Bool × Block UInt8 × List UInt8)
  | [] => .ok (false, st, [])
  | c :: stdin => do
      let read := chars (n - 1) (c :: stdin)
      let st ← st.writeAll 0 (read ++ [0])
      return (true, st, (c :: stdin).drop read.length)

/-- `getchar()`, with `none` for `EOF`. -/
def getchar : List UInt8 → Option UInt8 × List UInt8
  | [] => (none, [])
  | c :: stdin => (some c, stdin)

/-- `while (st[i] != '\n' && st[i] != '\0') ++i;` -/
def scan (st : Block UInt8) : Nat → Nat → Exec Nat
  | 0, _ => .error .diverges
  | fuel + 1, i => do
      let c ← st.read i
      if c ≠ newline ∧ c ≠ 0 then scan st fuel (i + 1) else return i

/-- `while (getchar() != '\n') continue;` -/
def discard : Nat → List UInt8 → Exec (List UInt8)
  | 0, _ => .error .diverges
  | fuel + 1, stdin =>
      let (c, stdin) := getchar stdin
      if c ≠ some newline then discard fuel stdin else .ok stdin

/-- `s_gets(st, n)`. The scan cannot take more steps than `st` has entries. -/
def sGets (fuel : Nat) (st : Block UInt8) (n : Nat) (stdin : List UInt8) :
    Exec (Bool × Block UInt8 × List UInt8) := do
  let (ret, st, stdin) ← fgets st n stdin
  if ret then
    let i ← scan st (st.length + 1) 0
    let c ← st.read i
    if c = newline then
      let st ← st.write i 0
      return (ret, st, stdin)
    else
      let stdin ← discard fuel stdin
      return (ret, st, stdin)
  else return (ret, st, stdin)

/-! ## What it should do -/

/-- The next line, without its newline. -/
def lineOf (stdin : List UInt8) : List UInt8 := stdin.takeWhile (· ≠ newline)

/-- What comes after the next line and its newline, if it has one. -/
def afterLine (stdin : List UInt8) : List UInt8 := (stdin.dropWhile (· ≠ newline)).tail

/-- `s_gets` comes to an end, and if it returns `st`, then as much of the next line as fits is there, with a
NUL behind it, and the input is left after that line. -/
def ReadsLine (st : Block UInt8) (n : Nat) (stdin : List UInt8) : Prop :=
  (∃ fuel result, sGets fuel st n stdin = .ok result) ∧
  ∀ fuel st' rest, sGets fuel st n stdin = .ok (true, st', rest) →
    st'.slice 0 (min (n - 1) (lineOf stdin).length + 1) = (lineOf stdin).take (n - 1) ++ [0] ∧
    rest = afterLine stdin

variable {l stdin after : List UInt8} {st : Block UInt8} {n : Nat}

theorem all_ne_newline (hl : newline ∉ l) : ∀ c ∈ l, decide (c ≠ newline) = true := by
  intro c hc
  exact decide_eq_true fun h => hl (h ▸ hc)

theorem lineOf_append (hl : newline ∉ l) : lineOf (l ++ newline :: after) = l := by
  rw [lineOf, List.takeWhile_append_of_pos (all_ne_newline hl)]
  simp

theorem afterLine_append (hl : newline ∉ l) : afterLine (l ++ newline :: after) = after := by
  rw [afterLine, List.dropWhile_append_of_pos (all_ne_newline hl)]
  simp

/-! ## The loops -/

/-- The loop stops at the first newline or NUL. -/
theorem scan_eq {b : Block UInt8} {m : Nat} (hm : m < b.length)
    (hbefore : ∀ k < m, b.entry k ≠ newline ∧ b.entry k ≠ 0)
    (hstop : b.entry m = newline ∨ b.entry m = 0) (fuel i : Nat) (hi : i ≤ m) (hfuel : m - i < fuel) :
    scan b fuel i = .ok m := by
  induction fuel generalizing i with
  | zero => omega
  | succ fuel ih =>
      rw [scan, Block.read_eq (by omega), ok_bind]
      rcases Nat.lt_or_ge i m with hlt | hge
      · rw [if_pos (hbefore i hlt)]
        exact ih (i + 1) (by omega) (by omega)
      · obtain rfl : i = m := by omega
        rw [if_neg (by tauto)]
        rfl

/-- The loop ends at the newline. -/
theorem discard_eq (hl : newline ∉ l) (fuel : Nat) : discard fuel (l ++ newline :: after) =
    if l.length < fuel then .ok after else .error .diverges := by
  induction l generalizing fuel with
  | nil =>
      cases fuel with
      | zero => rfl
      | succ fuel => simp [discard, getchar]
  | cons c l ih =>
      rw [List.mem_cons, not_or] at hl
      cases fuel with
      | zero => rfl
      | succ fuel =>
          have hc : some c ≠ some newline := fun h => hl.1 (Option.some.inj h).symm
          rw [List.cons_append, discard, getchar]
          dsimp only
          rw [if_pos hc, ih hl.2]
          simp

/-- Without a newline, the loop never ends. -/
theorem discard_diverges (hl : newline ∉ l) (fuel : Nat) : discard fuel l = .error .diverges := by
  induction fuel generalizing l with
  | zero => rfl
  | succ fuel ih =>
      rw [discard]
      cases l with
      | nil => exact ih hl
      | cons c l =>
          rw [List.mem_cons, not_or] at hl
          have hc : some c ≠ some newline := fun h => hl.1 (Option.some.inj h).symm
          show (if some c ≠ some newline then discard fuel l else _) = _
          rw [if_pos hc]
          exact ih hl.2

/-! ## What `fgets` reads -/

/-- A line that does not fit, or the last one, without a newline. -/
theorem chars_take (hl : newline ∉ l) {k : Nat} {rest : List UInt8} (hk : k ≤ l.length ∨ rest = []) :
    chars k (l ++ rest) = l.take k := by
  induction l generalizing k with
  | nil =>
      rcases hk with hk | rfl
      · obtain rfl : k = 0 := by simpa using hk
        rfl
      · cases k <;> rfl
  | cons c l ih =>
      rw [List.mem_cons, not_or] at hl
      cases k with
      | zero => rfl
      | succ k =>
          rw [List.cons_append, chars, if_neg (Ne.symm hl.1), ih hl.2 (by simpa using hk)]
          rfl

/-- A line that fits, with its newline. -/
theorem chars_line (hl : newline ∉ l) {k : Nat} (hk : l.length < k) :
    chars k (l ++ newline :: after) = l ++ [newline] := by
  induction l generalizing k with
  | nil =>
      obtain ⟨k, rfl⟩ : ∃ j, k = j + 1 := ⟨k - 1, by simp at hk; omega⟩
      simp [chars]
  | cons c l ih =>
      rw [List.mem_cons, not_or] at hl
      obtain ⟨k, rfl⟩ : ∃ j, k = j + 1 := ⟨k - 1, by simp at hk; omega⟩
      rw [List.cons_append, chars, if_neg (Ne.symm hl.1), ih hl.2 (by simpa using hk)]
      rfl

theorem length_chars_le (k : Nat) (stdin : List UInt8) : (chars k stdin).length ≤ k := by
  induction stdin generalizing k with
  | nil => cases k <;> simp [chars]
  | cons c stdin ih =>
      cases k with
      | zero => simp [chars]
      | succ k =>
          rw [chars]
          split
          · simp
          · simpa using ih k

section Call
variable (hn : 2 ≤ n) (hst : n ≤ st.length)
include hn hst

theorem fgets_eq (hne : stdin ≠ []) : fgets st n stdin =
    .ok (true, st.overlay 0 (chars (n - 1) stdin ++ [0]), stdin.drop (chars (n - 1) stdin).length) := by
  cases stdin with
  | nil => exact absurd rfl hne
  | cons c stdin =>
      have hle := length_chars_le (n - 1) (c :: stdin)
      rw [fgets, Block.writeAll_eq (by simp; omega), ok_bind]
      rfl

/-- Where the scan stops, and what it finds there. -/
theorem scan_read {pre post : List UInt8} {c : UInt8}
    (hread : chars (n - 1) stdin ++ [0] = pre ++ c :: post) (hpre : newline ∉ pre ∧ 0 ∉ pre)
    (hc : c = newline ∨ c = 0) :
    scan (st.overlay 0 (chars (n - 1) stdin ++ [0])) (st.length + 1) 0 = .ok pre.length ∧
      (st.overlay 0 (chars (n - 1) stdin ++ [0])).read pre.length = .ok c ∧ pre.length < st.length := by
  have hlen := congrArg List.length hread
  have hle := length_chars_le (n - 1) stdin
  simp only [List.length_append, List.length_cons, List.length_nil] at hlen
  have hlt : pre.length < st.length := by omega
  rw [hread]
  have hentry : ∀ k, (st.overlay 0 (pre ++ c :: post)).entry k =
      (pre ++ c :: post)[k]?.getD (st.entry k) := fun k => by simp [Block.overlay]
  have hstop : (st.overlay 0 (pre ++ c :: post)).entry pre.length = c := by simp [hentry]
  have hlt' : pre.length < (st.overlay 0 (pre ++ c :: post)).length := hlt
  refine ⟨scan_eq hlt' ?_ (by rwa [hstop]) _ 0 (Nat.zero_le _) (by omega), ?_, hlt⟩
  · intro k hk
    have hmem : (st.overlay 0 (pre ++ c :: post)).entry k ∈ pre := by
      rw [hentry, List.getElem?_append_left hk, List.getElem?_eq_getElem hk]
      exact List.getElem_mem hk
    exact ⟨fun h => hpre.1 (h ▸ hmem), fun h => hpre.2 (h ▸ hmem)⟩
  · rw [Block.read_eq hlt', hstop]

/-- The scan comes to a newline. -/
theorem sGets_newline (hne : stdin ≠ []) {pre post : List UInt8}
    (hread : chars (n - 1) stdin ++ [0] = pre ++ newline :: post) (hpre : newline ∉ pre ∧ 0 ∉ pre)
    (fuel : Nat) :
    ∃ st', sGets fuel st n stdin = .ok (true, st', stdin.drop (chars (n - 1) stdin).length) ∧
      st'.slice 0 (pre.length + 1) = pre ++ [0] := by
  obtain ⟨hscan, hc, hlt⟩ := scan_read hn hst hread hpre (.inl rfl)
  let b := st.overlay 0 (chars (n - 1) stdin ++ [0])
  refine ⟨{ b with entry := Function.update b.entry pre.length 0 }, ?_, ?_⟩
  · unfold sGets
    rw [fgets_eq hn hst hne, ok_bind]
    dsimp only
    rw [if_pos rfl, Block.length_overlay, hscan, ok_bind, hc, ok_bind, if_pos rfl, Block.write_eq, ok_bind]
    · rfl
    · exact hlt
  · have hslice := Block.slice_overlay_prefix (b := st) (i := 0) pre (newline :: post)
    unfold Block.slice at hslice ⊢
    simp only [Nat.zero_add] at hslice ⊢
    rw [range_succ_map_update]
    show (List.range pre.length).map (st.overlay 0 (chars (n - 1) stdin ++ [0])).entry ++ [0] = _
    rw [hread, hslice]

/-- The scan comes to a NUL. -/
theorem sGets_nul (hne : stdin ≠ []) {pre post : List UInt8}
    (hread : chars (n - 1) stdin ++ [0] = pre ++ 0 :: post) (hpre : newline ∉ pre ∧ 0 ∉ pre)
    (fuel : Nat) :
    sGets fuel st n stdin = (do
      let rest ← discard fuel (stdin.drop (chars (n - 1) stdin).length)
      return (true, st.overlay 0 (chars (n - 1) stdin ++ [0]), rest)) := by
  obtain ⟨hscan, hc, -⟩ := scan_read hn hst hread hpre (.inr rfl)
  unfold sGets
  rw [fgets_eq hn hst hne, ok_bind]
  dsimp only
  rw [if_pos rfl, Block.length_overlay, hscan, ok_bind, hc, ok_bind, if_neg (by decide)]

/-- There is no newline in what was read: the rest of the line is discarded. -/
theorem sGets_cut (hne : stdin ≠ []) (hread : newline ∉ chars (n - 1) stdin) (fuel : Nat) :
    sGets fuel st n stdin = (do
      let rest ← discard fuel (stdin.drop (chars (n - 1) stdin).length)
      return (true, st.overlay 0 (chars (n - 1) stdin ++ [0]), rest)) := by
  have hmem : (0 : UInt8) ∈ chars (n - 1) stdin ++ [0] := by simp
  obtain ⟨pre, post, heq, hpre⟩ := List.eq_append_cons_of_mem hmem
  refine sGets_nul hn hst hne heq ⟨fun h => ?_, hpre⟩ fuel
  have hall : newline ∈ chars (n - 1) stdin ++ [0] := by
    rw [heq]
    exact List.mem_append_left _ h
  rcases List.mem_append.mp hall with h | h
  · exact hread h
  · exact absurd (List.mem_singleton.mp h) (by decide)

/-- The input ends without a newline. -/
theorem not_readsLine_last (hne : stdin ≠ []) (hnl : newline ∉ stdin) : ¬ ReadsLine st n stdin := by
  rintro ⟨⟨fuel, result, hok⟩, -⟩
  have hchars : chars (n - 1) stdin = stdin.take (n - 1) := by
    have hlast : n - 1 ≤ stdin.length ∨ ([] : List UInt8) = [] := .inr rfl
    simpa using chars_take hnl hlast
  rw [sGets_cut hn hst hne (by rw [hchars]; exact fun h => hnl (List.mem_of_mem_take h)),
    discard_diverges (fun h => hnl (List.mem_of_mem_drop h)), error_bind] at hok
  cases hok

/-- The line does not fit. -/
theorem readsLine_long (hl : newline ∉ l) (hlong : n - 1 ≤ l.length) :
    ReadsLine st n (l ++ newline :: after) := by
  have hchars : chars (n - 1) (l ++ newline :: after) = l.take (n - 1) := chars_take hl (.inl hlong)
  have hdrop : (l ++ newline :: after).drop (chars (n - 1) (l ++ newline :: after)).length =
      l.drop (n - 1) ++ newline :: after := by
    rw [hchars, List.length_take, Nat.min_eq_left hlong, List.drop_append_of_le_length hlong]
  have hcut : ∀ fuel, sGets fuel st n (l ++ newline :: after) =
      if (l.drop (n - 1)).length < fuel then .ok (true, st.overlay 0 (l.take (n - 1) ++ [0]), after)
      else .error .diverges := by
    intro fuel
    rw [sGets_cut hn hst (by simp) (by rw [hchars]; exact fun h => hl (List.mem_of_mem_take h)), hdrop,
      discard_eq (fun h => hl (List.mem_of_mem_drop h)), hchars]
    split
    · rfl
    · rfl
  refine ⟨⟨_, _, (hcut _).trans (if_pos (Nat.lt_succ_self _))⟩, ?_⟩
  intro fuel st' rest hok
  rw [hcut] at hok
  split at hok
  · obtain ⟨-, hrest⟩ := Prod.mk.inj (Except.ok.inj hok)
    obtain ⟨rfl, rfl⟩ := Prod.mk.inj hrest
    rw [lineOf_append hl, afterLine_append hl]
    refine ⟨?_, rfl⟩
    have hslice := Block.slice_overlay_prefix (b := st) (i := 0) (l.take (n - 1) ++ [0]) []
    simpa using hslice
  · cases hok

/-- The line fits. If there is a NUL in it, the newline stays where it is. -/
theorem readsLine_short (hl : newline ∉ l) (hshort : l.length < n - 1) :
    ReadsLine st n (l ++ newline :: after) ↔ 0 ∉ l := by
  have hne : l ++ newline :: after ≠ [] := by simp
  have hchars : chars (n - 1) (l ++ newline :: after) = l ++ [newline] := chars_line hl hshort
  have hmin : min (n - 1) l.length = l.length := Nat.min_eq_right hshort.le
  constructor
  · rintro ⟨⟨fuel, ⟨ret, st', rest⟩, hok⟩, hall⟩ hnul
    obtain ⟨pre, post, heq, hpre⟩ := List.eq_append_cons_of_mem hnul
    have hread : chars (n - 1) (l ++ newline :: after) ++ [0] = pre ++ 0 :: (post ++ [newline, 0]) := by
      rw [hchars, heq]
      simp
    have hnot : newline ∉ pre ∧ 0 ∉ pre := by
      refine ⟨fun h => hl ?_, hpre⟩
      rw [heq]
      exact List.mem_append_left _ h
    have hok' := hok
    rw [sGets_nul hn hst hne hread hnot, hchars] at hok'
    obtain ⟨rest', -, hok'⟩ := bind_eq_ok.mp hok'
    obtain ⟨rfl, hrest⟩ := Prod.mk.inj (Except.ok.inj hok')
    obtain ⟨rfl, rfl⟩ := Prod.mk.inj hrest
    have hline := (hall fuel _ _ hok).1
    rw [lineOf_append hl, hmin, List.take_of_length_le hshort.le] at hline
    -- the newline has not been replaced
    have hslice := Block.slice_overlay_prefix (b := st) (i := 0) (l ++ [newline]) [0]
    rw [List.length_append] at hslice
    have hsame := List.append_cancel_left (hslice.symm.trans hline)
    exact absurd (List.cons.inj hsame).1 (by decide)
  · intro hnul
    have hread : chars (n - 1) (l ++ newline :: after) ++ [0] = l ++ newline :: [0] := by
      rw [hchars]
      simp
    have hdrop : (l ++ newline :: after).drop (chars (n - 1) (l ++ newline :: after)).length = after := by
      rw [hchars]
      simp
    refine ⟨?_, ?_⟩
    · obtain ⟨st', hok, -⟩ := sGets_newline hn hst hne hread ⟨hl, hnul⟩ 0
      exact ⟨0, _, hok⟩
    · intro fuel st' rest hok
      obtain ⟨st'', hok', hslice⟩ := sGets_newline hn hst hne hread ⟨hl, hnul⟩ fuel
      rw [hok', hdrop] at hok
      obtain ⟨-, hrest⟩ := Prod.mk.inj (Except.ok.inj hok)
      obtain ⟨rfl, rfl⟩ := Prod.mk.inj hrest
      rw [lineOf_append hl, afterLine_append hl, hmin, List.take_of_length_le hshort.le]
      exact ⟨hslice, rfl⟩

/-- **`s_gets` reads the next line as it should exactly if** there is no input left, or the line ends in a
newline and either does not fit or has no NUL in it. -/
theorem line_read_iff (stdin : List UInt8) :
    ReadsLine st n stdin ↔
      stdin = [] ∨ newline ∈ stdin ∧ (n - 1 ≤ (lineOf stdin).length ∨ 0 ∉ lineOf stdin) := by
  by_cases hne : stdin = []
  · subst hne
    refine iff_of_true ⟨⟨0, _, rfl⟩, ?_⟩ (.inl rfl)
    intro fuel st' rest hok
    cases hok
  · by_cases hnl : newline ∈ stdin
    · obtain ⟨l, after, rfl, hl⟩ := List.eq_append_cons_of_mem hnl
      rw [lineOf_append hl]
      rcases Nat.lt_or_ge l.length (n - 1) with hshort | hlong
      · rw [readsLine_short hn hst hl hshort]
        constructor
        · intro hnul
          exact .inr ⟨hnl, .inr hnul⟩
        · rintro (h | ⟨-, h | h⟩)
          · exact absurd h hne
          · omega
          · exact h
      · exact iff_of_true (readsLine_long hn hst hl hlong) (.inr ⟨hnl, .inl hlong⟩)
    · refine iff_of_false (not_readsLine_last hn hst hne hnl) ?_
      rintro (h | ⟨h, -⟩)
      · exact hne h
      · exact hnl h

end Call

/-- The line `hi`, with another one behind it. -/
theorem line_read_two_lines :
    lineOf [104, 105, 10, 121, 10] = [104, 105] ∧ afterLine [104, 105, 10, 121, 10] = [121, 10] ∧
      ReadsLine (Block.fill 1024 0) 1024 [104, 105, 10, 121, 10] := by
  refine ⟨by decide, by decide, ?_⟩
  exact (line_read_iff (by decide) (le_refl 1024) _).mpr (.inr ⟨by decide, .inr (by decide)⟩)

/-- The input `hi` without a newline: `s_gets` does not return. And a line `a\0b`: its newline is not
replaced, and the next line is lost. -/
theorem line_read_unended_fails :
    (∀ fuel, sGets fuel (Block.fill 1024 0) 1024 [104, 105] = .error .diverges) ∧
      ¬ ReadsLine (Block.fill 1024 0) 1024 [104, 105] ∧
      ¬ ReadsLine (Block.fill 1024 0) 1024 [97, 0, 98, 10, 99, 10] := by
  have hn : 2 ≤ 1024 := by decide
  have hst : 1024 ≤ (Block.fill 1024 (0 : UInt8)).length := le_refl 1024
  refine ⟨?_, not_readsLine_last hn hst (by decide) (by decide), ?_⟩
  · intro fuel
    have hchars : chars (1024 - 1) [104, 105] = [104, 105] := rfl
    rw [sGets_cut hn hst (by decide) (by rw [hchars]; decide), hchars]
    show (discard fuel [] >>= _) = _
    rw [discard_diverges (by decide), error_bind]
  · have hl : newline ∉ [97, 0, 98] := by decide
    rw [show [97, 0, 98, 10, 99, 10] = [97, 0, 98] ++ newline :: [99, 10] from rfl,
      readsLine_short hn hst hl (by decide)]
    decide

end LinuxServer.LineInput
