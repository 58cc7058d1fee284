import LinuxServer.Libevent.Evbuffer

/-!
# Calls on buffers

Each call keeps a buffer right (`Ok`), and the chains owned (`Owns`), whatever it does about the chains:
`Becomes` says what data the buffer holds after it, and that the chains of other buffers look as before.

`evbuffer_add_buffer_reference` frees the chains of a buffer that has no data and then appends to them,
which is a fault if there are any (`appendMulticast_dangling`).
-/

namespace LinuxServer.Libevent

open Library

/-! ## Adding -/

section
variable {a a' : Arena} {b b' : Evbuffer} {c chain : Chain} {front back rest fr : List Chain}
  {data xs text : List UInt8} {n : Nat}

namespace Evbuffer
namespace Parts

theorem perm_data (hp : b.Parts front (c :: rest)) :
    (b.chains ++ fr).Perm (c :: (front ++ (rest ++ fr))) := by
  rw [hp.chains, List.append_assoc, List.cons_append]
  exact List.perm_middle

/-- The chain that `update` changes is found by its address. -/
theorem update_chains (hp : b.Parts front (c :: rest)) (hnd : ((front ++ c :: rest).map Chain.id).Nodup)
    {m k : Nat} : (b.update (c.slide m k) n).chains = front ++ c.slide m k :: rest := by
  have hother : ∀ l : List Chain, (∀ d ∈ l, d.id ≠ c.id) →
      (l.map fun d => if d.id = (c.slide m k).id then c.slide m k else d) = l := by
    intro l hl
    refine (List.map_congr_left fun d hd => ?_).trans (List.map_id l)
    exact if_neg (hl d hd)
  rw [List.map_append, List.map_cons] at hnd
  obtain ⟨-, hback, hdisj⟩ := List.nodup_append.mp hnd
  show b.chains.map _ = _
  rw [hp.chains, List.map_append, List.map_cons, if_pos (show c.id = (c.slide m k).id from rfl), hother, hother]
  · intro d hd heq
    exact (List.nodup_cons.mp hback).1 (heq ▸ List.mem_map_of_mem hd)
  · intro d hd heq
    exact hdisj _ (List.mem_map_of_mem hd) _ List.mem_cons_self heq

/-- The last chain with data gets more of it. -/
theorem write (hp : b.Parts front (c :: rest)) (ho : Owns a (b.chains ++ fr)) {m : Nat}
    (hfit : b.totalLen + xs.length ≤ sizeMax)
    (ho' : Owns a' (c.slide m (c.off + xs.length) :: (front ++ (rest ++ fr))))
    (hs : Same a a' (front ++ (rest ++ fr)))
    (hread : a'.bytes (c.slide m (c.off + xs.length)) = a.bytes c ++ xs) :
    Becomes a a' b (b.update (c.slide m (c.off + xs.length)) xs.length) fr
      (a.content b.chains ++ xs) := by
  have hchains := hp.update_chains (hp.nodup ho) (n := xs.length) (m := m) (k := c.off + xs.length)
  refine ⟨⟨front, c.slide m (c.off + xs.length) :: rest, hchains, hp.slot, ?_, hp.empty, ?_, ?_, asSize_le _⟩,
    ?_, ?_, ?_, rfl, rfl⟩
  · intro hne
    obtain ⟨d, hd, hoff⟩ := hp.data hne
    obtain rfl := Option.some.inj hd
    exact ⟨_, rfl, fun h => hoff (Nat.eq_zero_of_add_eq_zero_right h)⟩
  · rw [hchains]
    show b.last = _
    rw [hp.last, hp.chains]
    cases rest with
    | nil => simp [Chain.slide]
    | cons d rest => simp [List.getLast?_append]
  · rw [hchains]
    show asSize (b.totalLen + xs.length) = _
    rw [asSize_of_le hfit, hp.total, hp.chains]
    simp only [List.map_append, List.map_cons, List.sum_append, List.sum_cons, Chain.slide]
    omega
  · rw [hchains]
    exact ho'.perm (by rw [List.append_assoc, List.cons_append]; exact List.perm_middle.symm)
  · exact hs.subset fun d hd => List.mem_append_right _ (List.mem_append_right _ hd)
  · have hrest : a.content rest = [] :=
      ho.content_empty (fun d hd => by rw [hp.chains]; simp [hd]) hp.empty
    have hrest' : a'.content rest = [] := by
      rw [(hs.subset fun d hd => List.mem_append_right _ (List.mem_append_left _ hd)).content, hrest]
    have hfront : a'.content front = a.content front :=
      (hs.subset fun d hd => List.mem_append_left _ hd).content
    rw [hchains, hp.chains, Arena.content_append, Arena.content_append, Arena.content_cons,
      Arena.content_cons, hread, hrest, hrest', hfront]
    simp only [List.append_nil, List.append_assoc]

/-- The end of `evbuffer_add`. -/
theorem addChain (hp : b.Parts front (c :: rest)) (ho : Owns a (b.chains ++ fr)) {remain : Nat}
    (hremain : c.immutable = true → remain = 0) (hroom : c.misalign + c.off + remain ≤ c.bufferLen)
    (hlt : remain ≤ data.length) (hfit : b.totalLen + data.length ≤ sizeMax) :
    ∃ r b' a', b.addChain a c remain data = .ok (r, b', a') ∧
      Becomes a a' b b' fr (if r then a.content b.chains ++ data else a.content b.chains) ∧
      (r = false → chainMax - chainSize < data.length ∨ chainMax - chainSize < c.bufferLen) := by
  unfold Evbuffer.addChain
  dsimp only
  rcases ho.chainNew (max (if c.bufferLen ≤ 2048 then 2 * c.bufferLen else c.bufferLen) data.length) with
    ⟨hhuge, hnew⟩ | ⟨tmp, a₁, hnew, ho₁, hs₁, hm, hmis, hoff, hsize⟩
  · rw [hnew]
    refine ⟨false, b, a, rfl, Becomes.refl ⟨_, _, hp⟩ ho, fun _ => ?_⟩
    have hlimit : 4096 ≤ chainMax - chainSize := by decide
    rcases lt_max_iff.mp hhuge with hhuge | hhuge
    · right
      split at hhuge <;> omega
    · exact .inl hhuge
  · rw [hnew]
    dsimp only
    have hin : ∀ d ∈ b.chains, d ∈ b.chains ++ fr := fun d hd => List.mem_append_left _ hd
    have hcont₁ : a₁.content b.chains = a.content b.chains := (hs₁.subset hin).content
    -- what fits is behind the old data
    obtain ⟨b₂, a₂, hrun₂, h₂⟩ : ∃ b₂ a₂, b.addRemain a₁ c remain data = .ok (b₂, a₂) ∧
        Becomes a₁ a₂ b b₂ (tmp :: fr) (a.content b.chains ++ data.take remain) := by
      have ho₁' : Owns a₁ (b.chains ++ tmp :: fr) := ho₁.perm List.perm_middle.symm
      unfold addRemain
      by_cases hzero : remain = 0
      · rw [if_pos hzero, hzero, List.take_zero, List.append_nil, ← hcont₁]
        exact ⟨b, a₁, rfl, Becomes.refl ⟨_, _, hp⟩ ho₁'⟩
      · have hmut : c.immutable = false := by
          cases hi : c.immutable with
          | false => rfl
          | true => exact absurd (hremain hi) hzero
        have hlen : (data.take remain).length = remain := by
          rw [List.length_take]
          omega
        obtain ⟨a₂, hstore, ho₂, hs₂, hread⟩ := (ho₁'.perm hp.perm_data).store_behind hmut
          (show c.misalign + c.off + (data.take remain).length ≤ c.bufferLen by omega)
        rw [if_neg hzero, hstore, ok_bind]
        have hw := hp.write ho₁' (show b.totalLen + (data.take remain).length ≤ sizeMax by omega) ho₂ hs₂ hread
        rw [hlen, hcont₁] at hw
        exact ⟨_, a₂, rfl, hw⟩
    rw [hrun₂, ok_bind]
    dsimp only
    -- the rest is in the new chain
    have ho₂ : Owns a₂ (tmp :: (b₂.chains ++ fr)) := h₂.owns.perm List.perm_middle
    obtain ⟨a₃, hstore, ho₃, hs₃, hread⟩ := ho₂.store_anew hm
      (show (data.drop remain).length ≤ tmp.bufferLen by rw [List.length_drop]; omega)
    rw [hstore, ok_bind]
    have hfit₃ : b₂.totalLen + (data.drop remain).length ≤ sizeMax := by
      rw [← h₂.ok.length_content h₂.owns, h₂.content, List.length_append, Ok.length_content ⟨_, _, hp⟩ ho,
        Nat.add_assoc, ← List.length_append, List.take_append_drop]
      exact hfit
    obtain ⟨b₄, a₄, hins, h₄, -⟩ := h₂.ok.chainInsert ho₃ hfit₃
    rw [hins, ok_bind]
    refine ⟨true, b₄, a₄, rfl, ⟨h₄.ok, h₄.owns, ?_, ?_, ?_⟩, Bool.noConfusion⟩
    · have hs₁₂ : Same a a₂ fr := (hs₁.subset fun d hd => List.mem_append_right _ hd).trans
        (h₂.same.subset fun d hd => List.mem_cons_of_mem _ hd)
      have hs₂₃ : Same a₂ a₃ fr := hs₃.subset fun d hd => List.mem_append_right _ hd
      exact (hs₁₂.trans hs₂₃).trans h₄.same
    · rw [h₄.content, hread, (hs₃.subset fun d hd => List.mem_append_left _ hd).content, h₂.content]
      simp only [if_true, List.append_assoc, List.take_append_drop]
    · exact ⟨h₄.flags.1.trans h₂.flags.1, h₄.flags.2.trans h₂.flags.2⟩

/-- The part of `evbuffer_add` after the chain was found. -/
theorem addTo (hp : b.Parts front (c :: rest)) (ho : Owns a (b.chains ++ fr))
    (hfit : b.totalLen + data.length ≤ sizeMax) :
    ∃ r b' a', b.addTo a c data = .ok (r, b', a') ∧
      Becomes a a' b b' fr (if r then a.content b.chains ++ data else a.content b.chains) ∧
      (r = false → ¬ (c.immutable = false ∧ c.misalign + c.off + data.length ≤ c.bufferLen) ∧
        (chainMax - chainSize < data.length ∨ chainMax - chainSize < c.bufferLen)) := by
  have hc : c ∈ b.chains ++ fr := hp.perm_data.mem_iff.mpr List.mem_cons_self
  have hfits := ho.fits hc
  have ho' := ho.perm hp.perm_data
  unfold Evbuffer.addTo
  dsimp only
  by_cases hspace : c.immutable = false ∧ data.length ≤ if c.immutable then 0 else c.bufferLen - c.misalign - c.off
  · obtain ⟨hm, hlen⟩ := hspace
    rw [if_pos ⟨hm, hlen⟩]
    rw [hm] at hlen
    have hlen : data.length ≤ c.bufferLen - c.misalign - c.off := hlen
    have hfits : c.misalign + c.off + data.length ≤ c.bufferLen := by omega
    obtain ⟨a', hstore, ho₁, hs, hread⟩ := ho'.store_behind hm hfits
    rw [hstore, ok_bind]
    exact ⟨true, _, a', rfl, hp.write ho hfit ho₁ hs hread, Bool.noConfusion⟩
  · rw [if_neg hspace]
    by_cases halign : c.immutable = false ∧ c.shouldRealign data.length = true
    · obtain ⟨hm, hshould⟩ := halign
      rw [if_pos ⟨hm, hshould⟩, ho.load hc, ok_bind]
      simp only [Chain.shouldRealign, Bool.and_eq_true, decide_eq_true_eq] at hshould
      have hold := ho.length_bytes hc
      obtain ⟨a₁, hstore₁, ho₁, hs₁, hread₁⟩ := ho'.store_anew hm (show (a.bytes c).length ≤ c.bufferLen by omega)
      rw [hstore₁, ok_bind]
      obtain ⟨a₂, hstore₂, ho₂, hs₂, hread₂⟩ :=
        ho₁.store_behind hm (show 0 + (a.bytes c).length + data.length ≤ c.bufferLen by omega)
      have hrun₂ : a₁.store c c.off data = .ok a₂ := by
        rw [← hstore₂]
        show a₁.store c c.off data = a₁.store (c.slide 0 _) (0 + (a.bytes c).length) data
        rw [hold, Nat.zero_add]
        rfl
      rw [hrun₂, ok_bind]
      refine ⟨true, _, a₂, rfl, hp.write ho hfit ?_ (hs₁.trans hs₂) ?_, Bool.noConfusion⟩
      · rw [← hold]
        exact ho₂
      · have hread : a₂.bytes (c.slide 0 (c.off + data.length)) =
            a₁.bytes (c.slide 0 (a.bytes c).length) ++ data := by
          rw [← hold]
          exact hread₂
        rw [hread, hread₁]
    · rw [if_neg halign]
      have hnofit : ¬ (c.immutable = false ∧ c.misalign + c.off + data.length ≤ c.bufferLen) := by
        rintro ⟨hm, hlen⟩
        refine hspace ⟨hm, ?_⟩
        rw [hm]
        show data.length ≤ c.bufferLen - c.misalign - c.off
        omega
      have hremain : c.immutable = true → (if c.immutable then 0 else c.bufferLen - c.misalign - c.off) = 0 :=
        fun hi => if_pos hi
      have hroom : c.misalign + c.off + (if c.immutable then 0 else c.bufferLen - c.misalign - c.off) ≤
          c.bufferLen := by
        split <;> omega
      have hlt : (if c.immutable then 0 else c.bufferLen - c.misalign - c.off) ≤ data.length := by
        cases hi : c.immutable with
        | true => exact Nat.zero_le _
        | false =>
            show c.bufferLen - c.misalign - c.off ≤ data.length
            have hover : ¬ (c.misalign + c.off + data.length ≤ c.bufferLen) := fun hlen => hnofit ⟨hi, hlen⟩
            omega
      obtain ⟨r, b', a', hrun, hb, hfail⟩ := hp.addChain ho hremain hroom hlt hfit
      exact ⟨r, b', a', hrun, hb, fun hr => ⟨hnofit, hfail hr⟩⟩

end Parts

/-- What `evbuffer_add` of `n` bytes may fail for: it is not allowed, or there is a length beyond the limits. -/
def Full (b : Evbuffer) (n : Nat) : Prop :=
  b.freezeEnd = true ∨ sizeMax - b.totalLen < n ∨ chainMax - chainSize < n ∨
    ∃ c ∈ b.chains, chainMax - chainSize < c.bufferLen

/-- `evbuffer_add`: the data is behind the old data, or nothing has changed. -/
theorem Ok.add (hok : b.Ok) (ho : Owns a (b.chains ++ fr)) (data : List UInt8) :
    ∃ r b' a', b.evbufferAdd a data = .ok (r, b', a') ∧
      Becomes a a' b b' fr (if r then a.content b.chains ++ data else a.content b.chains) ∧
      (r = false → b.Full data.length) := by
  have hfail := Becomes.refl hok ho
  unfold Evbuffer.evbufferAdd
  by_cases hfreeze : b.freezeEnd = true
  · rw [if_pos hfreeze]
    exact ⟨false, b, a, rfl, hfail, fun _ => .inl hfreeze⟩
  · rw [if_neg hfreeze]
    by_cases hmax : sizeMax - b.totalLen < data.length
    · rw [if_pos hmax]
      exact ⟨false, b, a, rfl, hfail, fun _ => .inr (.inl hmax)⟩
    · have hsmall := hok.small
      have hfit : b.totalLen + data.length ≤ sizeMax := by omega
      obtain ⟨front, back, hp⟩ := hok
      rw [if_neg hmax, hp.split ho, ok_bind]
      cases back with
      | cons c rest =>
          obtain ⟨r, b', a', hrun, hb, hfull⟩ := hp.addTo ho hfit
          refine ⟨r, b', a', hrun, hb, fun hr => ?_⟩
          have hc : c ∈ b.chains := by simp [hp.chains]
          exact .inr (.inr ((hfull hr).2.imp_right fun hlen => ⟨c, hc, hlen⟩))
      | nil =>
          have hfront : front = [] := by
            by_contra hne
            obtain ⟨c, hc, -⟩ := hp.data hne
            cases hc
          have hnil : b.chains = [] := by rw [hp.chains, hfront]; rfl
          dsimp only
          rw [hnil, List.find?_nil]
          dsimp only
          rcases ho.chainNew data.length with ⟨hhuge, hnew⟩ | ⟨tmp, a₁, hnew, ho₁, hs₁, hm, hmis, hoff, hsize⟩
          · rw [hnew, ← hnil]
            exact ⟨false, b, a, rfl, hfail, fun _ => .inr (.inr (.inl hhuge))⟩
          · rw [hnew]
            dsimp only
            obtain ⟨b₂, a₂, hins, h₂, hlast⟩ := Ok.chainInsert ⟨front, [], hp⟩ ho₁ (by omega)
            have hins' : b.chainInsert a₁ tmp = .ok (b₂, a₂) := hins
            rw [hins', ok_bind]
            have hb₂ : b₂.chains = [tmp] := by
              rw [Evbuffer.chainInsert, hp.split ho, ok_bind] at hins'
              have hins' := Prod.mk.inj (Except.ok.inj hins')
              rw [← hins'.1]
            obtain ⟨front₂, back₂, hp₂⟩ := h₂.ok
            have hcat := hp₂.chains.symm.trans hb₂
            obtain ⟨rfl, rfl⟩ : front₂ = [] ∧ back₂ = [tmp] := by
              cases front₂ with
              | nil => exact ⟨rfl, hcat⟩
              | cons d front₂ =>
                  obtain ⟨e, he, -⟩ := hp₂.data (List.cons_ne_nil _ _)
                  cases back₂ with
                  | nil => cases he
                  | cons f back₂ => simp at hcat
            have hempty : a₂.content b₂.chains = [] := by
              rw [h₂.content, ho₁.bytes_nil List.mem_cons_self hoff, hnil]
              rfl
            have hfit₂ : b₂.totalLen + data.length ≤ sizeMax := by
              rw [← h₂.ok.length_content h₂.owns, hempty, List.length_nil]
              omega
            obtain ⟨r, b₃, a₃, hrun, h₃, hnofit⟩ := hp₂.addTo h₂.owns hfit₂
            dsimp only
            have hfits : tmp.misalign + tmp.off + data.length ≤ tmp.bufferLen := by omega
            refine ⟨r, b₃, a₃, hrun, ⟨h₃.ok, h₃.owns, ?_, ?_, ?_⟩, fun hr => absurd ⟨hm, hfits⟩ (hnofit hr).1⟩
            · exact ((hs₁.subset fun d hd => List.mem_append_right _ hd).trans h₂.same).trans h₃.same
            · rw [h₃.content, hempty]
              rfl
            · exact ⟨h₃.flags.1.trans h₂.flags.1, h₃.flags.2.trans h₂.flags.2⟩

end Evbuffer
end


/-! ## Two buffers -/

section
variable {a a' : Arena} {b b' out src : Evbuffer} {c chain : Chain} {front back rest fr cs : List Chain}
  {data xs text : List UInt8} {n : Nat}

namespace Evbuffer

theorem perm_cons (ho : Owns a (c :: cs ++ fr)) : Owns a (cs ++ c :: fr) := ho.perm List.perm_middle.symm

/-- The loop of `evbuffer_copyout_from`. -/
theorem copyLoop_eq (ho : Owns a (cs ++ fr)) (hlen : n ≤ (cs.map Chain.off).sum) :
    copyLoop a cs n = .ok ((a.content cs).take n) := by
  induction cs generalizing n fr with
  | nil =>
      obtain rfl : n = 0 := Nat.le_zero.mp hlen
      rfl
  | cons c cs ih =>
      have hc : c ∈ c :: cs ++ fr := List.mem_cons_self
      have hbytes := ho.length_bytes hc
      rw [List.map_cons, List.sum_cons] at hlen
      rw [copyLoop, Arena.content_cons]
      by_cases hzero : n = 0
      · rw [if_pos hzero, hzero, List.take_zero]
      · rw [if_neg hzero]
        by_cases hle : c.off ≤ n
        · have htake : (a.bytes c).take n = a.bytes c := List.take_of_length_le (by omega)
          rw [if_pos hle, ho.load hc, ok_bind, ih (perm_cons ho) (show n - c.off ≤ _ by omega), ok_bind,
            List.take_append, hbytes, htake]
        · rw [if_neg hle, ho.load_prefix hc (by omega), List.take_append_of_le_length (by omega)]

theorem Ok.freeze (hok : b.Ok) (start on : Bool) : (b.freeze start on).Ok := by
  obtain ⟨front, back, hp⟩ := hok
  cases start
  all_goals exact ⟨front, back, hp.chains, hp.slot, hp.data, hp.empty, hp.last, hp.total, hp.small⟩

theorem Ok.zeroChain (b : Evbuffer) : b.zeroChain.Ok :=
  ⟨[], [], rfl, rfl, by simp, by simp, rfl, rfl, Nat.zero_le _⟩

/-- `evbuffer_add_buffer`: the data of `src` goes behind that of `out`, or nothing has changed. -/
theorem Ok.addBuffer (hout : out.Ok) (hsrc : src.Ok) (ho : Owns a (out.chains ++ (src.chains ++ fr)))
    (hfit : out.totalLen + src.totalLen ≤ sizeMax) :
    ∃ r out' src' a', out.evbufferAddBuffer src a = .ok (r, out', src', a') ∧
      out'.Ok ∧ src'.Ok ∧ Owns a' (out'.chains ++ (src'.chains ++ fr)) ∧ Same a a' fr ∧
      (r = true → a'.content out'.chains = a.content out.chains ++ a.content src.chains ∧
        a'.content src'.chains = []) ∧
      (r = false → (a' = a ∧ out' = out ∧ src' = src) ∧ (out.freezeEnd || src.freezeStart) = true) := by
  unfold Evbuffer.evbufferAddBuffer
  have hin : ∀ d ∈ src.chains, d ∈ out.chains ++ (src.chains ++ fr) := by
    intro d hd
    exact List.mem_append_right _ (List.mem_append_left _ hd)
  by_cases hzero : src.totalLen = 0
  · have hempty := ho.content_empty hin (hsrc.total_eq_zero hzero)
    rw [if_pos hzero]
    refine ⟨true, out, src, a, rfl, hout, hsrc, ho, Same.refl a fr, fun _ => ?_, Bool.noConfusion⟩
    rw [hempty, List.append_nil]
    exact ⟨rfl, rfl⟩
  · rw [if_neg hzero]
    by_cases hfreeze : (out.freezeEnd || src.freezeStart) = true
    · rw [if_pos hfreeze]
      exact ⟨false, out, src, a, rfl, hout, hsrc, ho, Same.refl a fr, Bool.noConfusion, fun _ => ⟨⟨rfl, rfl, rfl⟩, hfreeze⟩⟩
    · rw [if_neg hfreeze]
      obtain ⟨front, back, hps⟩ := hsrc
      by_cases hnone : out.totalLen = 0
      · have hempty := ho.content_empty (fun d hd => List.mem_append_left _ hd) (hout.total_eq_zero hnone)
        rw [if_pos hnone]
        obtain ⟨a', hfree, ho', hs⟩ := ho.freeAllChains
        rw [hfree, ok_bind]
        refine ⟨true, _, _, a', rfl,
          ⟨front, back, hps.chains, hps.slot, hps.data, hps.empty, hps.last, hps.total, hps.small⟩,
          Ok.zeroChain src, ?_, hs.subset fun d hd => List.mem_append_right _ hd, fun _ => ⟨?_, rfl⟩, Bool.noConfusion⟩
        · exact ho'
        · rw [hempty, List.nil_append]
          exact (hs.subset fun d hd => List.mem_append_left _ hd).content
      · rw [if_neg hnone]
        obtain ⟨front₁, back₁, hpo⟩ := hout
        obtain ⟨kept, a', hrun, hends, ho', hs, hcont, hsum⟩ := hpo.freeTrailing ho
        rw [hrun, ok_bind]
        have hkept : kept ≠ [] := by
          rintro rfl
          exact hnone hsum.symm
        refine ⟨true, _, _, a', rfl, ?_, Ok.zeroChain src, ?_, ?_, fun _ => ⟨?_, rfl⟩, Bool.noConfusion⟩
        · refine ⟨kept ++ front, back, ?_, ?_, ?_, hps.empty, ?_, ?_, asSize_le _⟩
          · show kept ++ src.chains = _
            rw [hps.chains, List.append_assoc]
          · show (if src.lastWithDatap = .first then Slot.behind kept else src.lastWithDatap) = _
            rw [hps.slot]
            rcases List.eq_nil_or_concat front with rfl | ⟨init, d, rfl⟩
            · simp [Slot.behind]
            · simp [Slot.behind, List.getLast?_append]
          · intro _
            cases hfront : front with
            | cons d front' => exact hps.data (by rw [hfront]; exact List.cons_ne_nil _ _)
            | nil =>
                -- all the data of `src` is in its first chain
                have htotal := hps.total
                rw [hps.chains, hfront] at htotal
                cases back with
                | nil => exact absurd htotal hzero
                | cons d rest =>
                    refine ⟨d, rfl, fun hd => hzero ?_⟩
                    rw [htotal]
                    apply sum_off_eq_zero.mpr
                    intro e he
                    rcases List.mem_cons.mp he with rfl | he
                    · exact hd
                    · exact hps.empty e he
          · show src.last = _
            rw [hps.last]
            show _ = (kept ++ src.chains).getLast?.map Chain.id
            have hne : src.chains ≠ [] := by
              intro hnil
              rw [hps.total, hnil] at hzero
              exact hzero rfl
            rw [List.getLast?_append_of_ne_nil _ hne]
          · show asSize (out.totalLen + src.totalLen) = ((kept ++ src.chains).map Chain.off).sum
            rw [asSize_of_le hfit, List.map_append, List.sum_append, hsum, hps.total]
        · exact ho'.perm (by simp [appendChain, Evbuffer.zeroChain])
        · exact hs.subset fun d hd => List.mem_append_right _ (List.mem_append_right _ hd)
        · show a'.content (kept ++ src.chains) = _
          rw [Arena.content_append, hcont,
            (hs.subset fun d hd => List.mem_append_right _ (List.mem_append_left _ hd)).content]

/-- The loop of `APPEND_CHAIN_MULTICAST` puts the data of the chains `cs` behind that of `out`. -/
theorem Ok.appendMulticast (hout : out.Ok) (ho : Owns a (out.chains ++ (cs ++ fr)))
    (hfit : out.totalLen + (cs.map Chain.off).sum ≤ sizeMax) :
    ∃ seen out' a', out.appendMulticast a cs = .ok (seen, out', a') ∧ out'.Ok ∧
      Owns a' (out'.chains ++ (seen ++ fr)) ∧ Same a a' fr ∧
      a'.content out'.chains = a.content out.chains ++ a.content cs ∧ a'.content seen = a.content cs ∧
      seen.map Chain.id = cs.map Chain.id ∧ seen.map Chain.off = cs.map Chain.off := by
  induction cs generalizing a out fr with
  | nil => exact ⟨[], out, a, rfl, hout, ho, Same.refl a fr, by simp [Arena.content], rfl, rfl, rfl⟩
  | cons c cs ih =>
      have hperm : (out.chains ++ (c :: cs ++ fr)).Perm (c :: (out.chains ++ (cs ++ fr))) := List.perm_middle
      rw [List.map_cons, List.sum_cons] at hfit
      unfold Evbuffer.appendMulticast
      by_cases hoff : c.off = 0
      · rw [if_pos hoff]
        have hnil := (ho.perm hperm).bytes_nil List.mem_cons_self hoff
        have ho : Owns a (out.chains ++ (cs ++ c :: fr)) :=
          ho.perm (List.Perm.append_left _ List.perm_middle.symm)
        obtain ⟨seen, out', a', hrun, hok, ho', hs, hcont, hseen, hids, hoffs⟩ := ih hout ho (by omega)
        rw [hrun, ok_bind]
        have hc := hs c List.mem_cons_self
        refine ⟨c :: seen, out', a', rfl, hok, ?_, hs.subset fun d hd => List.mem_cons_of_mem _ hd, ?_, ?_, ?_, ?_⟩
        · exact ho'.perm (by simpa using List.Perm.append_left _ List.perm_middle)
        · rw [hcont, Arena.content_cons, hnil, List.nil_append]
        · rw [Arena.content_cons, Arena.content_cons, hseen, hc]
        · rw [List.map_cons, List.map_cons, hids]
        · rw [List.map_cons, List.map_cons, hoffs]
      · rw [if_neg hoff]
        obtain ⟨mem, hhold, ho₁, hs₁⟩ := (ho.perm hperm).share hoff
        rw [hhold, ok_bind]
        dsimp only
        have ho₁' : Owns { mem, made := a.made + 1 } ({ c with id := a.made, immutable := true, multicast := true } ::
            (out.chains ++ ({ c with immutable := true } :: (cs ++ fr)))) :=
          ho₁.perm ((List.perm_middle.symm).cons _)
        obtain ⟨out₂, a₂, hins, h₂, -⟩ := hout.chainInsert ho₁' (show out.totalLen + c.off ≤ sizeMax by omega)
        rw [hins, ok_bind]
        dsimp only
        have ho₂ : Owns a₂ (out₂.chains ++ (cs ++ { c with immutable := true } :: fr)) :=
          h₂.owns.perm (List.Perm.append_left _ List.perm_middle.symm)
        have hfit₂ : out₂.totalLen + (cs.map Chain.off).sum ≤ sizeMax := by
          have htmp := ho₁'.length_bytes List.mem_cons_self
          have hout₁ := hout.length_content (ho₁'.perm List.perm_middle.symm)
          rw [← h₂.ok.length_content h₂.owns, h₂.content, List.length_append, hout₁, htmp]
          show out.totalLen + c.off + _ ≤ _
          omega
        obtain ⟨seen, out', a', hrun, hok, ho', hs, hcont, hseen, hids, hoffs⟩ := ih h₂.ok ho₂ hfit₂
        rw [hrun, ok_bind]
        have hc₁ : ({ mem, made := a.made + 1 } : Arena).bytes c = a.bytes c := hs₁ c List.mem_cons_self
        have hrest : ∀ d ∈ out.chains ++ (cs ++ fr), ({ mem, made := a.made + 1 } : Arena).bytes d = a.bytes d :=
          fun d hd => hs₁ d (List.mem_cons_of_mem _ hd)
        have hcs : a₂.content cs = a.content cs := by
          have h₁₂ : Same { mem, made := a.made + 1 } a₂ cs :=
            h₂.same.subset fun d hd => List.mem_cons_of_mem _ (List.mem_append_left _ hd)
          have h₀₁ : Same a { mem, made := a.made + 1 } cs :=
            fun d hd => hrest d (List.mem_append_right _ (List.mem_append_left _ hd))
          exact (h₀₁.trans h₁₂).content
        refine ⟨{ c with immutable := true } :: seen, out', a', rfl, hok, ?_, ?_, ?_, ?_, ?_, ?_⟩
        · exact ho'.perm (List.Perm.append_left _ List.perm_middle)
        · have h₀₁ : Same a { mem, made := a.made + 1 } fr :=
            fun d hd => hrest d (List.mem_append_right _ (List.mem_append_right _ hd))
          have h₁₂ : Same { mem, made := a.made + 1 } a₂ fr :=
            h₂.same.subset fun d hd => List.mem_cons_of_mem _ (List.mem_append_right _ hd)
          exact (h₀₁.trans h₁₂).trans (hs.subset fun d hd => List.mem_cons_of_mem _ hd)
        · have hout₁ : ({ mem, made := a.made + 1 } : Arena).content out.chains = a.content out.chains :=
            Same.content fun d hd => hrest d (List.mem_append_left _ hd)
          have htmp : ({ mem, made := a.made + 1 } : Arena).bytes
              { c with id := a.made, immutable := true, multicast := true } = a.bytes c := hc₁
          rw [hcont, h₂.content, hcs, hout₁, htmp, Arena.content_cons, List.append_assoc]
        · have hflag : a'.bytes { c with immutable := true } = a.bytes c :=
            (hs _ List.mem_cons_self).trans ((h₂.same _ List.mem_cons_self).trans hc₁)
          rw [Arena.content_cons, Arena.content_cons, hseen, hcs, hflag]
        · rw [List.map_cons, List.map_cons, hids]
        · rw [List.map_cons, List.map_cons, hoffs]

/-! ## Chains that are freed twice -/

/-- What is not there is not there after something else was released. -/
theorem release_none {m m' : Mem (Cell UInt8)} {p q : Ptr} (hrun : m.release p = .ok m')
    (hq : m.cells q = none) : m'.cells q = none := by
  obtain ⟨cell, hc, hrun⟩ := bind_eq_ok.mp hrun
  have hc : m.cells p = some cell := by
    unfold Mem.deref at hc
    cases hp : m.cells p with
    | none => simp [hp] at hc
    | some d =>
        simp only [hp] at hc
        rw [Except.ok.inj hc]
  have hne : q ≠ p := by
    rintro rfl
    rw [hq] at hc
    cases hc
  split at hrun
  · rw [Mem.modify_eq hc] at hrun
    rw [← Except.ok.inj hrun, Mem.cells_set_ne _ _ hne, hq]
  · rw [Mem.delete_eq hc] at hrun
    rw [← Except.ok.inj hrun, Mem.cells_set_ne _ _ hne, hq]

theorem chainFree_none {p : Ptr} (hrun : a.chainFree c = .ok a') (hp : a.mem.cells p = none) :
    a'.mem.cells p = none := by
  obtain ⟨mem, hrel, hok⟩ := bind_eq_ok.mp hrun
  obtain rfl := Except.ok.inj hok
  exact release_none hrel hp

theorem freeAllChains_none {p : Ptr} (hrun : a.freeAllChains cs = .ok a') (hp : a.mem.cells p = none) :
    a'.mem.cells p = none := by
  induction cs generalizing a with
  | nil =>
      obtain rfl := Except.ok.inj hrun
      exact hp
  | cons c cs ih =>
      obtain ⟨a₁, hfree, hrun⟩ := bind_eq_ok.mp hrun
      exact ih hrun (chainFree_none hfree hp)

/-- The memory of the first of some empty chains is gone when they are freed. -/
theorem freeAllChains_head (ho : Owns a (c :: cs)) (hoff : c.off = 0)
    (hrun : a.freeAllChains (c :: rest) = .ok a') : a'.mem.cells c.buffer = none := by
  obtain ⟨a₁, hfree, hrun⟩ := bind_eq_ok.mp hrun
  exact freeAllChains_none hrun (ho.chainFree_twice (by simp [Chain.window, hoff]) hfree)

/-- If there is no data all chains are behind `first`. -/
theorem Ok.slot_of_empty (hok : b.Ok) (hzero : b.totalLen = 0) : b.lastWithDatap = .first := by
  have hempty := hok.total_eq_zero hzero
  obtain ⟨front, back, hp⟩ := hok
  cases hf : front with
  | nil => rw [hp.slot, hf]; rfl
  | cons d front' =>
      obtain ⟨c, hc, hoff⟩ := hp.data (by rw [hf]; exact List.cons_ne_nil _ _)
      have hmem : c ∈ b.chains := by
        rw [hp.chains]
        exact List.mem_append_right _ (List.mem_of_mem_head? hc)
      exact absurd (hempty c hmem) hoff

/-- A chain that `out` still has, and whose memory is gone, is freed once more. -/
theorem appendMulticast_dangling (hchains : out.chains = c :: rest) (hslot : out.lastWithDatap = .first)
    (hempty : ∀ d ∈ out.chains, d.off = 0) (hgone : a.mem.cells c.buffer = none) (ho : Owns a (cs ++ fr))
    (hdata : (cs.map Chain.off).sum ≠ 0) : out.appendMulticast a cs = .error .dangling := by
  induction cs generalizing fr with
  | nil => exact absurd rfl hdata
  | cons d cs ih =>
      unfold Evbuffer.appendMulticast
      by_cases hoff : d.off = 0
      · rw [List.map_cons, List.sum_cons, hoff, Nat.zero_add] at hdata
        rw [if_pos hoff, ih (perm_cons ho) hdata, error_bind]
      · have hshare : Owns a (d :: (cs ++ fr)) := ho
        obtain ⟨mem, hhold, -, -⟩ := hshare.share hoff
        obtain ⟨cell, hcell, -⟩ := ho.holds.live _ (List.mem_map_of_mem List.mem_cons_self)
        have hcell : a.mem.cells d.buffer = some cell := hcell
        have hgone' : mem.cells c.buffer = none := by
          have hmod : a.mem.modify (some d.buffer) _ = .ok mem := hhold
          rw [Mem.modify_eq hcell] at hmod
          rw [← Except.ok.inj hmod, Mem.cells_set_ne _ _ (by rintro heq; rw [← heq, hgone] at hcell; cases hcell)]
          exact hgone
        have hsplit : out.lastWithDatap.split out.chains = .ok ([], c :: rest) := by
          rw [hslot, hchains, Slot.split]
        have hdrop : (c :: rest).dropWhile (·.off ≠ 0) = c :: rest := by
          have hc := hempty c (by rw [hchains]; exact List.mem_cons_self)
          simp [hc]
        have hfault : ∀ chain, out.chainInsert { mem, made := a.made + 1 } chain = .error .dangling := by
          intro chain
          rw [Evbuffer.chainInsert, hsplit, ok_bind]
          dsimp only
          rw [freeTrailingEmptyChains, hsplit, ok_bind]
          dsimp only
          rw [hdrop, Arena.freeAllChains, Arena.chainFree, Mem.release, Mem.deref]
          simp only [hgone', error_bind]
        rw [if_neg hoff, hhold, ok_bind]
        dsimp only
        rw [hfault, error_bind]

theorem Slot.behind_eq (cs : List Chain) :
    Slot.behind cs = (cs.map Chain.id).getLast?.elim .first Slot.next := by
  rw [Slot.behind, List.getLast?_map]
  cases cs.getLast? <;> rfl

/-- What is asked of a buffer is about the addresses and the lengths of its chains. -/
theorem Ok.congr (hok : b.Ok) (hids : cs.map Chain.id = b.chains.map Chain.id)
    (hoffs : cs.map Chain.off = b.chains.map Chain.off) : Ok { b with chains := cs } := by
  obtain ⟨front, back, hp⟩ := hok
  have htake : (cs.take front.length).map Chain.id = front.map Chain.id := by
    rw [List.map_take, hids, hp.chains, List.map_append]
    exact List.take_left' (List.length_map _)
  have hdrop : (cs.drop front.length).map Chain.off = back.map Chain.off := by
    rw [List.map_drop, hoffs, hp.chains, List.map_append]
    exact List.drop_left' (List.length_map _)
  refine ⟨cs.take front.length, cs.drop front.length, (List.take_append_drop ..).symm, ?_, ?_, ?_, ?_, ?_, hp.small⟩
  · show b.lastWithDatap = _
    rw [hp.slot, Slot.behind_eq, Slot.behind_eq, htake]
  · intro hne
    have hfront : front ≠ [] := by
      rintro rfl
      exact hne rfl
    obtain ⟨c, hc, hoff⟩ := hp.data hfront
    obtain ⟨tail, rfl⟩ := List.head?_eq_some_iff.mp hc
    rw [List.map_cons] at hdrop
    obtain ⟨d, tail', heq, hd, -⟩ := List.map_eq_cons_iff.mp hdrop
    exact ⟨d, by rw [heq]; rfl, by rw [hd]; exact hoff⟩
  · intro d hd
    have hmem : d.off ∈ ((cs.drop front.length).map Chain.off).tail := by
      rw [← List.map_tail]
      exact List.mem_map_of_mem hd
    rw [hdrop, ← List.map_tail] at hmem
    obtain ⟨e, he, heq⟩ := List.mem_map.mp hmem
    rw [← heq]
    exact hp.empty e he
  · show b.last = _
    rw [hp.last, ← List.getLast?_map, ← List.getLast?_map]
    exact congrArg List.getLast? hids.symm
  · show b.totalLen = _
    rw [hp.total]
    exact congrArg List.sum hoffs.symm

/-- When `evbuffer_add_buffer_reference` frees the chains of `out` twice. -/
def DoubleFrees (out src : Evbuffer) : Prop :=
  src.totalLen ≠ 0 ∧ out.freezeEnd = false ∧ (src.chains.any (·.multicast)) = false ∧
    out.totalLen = 0 ∧ out.chains ≠ []

instance (out src : Evbuffer) : Decidable (out.DoubleFrees src) := inferInstanceAs (Decidable (_ ∧ _))

/-- `evbuffer_add_buffer_reference`, unless it frees chains twice. -/
theorem Ok.addBufferReference (hout : out.Ok) (hsrc : src.Ok)
    (ho : Owns a (out.chains ++ (src.chains ++ fr))) (hfit : out.totalLen + src.totalLen ≤ sizeMax) :
    (out.DoubleFrees src → out.evbufferAddBufferReference src a = .error .dangling) ∧
    (¬ out.DoubleFrees src → ∃ r out' src' a', out.evbufferAddBufferReference src a = .ok (r, out', src', a') ∧
      out'.Ok ∧ src'.Ok ∧ Owns a' (out'.chains ++ (src'.chains ++ fr)) ∧ Same a a' fr ∧
      (r = true → a'.content out'.chains = a.content out.chains ++ a.content src.chains ∧
        a'.content src'.chains = a.content src.chains) ∧
      (r = false → (a' = a ∧ out' = out ∧ src' = src) ∧
        (out.freezeEnd = true ∨ src.chains.any (·.multicast) = true))) := by
  have hin : ∀ d ∈ src.chains, d ∈ out.chains ++ (src.chains ++ fr) := by
    intro d hd
    exact List.mem_append_right _ (List.mem_append_left _ hd)
  constructor
  · rintro ⟨hdata, hfreeze, hmulti, hzero, hne⟩
    have hempty := hout.total_eq_zero hzero
    obtain ⟨c, rest, hchains⟩ := List.exists_cons_of_ne_nil hne
    obtain ⟨a₁, hfree, ho₁, -⟩ := ho.freeAllChains
    have hgone : a₁.mem.cells c.buffer = none := by
      rw [hchains] at ho hfree hempty
      exact freeAllChains_head ho (hempty c List.mem_cons_self) hfree
    obtain ⟨front, back, hps⟩ := hsrc
    rw [Evbuffer.evbufferAddBufferReference, if_neg hdata, hfreeze, hmulti, freeEmpty, if_pos hzero, hfree]
    simp only [Bool.false_eq_true, if_false, ok_bind]
    rw [appendMulticast_dangling hchains (hout.slot_of_empty hzero) hempty hgone ho₁ (hps.total ▸ hdata),
      error_bind]
  · intro hnot
    unfold Evbuffer.evbufferAddBufferReference
    by_cases hzero : src.totalLen = 0
    · have hempty := ho.content_empty hin (hsrc.total_eq_zero hzero)
      rw [if_pos hzero]
      refine ⟨true, out, src, a, rfl, hout, hsrc, ho, Same.refl a fr, fun _ => ⟨?_, rfl⟩, Bool.noConfusion⟩
      rw [hempty, List.append_nil]
    · rw [if_neg hzero]
      by_cases hfreeze : out.freezeEnd = true
      · rw [if_pos hfreeze]
        exact ⟨false, out, src, a, rfl, hout, hsrc, ho, Same.refl a fr, Bool.noConfusion,
          fun _ => ⟨⟨rfl, rfl, rfl⟩, .inl hfreeze⟩⟩
      · rw [if_neg hfreeze]
        by_cases hmulti : src.chains.any (·.multicast) = true
        · rw [if_pos hmulti]
          exact ⟨false, out, src, a, rfl, hout, hsrc, ho, Same.refl a fr, Bool.noConfusion,
            fun _ => ⟨⟨rfl, rfl, rfl⟩, .inr hmulti⟩⟩
        · rw [if_neg hmulti]
          have hfree : out.freeEmpty a = .ok a := by
            unfold freeEmpty
            split
            · rename_i hnone
              have hnil : out.chains = [] := by
                by_contra hne
                exact hnot ⟨hzero, by simpa using hfreeze, by simpa using hmulti, hnone, hne⟩
              rw [hnil]
              rfl
            · rfl
          rw [hfree, ok_bind]
          have hsum : out.totalLen + (src.chains.map Chain.off).sum ≤ sizeMax := by
            obtain ⟨front, back, hps⟩ := hsrc
            rw [← hps.total]
            exact hfit
          obtain ⟨seen, out', a', hrun, hok, ho', hs, hcont, hseen, hids, hoffs⟩ := hout.appendMulticast ho hsum
          rw [hrun, ok_bind]
          exact ⟨true, out', { src with chains := seen }, a', rfl, hok, hsrc.congr hids hoffs, ho', hs,
            fun _ => ⟨hcont, hseen⟩, Bool.noConfusion⟩

end Evbuffer
end


/-! ## Taking away -/

section
variable {a a' : Arena} {b b' : Evbuffer} {c : Chain} {front back rest gone fr : List Chain} {len : Nat}

namespace Evbuffer

/-- `last_with_datap` when the chains `gone` are freed: it is reset as soon as the chain it is in is freed. -/
def drainSlot (gone front : List Chain) : Slot :=
  if gone.length < front.length then Slot.behind front else .first

/-- One turn of the loop keeps `last_with_datap` where it is safe. -/
theorem Parts.drainSlot_next (hp : b.Parts front back) (hnd : ((front ++ back).map Chain.id).Nodup)
    (hcat : b.chains = gone ++ c :: rest) :
    ∃ d, target b.chains (drainSlot gone front) = .ok d ∧
      (if (if d = some c.id then Slot.first else drainSlot gone front) = .next c.id then Slot.first
        else if d = some c.id then Slot.first else drainSlot gone front) = drainSlot (gone ++ [c]) front := by
  by_cases hlt : gone.length < front.length
  · -- the chain is one of `front`
    obtain ⟨l, hfront⟩ : ∃ l, front = gone ++ c :: l := by
      have heq : front ++ back = gone ++ c :: rest := hp.chains.symm.trans hcat
      rcases List.append_eq_append_iff.mp heq with ⟨l, hl, -⟩ | ⟨l, hl, hrest⟩
      · rw [hl, List.length_append] at hlt
        omega
      · cases l with
        | nil => rw [hl, List.append_nil] at hlt; exact absurd hlt (Nat.lt_irrefl _)
        | cons d l => exact ⟨l, by rw [hl, (List.cons.inj hrest).1]⟩
    obtain ⟨e, he, -⟩ := hp.data (by rw [hfront]; simp)
    obtain ⟨tail, rfl⟩ := List.head?_eq_some_iff.mp he
    have hne : e.id ≠ c.id := by
      rw [List.map_append] at hnd
      intro heq
      refine (List.nodup_append.mp hnd).2.2 c.id ?_ e.id List.mem_cons_self heq.symm
      rw [hfront]
      simp
    refine ⟨some e.id, ?_, ?_⟩
    · rw [target, drainSlot, if_pos hlt, hp.chains, Slot.split_behind hnd, ok_bind]
      rfl
    · rw [if_neg (show ¬ some e.id = some c.id from fun h => hne (Option.some.inj h)), drainSlot, if_pos hlt,
        drainSlot, List.length_append, List.length_singleton]
      rcases List.eq_nil_or_concat l with rfl | ⟨init, f, rfl⟩
      · have hbehind : Slot.behind front = .next c.id := by simp [hfront, Slot.behind]
        rw [if_pos hbehind, if_neg (by rw [hfront]; simp)]
      · have hbehind : Slot.behind front = .next f.id := by
          simp [hfront, Slot.behind, List.getLast?_append, List.getLast?_cons]
        have hfc : f.id ≠ c.id := by
          rw [List.map_append] at hnd
          have hndf := (List.nodup_append.mp hnd).1
          rw [hfront, List.map_append, List.map_cons] at hndf
          intro heq
          apply (List.nodup_cons.mp (List.nodup_append.mp hndf).2.1).1
          rw [← heq]
          simp
        rw [hbehind, if_neg (fun h => hfc (Slot.next.inj h)), if_pos]
        rw [hfront]
        simp
  · have hfirst : drainSlot gone front = .first := if_neg hlt
    have hfirst' : drainSlot (gone ++ [c]) front = .first := by
      apply if_neg
      rw [List.length_append]
      omega
    refine ⟨b.chains.head?.map Chain.id, ?_, ?_⟩
    · rw [target, hfirst]
      simp [Slot.split]
    · rw [hfirst, hfirst']
      simp

/-- The loop of `evbuffer_drain`: it stops at the chain `e`, of which `k` bytes go. -/
theorem Parts.drainLoop (hp : b.Parts front back) (hnd : ((front ++ back).map Chain.id).Nodup)
    (hcat : b.chains = gone ++ rest) (ho : Owns a (rest ++ fr)) (hlen : len < (rest.map Chain.off).sum) :
    ∃ gone' e tail k a', k < e.off ∧ b.chains = gone' ++ e :: tail ∧
      b.drainLoop a (drainSlot gone front) len rest =
        .ok (e.slide (e.misalign + k) (e.off - k) :: tail, drainSlot gone' front, a') ∧
      Owns a' (e.slide (e.misalign + k) (e.off - k) :: (tail ++ fr)) ∧ Same a a' fr ∧
      a'.content (e.slide (e.misalign + k) (e.off - k) :: tail) = (a.content rest).drop len ∧
      ((e.slide (e.misalign + k) (e.off - k) :: tail).map Chain.off).sum =
        (rest.map Chain.off).sum - len := by
  induction rest generalizing a gone len with
  | nil => exact absurd hlen (Nat.not_lt_zero _)
  | cons c rest ih =>
      have hcin : c ∈ c :: (rest ++ fr) := List.mem_cons_self
      have ho : Owns a (c :: (rest ++ fr)) := ho
      have hbytes := ho.length_bytes hcin
      rw [List.map_cons, List.sum_cons] at hlen
      unfold Evbuffer.drainLoop
      by_cases hle : c.off ≤ len
      · rw [if_pos hle]
        obtain ⟨d, htarget, hreset⟩ := hp.drainSlot_next hnd hcat
        obtain ⟨a₁, hfree, ho₁, hs₁⟩ := ho.chainFree
        rw [htarget, ok_bind]
        dsimp only
        rw [hreset, hfree, ok_bind]
        have hcat₁ : b.chains = (gone ++ [c]) ++ rest := by rw [hcat, List.append_assoc, List.singleton_append]
        obtain ⟨gone', e, tail, k, a₂, hk, hcat', hrun, ho₂, hs₂, hcont, hsum⟩ :=
          ih hcat₁ ho₁ (show len - c.off < _ by omega)
        refine ⟨gone', e, tail, k, a₂, hk, hcat', hrun, ho₂, ?_, ?_, ?_⟩
        · exact (hs₁.subset fun d hd => List.mem_append_right _ hd).trans hs₂
        · have hnone : (a.bytes c).drop len = [] := List.drop_eq_nil_of_le (by omega)
          rw [hcont, (hs₁.subset fun d hd => List.mem_append_left _ hd).content, Arena.content_cons,
            List.drop_append, hbytes, hnone, List.nil_append]
        · rw [hsum, List.map_cons, List.sum_cons]
          omega
      · rw [if_neg hle]
        have hfits := ho.fits hcin
        refine ⟨gone, c, rest, len, a, by omega, hcat, rfl, ho.slide (by omega) (fun _ => by omega),
          Same.refl a fr, ?_, ?_⟩
        · rw [Arena.content_cons, Arena.content_cons, ho.bytes_slide hcin (by omega), List.drop_append,
            hbytes, show len - c.off = 0 by omega, List.drop_zero]
        · simp only [List.map_cons, List.sum_cons, Chain.slide]
          omega

/-- `evbuffer_drain`: so much data is gone, or all of it. -/
theorem Ok.drain (hok : b.Ok) (ho : Owns a (b.chains ++ fr)) (len : Nat) :
    ∃ r b' a', b.evbufferDrain a len = .ok (r, b', a') ∧
      Becomes a a' b b' fr (if r then (a.content b.chains).drop len else a.content b.chains) ∧
      (r = false → b.freezeStart = true) := by
  have hin : ∀ d ∈ b.chains, d ∈ b.chains ++ fr := fun d hd => List.mem_append_left _ hd
  have htext := ho.length_content hin
  have hsame := Becomes.refl hok ho
  unfold Evbuffer.evbufferDrain
  by_cases hzero : b.totalLen = 0
  · have hempty := ho.content_empty hin (hok.total_eq_zero hzero)
    rw [if_pos hzero]
    refine ⟨true, b, a, rfl, ?_, Bool.noConfusion⟩
    rw [if_pos rfl, hempty, List.drop_nil, ← hempty]
    exact hsame
  · rw [if_neg hzero]
    by_cases hfreeze : b.freezeStart = true
    · rw [if_pos hfreeze]
      exact ⟨false, b, a, rfl, hsame, fun _ => hfreeze⟩
    · obtain ⟨front, back, hp⟩ := hok
      rw [if_neg hfreeze]
      rw [← hp.total] at htext
      by_cases hall : b.totalLen ≤ len
      · rw [if_pos hall]
        obtain ⟨a', hfree, ho', hs⟩ := ho.freeAllChains
        rw [hfree, ok_bind]
        refine ⟨true, _, a', rfl, ⟨Ok.zeroChain b, ho', hs, ?_, rfl, rfl⟩, Bool.noConfusion⟩
        rw [if_pos rfl, List.drop_eq_nil_of_le (by omega)]
        rfl
      · rw [if_neg hall]
        have hstart : b.lastWithDatap = drainSlot [] front := by
          rw [hp.slot, drainSlot]
          cases front with
          | nil => rfl
          | cons d front => rfl
        have hcat₀ : b.chains = [] ++ b.chains := rfl
        obtain ⟨gone, e, tail, k, a', hk, hcat, hrun, ho', hs, hcont, hsum⟩ :=
          hp.drainLoop (hp.nodup ho) hcat₀ ho (show len < _ by rw [← hp.total]; omega)
        rw [hstart, hrun, ok_bind]
        refine ⟨true, _, a', rfl, ⟨?_, ho', hs, hcont, rfl, rfl⟩, Bool.noConfusion⟩
        have hlast : b.last = (e.slide (e.misalign + k) (e.off - k) :: tail).getLast?.map Chain.id := by
          rw [hp.last, hcat, List.getLast?_append_of_ne_nil _ (List.cons_ne_nil _ _), ← List.getLast?_map,
            ← List.getLast?_map]
          rfl
        have htotal : b.totalLen - len = ((e.slide (e.misalign + k) (e.off - k) :: tail).map Chain.off).sum := by
          rw [hsum, hp.total]
        have hoff : (e.slide (e.misalign + k) (e.off - k)).off ≠ 0 := by
          simp only [Chain.slide]
          omega
        have heq : front ++ back = gone ++ e :: tail := hp.chains.symm.trans hcat
        have hsmall : b.totalLen - len ≤ sizeMax := (Nat.sub_le ..).trans hp.small
        have hdone : ∀ l, front = gone ++ l → e :: tail = l ++ back → Ok
            { b with chains := e.slide (e.misalign + k) (e.off - k) :: tail,
                     lastWithDatap := drainSlot gone front, totalLen := b.totalLen - len } := by
          intro l hfront htail
          cases l with
          | nil =>
              -- the last chain with data is the first one now
              rw [List.append_nil] at hfront
              refine ⟨[], _, rfl, ?_, fun h => absurd rfl h, ?_, hlast, htotal, hsmall⟩
              · simp [drainSlot, hfront, Slot.behind]
              · intro d hd
                refine hp.empty d ?_
                rw [List.nil_append] at htail
                rw [← htail]
                exact hd
          | cons f l =>
              obtain ⟨rfl, rfl⟩ := List.cons.inj htail
              refine ⟨e.slide (e.misalign + k) (e.off - k) :: l, back, rfl, ?_, ?_, hp.empty, hlast, htotal,
                hsmall⟩
              · show drainSlot gone front = _
                rw [drainSlot, if_pos (by rw [hfront]; simp), Slot.behind_eq, Slot.behind_eq, hfront,
                  List.map_append, List.getLast?_append_of_ne_nil _ (by simp)]
                rfl
              · intro _
                exact hp.data (by rw [hfront]; simp)
        rcases List.append_eq_append_iff.mp heq with ⟨l, hgone, hback⟩ | ⟨l, hfront, htail⟩
        · cases l with
          | nil =>
              rw [List.append_nil] at hgone
              exact hdone [] (by rw [hgone, List.append_nil]) hback.symm
          | cons f l =>
              have hzero := hp.empty e (by rw [hback]; simp)
              omega
        · exact hdone l hfront htail

/-- `evbuffer_add_reference`. -/
theorem Ok.addReference (hok : b.Ok) (ho : Owns a (b.chains ++ fr)) {data : List UInt8}
    (hfit : b.totalLen + data.length ≤ sizeMax) :
    ∃ r b' a', b.evbufferAddReference a data = .ok (r, b', a') ∧
      Becomes a a' b b' fr (if r then a.content b.chains ++ data else a.content b.chains) ∧
      (r = false → b.freezeEnd = true) := by
  unfold Evbuffer.evbufferAddReference
  by_cases hfreeze : b.freezeEnd = true
  · rw [if_pos hfreeze]
    exact ⟨false, b, a, rfl, Becomes.refl hok ho, fun _ => hfreeze⟩
  · rw [if_neg hfreeze]
    have hdata : (Block.mk data.length fun i => data.getD i 0).slice 0 data.length = data := by
      apply List.ext_getElem
      · exact Block.length_slice
      · intro i hi₁ hi₂
        simp [Block.slice, List.getD_eq_getElem?_getD, List.getElem?_eq_getElem hi₂]
    obtain ⟨ho₁, hs₁, hbytes⟩ := ho.chainWith (Block.mk data.length fun i => data.getD i 0) le_rfl true
    rw [hdata] at hbytes
    obtain ⟨b', a', hins, hb, -⟩ := hok.chainInsert ho₁ hfit
    dsimp only
    rw [hins, ok_bind]
    refine ⟨true, b', a', rfl, ⟨hb.ok, hb.owns, ?_, ?_, hb.flags⟩, Bool.noConfusion⟩
    · exact (hs₁.subset fun d hd => List.mem_append_right _ hd).trans hb.same
    · rw [hb.content, hbytes, (hs₁.subset fun d hd => List.mem_append_left _ hd).content]
      rfl

/-- `evbuffer_remove` gives the beginning of the data and takes it away. If that is more than `ev_ssize_t` can
say it stays there. What is returned is the number of bytes as an `int`. -/
theorem Ok.remove (hok : b.Ok) (ho : Owns a (b.chains ++ fr)) (len : Nat) :
    ∃ n data b' a', b.evbufferRemove a len = .ok (n, data, b', a') ∧
      (b.freezeStart = true ∧ min len b.totalLen ≠ 0 → n = -1 ∧ data = [] ∧
        Becomes a a' b b' fr (a.content b.chains)) ∧
      (¬ (b.freezeStart = true ∧ min len b.totalLen ≠ 0) →
        n = asInt data.length ∧ data = (a.content b.chains).take len ∧
        Becomes a a' b b' fr
          (if data.length ≤ ssizeMax then (a.content b.chains).drop len else a.content b.chains)) := by
  have htext := hok.length_content ho
  have htake : (a.content b.chains).take (min len b.totalLen) = (a.content b.chains).take len := by
    rw [← htext, List.take_eq_take_iff]
    omega
  have hdrop : (a.content b.chains).drop (min len b.totalLen) = (a.content b.chains).drop len := by
    rcases Nat.le_total len b.totalLen with hle | hle
    · rw [Nat.min_eq_left hle]
    · rw [Nat.min_eq_right hle, List.drop_eq_nil_of_le (by omega), List.drop_eq_nil_of_le (by omega)]
  have hsame := Becomes.refl hok ho
  unfold Evbuffer.evbufferRemove Evbuffer.evbufferCopyout
  dsimp only
  by_cases hzero : min len b.totalLen = 0
  · rw [if_pos hzero, ok_bind]
    rw [hzero, List.take_zero] at htake
    rw [hzero, List.drop_zero] at hdrop
    refine ⟨0, [], b, a, rfl, fun hbad => absurd hzero hbad.2, fun _ => ⟨rfl, htake, ?_⟩⟩
    rw [List.length_nil, if_pos (Nat.zero_le _), ← hdrop]
    exact hsame
  · rw [if_neg hzero]
    by_cases hfreeze : b.freezeStart = true
    · rw [if_pos hfreeze, ok_bind]
      exact ⟨-1, [], b, a, rfl, fun _ => ⟨rfl, rfl, hsame⟩, fun hgood => absurd ⟨hfreeze, hzero⟩ hgood⟩
    · have hsum : min len b.totalLen ≤ (b.chains.map Chain.off).sum := by
        obtain ⟨front, back, hp⟩ := hok
        rw [← hp.total]
        exact Nat.min_le_right ..
      have hlen : ((a.content b.chains).take (min len b.totalLen)).length = min len b.totalLen := by
        rw [List.length_take]
        omega
      have hsmall := hok.small
      rw [if_neg hfreeze, copyLoop_eq ho hsum, ok_bind, ok_bind]
      dsimp only
      rw [hlen]
      by_cases hbig : min len b.totalLen ≤ ssizeMax
      · obtain ⟨r, b', a', hrun, hb, hfail⟩ := hok.drain ho (min len b.totalLen)
        rw [asSsize_eq (by omega), if_pos hbig, if_pos (by omega), Int.toNat_natCast, hrun, ok_bind]
        cases r with
        | false => exact absurd (hfail rfl) hfreeze
        | true =>
            rw [if_pos rfl, hdrop] at hb
            refine ⟨_, _, b', a', rfl, fun hbad => absurd hbad.1 hfreeze, fun _ => ⟨?_, htake, ?_⟩⟩
            · rw [hlen]
              rfl
            · rw [hlen, if_pos hbig]
              exact hb
      · -- the number of bytes is negative, and `evbuffer_drain` is not called
        have hneg : ¬ 0 < asSsize (min len b.totalLen) := by
          unfold sizeMax at hsmall
          rw [asSsize_eq (by unfold sizeMax; omega), if_neg hbig]
          omega
        rw [if_neg hneg, asInt_asSsize]
        refine ⟨_, _, b, a, rfl, fun hbad => absurd hbad.1 hfreeze, fun _ => ⟨?_, htake, ?_⟩⟩
        · rw [hlen]
        · rw [hlen, if_neg hbig]
          exact hsame

end Evbuffer
end


end LinuxServer.Libevent
