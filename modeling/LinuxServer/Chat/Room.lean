import LinuxServer.Chat.Basic

/-!
# A chat room with one place per member

What matters about the server, without its tables: who is in the room, whose buffer each member has been
promised, and what the buffers say. A message lives in the buffer of its sender (`text`), and a member
that is still to be sent something points there (`slot`).

Two things are asked of a room. It is `Complete` if every member has been sent, one by one, what the
others said since it joined, except for the last message if the member's place is taken, and then it is
that message. It is `Sound` if what a member has been sent, or would be sent now, is the last thing another
member had said.

Each move keeps these exactly under a condition on the room before it (`complete_step`, `sound_step`):
nothing may be said while another member's place is taken, and a buffer that a member points to must not
change.
-/

namespace LinuxServer.Chat

open Library

@[ext]
structure Room where
  members : List Nat
  slot : Nat → Option Nat
  text : Nat → List UInt8
  log : List Event

/-- `wipe` and `leave` say which buffer changes, and `leave` what it says afterwards. -/
inductive Room.Move where
  | skip
  | join (c : Nat)
  | leave (x : Nat) (after : List UInt8)
  | wipe (x : Nat)
  | say (x : Nat) (m : List UInt8)
  | serve (c : Nat)
  deriving Repr, DecidableEq

/-! ## What a member is owed -/

/-- The messages of others since `c` last joined, oldest first. -/
def owed (c : Nat) : List Event → List (List UInt8)
  | [] => []
  | .joined x :: log => if x = c then [] else owed c log
  | .received x m :: log => if x = c then owed c log else owed c log ++ [m]
  | .sent _ _ :: log | .left _ :: log => owed c log

/-- The strings that `c` was sent since it last joined, oldest first. -/
def sentTo (c : Nat) : List Event → List (List UInt8)
  | [] => []
  | .joined x :: log => if x = c then [] else sentTo c log
  | .sent x t :: log => if x = c then sentTo c log ++ [t] else sentTo c log
  | .received _ _ :: log | .left _ :: log => sentTo c log

/-- Whatever a client was sent was what another client had said last, since it had joined. -/
def Genuine : List Event → Prop
  | [] => True
  | .sent c t :: log => (∃ m, (owed c log).getLast? = some m ∧ t = cstr m) ∧ Genuine log
  | .joined _ :: log | .received _ _ :: log | .left _ :: log => Genuine log

namespace Room

def step (r : Room) : Move → Room
  | .skip => r
  | .join c => { r with
      members := c :: r.members
      slot := Function.update r.slot c none
      log := .joined c :: r.log }
  | .leave x after => { r with
      members := r.members.filter (· ≠ x)
      text := Function.update r.text x after
      log := .left x :: r.log }
  | .wipe x => { r with text := Function.update r.text x [] }
  | .say x m => { r with
      slot := fun c => if c = x then r.slot c else some x
      text := Function.update r.text x (cstr m)
      log := .received x m :: r.log }
  | .serve c =>
      match r.slot c with
      | none => r
      | some f => { r with
          slot := Function.update r.slot c none
          log := .sent c (r.text f) :: r.log }

/-- Only members leave, speak or are served. -/
def enabled (r : Room) : Move → Prop
  | .skip => True
  | .join c => c ∉ r.members
  | .leave x _ | .wipe x | .say x _ | .serve x => x ∈ r.members

/-- Two rooms with the same members, up to their order. -/
structure Same (r r' : Room) : Prop where
  members : ∀ c, c ∈ r.members ↔ c ∈ r'.members
  slot : ∀ c ∈ r.members, r.slot c = r'.slot c
  text : r.text = r'.text
  log : r.log = r'.log

/-- No member is promised its own buffer. -/
def Apart (r : Room) : Prop := ∀ c ∈ r.members, r.slot c ≠ some c

def Complete (r : Room) : Prop :=
  ∀ c ∈ r.members, (owed c r.log).map cstr = sentTo c r.log ++ (r.slot c).toList.map r.text

def Sound (r : Room) : Prop :=
  Genuine r.log ∧ ∀ c ∈ r.members, ∀ f, r.slot c = some f →
    ∃ m, (owed c r.log).getLast? = some m ∧ r.text f = cstr m

/-- Another member that has been promised the buffer of `x` would not notice if it said `after`. -/
def Spares (r : Room) (x : Nat) (after : List UInt8) : Prop :=
  ∀ c ∈ r.members, c ≠ x → r.slot c = some x → r.text x = after

/-- No buffer changes that a member has been promised. -/
def Careful (r : Room) : Move → Prop
  | .leave x after => r.Spares x after
  | .wipe x => r.Spares x []
  | _ => True

/-- Also, no one speaks while another member's place is taken. -/
def Patient (r : Room) : Move → Prop
  | .say x _ => ∀ c ∈ r.members, c ≠ x → r.slot c = none
  | mv => r.Careful mv

variable {r r' : Room} {x c f : Nat} {after m : List UInt8}

/-- A member that has been promised nothing is left alone. -/
theorem step_serve_none (h : r.slot c = none) : r.step (.serve c) = r := by
  simp only [step, h]

/-- A member is sent the buffer that it has been promised. -/
theorem step_serve (h : r.slot c = some f) : r.step (.serve c) =
    { r with slot := Function.update r.slot c none, log := .sent c (r.text f) :: r.log } := by
  simp only [step, h]

/-! ## Moves and the two properties -/

/-- Rooms that are the same are both complete or neither. -/
theorem Same.complete (h : r.Same r') : r.Complete ↔ r'.Complete := by
  have key : ∀ c ∈ r.members,
      ((owed c r.log).map cstr = sentTo c r.log ++ (r.slot c).toList.map r.text ↔
        (owed c r'.log).map cstr = sentTo c r'.log ++ (r'.slot c).toList.map r'.text) := by
    intro c hc
    rw [h.slot c hc, h.text, h.log]
  constructor
  · intro hr c hc
    have hc := (h.members c).mpr hc
    exact (key c hc).mp (hr c hc)
  · intro hr c hc
    exact (key c hc).mpr (hr c ((h.members c).mp hc))

/-- Rooms that are the same are both sound or neither. -/
theorem Same.sound (h : r.Same r') : r.Sound ↔ r'.Sound := by
  unfold Sound
  rw [h.log, h.text]
  refine and_congr_right fun _ => ⟨?_, ?_⟩
  · intro hr c hc
    have hc := (h.members c).mpr hc
    rw [← h.slot c hc]
    exact hr c hc
  · intro hr c hc
    rw [h.slot c hc]
    exact hr c ((h.members c).mp hc)

/-- If one of two rooms that are the same is apart, so is the other. -/
theorem Same.apart (h : r.Same r') (ha : r'.Apart) : r.Apart := by
  intro c hc
  rw [h.slot c hc]
  exact ha c ((h.members c).mp hc)

/-- A buffer that a member points to may only change if it still says the same. -/
theorem map_text_update {slot : Option Nat} (t : Nat → List UInt8) :
    slot.toList.map (Function.update t x after) = slot.toList.map t ↔
      (slot = some x → t x = after) := by
  cases slot with
  | none => simp
  | some f =>
      by_cases hf : f = x
      · subst hf
        simp [eq_comm]
      · simp [hf]

/-- Overwriting a buffer, as seen by one member. -/
theorem Complete.overwrite (hr : r.Complete) (hc : c ∈ r.members) :
    (owed c r.log).map cstr =
        sentTo c r.log ++ (r.slot c).toList.map (Function.update r.text x after) ↔
      (r.slot c = some x → r.text x = after) := by
  rw [hr c hc, List.append_cancel_left_eq, eq_comm]
  exact map_text_update r.text

/-- Speaking, as seen by another member. -/
theorem Complete.say (hr : r.Complete) (hc : c ∈ r.members) :
    (owed c r.log ++ [m]).map cstr = sentTo c r.log ++ [cstr m] ↔ r.slot c = none := by
  rw [List.map_append, hr c hc]
  cases r.slot c with
  | none => simp
  | some f => simp

/-- A step loses no message exactly if it is patient. -/
theorem complete_step (ha : r.Apart) (hr : r.Complete) (mv : Move) :
    (r.step mv).Complete ↔ r.Patient mv := by
  cases mv with
  | skip => exact iff_of_true hr trivial
  | join c =>
      refine iff_of_true ?_ trivial
      intro d hd
      by_cases hdc : c = d
      · subst hdc
        simp [step, owed, sentTo]
      · have hd : d ∈ r.members := (List.mem_cons.mp hd).resolve_left fun h => hdc h.symm
        simp [step, owed, sentTo, hdc, Function.update_of_ne (Ne.symm hdc), hr d hd]
  | leave x after =>
      constructor
      · intro h c hc hcx
        exact (hr.overwrite hc).mp (h c (List.mem_filter.mpr ⟨hc, by simpa using hcx⟩))
      · intro h c hc
        obtain ⟨hc, hcx⟩ := List.mem_filter.mp hc
        exact (hr.overwrite hc).mpr (h c hc (by simpa using hcx))
  | wipe x =>
      constructor
      · intro h c hc _
        exact (hr.overwrite hc).mp (h c hc)
      · intro h c hc
        refine (hr.overwrite hc).mpr fun hs => ?_
        -- the buffer of `x` is not promised to `x`
        have hcx : c ≠ x := fun hcx => ha c hc (hcx ▸ hs)
        exact h c hc hcx hs
  | say x m =>
      constructor
      · intro h c hc hcx
        have := h c hc
        simp only [step, owed, sentTo, if_neg hcx, if_neg (Ne.symm hcx), Option.toList_some,
          List.map_singleton, Function.update_self] at this
        exact (hr.say hc).mp this
      · intro h c hc
        by_cases hcx : c = x
        · subst hcx
          simp only [step, owed, sentTo, if_true]
          exact (hr.overwrite hc).mpr fun hs => absurd hs (ha c hc)
        · simp only [step, owed, sentTo, if_neg hcx, if_neg (Ne.symm hcx), Option.toList_some,
            List.map_singleton, Function.update_self]
          exact (hr.say hc).mpr (h c hc hcx)
  | serve c =>
      refine iff_of_true ?_ trivial
      cases hs : r.slot c with
      | none => rwa [step_serve_none hs]
      | some f =>
          rw [step_serve hs]
          intro d hd
          by_cases hdc : c = d
          · subst hdc
            simpa [owed, sentTo, hs] using hr c hd
          · simpa [owed, sentTo, hdc, Function.update_of_ne (Ne.symm hdc)] using hr d hd

/-- Overwriting a buffer, as seen by one member. -/
theorem Sound.overwrite (hr : r.Sound) (hc : c ∈ r.members) :
    (∀ f, r.slot c = some f →
        ∃ m, (owed c r.log).getLast? = some m ∧ Function.update r.text x after f = cstr m) ↔
      (r.slot c = some x → r.text x = after) := by
  constructor
  · intro h hs
    obtain ⟨m, hm, ht⟩ := hr.2 c hc x hs
    obtain ⟨m', hm', ht'⟩ := h x hs
    rw [Function.update_self] at ht'
    rw [ht, ht', Option.some.inj (hm.symm.trans hm')]
  · intro h f hs
    by_cases hf : f = x
    · subst hf
      rw [Function.update_self, ← h hs]
      exact hr.2 c hc f hs
    · rw [Function.update_of_ne hf]
      exact hr.2 c hc f hs

/-- After a step what is sent is still genuine exactly if the step is careful. -/
theorem sound_step {mv : Move} (he : r.enabled mv) (ha : r.Apart) (hr : r.Sound) :
    (r.step mv).Sound ↔ r.Careful mv := by
  cases mv with
  | skip => exact iff_of_true hr trivial
  | join c =>
      refine iff_of_true ⟨hr.1, ?_⟩ trivial
      intro d hd f hs
      by_cases hdc : c = d
      · subst hdc
        simp [step] at hs
      · have hd : d ∈ r.members := (List.mem_cons.mp hd).resolve_left fun h => hdc h.symm
        simp only [step, Function.update_of_ne (Ne.symm hdc)] at hs
        simpa [step, owed, hdc] using hr.2 d hd f hs
  | leave x after =>
      constructor
      · intro h c hc hcx
        exact (hr.overwrite hc).mp (h.2 c (List.mem_filter.mpr ⟨hc, by simpa using hcx⟩))
      · intro h
        refine ⟨hr.1, fun c hc => ?_⟩
        obtain ⟨hc, hcx⟩ := List.mem_filter.mp hc
        exact (hr.overwrite hc).mpr (h c hc (by simpa using hcx))
  | wipe x =>
      constructor
      · intro h c hc _
        exact (hr.overwrite hc).mp (h.2 c hc)
      · intro h
        refine ⟨hr.1, fun c hc => (hr.overwrite hc).mpr fun hs => ?_⟩
        have hcx : c ≠ x := fun hcx => ha c hc (hcx ▸ hs)
        exact h c hc hcx hs
  | say x m =>
      refine iff_of_true ⟨hr.1, ?_⟩ trivial
      intro c hc f hs
      by_cases hcx : c = x
      · subst hcx
        simp only [step, if_true] at hs
        simp only [step, owed, if_true]
        exact (hr.overwrite hc).mpr (fun hs => absurd hs (ha c hc)) f hs
      · simp only [step, if_neg hcx, Option.some.injEq] at hs
        subst hs
        exact ⟨m, by simp [step, owed, Ne.symm hcx], by simp [step]⟩
  | serve c =>
      refine iff_of_true ?_ trivial
      cases hs : r.slot c with
      | none => rwa [step_serve_none hs]
      | some f =>
          rw [step_serve hs]
          refine ⟨⟨hr.2 c he f hs, hr.1⟩, ?_⟩
          intro d hd g hg
          by_cases hdc : c = d
          · subst hdc
            simp at hg
          · simp only [Function.update_of_ne (Ne.symm hdc)] at hg
            exact hr.2 d hd g hg

/-- No step promises a member its own buffer. -/
theorem Apart.step {mv : Move} (he : r.enabled mv) (ha : r.Apart) : (r.step mv).Apart := by
  cases mv with
  | skip => exact ha
  | join c =>
      intro d hd
      by_cases hdc : d = c
      · subst hdc
        simp [Room.step]
      · have hd : d ∈ r.members := (List.mem_cons.mp hd).resolve_left hdc
        simpa [Room.step, hdc] using ha d hd
  | leave x after => exact fun c hc => ha c (List.mem_filter.mp hc).1
  | wipe x => exact ha
  | say x m =>
      intro c hc
      by_cases hcx : c = x
      · simpa [Room.step, hcx] using ha x he
      · simpa [Room.step, hcx] using Ne.symm hcx
  | serve c =>
      cases hs : r.slot c with
      | none => rwa [step_serve_none hs]
      | some f =>
          rw [step_serve hs]
          intro d hd
          by_cases hdc : d = c
          · simp [hdc]
          · simpa [hdc] using ha d hd

end Room
end LinuxServer.Chat
