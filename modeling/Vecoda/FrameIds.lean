import Vecoda.UnifiedStack
import Vecoda.Requests

/-!
# The numbers of frames

`handleBreak` packs a virtual machine and the position of a frame into one
number, which `scopes`, `evaluate` and `exec` take apart again. The position has
five bits there; the backend sends up to a hundred frames.
-/

set_option autoImplicit false

namespace Vecoda.FrameIds
open HandleBreak «Variables»

/-- Each of the three decoders acts on the machine and the level it is given. -/
structure Decoded (nvm position : ℕ) : Prop where
  scopes : ∀ arg s, arg.frameId = some (.ok (frameId nvm position)) → s.stackTrace nvm = true →
    «scopes» arg s =
      ((createVariable (createVariable s nvm position (some 1) none).2 nvm position (some 2) none).2,false)
  evaluate : ∀ seq arg s expression, arg.frameId = some (.ok (frameId nvm position)) →
    s.stackTrace nvm = true → s.debugdata = true → arg.expression = .ok expression →
    «evaluate» seq arg s = (s.send ⟨some seq,.evaluate,wire seq,nvm,position⟩,false)
  exec : ∀ bp callback, exec bp (frameId nvm position) callback = checkCondition bp nvm position callback

section Packing

variable {nvm position : ℕ}

/-- Higher bits of the position spill into the machine. -/
theorem frameId_split (hnvm : nvm < 2^58) : frameId nvm position = nvm * 2^5 ||| position := by
  rw [frameId, Nat.shiftLeft_eq, Nat.mod_eq_of_lt (by omega)]

theorem stackLevelOf_frameId (hnvm : nvm < 2^58) : stackLevelOf (frameId nvm position) = position % 32 := by
  rw [stackLevelOf, frameId_split hnvm, show (31 : ℕ) = 2^5-1 from rfl, Nat.and_two_pow_sub_one_eq_mod,
    Nat.or_mod_two_pow, Nat.mul_mod_left, Nat.zero_or]

theorem threadIdOf_frameId (hnvm : nvm < 2^58) (hposition : position < 32) :
    threadIdOf (frameId nvm position) = nvm := by
  rw [threadIdOf, frameId_split hnvm, Nat.shiftRight_or_distrib, Nat.shiftRight_eq_div_pow,
    Nat.shiftRight_eq_div_pow, Nat.mul_div_cancel _ (by decide), Nat.div_eq_of_lt hposition, Nat.or_zero]

theorem decoded_of_lt (hnvm : nvm < 2^58) (hposition : position < 32) : Decoded nvm position := by
  have hthread := threadIdOf_frameId hnvm hposition
  have hlevel : stackLevelOf (frameId nvm position) = position := by
    rw [stackLevelOf_frameId hnvm, Nat.mod_eq_of_lt hposition]
  constructor
  · intro arg s hframe hstopped
    simp only [«scopes», hframe, hthread, hlevel, hstopped]
    rfl
  · intro seq arg s expression hframe hstopped hdata hexpression
    simp only [«evaluate», hframe, Option.getD_some, hthread, hlevel, hstopped, hdata, hexpression]
    rfl
  · intro bp callback
    rw [exec, hthread, hlevel]

end Packing

def asking (nvm position : ℕ) : Arguments := ⟨none,some (.ok (frameId nvm position)),.ok [],.ok 0,false⟩

def stopped : State := {Requests.initial with debugdata := true, stackTrace := fun _ => true}

theorem lt_of_decoded {nvm position : ℕ} (hnvm : nvm < 2^58) (h : Decoded nvm position) :
    position < 32 := by
  have hsent := h.evaluate 0 (asking nvm position) stopped [] rfl rfl rfl rfl
  have hlevel : stackLevelOf (frameId nvm position) = position :=
    congrArg (fun p => p.1.commands.map Command.stackLevel) hsent |> List.singleton_inj.mp
  rw [stackLevelOf_frameId hnvm] at hlevel
  exact hlevel ▸ Nat.mod_lt _ (by decide)

/-- A frame is decoded exactly when its position has five bits; the numbers of
such frames tell them apart. -/
theorem decoded_iff (nvm position : ℕ) (hnvm : nvm < 2^58) :
    (Decoded nvm position ↔ position < 32) ∧
      ∀ nvm' position', nvm' < 2^58 → position < 32 → position' < 32 →
        frameId nvm position = frameId nvm' position' → nvm = nvm' ∧ position = position' := by
  refine ⟨⟨lt_of_decoded hnvm,decoded_of_lt hnvm⟩,fun nvm' position' hnvm' hlt hlt' hid => ⟨?_,?_⟩⟩
  · rw [← threadIdOf_frameId hnvm hlt, hid, threadIdOf_frameId hnvm' hlt']
  · have hlevel := congrArg stackLevelOf hid
    rwa [stackLevelOf_frameId hnvm, stackLevelOf_frameId hnvm', Nat.mod_eq_of_lt hlt,
      Nat.mod_eq_of_lt hlt'] at hlevel

theorem decoded_iff_deepest : Decoded 0x7ff6a0001000 31 ∧
    (frameId 0x7ff6a0001000 31 = frameId 0x7ff6a0001000 30 → (31 : ℕ) = 30) :=
  ⟨(decoded_iff 0x7ff6a0001000 31 (by decide)).1.mpr (by decide),fun h =>
    ((decoded_iff 0x7ff6a0001000 31 (by decide)).2 0x7ff6a0001000 30 (by decide) (by decide)
      (by decide) h).2⟩

/-- The frame at position 32 has the number of the first frame of another machine. -/
theorem deep_not_decoded : ¬ Decoded 0x7ff6a0001000 32 ∧
    frameId 0x7ff6a0001000 32 = frameId 0x7ff6a0001001 0 := by
  refine ⟨fun h => ?_,by decide⟩
  exact absurd (lt_of_decoded (by decide) h) (by decide)

end Vecoda.FrameIds
