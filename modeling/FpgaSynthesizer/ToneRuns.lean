import FpgaSynthesizer.ToneAgreement

/-! Runs from power-up. Fewer than 10^8 octave keys keep every octave inside an
int, and the registers then follow the program after every call. -/
namespace FpgaSynthesizer.ToneRuns
open ToneProgram ToneCalls ToneWindow ToneAgreement

def octaveCall : Call → Bool
  | .key key => decide (OctaveKey key)
  | .switches _ => false

def octaveKeys (calls : List Call) : Nat := calls.countP octaveCall

def switchesOf : Call → Option Word
  | .key _ => none
  | .switches sw => some sw

def lastSwitches (calls : List Call) : Word := (calls.filterMap switchesOf).getLast?.getD 0

theorem callOctave (s : System) (c : Call) :
    (call s c).statics.prevOctave =
      match c with
      | .key key => octaveAfter s.statics.prevOctave key
      | .switches _ => s.statics.prevOctave := by
  cases c with
  | key key =>
    rcases handleKeyCases s.statics key with ⟨_,same⟩ | ⟨note,_,_,same⟩ | ⟨note,_,same⟩
    · simp only [call,handle,same]
    · have lower : key ≠ Key.LT := fun h => note (.inl h)
      have upper : key ≠ Key.Z := fun h => note (.inr h)
      simp only [call,handle,same,octaveAfter,if_neg lower,if_neg upper]
      rfl
    · have lower : key ≠ Key.LT := fun h => note (.inl h)
      have upper : key ≠ Key.Z := fun h => note (.inr h)
      simp only [call,handle,same,octaveAfter,if_neg lower,if_neg upper]
  | switches sw => exact switchesOctave s sw

theorem callSwitches (s : System) (c : Call) :
    (call s c).statics.prevSw = (switchesOf c).getD s.statics.prevSw := by
  cases c with
  | key key =>
    rcases handleKeyCases s.statics key with ⟨_,same⟩ | ⟨_,_,_,same⟩ | ⟨_,_,same⟩ <;>
      simp [call,handle,same,switchesOf,press]
  | switches sw =>
    simp only [call,handle,handleSwitches,switchesOf,Option.getD_some]
    split
    · rfl
    · rename_i unchanged
      exact (not_ne_iff.mp unchanged).symm

theorem callOctaveStep {s : System} {c : Call} (low : -2^31 < s.statics.prevOctave)
    (high : s.statics.prevOctave < 2^31 - 1) :
    s.statics.prevOctave - octaveKeys [c] ≤ (call s c).statics.prevOctave ∧
      (call s c).statics.prevOctave ≤ s.statics.prevOctave + octaveKeys [c] := by
  rw [callOctave]
  cases c with
  | key key =>
    have down : int32 (s.statics.prevOctave - 1) = s.statics.prevOctave - 1 :=
      int32Fits (by omega) (by omega)
    have up : int32 (s.statics.prevOctave + 1) = s.statics.prevOctave + 1 :=
      int32Fits (by omega) (by omega)
    by_cases shift : OctaveKey key
    · have one : octaveKeys [.key key] = 1 := by simp [octaveKeys,octaveCall,shift]
      rw [one]
      rcases shift with rfl | rfl
      · simp only [octaveAfter,if_true,down]
        omega
      · have other : Key.Z ≠ Key.LT := by decide
        simp only [octaveAfter,if_neg other,if_true,up]
        omega
    · have lower : key ≠ Key.LT := fun h => shift (.inl h)
      have upper : key ≠ Key.Z := fun h => shift (.inr h)
      simp only [octaveAfter,if_neg lower,if_neg upper]
      omega
  | switches sw => simp

theorem runOctave (s : System) (calls : List Call)
    (low : -2^31 < s.statics.prevOctave - octaveKeys calls)
    (high : s.statics.prevOctave + octaveKeys calls < 2^31 - 1) :
    s.statics.prevOctave - octaveKeys calls ≤ (run s calls).statics.prevOctave ∧
      (run s calls).statics.prevOctave ≤ s.statics.prevOctave + octaveKeys calls := by
  induction calls generalizing s with
  | nil => simp [run,octaveKeys]
  | cons c rest ih =>
    have count : octaveKeys (c :: rest) = octaveKeys [c] + octaveKeys rest := by
      rw [← List.singleton_append,octaveKeys,List.countP_append]
      rfl
    rw [count] at low high ⊢
    have step := callOctaveStep (s := s) (c := c) (by omega) (by omega)
    have tail := ih (call s c) (by omega) (by omega)
    change _ ≤ (run (call s c) rest).statics.prevOctave ∧ (run (call s c) rest).statics.prevOctave ≤ _
    omega

theorem fewNoOverflow {calls : List Call} (few : octaveKeys calls < 10^8) : NoOverflow powerUp calls := by
  intro p part
  have fewer : octaveKeys p ≤ octaveKeys calls := part.sublist.countP_le
  have start : powerUp.statics.prevOctave = 4 := rfl
  have bound := runOctave powerUp p (by omega) (by omega)
  unfold OctaveFits
  omega

theorem runSwitches (s : System) (calls : List Call) :
    (run s calls).statics.prevSw = (calls.filterMap switchesOf).getLast?.getD s.statics.prevSw := by
  induction calls generalizing s with
  | nil => rfl
  | cons c rest ih =>
    change (run (call s c) rest).statics.prevSw = _
    rw [ih,callSwitches,List.filterMap_cons]
    cases switchesOf c with
    | none => rfl
    | some sw =>
      rw [List.getLast?_cons]
      rfl

theorem agreeEffects {s : System} (agree : Agree s) (j : Nat) :
    s.board.synth.curEffects.getLsbD j = (decide (j < 2) && s.statics.prevSw.getLsbD j) := by
  rw [agree.effects,BitVec.getLsbD_setWidth,BitVec.getLsbD_setWidth]
  by_cases low : j < 2
  · have inside : j < 18 := by omega
    simp [low,inside]
  · simp [low]

theorem agreeLowEffects {s : System} (agree : Agree s) {j : Nat} (low : j < 2) :
    s.board.synth.curEffects.getLsbD j = s.statics.prevSw.getLsbD j := by
  have bit := agreeEffects agree j
  rwa [decide_eq_true low,Bool.true_and] at bit

theorem registersFollowProgram (calls : List Call) (few : octaveKeys calls < 10^8) :
    (∀ a : Fin 88, (run powerUp calls).board.synth.curSounds.getLsbD a = true ↔
      ∃ i : Fin numRelTones, (run powerUp calls).statics.tonesStatus.get i = 1 ∧
        (i : Int) + 12*(run powerUp calls).statics.prevOctave = a) ∧
    (∀ j : Fin 18, j.val < 2 →
      (run powerUp calls).board.synth.curEffects.getLsbD j = (lastSwitches calls).getLsbD j) ∧
    (∀ j : Fin 18, 2 ≤ j.val → (run powerUp calls).board.synth.curEffects.getLsbD j = false) := by
  have agree := runAgree powerUpAgree (fewNoOverflow few)
  refine ⟨?_,?_,?_⟩
  · intro a
    exact agree.sounding a a.isLt
  · intro j low
    have bit := agreeLowEffects agree low
    rwa [runSwitches] at bit
  · intro j high
    have bit := agreeEffects agree j
    have other : ¬ j.val < 2 := by omega
    simpa [other] using bit

theorem registersFollowPressAndShift :
    octaveKeys [.key 0x1c,.switches 3,.key 0x1a] < 10^8 ∧
    (∀ a : Fin 88, (run powerUp [.key 0x1c,.switches 3,.key 0x1a]).board.synth.curSounds.getLsbD a = true ↔
      ∃ i : Fin numRelTones, (run powerUp [.key 0x1c,.switches 3,.key 0x1a]).statics.tonesStatus.get i = 1 ∧
        (i : Int) + 12*(run powerUp [.key 0x1c,.switches 3,.key 0x1a]).statics.prevOctave = a) :=
  ⟨by decide,(registersFollowProgram _ (by decide)).1⟩

end FpgaSynthesizer.ToneRuns
