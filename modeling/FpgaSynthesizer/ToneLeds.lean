import FpgaSynthesizer.ToneAgreement
import Mathlib.Order.Fin.Basic

/-! The LEDs. A note sets or clears the LED of its own key, an octave shift
writes all of them; a note that does not exist in the octave writes none, and its
LED is off already. No octave is excluded here, for the LEDs follow the sentinel
of rel_to_abs_tone whatever the octave has become. -/
namespace FpgaSynthesizer.ToneLeds
open ToneProgram ToneCalls ToneWindow ToneAgreement
open SynthCi (Opcode)

def lit (b : Board) (i : Fin numRelTones) : Bool := b.leds.getLsbD i

def Shown (status : Vector Int numRelTones) (octave : Int) (i : Fin numRelTones) : Prop :=
  status.get i = 1 ∧ relToAbsTone i octave ≠ -1

/-! ### The three writes of the LED register -/

theorem oneShifted (i j : Fin numRelTones) : (1#32 <<< i.val).getLsbD j = decide (i = j) := by
  revert i j
  decide

theorem ledOnLit (leds : BitVec 18) (i j : Fin numRelTones) :
    (ledOn i leds).getLsbD j = (decide (i = j) || leds.getLsbD j) := by
  have low : (j : Nat) < 18 := j.isLt
  have num : (i : Nat) < 18 := i.isLt
  have inside : ¬ ((i : Int) < 0 ∨ (i : Int) > 17) := by omega
  rw [ledOn,if_neg inside,Int.toNat_natCast,BitVec.getLsbD_setWidth,BitVec.getLsbD_or,oneShifted,
    BitVec.getLsbD_setWidth,Bool.or_comm]
  simp [low,Nat.lt_of_lt_of_le low (by decide : 18 ≤ 32)]

theorem ledOffLit (leds : BitVec 18) (i j : Fin numRelTones) :
    (ledOff i leds).getLsbD j = (!decide (i = j) && leds.getLsbD j) := by
  have low : (j : Nat) < 18 := j.isLt
  have word : (j : Nat) < 32 := Nat.lt_of_lt_of_le low (by decide)
  have num : (i : Nat) < 18 := i.isLt
  have inside : ¬ ((i : Int) < 0 ∨ (i : Int) > 17) := by omega
  rw [ledOff,if_neg inside,Int.toNat_natCast]
  simp only [BitVec.getLsbD_setWidth,BitVec.getLsbD_and,BitVec.getLsbD_xor,BitVec.getLsbD_not,oneShifted]
  simp [low,word,Bool.and_comm]

theorem setLedsLit (val : Word) (j : Fin numRelTones) : (setLeds val).getLsbD j = val.getLsbD j := by
  have low : (j : Nat) < 18 := j.isLt
  have mask : (0x3ffff : Word).getLsbD j = true := by
    revert j
    decide
  rw [setLeds,BitVec.getLsbD_setWidth,BitVec.getLsbD_and,mask,Bool.and_true,decide_eq_true low,Bool.true_and]

theorem windowLeds {status : Vector Int numRelTones} {octave : Int} {keys : List (Fin numRelTones)}
    {leds : Word} (j : Fin numRelTones) :
    (soundWindow status octave keys leds).2.getLsbD j =
      (leds.getLsbD j || decide (j ∈ keys ∧ relToAbsTone j octave ≠ -1 ∧ status.get j ≠ 0)) := by
  induction keys generalizing leds with
  | nil => simp [soundWindow]
  | cons i rest ih =>
    simp only [soundWindow]
    split
    · rename_i exist
      split
      · rename_i held
        rw [ih,BitVec.getLsbD_or,oneShifted]
        by_cases own : i = j
        · subst own
          simp [exist,held]
        · have other : ¬ j = i := fun h => own h.symm
          simp [own,other]
      · rename_i released
        rw [ih]
        by_cases own : j = i
        · subst own
          simp [not_ne_iff.mp released]
        · simp [own]
    · rename_i missing
      rw [ih]
      by_cases own : j = i
      · subst own
        simp [not_ne_iff.mp missing]
      · simp [own]

/-! ### Calls -/

theorem shiftLit {status : Vector Int numRelTones} (bits : StatusBits status) (b : Board) (old new : Int)
    (i : Fin numRelTones) : lit (performAll b (shiftActions status old new)) i = true ↔ Shown status new i := by
  have written : lit (performAll b (shiftActions status old new)) i =
      (setLeds (soundWindow status new (List.finRange numRelTones) 0).2).getLsbD i := by
    simp only [shiftActions,performAllAppend]
    rfl
  rw [written,setLedsLit,windowLeds]
  rcases bits i with off | on
  · simp [Shown,off]
  · simp [Shown,on]

theorem noteLit (b : Board) (i j : Fin numRelTones) (octave : Int) (opcode : Opcode) :
    lit (performAll b (noteActions i octave opcode)) j = true ↔
      if i = j ∧ relToAbsTone i octave ≠ -1 then opcode = .keyOn else lit b j = true := by
  by_cases exist : relToAbsTone i octave ≠ -1
  · by_cases on : opcode = .keyOn
    · have written : lit (performAll b (noteActions i octave opcode)) j = (ledOn i b.leds).getLsbD j := by
        simp only [noteActions,if_pos exist,if_pos on]
        rfl
      rw [written,ledOnLit]
      by_cases own : i = j
      · simp [own,on,own ▸ exist]
      · simp [own,lit]
    · have written : lit (performAll b (noteActions i octave opcode)) j = (ledOff i b.leds).getLsbD j := by
        simp only [noteActions,if_pos exist,if_neg on]
        rfl
      rw [written,ledOffLit]
      by_cases own : i = j
      · simp [own,on,own ▸ exist]
      · simp [own,lit]
  · rw [if_neg (fun h => exist h.2),noteActions]
    simp only [if_neg exist]
    rfl

theorem switchLit (b : Board) (s : Statics) (sw : Word) (i : Fin numRelTones) :
    lit (performAll b (handleSwitches s sw).2) i = lit b i := by
  unfold handleSwitches
  split
  · simp only [performAll,List.foldl_cons,List.foldl_nil]
    split <;> split <;> rfl
  · rfl

structure LedsFollow (s : System) : Prop where
  bits : StatusBits s.statics.tonesStatus
  leds : ∀ i : Fin numRelTones, lit s.board i = true ↔ Shown s.statics.tonesStatus s.statics.prevOctave i

theorem powerUpLeds : LedsFollow powerUp := by
  refine ⟨initialBits,?_⟩
  intro i
  have off : lit powerUp.board i = false := by
    revert i
    decide
  have released : powerUp.statics.tonesStatus.get i = 0 := initialStatus i
  simp [Shown,off,released]

theorem callLeds {s : System} (follow : LedsFollow s) (c : Call) : LedsFollow (call s c) := by
  refine ⟨callBits follow.bits c,?_⟩
  intro j
  cases c with
  | key key =>
    rcases handleKeyCases s.statics key with ⟨_,same⟩ | ⟨_,i,_,same⟩ | ⟨_,_,same⟩
    · simp only [call,handle,same]
      exact shiftLit follow.bits _ _ _ j
    · simp only [call,handle,same]
      rw [noteLit,follow.leds j,Shown,Shown,pressStatus]
      change _ ↔ _ ∧ relToAbsTone j s.statics.prevOctave ≠ -1
      by_cases own : i = j
      · subst own
        by_cases exist : relToAbsTone i s.statics.prevOctave ≠ -1
        · by_cases on : keyOpcode key = .keyOn <;> simp [exist,on]
        · simp [exist]
      · simp [own]
    · simp only [call,handle,same]
      exact follow.leds j
  | switches sw =>
    rw [switchesKeep,switchesOctave]
    simp only [call,handle,switchLit]
    exact follow.leds j

theorem runLeds {s : System} (follow : LedsFollow s) (calls : List Call) : LedsFollow (run s calls) := by
  induction calls generalizing s with
  | nil => exact follow
  | cons c rest ih => exact ih (callLeds follow c)

theorem ledsMirrorHeldKeys (calls : List Call) (i : Fin numRelTones) :
    (run powerUp calls).board.leds.getLsbD i = true ↔
      (run powerUp calls).statics.tonesStatus.get i = 1 ∧
        relToAbsTone i (run powerUp calls).statics.prevOctave ≠ -1 :=
  (runLeds powerUpLeds calls).leds i

end FpgaSynthesizer.ToneLeds
