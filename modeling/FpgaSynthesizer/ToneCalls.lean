import FpgaSynthesizer.ToneProgram

/-! What a call of handle_key can do: one inversion lemma, from which every
property of calls is derived. -/
namespace FpgaSynthesizer.ToneCalls
open ToneProgram
open SynthCi (Opcode)

def octaveAfter (octave : Int) (key : Word) : Int :=
  if key = Key.LT then int32 (octave - 1)
  else if key = Key.Z then int32 (octave + 1)
  else octave

def shiftActions (status : Vector Int numRelTones) (old new : Int) : List Action :=
  let on := soundWindow status new (List.finRange numRelTones) 0
  silenceWindow old (List.finRange numRelTones) ++ on.1 ++ [.setLeds on.2]

def noteActions (i : Fin numRelTones) (octave : Int) (opcode : Opcode) : List Action :=
  let absTone := relToAbsTone i octave
  if absTone ≠ -1 then
    if opcode = .keyOn then [.synth .keyOn (BitVec.ofInt 32 absTone),.ledOn i]
    else [.synth .keyOff (BitVec.ofInt 32 absTone),.ledOff i]
  else []

theorem initialStatus (i : Fin numRelTones) : initial.tonesStatus.get i = 0 := by
  revert i
  decide

theorem statusSet (status : Vector Int numRelTones) (i j : Fin numRelTones) (x : Int) :
    (status.set i x).get j = if i = j then x else status.get j := by
  change (status.set i x)[j.val] = if i = j then x else status[j.val]
  rw [Vector.getElem_set]
  simp only [Fin.ext_iff]

theorem statusEqual {status other : Vector Int numRelTones}
    (same : ∀ i : Fin numRelTones, status.get i = other.get i) : status = other := by
  apply Vector.ext
  intro j inside
  exact same ⟨j,inside⟩

def press (s : Statics) (i : Fin numRelTones) (opcode : Opcode) : Statics :=
  {s with tonesStatus := s.tonesStatus.set i (if opcode = .keyOn then 1 else 0)}

def keyOpcode (key : Word) : Opcode := if (key >>> 8) &&& 0xff = 0xf0 then .keyOff else .keyOn

def OctaveKey (key : Word) : Prop := key = Key.LT ∨ key = Key.Z
instance (key) : Decidable (OctaveKey key) := by unfold OctaveKey; infer_instance

theorem int32Moves (x : Int) : int32 (x + 1) ≠ x ∧ int32 (x - 1) ≠ x := by
  have up := int32Mod (x + 1)
  have down := int32Mod (x - 1)
  omega

theorem octaveAfterMoves (octave : Int) {key : Word} (h : OctaveKey key) : octaveAfter octave key ≠ octave := by
  unfold octaveAfter
  rcases h with rfl | rfl
  · rw [if_pos rfl]
    exact (int32Moves octave).2
  · rw [if_neg (by decide),if_pos rfl]
    exact (int32Moves octave).1

def ToneOrNone (tone : Int) : Prop := tone = -1 ∨ (0 ≤ tone ∧ tone < 18)
instance (tone) : Decidable (ToneOrNone tone) := by unfold ToneOrNone; infer_instance

theorem toneOrNoneBranch {c : Prop} [Decidable c] {x y : Int} (hx : ToneOrNone x) (hy : ToneOrNone y) :
    ToneOrNone (if c then x else y) := by
  split <;> assumption

theorem keyToRelToneRange (key : Word) :
    keyToRelTone key = -1 ∨ ∃ i : Fin numRelTones, keyToRelTone key = i := by
  have range : ToneOrNone (keyToRelTone key) := by
    unfold keyToRelTone
    repeat' apply toneOrNoneBranch
    all_goals decide
  rcases range with none | ⟨low,high⟩
  · exact .inl none
  · have small : (keyToRelTone key).toNat < 18 := by omega
    exact .inr ⟨⟨(keyToRelTone key).toNat,small⟩,(Int.toNat_of_nonneg low).symm⟩

theorem octaveKeyNoTone {key : Word} (h : OctaveKey key) : keyToRelTone (key &&& 0xff) = -1 := by
  rcases h with rfl | rfl <;> decide

theorem updateShift (s : Statics) (opcode : Opcode) {key : Word} (shift : OctaveKey key) :
    updateSynthTones s (-1) opcode key =
      ({s with prevOctave := octaveAfter s.prevOctave key},
        shiftActions s.tonesStatus s.prevOctave (octaveAfter s.prevOctave key)) := by
  have moves := octaveAfterMoves s.prevOctave shift
  unfold octaveAfter at moves ⊢
  simp only [updateSynthTones,if_pos moves]
  rfl

theorem updateNote (s : Statics) (i : Fin numRelTones) (opcode : Opcode) {key : Word}
    (note : ¬ OctaveKey key) :
    updateSynthTones s i opcode key = (press s i opcode,noteActions i s.prevOctave opcode) := by
  have lower : key ≠ Key.LT := fun h => note (.inl h)
  have upper : key ≠ Key.Z := fun h => note (.inr h)
  have real : (i : Int) ≠ -1 := by omega
  have inside : s.tonesStatus.setIfInBounds i (if opcode = .keyOn then 1 else 0) =
      s.tonesStatus.set i (if opcode = .keyOn then 1 else 0) := by
    apply Vector.ext
    intro j hj
    simp only [Vector.getElem_setIfInBounds,Vector.getElem_set]
  simp only [updateSynthTones,if_neg lower,if_neg upper,if_pos real,Int.toNat_natCast,inside]
  simp only [ne_eq,not_true_eq_false,if_false]
  rfl

theorem updateNothing (s : Statics) (opcode : Opcode) {key : Word} (note : ¬ OctaveKey key) :
    updateSynthTones s (-1) opcode key = (s,[]) := by
  have lower : key ≠ Key.LT := fun h => note (.inl h)
  have upper : key ≠ Key.Z := fun h => note (.inr h)
  have missing : relToAbsTone (-1) s.prevOctave = -1 := by simp [relToAbsTone]
  simp [updateSynthTones,if_neg lower,if_neg upper,missing]

theorem handleKeyCases (s : Statics) (key : Word) :
    (OctaveKey key ∧ handleKey s key =
      ({s with prevOctave := octaveAfter s.prevOctave key},
        shiftActions s.tonesStatus s.prevOctave (octaveAfter s.prevOctave key))) ∨
    (¬ OctaveKey key ∧ ∃ i : Fin numRelTones, keyToRelTone (key &&& 0xff) = i ∧
      handleKey s key = (press s i (keyOpcode key),noteActions i s.prevOctave (keyOpcode key))) ∨
    (¬ OctaveKey key ∧ keyToRelTone (key &&& 0xff) = -1 ∧ handleKey s key = (s,[])) := by
  by_cases shift : OctaveKey key
  · have tone := octaveKeyNoTone shift
    refine .inl ⟨shift,?_⟩
    simp only [handleKey,tone]
    exact updateShift s (keyOpcode key) shift
  · rcases keyToRelToneRange (key &&& 0xff) with none | ⟨i,tone⟩
    · refine .inr (.inr ⟨shift,none,?_⟩)
      simp only [handleKey,none]
      exact updateNothing s (keyOpcode key) shift
    · refine .inr (.inl ⟨shift,i,tone,?_⟩)
      simp only [handleKey,tone]
      exact updateNote s i (keyOpcode key) shift

theorem switchesKeep (s : System) (sw : Word) :
    (call s (.switches sw)).statics.tonesStatus = s.statics.tonesStatus := by
  simp only [call,handle,handleSwitches]
  split <;> rfl

theorem switchesOctave (s : System) (sw : Word) :
    (call s (.switches sw)).statics.prevOctave = s.statics.prevOctave := by
  simp only [call,handle,handleSwitches]
  split <;> rfl

end FpgaSynthesizer.ToneCalls
