import FpgaSynthesizer.ToneRuns

/-! Which tones the commands name. rel_to_abs_tone rejects a tone above the
keyboard but not one below it, so a command leaves the 88 tones exactly when the
octave of the run does: below 0, or where 12*octave wraps an int. -/
namespace FpgaSynthesizer.ToneRange
open ToneProgram ToneCalls ToneWindow
open SynthCi (Opcode)

def keyActions (s : Statics) : List Word → List Action
  | [] => []
  | key :: rest => (handleKey s key).2 ++ keyActions (handleKey s key).1 rest

/- The tone index of a note command, read as the int the program passed. -/
def NamesTone : Action → Prop
  | .synth .keyOn a => 0 ≤ a.toInt ∧ a.toInt < 88
  | .synth .keyOff a => 0 ≤ a.toInt ∧ a.toInt < 88
  | _ => True
instance : (x : Action) → Decidable (NamesTone x)
  | .synth .keyOn a => inferInstanceAs (Decidable (0 ≤ a.toInt ∧ a.toInt < 88))
  | .synth .keyOff a => inferInstanceAs (Decidable (0 ≤ a.toInt ∧ a.toInt < 88))
  | .synth .effectOn _ => inferInstanceAs (Decidable True)
  | .synth .effectOff _ => inferInstanceAs (Decidable True)
  | .ledOn _ => inferInstanceAs (Decidable True)
  | .ledOff _ => inferInstanceAs (Decidable True)
  | .setLeds _ => inferInstanceAs (Decidable True)

def octaveOf (keys : List Word) : Int := keys.foldl octaveAfter initial.prevOctave

def Playable (octave : Int) : Prop := 0 ≤ int32 (12*octave) ∧ int32 (12*octave) + 17 < 2^31
instance (octave) : Decidable (Playable octave) := by unfold Playable; infer_instance

theorem int32Wraps {x : Int} (low : 2^31 ≤ x) (high : x < 2^31 + 2^32) : int32 x = x - 2^32 := by
  have same := int32Mod x
  have range := int32Range x
  omega

theorem commandTone {t : Int} (low : -2^31 ≤ t) (high : t < 2^31) : (BitVec.ofInt 32 t).toInt = t := by
  rw [BitVec.toInt_ofInt]
  exact int32Fits low high

theorem relToAbsToneRange (relTone octave : Int) :
    -2^31 ≤ relToAbsTone relTone octave ∧ relToAbsTone relTone octave < 88 := by
  have range := int32Range (relTone + int32 (12*octave))
  unfold relToAbsTone
  split
  · decide
  · dsimp only
    split <;> omega

theorem windowName (octave : Int) (i : Fin numRelTones) (opcode : Opcode)
    (note : opcode = .keyOn ∨ opcode = .keyOff) :
    NamesTone (.synth opcode (BitVec.ofInt 32 (relToAbsTone i octave))) ↔ 0 ≤ relToAbsTone i octave := by
  have range := relToAbsToneRange i octave
  have tone := commandTone range.1 (by omega)
  rcases note with rfl | rfl <;> simp only [NamesTone,tone] <;> omega

/- The base of the window is a multiple of four, so it is never the sentinel. -/
theorem baseFour (octave : Int) : int32 (12*octave) % 4 = 0 := by
  have same := int32Mod (12*octave)
  omega

theorem firstTone {octave : Int} (below : int32 (12*octave) < 0) :
    relToAbsTone ((0 : Fin numRelTones) : Int) octave = int32 (12*octave) := by
  have base := int32Range (12*octave)
  have sum : int32 (0 + int32 (12*octave)) = int32 (12*octave) := by
    rw [Int.zero_add]
    exact int32Fits base.1 base.2
  change (if int32 (0 + int32 (12*octave)) < 88 then int32 (0 + int32 (12*octave)) else -1) = _
  rw [sum,if_pos (by omega)]

theorem lastTone {octave : Int} (above : 2^31 ≤ int32 (12*octave) + 17) :
    relToAbsTone ((17 : Fin numRelTones) : Int) octave = 17 + int32 (12*octave) - 2^32 := by
  have base := int32Range (12*octave)
  have wrapped : int32 (17 + int32 (12*octave)) = 17 + int32 (12*octave) - 2^32 :=
    int32Wraps (by omega) (by omega)
  change (if int32 (17 + int32 (12*octave)) < 88 then int32 (17 + int32 (12*octave)) else -1) = _
  rw [wrapped,if_pos (by omega)]

theorem playableWindow (octave : Int) :
    (∀ i : Fin numRelTones, relToAbsTone i octave ≠ -1 → 0 ≤ relToAbsTone i octave) ↔ Playable octave := by
  have base := int32Range (12*octave)
  have four := baseFour octave
  constructor
  · intro names
    by_contra bad
    rcases not_and_or.mp bad with below | above
    · have name := names 0
      rw [firstTone (by omega)] at name
      omega
    · have name := names 17
      rw [lastTone (by omega)] at name
      omega
  · rintro ⟨low,high⟩ i exist
    have bound : (i : Nat) < 18 := i.isLt
    have sum : int32 ((i : Int) + int32 (12*octave)) = (i : Int) + int32 (12*octave) :=
      int32Fits (by omega) (by omega)
    have inside : ¬ ((i : Int) < 0 ∨ (i : Int) ≥ numRelTones) := by omega
    simp only [relToAbsTone,if_neg inside,sum] at exist ⊢
    split at exist
    · omega
    · contradiction

theorem keyNamesTones {s : Statics} (playable : Playable s.prevOctave) (key : Word) :
    (∀ x ∈ (handleKey s key).2, NamesTone x) ↔ Playable (octaveAfter s.prevOctave key) := by
  have old := (playableWindow s.prevOctave).mpr playable
  rcases handleKeyCases s key with ⟨_,same⟩ | ⟨note,i,_,same⟩ | ⟨note,_,same⟩
  · rw [same,← playableWindow]
    constructor
    · intro names i exist
      have name := names (.synth (if s.tonesStatus.get i ≠ 0 then .keyOn else .keyOff)
        (BitVec.ofInt 32 (relToAbsTone i (octaveAfter s.prevOctave key)))) (by
          simp only [shiftActions,List.mem_append,soundMember]
          exact .inl (.inr ⟨i,List.mem_finRange i,exist,rfl⟩))
      exact (windowName _ i _ (by split <;> simp)).mp name
    · intro names x member
      simp only [shiftActions,List.mem_append,silenceMember,soundMember,List.mem_singleton] at member
      rcases member with (⟨i,_,exist,rfl⟩ | ⟨i,_,exist,rfl⟩) | rfl
      · exact (windowName _ i _ (.inr rfl)).mpr (old i exist)
      · exact (windowName _ i _ (by split <;> simp)).mpr (names i exist)
      · trivial
  · have lower : key ≠ Key.LT := fun h => note (.inl h)
    have upper : key ≠ Key.Z := fun h => note (.inr h)
    rw [same,octaveAfter,if_neg lower,if_neg upper]
    refine ⟨fun _ => playable,fun _ x member => ?_⟩
    simp only [noteActions] at member
    split at member
    · rename_i exist
      split at member
      · rcases List.mem_pair.mp member with rfl | rfl
        · exact (windowName _ i _ (.inl rfl)).mpr (old i exist)
        · trivial
      · rcases List.mem_pair.mp member with rfl | rfl
        · exact (windowName _ i _ (.inr rfl)).mpr (old i exist)
        · trivial
    · simp at member
  · have lower : key ≠ Key.LT := fun h => note (.inl h)
    have upper : key ≠ Key.Z := fun h => note (.inr h)
    rw [same,octaveAfter,if_neg lower,if_neg upper]
    exact ⟨fun _ => playable,fun _ x member => by simp at member⟩

theorem handleKeyOctave (s : Statics) (key : Word) :
    (handleKey s key).1.prevOctave = octaveAfter s.prevOctave key :=
  ToneRuns.callOctave ⟨s,powerUp.board⟩ (.key key)

theorem runNamesTones {s : Statics} (playable : Playable s.prevOctave) (keys : List Word) :
    (∀ x ∈ keyActions s keys, NamesTone x) ↔
      ∀ p, p <+: keys → Playable (p.foldl octaveAfter s.prevOctave) := by
  induction keys generalizing s with
  | nil =>
    refine ⟨fun _ p part => ?_,fun _ x member => by simp [keyActions] at member⟩
    rw [List.prefix_nil.mp part]
    exact playable
  | cons key rest ih =>
    have step := keyNamesTones playable key
    have octave := handleKeyOctave s key
    simp only [keyActions,List.mem_append]
    constructor
    · intro names p part
      rcases List.prefix_cons_iff.mp part with rfl | ⟨t,rfl,ht⟩
      · exact playable
      · have next := step.mp (fun x hx => names x (.inl hx))
        have tail := (ih (s := (handleKey s key).1) (by rwa [octave])).mp (fun x hx => names x (.inr hx))
        rw [octave] at tail
        exact tail t ht
    · intro visited x member
      have next := visited [key] ⟨rest,rfl⟩
      rcases member with now | later
      · exact step.mpr next x now
      · refine (ih (s := (handleKey s key).1) (by rwa [octave])).mpr ?_ x later
        intro t ht
        rw [octave]
        exact visited (key :: t) (List.cons_prefix_cons.mpr ⟨rfl,ht⟩)

theorem commandsNameTonesExactlyWhenPlayable (keys : List Word) :
    (∀ x ∈ keyActions initial keys, NamesTone x) ↔ ∀ p, p <+: keys → Playable (octaveOf p) :=
  runNamesTones (by decide) keys

theorem octaveBelowZeroNamesNoTone :
    ¬ ∀ x ∈ keyActions initial [0x61,0x61,0x61,0x61,0x61], NamesTone x := by
  decide +kernel

end FpgaSynthesizer.ToneRange
