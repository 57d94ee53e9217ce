import FpgaSynthesizer.ToneProgram
import Mathlib.Tactic.Ring

/-! What the two loops of an octave shift write into the synthesizer. The window
of an octave is its 18 consecutive tones from 12*octave; only those on the
88-tone keyboard name a bit of cur_sounds. Where the tones of an octave fit an int
the named bit is the tone itself; the loops do not depend on that. -/
namespace FpgaSynthesizer.ToneWindow
open RegisterBits ToneProgram
open SynthCi (Opcode instructionKeyOn instructionKeyOff instructionEffectOn instructionEffectOff)

/- The tones of an octave are computed without signed overflow. -/
def OctaveFits (octave : Int) : Prop := -2^31 ≤ 12*octave ∧ 12*octave + 17 < 2^31
instance (octave) : Decidable (OctaveFits octave) := by unfold OctaveFits; infer_instance

theorem int32Fits {x : Int} (low : -2^31 ≤ x) (high : x < 2^31) : int32 x = x :=
  Int.bmod_eq_of_le (by omega) (by omega)

theorem int32Range (x : Int) : -2^31 ≤ int32 x ∧ int32 x < 2^31 := by
  have low := Int.le_bmod (x := x) (m := 2^32) (by decide)
  have high := Int.bmod_lt (x := x) (m := 2^32) (by decide)
  unfold int32
  omega

theorem windowTone {octave : Int} (fits : OctaveFits octave) (i : Fin numRelTones) :
    relToAbsTone i octave = if (i : Int) + 12*octave < 88 then (i : Int) + 12*octave else -1 := by
  have bound : (i : Nat) < 18 := i.isLt
  obtain ⟨low,high⟩ := fits
  have product : int32 (12*octave) = 12*octave := int32Fits low (by omega)
  have sum : int32 ((i : Int) + 12*octave) = (i : Int) + 12*octave := int32Fits (by omega) (by omega)
  have inside : ¬ ((i : Int) < 0 ∨ (i : Int) ≥ numRelTones) := by omega
  simp only [relToAbsTone,if_neg inside,product,sum]

def Addresses (i : Fin numRelTones) (octave : Int) (a : Nat) : Prop :=
  relToAbsTone i octave ≠ -1 ∧ (BitVec.ofInt 32 (relToAbsTone i octave)).toNat = a

/- The bus carries the tone as an unsigned word: it names bit a < 88 exactly
when the tone is a, since a negative tone is far above the register. -/
theorem windowIndex {octave : Int} (fits : OctaveFits octave) (i : Fin numRelTones) {a : Nat}
    (inside : a < 88) : Addresses i octave a ↔ (i : Int) + 12*octave = a := by
  have bound : (i : Nat) < 18 := i.isLt
  unfold Addresses
  rw [windowTone fits,BitVec.toNat_ofInt]
  unfold OctaveFits at fits
  split <;> omega

theorem addressUnique {i j : Fin numRelTones} {octave : Int} {a : Nat} (hi : Addresses i octave a)
    (hj : Addresses j octave a) : i = j := by
  have tone : ∀ k : Fin numRelTones, relToAbsTone k octave ≠ -1 →
      relToAbsTone k octave % 2^32 = ((k : Int) + int32 (12*octave)) % 2^32 := by
    intro k exist
    have bound : (k : Nat) < 18 := k.isLt
    have inside : ¬ ((k : Int) < 0 ∨ (k : Int) ≥ numRelTones) := by omega
    simp only [relToAbsTone,if_neg inside] at exist ⊢
    split at exist
    · rename_i low
      rw [if_pos low]
      exact int32Mod _
    · contradiction
  have left := tone i hi.1
  have right := tone j hj.1
  have same := hi.2.trans hj.2.symm
  have first : (i : Nat) < 18 := i.isLt
  have second : (j : Nat) < 18 := j.isLt
  rw [BitVec.toNat_ofInt,BitVec.toNat_ofInt] at same
  apply Fin.ext
  omega

/-! ### Device actions as register writes -/

def soundWrite : Action → Option Write
  | .synth .keyOn a => some ⟨a.toNat,true⟩
  | .synth .keyOff a => some ⟨a.toNat,false⟩
  | _ => none

def effectWrite : Action → Option Write
  | .synth .effectOn a => some ⟨a.toNat,true⟩
  | .synth .effectOff a => some ⟨a.toNat,false⟩
  | _ => none

def soundWrites (actions : List Action) : List Write := actions.filterMap soundWrite
def effectWrites (actions : List Action) : List Write := actions.filterMap effectWrite

theorem performAllAppend (b : Board) (xs ys : List Action) :
    performAll b (xs ++ ys) = performAll (performAll b xs) ys := by
  simp [performAll]

theorem performSynth (b : Board) (action : Action) :
    (perform b action).synth =
      ⟨writeAll b.synth.curSounds (soundWrite action).toList,
        writeAll b.synth.curEffects (effectWrite action).toList⟩ := by
  cases action with
  | synth opcode a =>
    cases opcode with
    | keyOn => rw [perform,instructionKeyOn]; rfl
    | keyOff => rw [perform,instructionKeyOff]; rfl
    | effectOn => rw [perform,instructionEffectOn]; rfl
    | effectOff => rw [perform,instructionEffectOff]; rfl
  | ledOn num => rfl
  | ledOff num => rfl
  | setLeds val => rfl

theorem writesCons {w : Nat} (v : BitVec w) (f : Action → Option Write) (action : Action) (rest : List Action) :
    writeAll (writeAll v (f action).toList) (rest.filterMap f) = writeAll v ((action :: rest).filterMap f) := by
  rw [List.filterMap_cons]
  cases f action <;> rfl

theorem performSounds (b : Board) (actions : List Action) :
    (performAll b actions).synth.curSounds = writeAll b.synth.curSounds (soundWrites actions) := by
  induction actions generalizing b with
  | nil => rfl
  | cons action rest ih =>
    change (performAll (perform b action) rest).synth.curSounds = _
    rw [ih,performSynth]
    exact writesCons _ soundWrite action rest

theorem performEffects (b : Board) (actions : List Action) :
    (performAll b actions).synth.curEffects = writeAll b.synth.curEffects (effectWrites actions) := by
  induction actions generalizing b with
  | nil => rfl
  | cons action rest ih =>
    change (performAll (perform b action) rest).synth.curEffects = _
    rw [ih,performSynth]
    exact writesCons _ effectWrite action rest

/-! ### The first loop -/

theorem silenceMember {octave : Int} {keys : List (Fin numRelTones)} {x : Action} :
    x ∈ silenceWindow octave keys ↔
      ∃ i ∈ keys, relToAbsTone i octave ≠ -1 ∧
        x = .synth .keyOff (BitVec.ofInt 32 (relToAbsTone i octave)) := by
  induction keys with
  | nil => simp [silenceWindow]
  | cons i rest ih =>
    simp only [silenceWindow]
    split
    · rename_i exist
      simp [ih,exist]
    · rename_i missing
      simp only [ih,List.mem_cons,exists_eq_or_imp,missing,false_and,false_or]

theorem silenceWritesOff {octave : Int} {keys : List (Fin numRelTones)} {p : List Action}
    (part : p <+: silenceWindow octave keys) : ∀ x ∈ soundWrites p, x.bit = false := by
  intro x member
  obtain ⟨action,inside,same⟩ := List.mem_filterMap.mp member
  obtain ⟨i,_,_,rfl⟩ := silenceMember.mp (part.subset inside)
  cases Option.some.inj same
  rfl

theorem silenceIndices {octave : Int} {keys : List (Fin numRelTones)} {a : Nat} :
    a ∈ (soundWrites (silenceWindow octave keys)).map Write.index ↔ ∃ i ∈ keys, Addresses i octave a := by
  simp only [soundWrites,List.mem_map,List.mem_filterMap]
  constructor
  · rintro ⟨x,⟨action,member,same⟩,index⟩
    obtain ⟨i,hi,exist,rfl⟩ := silenceMember.mp member
    cases Option.some.inj same
    exact ⟨i,hi,exist,index⟩
  · rintro ⟨i,hi,exist,index⟩
    exact ⟨_,⟨_,silenceMember.mpr ⟨i,hi,exist,rfl⟩,rfl⟩,index⟩

/-! ### The second loop -/

theorem soundMember {status : Vector Int numRelTones} {octave : Int} {keys : List (Fin numRelTones)}
    {leds : Word} {x : Action} :
    x ∈ (soundWindow status octave keys leds).1 ↔
      ∃ i ∈ keys, relToAbsTone i octave ≠ -1 ∧
        x = .synth (if status.get i ≠ 0 then .keyOn else .keyOff)
          (BitVec.ofInt 32 (relToAbsTone i octave)) := by
  induction keys generalizing leds with
  | nil => simp [soundWindow]
  | cons i rest ih =>
    simp only [soundWindow]
    split
    · rename_i exist
      by_cases held : status.get i ≠ 0
      · simp only [if_pos held,List.mem_cons,ih,exists_eq_or_imp,and_iff_right exist]
      · simp only [if_neg held,List.mem_cons,ih,exists_eq_or_imp,and_iff_right exist]
    · rename_i missing
      simp only [ih,List.mem_cons,exists_eq_or_imp,missing,false_and,false_or]

theorem soundWritesStatus {status : Vector Int numRelTones} {octave : Int}
    {keys : List (Fin numRelTones)} {leds : Word} {p : List Action}
    (part : p <+: (soundWindow status octave keys leds).1) {a : Nat} :
    ∀ x ∈ soundWrites p, x.index = a →
      ∃ i ∈ keys, Addresses i octave a ∧ x.bit = decide (status.get i ≠ 0) := by
  intro x member index
  obtain ⟨action,hp,same⟩ := List.mem_filterMap.mp member
  obtain ⟨i,hi,exist,rfl⟩ := soundMember.mp (part.subset hp)
  by_cases held : status.get i ≠ 0
  · rw [if_pos held] at same
    cases Option.some.inj same
    exact ⟨i,hi,⟨exist,index⟩,(decide_eq_true held).symm⟩
  · rw [if_neg held] at same
    cases Option.some.inj same
    exact ⟨i,hi,⟨exist,index⟩,(decide_eq_false held).symm⟩

theorem soundIndices {status : Vector Int numRelTones} {octave : Int} {keys : List (Fin numRelTones)}
    {leds : Word} {a : Nat} :
    a ∈ (soundWrites (soundWindow status octave keys leds).1).map Write.index ↔
      ∃ i ∈ keys, Addresses i octave a := by
  simp only [soundWrites,List.mem_map,List.mem_filterMap]
  constructor
  · rintro ⟨x,⟨action,member,same⟩,index⟩
    have write : x ∈ soundWrites (soundWindow status octave keys leds).1 :=
      List.mem_filterMap.mpr ⟨action,member,same⟩
    obtain ⟨i,hi,named,_⟩ := soundWritesStatus (List.prefix_refl _) x write index
    exact ⟨i,hi,named⟩
  · rintro ⟨i,hi,exist,index⟩
    have member : Action.synth (if status.get i ≠ 0 then .keyOn else .keyOff)
        (BitVec.ofInt 32 (relToAbsTone i octave)) ∈ (soundWindow status octave keys leds).1 :=
      soundMember.mpr ⟨i,hi,exist,rfl⟩
    by_cases held : status.get i ≠ 0
    · rw [if_pos held] at member
      exact ⟨_,⟨_,member,rfl⟩,index⟩
    · rw [if_neg held] at member
      exact ⟨_,⟨_,member,rfl⟩,index⟩

end FpgaSynthesizer.ToneWindow
