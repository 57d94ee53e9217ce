import FpgaSynthesizer.ToneCalls
import FpgaSynthesizer.ToneWindow

/-! Agreement of the program's tone table with the synthesizer's registers,
kept by every call as long as no octave overflows an int. -/
namespace FpgaSynthesizer.ToneAgreement
open RegisterBits ToneProgram ToneCalls ToneWindow
open SynthCi (Opcode)

def Sounding (status : Vector Int numRelTones) (octave a : Int) : Prop :=
  ∃ i : Fin numRelTones, status.get i = 1 ∧ (i : Int) + 12*octave = a

def Mirrored (status : Vector Int numRelTones) (octave : Int) (a : Nat) : Prop :=
  ∃ i : Fin numRelTones, status.get i = 1 ∧ Addresses i octave a

def StatusBits (status : Vector Int numRelTones) : Prop :=
  ∀ i : Fin numRelTones, status.get i = 0 ∨ status.get i = 1

def sounds (b : Board) (a : Nat) : Bool := b.synth.curSounds.getLsbD a

theorem mirroredFits {status : Vector Int numRelTones} {octave : Int} (fits : OctaveFits octave) {a : Nat}
    (inside : a < 88) : Mirrored status octave a ↔ Sounding status octave a := by
  simp only [Mirrored,Sounding,windowIndex fits _ inside]

/-! ### The loops, at every prefix of their commands -/

theorem silencePart {b : Board} {octave : Int} {keys : List (Fin numRelTones)} {p : List Action}
    (part : p <+: silenceWindow octave keys) {a : Nat} (inside : a < 88)
    (on : sounds (performAll b p) a = true) : sounds b a = true := by
  have off := silenceWritesOff part
  rw [sounds,performSounds,writeAllGet _ _ (fun x hx _ => off x hx) inside] at on
  split at on
  · contradiction
  · exact on

theorem silenceAll {b : Board} {octave : Int}
    (window : ∀ a : Nat, a < 88 → sounds b a = true → ∃ i : Fin numRelTones, Addresses i octave a)
    {a : Nat} (inside : a < 88) :
    sounds (performAll b (silenceWindow octave (List.finRange numRelTones))) a = false := by
  have off := silenceWritesOff (List.prefix_refl (silenceWindow octave (List.finRange numRelTones)))
  rw [sounds,performSounds,writeAllGet _ _ (fun x hx _ => off x hx) inside]
  split
  · rfl
  · rename_i untouched
    rw [silenceIndices] at untouched
    by_contra on
    obtain ⟨i,named⟩ := window a inside (by simpa [sounds] using on)
    exact untouched ⟨i,List.mem_finRange i,named⟩

theorem soundBit {b : Board} {status : Vector Int numRelTones} {octave : Int} (bits : StatusBits status)
    {keys : List (Fin numRelTones)} {leds : Word} {p : List Action}
    (part : p <+: (soundWindow status octave keys leds).1) {a : Nat} (inside : a < 88) :
    sounds (performAll b p) a = true ↔
      if a ∈ (soundWrites p).map Write.index then Mirrored status octave a else sounds b a = true := by
  have writes := soundWritesStatus part (a := a)
  by_cases hit : a ∈ (soundWrites p).map Write.index
  · obtain ⟨x,hx,index⟩ := List.mem_map.mp hit
    obtain ⟨i,_,named,_⟩ := writes x hx index
    have agree : ∀ y ∈ soundWrites p, y.index = a → y.bit = decide (status.get i ≠ 0) := by
      intro y hy same
      obtain ⟨j,_,other,bit⟩ := writes y hy same
      cases addressUnique named other
      exact bit
    rw [sounds,performSounds,writeAllGet _ _ agree inside,if_pos hit,if_pos hit,decide_eq_true_iff]
    constructor
    · intro held
      exact ⟨i,(bits i).resolve_left held,named⟩
    · rintro ⟨j,held,other⟩
      cases addressUnique named other
      rw [held]
      decide
  · have agree : ∀ y ∈ soundWrites p, y.index = a → y.bit = false :=
      fun y hy same => absurd (List.mem_map.mpr ⟨y,hy,same⟩) hit
    rw [if_neg hit,sounds,performSounds,writeAllGet _ _ agree inside,if_neg hit]
    rfl

theorem soundPart {b : Board} {status : Vector Int numRelTones} {octave : Int} (bits : StatusBits status)
    (quiet : ∀ a : Nat, a < 88 → sounds b a = false)
    {keys : List (Fin numRelTones)} {leds : Word} {p : List Action}
    (part : p <+: (soundWindow status octave keys leds).1) {a : Nat} (inside : a < 88)
    (on : sounds (performAll b p) a = true) : Mirrored status octave a := by
  rw [soundBit bits part inside] at on
  split at on
  · exact on
  · rw [quiet a inside] at on
    contradiction

theorem soundAll {b : Board} {status : Vector Int numRelTones} {octave : Int} (bits : StatusBits status)
    (quiet : ∀ a : Nat, a < 88 → sounds b a = false) {leds : Word}
    {a : Nat} (inside : a < 88) :
    sounds (performAll b (soundWindow status octave (List.finRange numRelTones) leds).1) a = true ↔
      Mirrored status octave a := by
  rw [soundBit bits (List.prefix_refl _) inside]
  split
  · rfl
  · rename_i untouched
    rw [soundIndices] at untouched
    rw [quiet a inside]
    constructor
    · intro on
      contradiction
    · rintro ⟨i,_,named⟩
      exact absurd ⟨i,List.mem_finRange i,named⟩ untouched

theorem setLedsSounds (b : Board) (val : Word) (a : Nat) :
    sounds (performAll b [.setLeds val]) a = sounds b a := rfl

/-! ### What a key leaves in cur_sounds -/

theorem mirroredWindow {s : System}
    (mirrored : ∀ a : Nat, a < 88 →
      (sounds s.board a = true ↔ Mirrored s.statics.tonesStatus s.statics.prevOctave a)) :
    ∀ a : Nat, a < 88 → sounds s.board a = true →
      ∃ i : Fin numRelTones, Addresses i s.statics.prevOctave a := by
  intro a inside on
  obtain ⟨i,_,named⟩ := (mirrored a inside).mp on
  exact ⟨i,named⟩

theorem shiftSounds {b : Board} {status : Vector Int numRelTones} (bits : StatusBits status) {old : Int}
    (window : ∀ a : Nat, a < 88 → sounds b a = true → ∃ i : Fin numRelTones, Addresses i old a)
    (octave : Int) {a : Nat} (inside : a < 88) :
    sounds (performAll b (shiftActions status old octave)) a = true ↔ Mirrored status octave a := by
  have quiet := fun x hx => silenceAll window (a := x) hx
  simp only [shiftActions,performAllAppend,setLedsSounds]
  exact soundAll bits quiet inside

theorem pressStatus (s : Statics) (i j : Fin numRelTones) (opcode : Opcode) :
    (press s i opcode).tonesStatus.get j =
      if i = j then (if opcode = .keyOn then 1 else 0) else s.tonesStatus.get j := by
  rw [press,statusSet]

theorem pressBits {s : Statics} (bits : StatusBits s.tonesStatus) (i : Fin numRelTones) (opcode : Opcode) :
    StatusBits (press s i opcode).tonesStatus := by
  intro j
  rw [pressStatus]
  split
  · split
    · exact .inr rfl
    · exact .inl rfl
  · exact bits j

theorem pressMirrored (s : Statics) (i : Fin numRelTones) (opcode : Opcode) (octave : Int) (a : Nat) :
    (Addresses i octave a → (Mirrored (press s i opcode).tonesStatus octave a ↔ opcode = .keyOn)) ∧
    (¬ Addresses i octave a →
      (Mirrored (press s i opcode).tonesStatus octave a ↔ Mirrored s.tonesStatus octave a)) := by
  simp only [Mirrored,pressStatus]
  refine ⟨?_,?_⟩
  · intro own
    constructor
    · rintro ⟨j,held,named⟩
      cases addressUnique own named
      by_contra off
      simp [off] at held
    · intro on
      exact ⟨i,by simp [on],own⟩
  · intro other
    have apart : ∀ j : Fin numRelTones, Addresses j octave a → i ≠ j :=
      fun j named h => other (h ▸ named)
    constructor
    · rintro ⟨j,held,named⟩
      exact ⟨j,by simpa only [if_neg (apart j named)] using held,named⟩
    · rintro ⟨j,held,named⟩
      exact ⟨j,by simpa only [if_neg (apart j named)] using held,named⟩

theorem noteWrites (i : Fin numRelTones) (octave : Int) (opcode : Opcode) :
    soundWrites (noteActions i octave opcode) =
      if relToAbsTone i octave ≠ -1 then
        [⟨(BitVec.ofInt 32 (relToAbsTone i octave)).toNat,decide (opcode = .keyOn)⟩]
      else [] := by
  unfold noteActions
  by_cases exist : relToAbsTone i octave ≠ -1
  · by_cases on : opcode = .keyOn
    · simp only [if_pos exist,if_pos on,decide_eq_true on]
      rfl
    · simp only [if_pos exist,if_neg on,decide_eq_false on]
      rfl
  · simp only [if_neg exist]
    rfl

theorem noteSounds (b : Board) (i : Fin numRelTones) (octave : Int) (opcode : Opcode) {a : Nat}
    (inside : a < 88) :
    (Addresses i octave a →
      (sounds (performAll b (noteActions i octave opcode)) a = true ↔ opcode = .keyOn)) ∧
    (¬ Addresses i octave a →
      (sounds (performAll b (noteActions i octave opcode)) a = true ↔ sounds b a = true)) := by
  rw [sounds,performSounds,noteWrites]
  by_cases exist : relToAbsTone i octave ≠ -1
  · rw [if_pos exist]
    change (_ → ((writeBit b.synth.curSounds _ _).getLsbD a = true ↔ _)) ∧
      (_ → ((writeBit b.synth.curSounds _ _).getLsbD a = true ↔ _))
    rw [writeBitGet]
    refine ⟨?_,?_⟩
    · intro own
      rw [if_pos ⟨own.2,inside⟩,decide_eq_true_iff]
    · intro other
      rw [if_neg (fun h => other ⟨exist,h.1⟩)]
      rfl
  · rw [if_neg exist]
    exact ⟨fun own => absurd own.1 exist,fun _ => Iff.rfl⟩

/-! ### Effects -/

theorem keyEffectWrites (s : Statics) (key : Word) : effectWrites (handleKey s key).2 = [] := by
  rw [effectWrites,List.filterMap_eq_nil_iff]
  intro x member
  rcases handleKeyCases s key with ⟨_,same⟩ | ⟨_,i,_,same⟩ | ⟨_,_,same⟩
  · rw [same] at member
    simp only [shiftActions,List.mem_append,silenceMember,soundMember,List.mem_singleton] at member
    rcases member with (⟨i,_,_,rfl⟩ | ⟨i,_,_,rfl⟩) | rfl
    · rfl
    · split <;> rfl
    · rfl
  · rw [same] at member
    simp only [noteActions] at member
    split at member
    · split at member
      · rcases List.mem_pair.mp member with rfl | rfl <;> rfl
      · rcases List.mem_pair.mp member with rfl | rfl <;> rfl
    · simp at member
  · rw [same] at member
    simp at member

theorem switchEffectWrites {s : Statics} {sw : Word} (changed : sw ≠ s.prevSw) :
    effectWrites (handleSwitches s sw).2 = [⟨0,sw.getLsbD 0⟩,⟨1,sw.getLsbD 1⟩] := by
  have first : sw &&& 0x1 ≠ 0 ↔ sw.getLsbD 0 = true := by
    change sw &&& BitVec.twoPow 32 0 ≠ 0 ↔ _
    rw [BitVec.and_twoPow]
    cases sw.getLsbD 0 <;> decide
  have second : sw &&& 0x2 ≠ 0 ↔ sw.getLsbD 1 = true := by
    change sw &&& BitVec.twoPow 32 1 ≠ 0 ↔ _
    rw [BitVec.and_twoPow]
    cases sw.getLsbD 1 <;> decide
  simp only [handleSwitches,if_pos changed,first,second]
  cases sw.getLsbD 0 <;> cases sw.getLsbD 1 <;> rfl

theorem switchSoundWrites (s : Statics) (sw : Word) : soundWrites (handleSwitches s sw).2 = [] := by
  rw [soundWrites,List.filterMap_eq_nil_iff]
  intro x member
  unfold handleSwitches at member
  split at member
  · rcases List.mem_pair.mp member with rfl | rfl <;> split <;> rfl
  · simp at member

theorem lowBitsWritten (v sw : Word) :
    writeAll ((v.setWidth 2).setWidth 18) [⟨0,sw.getLsbD 0⟩,⟨1,sw.getLsbD 1⟩] =
      (sw.setWidth 2).setWidth 18 := by
  apply BitVec.eq_of_getLsbD_eq
  intro j inside
  simp only [writeAll,List.foldl_cons,List.foldl_nil,writeBitGet,BitVec.getLsbD_setWidth]
  by_cases one : 1 = j
  · subst one
    simp
  · by_cases zero : 0 = j
    · subst zero
      simp
    · have high : ¬ j < 2 := by omega
      simp [one,zero,high]

/-! ### The invariants -/

structure Mirrors (s : System) : Prop where
  bits : StatusBits s.statics.tonesStatus
  sounding : ∀ a : Nat, a < 88 →
    (sounds s.board a = true ↔ Mirrored s.statics.tonesStatus s.statics.prevOctave a)

structure Agree (s : System) : Prop where
  bits : StatusBits s.statics.tonesStatus
  sounding : ∀ a : Nat, a < 88 →
    (sounds s.board a = true ↔ Sounding s.statics.tonesStatus s.statics.prevOctave a)
  effects : s.board.synth.curEffects = (s.statics.prevSw.setWidth 2).setWidth 18

theorem initialBits : StatusBits initial.tonesStatus := fun i => .inl (initialStatus i)

theorem powerUpMirrors : Mirrors powerUp := by
  refine ⟨initialBits,?_⟩
  intro a _
  constructor
  · intro on
    simp [sounds,powerUp] at on
  · rintro ⟨i,held,_⟩
    change initial.tonesStatus.get i = 1 at held
    rw [initialStatus] at held
    contradiction

theorem agreeMirrors {s : System} (agree : Agree s) (fits : OctaveFits s.statics.prevOctave) : Mirrors s :=
  ⟨agree.bits,fun a inside => (agree.sounding a inside).trans (mirroredFits fits inside).symm⟩

theorem mirrorsAgree {s : System} (mirrors : Mirrors s) (fits : OctaveFits s.statics.prevOctave)
    (effects : s.board.synth.curEffects = (s.statics.prevSw.setWidth 2).setWidth 18) : Agree s :=
  ⟨mirrors.bits,fun a inside => (mirrors.sounding a inside).trans (mirroredFits fits inside),effects⟩

theorem powerUpAgree : Agree powerUp := mirrorsAgree powerUpMirrors (by decide) rfl

theorem agreeWindow {s : System} (agree : Agree s) :
    ∀ a : Nat, a < 88 → sounds s.board a = true →
      ∃ i : Fin numRelTones, (i : Int) + 12*s.statics.prevOctave = a := by
  intro a inside on
  obtain ⟨i,_,tone⟩ := (agree.sounding a inside).mp on
  exact ⟨i,tone⟩

/-! ### Calls and runs -/

theorem callBits {s : System} (bits : StatusBits s.statics.tonesStatus) (c : Call) :
    StatusBits (call s c).statics.tonesStatus := by
  cases c with
  | key key =>
    rcases handleKeyCases s.statics key with ⟨_,same⟩ | ⟨_,i,_,same⟩ | ⟨_,_,same⟩
    · simp only [call,handle,same]
      exact bits
    · simp only [call,handle,same]
      exact pressBits bits i _
    · simp only [call,handle,same]
      exact bits
  | switches sw =>
    rw [switchesKeep]
    exact bits

theorem callMirrors {s : System} (mirrors : Mirrors s) (c : Call) : Mirrors (call s c) := by
  refine ⟨callBits mirrors.bits c,?_⟩
  intro a inside
  cases c with
  | key key =>
    rcases handleKeyCases s.statics key with ⟨_,same⟩ | ⟨_,i,_,same⟩ | ⟨_,_,same⟩
    · simp only [call,handle,same]
      exact shiftSounds mirrors.bits (mirroredWindow mirrors.sounding) _ inside
    · simp only [call,handle,same]
      change _ ↔ Mirrored (press s.statics i _).tonesStatus s.statics.prevOctave a
      have note := noteSounds s.board i s.statics.prevOctave (keyOpcode key) inside
      have table := pressMirrored s.statics i (keyOpcode key) s.statics.prevOctave a
      by_cases own : Addresses i s.statics.prevOctave a
      · rw [note.1 own,table.1 own]
      · rw [note.2 own,table.2 own,mirrors.sounding a inside]
    · simp only [call,handle,same]
      exact mirrors.sounding a inside
  | switches sw =>
    rw [switchesKeep,switchesOctave]
    simp only [call,handle,sounds,performSounds,switchSoundWrites]
    exact mirrors.sounding a inside

theorem runMirrors {s : System} (mirrors : Mirrors s) (calls : List Call) : Mirrors (run s calls) := by
  induction calls generalizing s with
  | nil => exact mirrors
  | cons c rest ih => exact ih (callMirrors mirrors c)

theorem callEffects {s : System} (effects : s.board.synth.curEffects = (s.statics.prevSw.setWidth 2).setWidth 18)
    (c : Call) : (call s c).board.synth.curEffects = ((call s c).statics.prevSw.setWidth 2).setWidth 18 := by
  cases c with
  | key key =>
    have kept : (handleKey s.statics key).1.prevSw = s.statics.prevSw := by
      rcases handleKeyCases s.statics key with ⟨_,same⟩ | ⟨_,_,_,same⟩ | ⟨_,_,same⟩
      · rw [same]
      · rw [same,press]
      · rw [same]
    simp only [call,handle,performEffects,keyEffectWrites,kept]
    exact effects
  | switches sw =>
    simp only [call,handle,performEffects,effects]
    by_cases changed : sw ≠ s.statics.prevSw
    · rw [switchEffectWrites changed,lowBitsWritten]
      simp only [handleSwitches,if_pos changed]
    · simp [handleSwitches,effectWrites,writeAll,not_ne_iff.mp changed]

theorem callAgree {s : System} (agree : Agree s) (c : Call) (before : OctaveFits s.statics.prevOctave)
    (after : OctaveFits (call s c).statics.prevOctave) : Agree (call s c) :=
  mirrorsAgree (callMirrors (agreeMirrors agree before) c) after (callEffects agree.effects c)

def NoOverflow (s : System) (calls : List Call) : Prop :=
  ∀ p, p <+: calls → OctaveFits (run s p).statics.prevOctave

theorem runAgree {s : System} (agree : Agree s) {calls : List Call} (fits : NoOverflow s calls) :
    Agree (run s calls) := by
  induction calls generalizing s with
  | nil => exact agree
  | cons c rest ih =>
    have before : OctaveFits s.statics.prevOctave := fits [] List.nil_prefix
    have after : OctaveFits (call s c).statics.prevOctave := fits [c] ⟨rest,rfl⟩
    refine ih (callAgree agree c before after) ?_
    intro p part
    exact fits (c :: p) (List.cons_prefix_cons.mpr ⟨rfl,part⟩)

end FpgaSynthesizer.ToneAgreement
