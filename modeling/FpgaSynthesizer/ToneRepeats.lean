import FpgaSynthesizer.ToneKeys
import FpgaSynthesizer.ToneLeds
import FpgaSynthesizer.ToneRange

/-! A key code that the keyboard sends again while the key is held. The tone table
and the octave decide both device registers, so two runs of keys end in the same
state exactly when they agree on these; a note's code may come twice, an octave
key's may not. -/
namespace FpgaSynthesizer.ToneRepeats
open ToneProgram ToneCalls ToneAgreement ToneLeds ToneKeys ToneRange
open KeyPath (noteKeys)

def MakeCode (key : Word) : Prop := OctaveKey key ∨ ∃ i : Fin numRelTones, key = noteKeys.get i
instance (key) : Decidable (MakeCode key) := by unfold MakeCode; infer_instance

def breakCode (key : Word) : Word := 0xf000 + key

def StillDown (before : List Word) (key : Word) : Prop :=
  ∃ p q, before = p ++ key :: q ∧ breakCode key ∉ q

def Harmless (before : List Word) (key : Word) (after : List Word) : Prop :=
  ∃ i : Fin numRelTones, key = noteKeys.get i ∧
    (heldBy i before = true ∨ ∃ x ∈ after, touches i x = true)

/-! ### The table and the octave decide the state -/

structure Follows (s : System) : Prop where
  mirrors : Mirrors s
  leds : LedsFollow s
  effects : s.board.synth.curEffects = (s.statics.prevSw.setWidth 2).setWidth 18

theorem callFollows {s : System} (follows : Follows s) (c : Call) : Follows (call s c) :=
  ⟨callMirrors follows.mirrors c,callLeds follows.leds c,callEffects follows.effects c⟩

theorem runFollows {s : System} (follows : Follows s) (calls : List Call) : Follows (run s calls) := by
  induction calls generalizing s with
  | nil => exact follows
  | cons c rest ih => exact ih (callFollows follows c)

theorem powerUpFollows : Follows powerUp := ⟨powerUpMirrors,powerUpLeds,rfl⟩

theorem bitsEqual {w : Nat} {v u : BitVec w}
    (same : ∀ j : Nat, j < w → (v.getLsbD j = true ↔ u.getLsbD j = true)) : v = u := by
  apply BitVec.eq_of_getLsbD_eq
  intro j inside
  exact Bool.eq_iff_iff.mpr (same j inside)

theorem staticsDecide {s t : System} (first : Follows s) (second : Follows t)
    (same : s.statics = t.statics) : s = t := by
  obtain ⟨statics,⟨⟨curSounds,curEffects⟩,leds⟩⟩ := s
  obtain ⟨other,⟨⟨otherSounds,otherEffects⟩,otherLeds⟩⟩ := t
  cases same
  have sounding : curSounds = otherSounds := bitsEqual (fun a inside =>
    (first.mirrors.sounding a inside).trans (second.mirrors.sounding a inside).symm)
  have lights : leds = otherLeds := bitsEqual (fun j inside =>
    (first.leds.leds ⟨j,inside⟩).trans (second.leds.leds ⟨j,inside⟩).symm)
  have effects : curEffects = otherEffects := first.effects.trans second.effects.symm
  rw [sounding,lights,effects]

theorem runKeysFollows (keys : List Word) : Follows (runKeys keys) := runFollows powerUpFollows _

theorem runKeysOctave (keys : List Word) : (runKeys keys).statics.prevOctave = octaveOf keys := by
  induction keys using List.reverseRecOn with
  | nil => rfl
  | append_singleton keys key ih =>
    rw [runKeysSnoc,ToneRuns.callOctave,octaveOf,List.foldl_append,← octaveOf,ih]
    rfl

theorem runKeysSwitches (keys : List Word) : (runKeys keys).statics.prevSw = 0 := by
  have none : (keys.map Call.key).filterMap ToneRuns.switchesOf = [] := by simp [ToneRuns.switchesOf]
  rw [runKeys,ToneRuns.runSwitches,none]
  rfl

theorem heldTable {a b : List Word} :
    (runKeys a).statics.tonesStatus = (runKeys b).statics.tonesStatus ↔
      ∀ i : Fin numRelTones, heldBy i a = heldBy i b := by
  constructor
  · intro same i
    have status := congrArg (fun table => table.get i) same
    simp only [runStatus] at status
    cases first : heldBy i a <;> cases second : heldBy i b <;> simp [first,second] at status ⊢
  · intro same
    apply statusEqual
    intro i
    rw [runStatus,runStatus,same]

theorem sameEnd {a b : List Word} :
    runKeys a = runKeys b ↔ (∀ i : Fin numRelTones, heldBy i a = heldBy i b) ∧ octaveOf a = octaveOf b := by
  rw [← heldTable,← runKeysOctave a,← runKeysOctave b]
  constructor
  · intro same
    rw [same]
    exact ⟨rfl,rfl⟩
  · rintro ⟨table,octave⟩
    apply staticsDecide (runKeysFollows a) (runKeysFollows b)
    have switches := (runKeysSwitches a).trans (runKeysSwitches b).symm
    cases first : (runKeys a).statics
    cases second : (runKeys b).statics
    rw [first,second] at table octave switches
    cases table
    cases octave
    cases switches
    rfl

/-! ### One key more -/

theorem heldByAppend (i : Fin numRelTones) (a b : List Word) :
    heldBy i (a ++ b) = ((b.filter (touches i)).getLast?.map presses).getD (heldBy i a) := by
  rw [heldBy,List.filter_append,List.getLast?_append]
  cases (b.filter (touches i)).getLast? <;> rfl

theorem heldBySkip (i : Fin numRelTones) (before : List Word) (key : Word) (after : List Word) :
    heldBy i (before ++ key :: after) = heldBy i (before ++ after) ↔
      (touches i key = true → (∃ x ∈ after, touches i x = true) ∨ presses key = heldBy i before) := by
  rw [← List.singleton_append,← List.append_assoc,heldByAppend,heldByAppend i before after,heldBySnoc]
  cases last : (after.filter (touches i)).getLast? with
  | none =>
    have alone : ¬ ∃ x ∈ after, touches i x = true := by
      rintro ⟨x,member,touch⟩
      have kept : x ∈ after.filter (touches i) := List.mem_filter.mpr ⟨member,touch⟩
      rw [List.getLast?_eq_none_iff.mp last] at kept
      exact absurd kept List.not_mem_nil
    cases touch : touches i key <;> simp [alone]
  | some x =>
    have kept := List.mem_filter.mp (List.mem_of_getLast? last)
    have later : ∃ x ∈ after, touches i x = true := ⟨x,kept.1,kept.2⟩
    simp [later]

theorem octaveOfInsert (before : List Word) (key : Word) (after : List Word) :
    octaveOf (before ++ key :: after) = after.foldl octaveAfter (octaveAfter (octaveOf before) key) ∧
    octaveOf (before ++ after) = after.foldl octaveAfter (octaveOf before) := by
  refine ⟨?_,?_⟩
  · rw [octaveOf,List.foldl_append,List.foldl_cons]
    rfl
  · rw [octaveOf,List.foldl_append]
    rfl

theorem octaveApart {x y : Int} (apart : x % 2^32 ≠ y % 2^32) (key : Word) :
    octaveAfter x key % 2^32 ≠ octaveAfter y key % 2^32 := by
  unfold octaveAfter
  split
  · rw [int32Mod,int32Mod]
    omega
  · split
    · rw [int32Mod,int32Mod]
      omega
    · exact apart

theorem octavesApart {x y : Int} (apart : x % 2^32 ≠ y % 2^32) (keys : List Word) :
    keys.foldl octaveAfter x ≠ keys.foldl octaveAfter y := by
  induction keys generalizing x y with
  | nil =>
    intro same
    exact apart (congrArg (· % 2^32) same)
  | cons key rest ih => exact ih (octaveApart apart key)

theorem shiftApart (octave : Int) {key : Word} (shift : OctaveKey key) :
    octaveAfter octave key % 2^32 ≠ octave % 2^32 := by
  rcases shift with rfl | rfl
  · rw [octaveAfter,if_pos rfl,int32Mod]
    omega
  · rw [octaveAfter,if_neg (by decide),if_pos rfl,int32Mod]
    omega

/-! ### Repeats -/

theorem noteMake (i : Fin numRelTones) : ¬ OctaveKey (noteKeys.get i) ∧
    presses (noteKeys.get i) = true ∧
    ∀ j : Fin numRelTones, touches j (noteKeys.get i) = true ↔ i = j := by
  revert i
  decide

theorem repeatHarmlessExactly (before after : List Word) (key : Word) (make : MakeCode key) :
    runKeys (before ++ key :: after) = runKeys (before ++ after) ↔ Harmless before key after := by
  obtain ⟨inserted,left⟩ := octaveOfInsert before key after
  rw [sameEnd,inserted,left]
  rcases make with shift | ⟨i,rfl⟩
  · constructor
    · rintro ⟨_,octave⟩
      exact absurd octave (octavesApart (shiftApart (octaveOf before) shift) after)
    · rintro ⟨i,rfl,_⟩
      exact absurd shift (noteMake i).1
  · obtain ⟨note,press,own⟩ := noteMake i
    have octave : octaveAfter (octaveOf before) (noteKeys.get i) = octaveOf before := by
      rw [octaveAfter,if_neg (fun h => note (.inl h)),if_neg (fun h => note (.inr h))]
    rw [octave,and_iff_left rfl]
    simp only [heldBySkip,own,press]
    constructor
    · intro held
      refine ⟨i,rfl,?_⟩
      rcases held i rfl with later | now
      · exact .inr later
      · exact .inl now.symm
    · rintro ⟨k,same,held⟩ j rfl
      have again : i = k := ((noteMake i).2.2 k).mp (by rw [same]; exact ((noteMake k).2.2 k).mpr rfl)
      subst again
      rcases held with now | later
      · exact .inr now.symm
      · exact .inl later

theorem stillHeld {before : List Word} {i : Fin numRelTones} (down : StillDown before (noteKeys.get i))
    (own : ∀ x ∈ before, touches i x = true → presses x = false → x = breakCode (noteKeys.get i)) :
    heldBy i before = true := by
  obtain ⟨p,q,rfl,unbroken⟩ := down
  obtain ⟨_,press,touch⟩ := noteMake i
  rw [← List.singleton_append,← List.append_assoc,heldByAppend,heldBySnoc,if_pos ((touch i).mpr rfl),press]
  cases last : (q.filter (touches i)).getLast? with
  | none => rfl
  | some x =>
    obtain ⟨member,touched⟩ := List.mem_filter.mp (List.mem_of_getLast? last)
    have inside : x ∈ p ++ noteKeys.get i :: q := List.mem_append_right p (List.mem_cons_of_mem _ member)
    cases pressed : presses x with
    | true => exact pressed
    | false => exact absurd (own x inside touched pressed ▸ member) unbroken

theorem noteRepeatHarmless {before : List Word} {i : Fin numRelTones} (after : List Word)
    (down : StillDown before (noteKeys.get i))
    (own : ∀ x ∈ before, touches i x = true → presses x = false → x = breakCode (noteKeys.get i)) :
    Harmless before (noteKeys.get i) after :=
  ⟨i,rfl,.inl (stillHeld down own)⟩

theorem heldNoteComesTwice :
    MakeCode 0x1c ∧ runKeys ([0x1c,0x1a] ++ 0x1c :: [0x1d]) = runKeys ([0x1c,0x1a] ++ [0x1d]) :=
  ⟨by decide,(repeatHarmlessExactly [0x1c,0x1a] [0x1d] 0x1c (by decide)).mpr ⟨0,rfl,.inl (by decide)⟩⟩

theorem heldOctaveKeyShiftsTwice :
    MakeCode 0x1a ∧ StillDown [0x1a] 0x1a ∧ runKeys ([0x1a] ++ 0x1a :: []) ≠ runKeys ([0x1a] ++ []) := by
  refine ⟨by decide,⟨[],[],rfl,by decide⟩,?_⟩
  intro same
  exact absurd (sameEnd.mp same).2 (by decide)

end FpgaSynthesizer.ToneRepeats
