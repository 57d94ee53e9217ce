import FpgaSynthesizer.VoiceOutputs

/-! Which chords the 16-bit mixer adds exactly. A voice reaches a quarter of the
range, so four held keys always fit; five keys of one window leave the range
together in the first quarter of their period. -/
namespace FpgaSynthesizer.MixerRange
open WaveGen WrappedSum Voices VoiceOutputs

/- The keys of the keyboard's window, all of which may be held at once. -/
def numRelTones : Nat := 18

def heldKeys (keys : BitVec numNotes) : Nat :=
  (List.finRange numNotes).countP (fun i : Fin numNotes => keys.getLsbD i)

def InWindow (octave : Nat) (keys : BitVec numNotes) : Prop :=
  ∀ i : Fin numNotes, keys.getLsbD i = true → 12*octave ≤ i.val ∧ i.val ≤ 12*octave + 17
instance (octave keys) : Decidable (InWindow octave keys) := by unfold InWindow; infer_instance

def Chord (octave most : Nat) : Event → Prop
  | .lrckFall => True
  | .keys keys => InWindow octave keys ∧ heldKeys keys ≤ most
  | .effects effects => selected effects = 0b0001
instance (octave most) : (e : Event) → Decidable (Chord octave most e)
  | .lrckFall => inferInstanceAs (Decidable True)
  | .keys keys => inferInstanceAs (Decidable (InWindow octave keys ∧ heldKeys keys ≤ most))
  | .effects effects => inferInstanceAs (Decidable (selected effects = 0b0001))

def sineBank : Bank := ⟨0,0b0001,restVoices⟩

def Exact (b : Bank) : Prop := (soundO b).toInt = integerSum (music b)

structure Playing (octave most : Nat) (b : Bank) : Prop where
  wave : selected b.effects = 0b0001
  window : InWindow octave b.keys
  few : heldKeys b.keys ≤ most
  current : ∀ i : Fin numNotes, (b.voice i).music = sine (phase (b.voice i).ramp)
  idle : ∀ i : Fin numNotes, b.keys.getLsbD i = false → (b.voice i).ramp = 0

theorem sineBankPlaying (octave most : Nat) : Playing octave most sineBank := by
  refine ⟨rfl,?_,?_,?_,?_⟩
  · intro i down
    simp [sineBank] at down
  · simp [heldKeys,sineBank]
  · intro i
    rw [sineBank,restVoice]
    rfl
  · intro i _
    rw [sineBank,restVoice]

theorem playingSettled {octave most : Nat} {b : Bank} (playing : Playing octave most b) : Settled 0b0001 b :=
  ⟨playing.wave,playing.current,playing.idle⟩

theorem chordKeeps {octave most : Nat} {e : Event} (chord : Chord octave most e) : Keeps 0b0001 e := by
  cases e with
  | lrckFall => trivial
  | keys keys => trivial
  | effects effects => exact chord

theorem playingStep {octave most : Nat} {b : Bank} (playing : Playing octave most b) {e : Event}
    (chord : Chord octave most e) : Playing octave most (step b e) := by
  have settled := settledStep (.inl rfl) (playingSettled playing) (chordKeeps chord)
  have held : InWindow octave (step b e).keys ∧ heldKeys (step b e).keys ≤ most := by
    cases e with
    | lrckFall =>
      rw [fallKeys]
      exact ⟨playing.window,playing.few⟩
    | keys keys =>
      rw [keysKeys]
      exact chord
    | effects effects =>
      rw [effectsKeys]
      exact ⟨playing.window,playing.few⟩
  exact ⟨settled.selection,held.1,held.2,settled.current,settled.idle⟩

theorem playingRun {octave most : Nat} {b : Bank} (playing : Playing octave most b) (events : List Event)
    (chords : ∀ e ∈ events, Chord octave most e) : Playing octave most (run b events) := by
  induction events generalizing b with
  | nil => exact playing
  | cons e rest ih =>
    exact ih (playingStep playing (chords e List.mem_cons_self))
      (fun x hx => chords x (List.mem_cons_of_mem e hx))

/-! ### Four keys fit -/

theorem silentVoice {octave most : Nat} {b : Bank} (playing : Playing octave most b) {i : Fin numNotes}
    (up : b.keys.getLsbD i = false) : (b.voice i).music = 0 := by
  rw [playing.current i,playing.idle i up]
  rfl

theorem voicesHeld {octave most : Nat} {b : Bank} (playing : Playing octave most b) :
    (music b).countP nonzero ≤ heldKeys b.keys := by
  rw [music,List.countP_map,heldKeys]
  apply List.countP_mono_left
  intro i _ sounding
  cases up : b.keys.getLsbD i with
  | true => rfl
  | false => exact absurd (silentVoice playing up) (of_decide_eq_true sounding)

theorem topWindow {keys : BitVec numNotes} (window : InWindow 7 keys) : heldKeys keys ≤ 4 := by
  have four : (List.finRange numNotes).countP (fun i => decide (84 ≤ i.val)) = 4 := by decide
  rw [heldKeys,← four]
  apply List.countP_mono_left
  intro i _ down
  exact decide_eq_true (window i down).1

theorem fewExact {octave most : Nat} {b : Bank} (playing : Playing octave most b)
    (few : heldKeys b.keys ≤ 4) : Exact b := by
  have bounded : ∀ x ∈ music b, x ≠ 0 → -8192 ≤ x.toInt ∧ x.toInt ≤ 8191 := by
    intro x member _
    obtain ⟨i,_,rfl⟩ := List.mem_map.mp member
    rw [playing.current i]
    exact sineQuarter _
  obtain ⟨lower,upper⟩ := integerSumBounds (music b) bounded
  have count := voicesHeld playing
  rw [Exact,soundO,sumExact (by decide)]
  unfold Fits
  omega

/-! ### Five keys do not -/

def fiveKeys (octave : Nat) : BitVec numNotes := 31#88 <<< (12*octave)

/- The first samples at which the lowest of the five is on its crest. -/
def crestFalls (octave : Nat) : Nat := #v[380,187,94,47,24,12,6].toList.getD octave 0

def chordHistory (octave : Nat) : List Event :=
  .keys (fiveKeys octave) :: List.replicate (crestFalls octave) .lrckFall

theorem octaveCases {octave : Nat} (below : octave ≤ 6) :
    octave = 0 ∨ octave = 1 ∨ octave = 2 ∨ octave = 3 ∨ octave = 4 ∨ octave = 5 ∨ octave = 6 := by
  omega

theorem fiveInWindow {octave : Nat} (below : octave ≤ 6) :
    InWindow octave (fiveKeys octave) ∧ heldKeys (fiveKeys octave) = 5 := by
  rcases octaveCases below with rfl | rfl | rfl | rfl | rfl | rfl | rfl <;> decide +kernel

theorem fiveCrest {octave : Nat} (below : octave ≤ 6) {i : Fin numNotes}
    (down : (fiveKeys octave).getLsbD i = true) :
    10240 ≤ Accumulator.value 60000 (freq i).toNat (crestFalls octave) ∧
      Accumulator.value 60000 (freq i).toNat (crestFalls octave) < 23552 := by
  revert i
  rcases octaveCases below with rfl | rfl | rfl | rfl | rfl | rfl | rfl <;> decide +kernel

theorem chordHistoryChords {octave : Nat} (below : octave ≤ 6) {most : Nat} (five : 5 ≤ most) :
    ∀ e ∈ chordHistory octave, Chord octave most e := by
  intro e member
  obtain ⟨window,count⟩ := fiveInWindow below
  rcases List.mem_cons.mp member with rfl | falls
  · refine ⟨window,?_⟩
    rw [count]
    exact five
  · rw [List.eq_of_mem_replicate falls]
    trivial

theorem chordPlaying {octave : Nat} (below : octave ≤ 6) :
    Playing octave 5 (run sineBank (chordHistory octave)) :=
  playingRun (sineBankPlaying octave 5) _ (chordHistoryChords below (Nat.le_refl 5))

theorem fallsKeys (b : Bank) (n : Nat) : (run b (List.replicate n .lrckFall)).keys = b.keys := by
  induction n generalizing b with
  | zero => rfl
  | succ n ih => rw [List.replicate_succ,runCons,ih,fallKeys]

theorem chordKeys (octave : Nat) : (run sineBank (chordHistory octave)).keys = fiveKeys octave := by
  rw [chordHistory,runCons,fallsKeys,keysKeys]

theorem phaseBits (ramp : BitVec 16) : (phase ramp).toNat = ramp.toNat / 1024 := by
  have small := ramp.isLt
  rw [phase,BitVec.extractLsb'_toNat,Nat.shiftRight_eq_div_pow]
  omega

theorem chordVoice {octave : Nat} (below : octave ≤ 6) {i : Fin numNotes}
    (down : (fiveKeys octave).getLsbD i = true) :
    6808 ≤ ((run sineBank (chordHistory octave)).voice i).music.toInt := by
  have pressed : (step sineBank (.keys (fiveKeys octave))).keys.getLsbD i = true := by
    rw [keysKeys]
    exact down
  have start : ((step sineBank (.keys (fiveKeys octave))).voice i).ramp.toNat =
      Accumulator.value 60000 (freq i).toNat 0 := by
    rw [keysVoice,down,Bool.not_true,Bool.and_false,Accumulator.valueZero,sineBank,restVoice]
    rfl
  have holding : ∀ e ∈ List.replicate (crestFalls octave) Event.lrckFall, Holding i e := by
    intro e member
    rw [List.eq_of_mem_replicate member]
    trivial
  have falls : lrckFalls (List.replicate (crestFalls octave) .lrckFall) = crestFalls octave :=
    List.count_replicate_self
  obtain ⟨_,ramp⟩ := heldRun pressed start _ holding
  have crest := fiveCrest below down
  rw [falls,Nat.zero_add] at ramp
  rw [← runCons,← chordHistory] at ramp
  rw [(chordPlaying below).current i]
  apply sineCrest
  · rw [phaseBits,ramp]
    omega
  · rw [phaseBits,ramp]
    omega

theorem chordOverflows {octave : Nat} (below : octave ≤ 6) :
    ¬ Exact (run sineBank (chordHistory octave)) := by
  have playing := chordPlaying below
  have loud : ∀ x ∈ music (run sineBank (chordHistory octave)),
      x ≠ 0 → 6808 ≤ x.toInt ∧ x.toInt ≤ 8191 := by
    intro x member sounding
    obtain ⟨i,_,rfl⟩ := List.mem_map.mp member
    cases down : (fiveKeys octave).getLsbD i with
    | false =>
      rw [← chordKeys] at down
      exact absurd (silentVoice playing down) sounding
    | true =>
      refine ⟨chordVoice below down,?_⟩
      rw [playing.current i]
      exact (sineQuarter _).2
  have five : 5 ≤ (music (run sineBank (chordHistory octave))).countP nonzero := by
    rw [← (fiveInWindow below).2,music,List.countP_map,heldKeys]
    apply List.countP_mono_left
    intro i _ down
    have high := chordVoice below down
    apply decide_eq_true
    intro silent
    change ((run sineBank (chordHistory octave)).voice i).music = 0 at silent
    rw [silent] at high
    exact absurd high (by decide)
  obtain ⟨lower,_⟩ := integerSumBounds _ loud
  rw [Exact,soundO,sumExact (by decide)]
  unfold Fits
  omega

theorem mixerExactUpToFour (octave most : Nat) (below : octave ≤ 7) :
    (∀ events, (∀ e ∈ events, Chord octave most e) → Exact (run sineBank events)) ↔
      most ≤ 4 ∨ octave = 7 := by
  constructor
  · intro exact
    by_contra more
    have octave6 : octave ≤ 6 := by omega
    exact chordOverflows octave6 (exact _ (chordHistoryChords octave6 (by omega)))
  · intro few events chords
    have playing := playingRun (sineBankPlaying octave most) events chords
    apply fewExact playing
    rcases few with four | rfl
    · exact Nat.le_trans playing.few four
    · exact topWindow playing.window

theorem fourKeysExact : (∀ e ∈ [Event.keys 0xf,.lrckFall], Chord 0 4 e) ∧
    Exact (run sineBank [.keys 0xf,.lrckFall]) := by
  have chords : ∀ e ∈ [Event.keys 0xf,.lrckFall], Chord 0 4 e := by decide +kernel
  exact ⟨chords,(mixerExactUpToFour 0 4 (by decide)).mpr (.inl (by decide)) _ chords⟩

theorem fiveKeysOverflow :
    (∀ e ∈ chordHistory 4, Chord 4 numRelTones e) ∧ ¬ Exact (run sineBank (chordHistory 4)) :=
  ⟨chordHistoryChords (by decide) (by decide),chordOverflows (by decide)⟩

end FpgaSynthesizer.MixerRange
