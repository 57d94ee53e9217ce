import FpgaSynthesizer.MixerRange

/-! What the keys that are up add to the mix. Their ramps are parked at zero, where
the sine table is zero and the square table is not; eight parked square waves
cancel in a sample of 16 bits, so the mix is the held keys' own exactly for the
sine wave and for a multiple of eight held keys. -/
namespace FpgaSynthesizer.IdleVoices
open WaveGen WrappedSum Voices VoiceOutputs
open MixerRange (heldKeys)

def held (b : Bank) (i : Fin numNotes) : Bool := b.keys.getLsbD i

def heldMusic (b : Bank) : List Sample := ((List.finRange numNotes).filter (held b)).map (fun i => (b.voice i).music)

def idleKeys (b : Bank) : List (Fin numNotes) := (List.finRange numNotes).filter (fun i => !held b i)

def idleMusic (b : Bank) : List Sample := (idleKeys b).map (fun i => (b.voice i).music)

theorem mixParts (b : Bank) : soundO b = (heldMusic b).sum + (idleMusic b).sum :=
  sumSplit (held b) (fun i => (b.voice i).music) (List.finRange numNotes)

theorem idleCount (b : Bank) : heldKeys b.keys + (idleKeys b).length = 88 := by
  have parts := List.length_eq_countP_add_countP (held b) (l := List.finRange numNotes)
  have own : heldKeys b.keys = (List.finRange numNotes).countP (held b) := rfl
  rw [own,idleKeys,← List.countP_eq_length_filter]
  simpa using parts.symm

theorem idleEntry {wave : BitVec 4} {b : Bank} (settled : Settled wave b) {i : Fin numNotes}
    (up : b.keys.getLsbD i = false) : (b.voice i).music = entry wave 0 := by
  rw [settled.current i,settled.idle i up]
  rfl

theorem idleSum {wave : BitVec 4} {b : Bank} (settled : Settled wave b) :
    (idleMusic b).sum.toNat = (idleKeys b).length*(entry wave 0).toNat % 2^16 := by
  apply sumConstant
  intro i member
  exact idleEntry settled (by simpa [held] using (List.mem_filter.mp member).2)

theorem parkedZero {wave : BitVec 4} (selects : Selects wave) : entry wave 0 = 0 ↔ wave = 0b0001 := by
  rcases selects with rfl | rfl <;> decide

theorem mixHeldExactly {wave : BitVec 4} (selects : Selects wave) {b : Bank} (settled : Settled wave b) :
    soundO b = (heldMusic b).sum ↔ wave = 0b0001 ∨ 8 ∣ heldKeys b.keys := by
  have idle := idleSum settled
  have count := idleCount b
  have silent : (idleMusic b).sum = 0 ↔ (idleMusic b).sum.toNat = 0 := BitVec.toNat_inj.symm
  rw [mixParts,add_eq_left,silent,idle]
  rcases selects with rfl | rfl
  · have parked : (entry 0b0001 0).toNat = 0 := by decide
    rw [parked,Nat.mul_zero]
    exact iff_of_true (Nat.zero_mod _) (.inl rfl)
  · have parked : (entry 0b0010 0).toNat = 8192*7 := by decide
    have other : ¬ (0b0010 : BitVec 4) = 0b0001 := by decide
    -- the square's level is seven eighths of the range of a sample
    have eighths : (idleKeys b).length*(8192*7) % 2^16 = 8192*((idleKeys b).length*7 % 8) := by
      rw [Nat.mul_left_comm]
      exact Nat.mul_mod_mul_left 8192 ((idleKeys b).length*7) 8
    rw [parked,or_iff_right other,eighths]
    omega

theorem idleSilentExactly (effects : BitVec 18) (selects : Selects (selected effects)) (events : List Event)
    (keeps : ∀ e ∈ events, Keeps (selected effects) e) :
    (soundO (run (restBank effects) events) = (heldMusic (run (restBank effects) events)).sum ↔
      selected effects = 0b0001 ∨ 8 ∣ heldKeys (run (restBank effects) events).keys) ∧
    ∀ i : Fin numNotes, (run (restBank effects) events).keys.getLsbD i = false →
      (((run (restBank effects) events).voice i).music = 0 ↔ selected effects = 0b0001) := by
  have settled := settledRun selects (restSettled effects) events keeps
  refine ⟨mixHeldExactly selects settled,?_⟩
  intro i up
  rw [idleEntry settled up]
  exact parkedZero selects

theorem sineChordAlone :
    soundO (run (restBank 0b0001) [.keys 0x7,.lrckFall]) =
      (heldMusic (run (restBank 0b0001) [.keys 0x7,.lrckFall])).sum :=
  (idleSilentExactly 0b0001 (by decide) [.keys 0x7,.lrckFall] (by decide)).1.mpr (.inl rfl)

theorem squareIdleSounds :
    Selects (selected 0b0010) ∧ (∀ e ∈ [Event.keys 1,.lrckFall], Keeps (selected 0b0010) e) ∧
    (heldMusic (run (restBank 0b0010) [.keys 1,.lrckFall])).sum = 0xe000 ∧
    soundO (run (restBank 0b0010) [.keys 1,.lrckFall]) = 0 := by
  decide +kernel

end FpgaSynthesizer.IdleVoices
