import FpgaSynthesizer.Voices

/-! Voices under one wave selection. As long as the selection stays, every output
is the table's entry for its ramp, and a key that is up has its ramp at zero. -/
namespace FpgaSynthesizer.VoiceOutputs
open WaveGen Voices

def Keeps (wave : BitVec 4) : Event → Prop
  | .effects effects => selected effects = wave
  | _ => True
instance (wave) : (e : Event) → Decidable (Keeps wave e)
  | .lrckFall => inferInstanceAs (Decidable True)
  | .keys _ => inferInstanceAs (Decidable True)
  | .effects effects => inferInstanceAs (Decidable (selected effects = wave))

structure Settled (wave : BitVec 4) (b : Bank) : Prop where
  selection : selected b.effects = wave
  current : ∀ i : Fin numNotes, (b.voice i).music = entry wave (phase (b.voice i).ramp)
  idle : ∀ i : Fin numNotes, b.keys.getLsbD i = false → (b.voice i).ramp = 0

def restBank (effects : BitVec 18) : Bank :=
  ⟨0,effects,Vector.replicate numNotes ⟨0,entry (selected effects) 0⟩⟩

theorem restSettled (effects : BitVec 18) : Settled (selected effects) (restBank effects) := by
  have voice : ∀ i : Fin numNotes, (restBank effects).voice i = ⟨0,entry (selected effects) 0⟩ := by
    intro i
    change (Vector.replicate numNotes (⟨0,entry (selected effects) 0⟩ : Voice))[i.val] = _
    rw [Vector.getElem_replicate]
  have parked : phase 0 = 0 := by decide
  refine ⟨rfl,?_,?_⟩
  · intro i
    simp only [voice,parked]
  · intro i _
    rw [voice]

theorem setRampCurrent {wave : BitVec 4} (selects : Selects wave) {v : Voice}
    (current : v.music = entry wave (phase v.ramp)) (ramp : BitVec 16) :
    (v.setRamp wave ramp).music = entry wave (phase ramp) := by
  simp only [Voice.setRamp,musicSelected selects]
  split
  · rename_i same
    rw [current,same]
  · rfl

theorem settledStep {wave : BitVec 4} (selects : Selects wave) {b : Bank} (settled : Settled wave b) {e : Event}
    (keeps : Keeps wave e) : Settled wave (step b e) := by
  cases e with
  | lrckFall =>
    refine ⟨by simpa using settled.selection,?_,?_⟩
    · intro i
      rw [fallVoice,settled.selection,setRampRamp]
      exact setRampCurrent selects (settled.current i) _
    · intro i up
      rw [fallKeys] at up
      rw [fallVoice,setRampRamp,up]
      rfl
  | keys keys =>
    refine ⟨by simpa using settled.selection,?_,?_⟩
    · intro i
      rw [keysVoice,settled.selection]
      split
      · rw [setRampRamp]
        exact setRampCurrent selects (settled.current i) 0
      · exact settled.current i
    · intro i up
      rw [keysKeys] at up
      rw [keysVoice,up]
      cases down : b.keys.getLsbD i with
      | false => exact settled.idle i down
      | true => rfl
  | effects effects =>
    refine ⟨by rw [effectsEffects]; exact keeps,?_,?_⟩
    · intro i
      rw [effectsVoice]
      exact settled.current i
    · intro i up
      rw [effectsKeys] at up
      rw [effectsVoice]
      exact settled.idle i up

theorem settledRun {wave : BitVec 4} (selects : Selects wave) {b : Bank} (settled : Settled wave b)
    (events : List Event) (keeps : ∀ e ∈ events, Keeps wave e) : Settled wave (run b events) := by
  induction events generalizing b with
  | nil => exact settled
  | cons e rest ih =>
    exact ih (settledStep selects settled (keeps e List.mem_cons_self))
      (fun x hx => keeps x (List.mem_cons_of_mem e hx))

end FpgaSynthesizer.VoiceOutputs
