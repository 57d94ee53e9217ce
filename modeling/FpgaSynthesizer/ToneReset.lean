import FpgaSynthesizer.ToneRuns

/-! System resets between calls. A reset restarts the program and clears the
LED register, while the reset branch of synth_ci keeps both registers; agreement
survives a run exactly when every reset finds the synthesizer silent. -/
namespace FpgaSynthesizer.ToneReset
open ToneProgram ToneCalls ToneWindow ToneAgreement ToneRuns

inductive Event where
  | call (c : Call)
  | reset
  deriving DecidableEq, Repr

def reset (s : System) : System := ⟨initial,⟨SynthCi.reset s.board.synth,0⟩⟩

def step (s : System) : Event → System
  | .call c => call s c
  | .reset => reset s

def runEvents (s : System) (events : List Event) : System := events.foldl step s

def Agreement (s : System) : Prop :=
  (∀ a : Fin 88, s.board.synth.curSounds.getLsbD a = true ↔
    ∃ i : Fin numRelTones, s.statics.tonesStatus.get i = 1 ∧ (i : Int) + 12*s.statics.prevOctave = a) ∧
  (∀ j : Fin 18, j.val < 2 → s.board.synth.curEffects.getLsbD j = s.statics.prevSw.getLsbD j)

def Silent (r : SynthCi.Regs) : Prop :=
  r.curSounds = 0 ∧ ∀ j : Fin 18, j.val < 2 → r.curEffects.getLsbD j = false
instance (r) : Decidable (Silent r) := by unfold Silent; infer_instance

def callOf : Event → Option Call
  | .call c => some c
  | .reset => none

def calls (events : List Event) : List Call := events.filterMap callOf

theorem agreeAgreement {s : System} (agree : Agree s) : Agreement s :=
  ⟨fun a => agree.sounding a a.isLt,fun _ low => agreeLowEffects agree low⟩

theorem initialSounding (octave a : Int) : ¬ Sounding initial.tonesStatus octave a := by
  rintro ⟨i,held,_⟩
  rw [initialStatus] at held
  contradiction

/- A reset that agrees found the synthesizer silent, for the restarted program
believes it is. -/
theorem resetSilent {s : System} (agreement : Agreement (reset s)) : Silent s.board.synth := by
  refine ⟨?_,?_⟩
  · apply BitVec.eq_of_getLsbD_eq
    intro a inside
    by_contra on
    have held : s.board.synth.curSounds.getLsbD a = true := by simpa using on
    exact initialSounding 4 a ((agreement.1 ⟨a,inside⟩).mp held)
  · intro j low
    have bit := agreement.2 j low
    simpa [reset,initial,SynthCi.resetKeeps] using bit

theorem resetAgree {s : System} (agree : Agree s) (silent : Silent s.board.synth) : Agree (reset s) := by
  refine ⟨powerUpAgree.bits,?_,?_⟩
  · intro a inside
    have off : sounds (reset s).board a = false := by
      simp [reset,sounds,SynthCi.resetKeeps,silent.1]
    constructor
    · intro on
      rw [off] at on
      contradiction
    · intro held
      exact absurd held (initialSounding 4 a)
  · apply BitVec.eq_of_getLsbD_eq
    intro j inside
    have high := agreeEffects agree j
    by_cases low : j < 2
    · have clear := silent.2 ⟨j,inside⟩ low
      simpa [reset,initial,SynthCi.resetKeeps] using clear
    · simpa [reset,initial,SynthCi.resetKeeps,low,inside] using high

theorem runEventsAppend (s : System) (p : List Event) (e : Event) :
    runEvents s (p ++ [e]) = step (runEvents s p) e := by
  simp [runEvents]

/- The program restarts in octave 4, so octave keys before a reset only help. -/
theorem eventOctave {p : List Event} (few : octaveKeys (calls p) < 10^8) :
    4 - (octaveKeys (calls p) : Int) ≤ (runEvents powerUp p).statics.prevOctave ∧
      (runEvents powerUp p).statics.prevOctave ≤ 4 + (octaveKeys (calls p) : Int) := by
  induction p using List.reverseRecOn with
  | nil => decide
  | append_singleton p e ih =>
    rw [runEventsAppend]
    cases e with
    | call c =>
      have count : octaveKeys (calls (p ++ [.call c])) = octaveKeys (calls p) + octaveKeys [c] := by
        simp [calls,octaveKeys,callOf,List.countP_append]
      rw [count] at few ⊢
      have before := ih (by omega)
      have after := callOctaveStep (s := runEvents powerUp p) (c := c) (by omega) (by omega)
      simp only [step]
      omega
    | reset =>
      have start : (step (runEvents powerUp p) .reset).statics.prevOctave = 4 := rfl
      omega

theorem eventFits {p : List Event} (few : octaveKeys (calls p) < 10^8) :
    OctaveFits (runEvents powerUp p).statics.prevOctave := by
  have bound := eventOctave few
  unfold OctaveFits
  omega

theorem runEventsAgree {events : List Event} (few : octaveKeys (calls events) < 10^8)
    (quiet : ∀ p, p ++ [.reset] <+: events → Silent (runEvents powerUp p).board.synth) :
    Agree (runEvents powerUp events) := by
  induction events using List.reverseRecOn with
  | nil => exact powerUpAgree
  | append_singleton p e ih =>
    have fewer : octaveKeys (calls p) < 10^8 := by
      have part : octaveKeys (calls p) ≤ octaveKeys (calls (p ++ [e])) :=
        ((List.prefix_append p [e]).filterMap callOf).sublist.countP_le
      omega
    have before := ih fewer (fun q hq => quiet q (hq.trans (List.prefix_append _ _)))
    have after := eventFits few
    rw [runEventsAppend] at after ⊢
    cases e with
    | call c => exact callAgree before c (eventFits fewer) after
    | reset => exact resetAgree before (quiet p (List.prefix_refl _))

theorem resetsAgreeExactlyWhenSilent (events : List Event) (few : octaveKeys (calls events) < 10^8) :
    (∀ p, p <+: events → Agreement (runEvents powerUp p)) ↔
      ∀ p, p ++ [.reset] <+: events → Silent (runEvents powerUp p).board.synth := by
  constructor
  · intro agreement p part
    have after := agreement (p ++ [.reset]) part
    rw [runEventsAppend] at after
    exact resetSilent after
  · intro quiet p part
    have fewer : octaveKeys (calls p) ≤ octaveKeys (calls events) :=
      (part.filterMap callOf).sublist.countP_le
    exact agreeAgreement (runEventsAgree (by omega) (fun q hq => quiet q (hq.trans part)))

theorem silentResetAgrees :
    octaveKeys (calls [.call (.key 0x1c),.call (.key 0xf01c),.reset]) < 10^8 ∧
    Agreement (runEvents powerUp [.call (.key 0x1c),.call (.key 0xf01c),.reset]) := by
  refine ⟨by decide,(resetsAgreeExactlyWhenSilent _ (by decide)).mpr ?_ _ (List.prefix_refl _)⟩
  intro p part
  rcases p with _ | ⟨a,_ | ⟨b,_ | ⟨c,q⟩⟩⟩
  · simp at part
  · simp at part
  · simp only [List.cons_append,List.cons_prefix_cons] at part
    rw [part.1,part.2.1]
    decide
  · simp at part

theorem heldNoteSurvivesReset : ¬ Agreement (runEvents powerUp [.call (.key 0x1c),.reset]) := by
  intro agreement
  obtain ⟨i,held,_⟩ := (agreement.1 48).mp (by decide)
  have released : (runEvents powerUp [.call (.key 0x1c),.reset]).statics.tonesStatus.get i = 0 := by
    revert i
    decide
  rw [released] at held
  contradiction

end FpgaSynthesizer.ToneReset
