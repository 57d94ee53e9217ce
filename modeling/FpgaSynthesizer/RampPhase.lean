import FpgaSynthesizer.Voices

/-! The ramp of one note in closed form. While the key is down it is the accumulator
of the note's frequency, counted from the moment that the key was last up; it never
wraps, and a key that is up has its ramp at zero. -/
namespace FpgaSynthesizer.RampPhase
open Voices

/- The falls of LRCK_1X with the key down, after which it has not been up. -/
def heldFalls (i : Fin numNotes) (b : Bank) : List Event → Nat
  | [] => 0
  | e :: rest =>
    (if e = .lrckFall ∧ b.keys.getLsbD i = true ∧ ∀ x ∈ rest, Holding i x then 1 else 0) +
      heldFalls i (step b e) rest

theorem runSnoc (b : Bank) (events : List Event) (e : Event) :
    run b (events ++ [e]) = step (run b events) e := by
  simp [run]

theorem heldFallsSnoc (i : Fin numNotes) (b : Bank) (events : List Event) (e : Event) :
    heldFalls i b (events ++ [e]) =
      if Holding i e then
        heldFalls i b events + (if e = .lrckFall ∧ (run b events).keys.getLsbD i = true then 1 else 0)
      else 0 := by
  induction events generalizing b with
  | nil =>
    cases e with
    | lrckFall => simp [heldFalls,Holding,run]
    | keys keys => simp [heldFalls]
    | effects effects => simp [heldFalls]
  | cons x rest ih =>
    have tail := ih (step b x)
    by_cases holding : Holding i e
    · simp only [if_pos holding] at tail ⊢
      simp only [List.cons_append,heldFalls,tail,List.forall_mem_append,List.forall_mem_singleton,holding,
        and_true,runCons,Nat.add_assoc]
      congr 1
    · simp only [if_neg holding] at tail ⊢
      simp only [List.cons_append,heldFalls,tail,List.forall_mem_append,List.forall_mem_singleton,holding,
        and_false,if_false]

theorem heldFallsUp {i : Fin numNotes} {b : Bank} {events : List Event}
    (up : (run b events).keys.getLsbD i = false) : heldFalls i b events = 0 := by
  induction events using List.reverseRecOn with
  | nil => rfl
  | append_singleton events e ih =>
    rw [runSnoc] at up
    rw [heldFallsSnoc]
    cases e with
    | lrckFall =>
      rw [fallKeys] at up
      rw [if_pos (show Holding i .lrckFall from trivial),ih up,up]
      rfl
    | keys keys =>
      rw [keysKeys] at up
      have raised : ¬ Holding i (.keys keys) := fun down => Bool.false_ne_true (up.symm.trans down)
      rw [if_neg raised]
    | effects effects =>
      rw [effectsKeys] at up
      simp [ih up]

theorem rampHeldFalls {i : Fin numNotes} {b : Bank} (start : (b.voice i).ramp = 0) (events : List Event) :
    ((run b events).voice i).ramp.toNat = Accumulator.value 60000 (freq i).toNat (heldFalls i b events) := by
  have zero : (0 : BitVec 16).toNat = Accumulator.value 60000 (freq i).toNat 0 :=
    (Accumulator.valueZero 60000 (freq i).toNat).symm
  induction events using List.reverseRecOn with
  | nil => exact (congrArg BitVec.toNat start).trans zero
  | append_singleton events e ih =>
    have small := (freqPositive i).2
    have bound := Accumulator.valueBound 60000 (freq i).toNat (heldFalls i b events)
    rw [runSnoc,heldFallsSnoc]
    cases e with
    | lrckFall =>
      have kept : Holding i .lrckFall := trivial
      rw [if_pos kept,fallVoice,setRampRamp]
      cases key : (run b events).keys.getLsbD i with
      | true =>
        rw [rampNextAccumulates (by omega),ih,Accumulator.valueNext (freqPositive i).1]
        simp
      | false =>
        rw [heldFallsUp key]
        simpa [rampNext] using zero
    | keys keys =>
      rw [keysVoice]
      cases down : keys.getLsbD i with
      | true =>
        have kept : Holding i (.keys keys) := down
        rw [if_pos kept,Bool.not_true,Bool.and_false,if_neg Bool.false_ne_true,ih]
        simp
      | false =>
        have raised : ¬ Holding i (.keys keys) := fun h => Bool.false_ne_true (down.symm.trans h)
        rw [if_neg raised]
        cases key : (run b events).keys.getLsbD i with
        | true => exact zero
        | false =>
          -- the key was up already, and so was its ramp
          rw [heldFallsUp key] at ih
          exact ih
    | effects effects =>
      have kept : Holding i (.effects effects) := trivial
      rw [if_pos kept,effectsVoice,ih]
      simp

theorem rampClosedForm (b : Bank) (i : Fin numNotes) (start : (b.voice i).ramp = 0) (events : List Event) :
    ((run b events).voice i).ramp.toNat =
        heldFalls i b events % (60000/(freq i).toNat + 2) * (freq i).toNat ∧
    ((run b events).voice i).ramp.toNat ≤ 60000 + (freq i).toNat ∧ 60000 + (freq i).toNat ≤ 64186 ∧
    (¬ ((run b events).voice i).ramp > rampMax →
      (((run b events).voice i).ramp + freq i).toNat =
        ((run b events).voice i).ramp.toNat + (freq i).toNat) ∧
    ((run b events).keys.getLsbD i = false → ((run b events).voice i).ramp = 0) := by
  have small := (freqPositive i).2
  have ramp := rampHeldFalls start events
  have bound := Accumulator.valueBound 60000 (freq i).toNat (heldFalls i b events)
  refine ⟨ramp,by omega,by omega,?_,?_⟩
  · intro below
    have limit : ¬ ((run b events).voice i).ramp.toNat > 60000 := below
    rw [BitVec.toNat_add]
    omega
  · intro up
    rw [heldFallsUp up,Accumulator.valueZero] at ramp
    exact BitVec.eq_of_toNat_eq ramp

theorem pressedAgainFromZero :
    ((run ⟨0,0b0001,restVoices⟩ [.keys (1#88 <<< 48),.lrckFall,.keys 0,.keys (1#88 <<< 48),.lrckFall,
      .lrckFall]).voice 48).ramp.toNat = 880 := by
  have start : ((⟨0,0b0001,restVoices⟩ : Bank).voice 48).ramp = 0 := by rw [restVoice]
  have closed := (rampClosedForm _ 48 start [.keys (1#88 <<< 48),.lrckFall,.keys 0,.keys (1#88 <<< 48),
    .lrckFall,.lrckFall]).1
  exact closed.trans (by decide +kernel)

end FpgaSynthesizer.RampPhase
