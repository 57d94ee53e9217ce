import FpgaSynthesizer.Voices
import Mathlib.Algebra.Order.Field.Rat
import Mathlib.Tactic.Linarith
import Mathlib.Tactic.FieldSimp
import Mathlib.Tactic.Ring

/-! How often a held ramp restarts. A period takes 60000/f + 2 samples where the
table's f hertz would need 48000/f, so the count falls behind by a fifth. -/
namespace FpgaSynthesizer.NoteFrequency
open Voices

def sampleRate : Nat := 48000

/- The falls of LRCK_1X at which the ramp of a note starts from zero again. -/
def restarts (i : Fin numNotes) (b : Bank) : List Event → Nat
  | [] => 0
  | e :: rest =>
    (if e = .lrckFall ∧ ((step b e).voice i).ramp = 0 then 1 else 0) + restarts i (step b e) rest

def wavePeriods (i : Fin numNotes) (falls : Nat) : ℚ := falls * (freq i).toNat / sampleRate

/- Within one period and three percent of the table's frequency. -/
def Accurate (i : Fin numNotes) (falls count : Nat) : Prop :=
  |(count : ℚ) - wavePeriods i falls| ≤ 1 + 3/100 * wavePeriods i falls

def rampPeriod (i : Fin numNotes) : Nat := Accumulator.period 60000 (freq i).toNat

theorem rampPeriodLong (i : Fin numNotes) : 60000 < rampPeriod i * (freq i).toNat := by
  have positive := (freqPositive i).1
  have past : 60000 < (60000/(freq i).toNat + 1) * (freq i).toNat :=
    (Nat.div_lt_iff_lt_mul positive).mp (Nat.lt_succ_self _)
  exact Nat.lt_of_lt_of_le past (Nat.mul_le_mul_right _ (Nat.le_succ _))

theorem restartsHeld {b : Bank} {i : Fin numNotes} {n : Nat} (key : b.keys.getLsbD i = true)
    (ramp : (b.voice i).ramp.toNat = Accumulator.value 60000 (freq i).toNat n) (events : List Event)
    (holding : ∀ e ∈ events, Holding i e) :
    n/rampPeriod i + restarts i b events = (n + lrckFalls events)/rampPeriod i := by
  induction events generalizing b n with
  | nil => rfl
  | cons e rest ih =>
    obtain ⟨key',ramp'⟩ := heldStep key ramp (holding e List.mem_cons_self)
    have tail := ih key' ramp' (fun x hx => holding x (List.mem_cons_of_mem e hx))
    rw [lrckFallsCons,← Nat.add_assoc,← tail,restarts,← Nat.add_assoc]
    congr 1
    by_cases fall : e = .lrckFall
    · subst fall
      have one : lrckFalls [.lrckFall] = 1 := rfl
      have zero : ((step b .lrckFall).voice i).ramp = 0 ↔
          Accumulator.value 60000 (freq i).toNat (n+1) = 0 := by
        rw [one] at ramp'
        rw [← ramp',← BitVec.toNat_inj]
        rfl
      rw [one]
      simp only [zero,true_and]
      exact (Accumulator.periodsNext (freqPositive i).1 n).symm
    · have none : lrckFalls [e] = 0 := by
        rw [lrckFalls,List.count_singleton,if_neg (by simpa using fall)]
      rw [if_neg (fun h => fall h.1),none,Nat.add_zero,Nat.add_zero]

theorem restartsBehind (i : Fin numNotes) (falls : Nat) :
    60000*(falls/rampPeriod i) ≤ falls*(freq i).toNat := by
  have long := Nat.le_of_lt (rampPeriodLong i)
  calc 60000*(falls/rampPeriod i)
      ≤ rampPeriod i*(freq i).toNat*(falls/rampPeriod i) := Nat.mul_le_mul_right _ long
    _ = falls/rampPeriod i*rampPeriod i*(freq i).toNat := by ring
    _ ≤ falls*(freq i).toNat := Nat.mul_le_mul_right _ (Nat.div_mul_le_self _ _)

theorem accurateExactly (i : Fin numNotes) (falls : Nat) :
    Accurate i falls (falls/rampPeriod i) ↔
      97*(falls*(freq i).toNat) ≤ 4800000*(falls/rampPeriod i + 1) := by
  have behind : (60000 : ℚ)*((falls/rampPeriod i : Nat) : ℚ) ≤ (falls*(freq i).toNat : Nat) := by
    exact_mod_cast restartsBehind i falls
  have periods : wavePeriods i falls = ((falls*(freq i).toNat : Nat) : ℚ)/48000 := by
    rw [wavePeriods,sampleRate]
    push_cast
    rfl
  have positive : (0 : ℚ) ≤ ((falls*(freq i).toNat : Nat) : ℚ) := Nat.cast_nonneg _
  rw [Accurate,periods,abs_le]
  constructor
  · intro bounds
    have lower := bounds.1
    have scaled : (97 : ℚ)*((falls*(freq i).toNat : Nat) : ℚ) ≤
        4800000*(((falls/rampPeriod i : Nat) : ℚ) + 1) := by linarith
    exact_mod_cast scaled
  · intro condition
    have scaled : (97 : ℚ)*((falls*(freq i).toNat : Nat) : ℚ) ≤
        4800000*(((falls/rampPeriod i : Nat) : ℚ) + 1) := by exact_mod_cast condition
    exact ⟨by linarith,by linarith⟩

theorem fifthPeriodLow {i : Fin numNotes} {falls : Nat} (late : 5*rampPeriod i ≤ falls) :
    4800000*(falls/rampPeriod i + 1) < 97*(falls*(freq i).toNat) := by
  have some : 0 < rampPeriod i := Nat.succ_pos _
  have five : 5 ≤ falls/rampPeriod i := (Nat.le_div_iff_mul_le some).mpr late
  have behind := restartsBehind i falls
  omega

theorem frequencyExactly (b : Bank) (i : Fin numNotes) (key : b.keys.getLsbD i = true)
    (start : (b.voice i).ramp = 0) (events : List Event) (holding : ∀ e ∈ events, Holding i e) :
    (Accurate i (lrckFalls events) (restarts i b events) ↔
      97*(lrckFalls events*(freq i).toNat) ≤ 4800000*(lrckFalls events/rampPeriod i + 1)) ∧
    (5*rampPeriod i ≤ lrckFalls events → ¬ Accurate i (lrckFalls events) (restarts i b events)) := by
  have ramp : (b.voice i).ramp.toNat = Accumulator.value 60000 (freq i).toNat 0 := by
    rw [start,Accumulator.valueZero]
    rfl
  have count := restartsHeld key ramp events holding
  rw [Nat.zero_div,Nat.zero_add,Nat.zero_add] at count
  have exactly := accurateExactly i (lrckFalls events)
  rw [count]
  refine ⟨exactly,?_⟩
  intro late accurate
  exact Nat.not_le_of_lt (fifthPeriodLow late) (exactly.mp accurate)

def heldA4 : Bank := ⟨1#88 <<< 48,0b0001,restVoices⟩

theorem heldA4Key : heldA4.keys.getLsbD 48 = true ∧
    (heldA4.voice 48).ramp = 0 := by
  decide +kernel

theorem thirdPeriodAccurate :
    lrckFalls (List.replicate 300 .lrckFall) = 300 ∧
    Accurate 48 300 (restarts 48 heldA4 (List.replicate 300 .lrckFall)) := by
  have falls : lrckFalls (List.replicate 300 .lrckFall) = 300 := List.count_replicate_self
  have holding : ∀ e ∈ List.replicate 300 .lrckFall, Holding 48 e := by
    intro e member
    rw [List.eq_of_mem_replicate member]
    decide
  have exactly := (frequencyExactly heldA4 48 heldA4Key.1 heldA4Key.2 _ holding).1
  rw [falls] at exactly
  exact ⟨falls,exactly.mpr (by decide +kernel)⟩

theorem a4SoundsLow :
    lrckFalls (List.replicate 48000 .lrckFall) = 48000 ∧
    restarts 48 heldA4 (List.replicate 48000 .lrckFall) = 347 ∧ ¬ Accurate 48 48000 347 := by
  have falls : lrckFalls (List.replicate 48000 .lrckFall) = 48000 := List.count_replicate_self
  have periods : 48000/rampPeriod 48 = 347 := by decide +kernel
  have holding : ∀ e ∈ List.replicate 48000 Event.lrckFall, Holding 48 e := by
    intro e member
    rw [List.eq_of_mem_replicate member]
    trivial
  have ramp : (heldA4.voice 48).ramp.toNat =
      Accumulator.value 60000 (freq 48).toNat 0 := by
    rw [heldA4Key.2,Accumulator.valueZero]
    rfl
  have count := restartsHeld heldA4Key.1 ramp _ holding
  rw [Nat.zero_div,Nat.zero_add,Nat.zero_add,falls,periods] at count
  refine ⟨falls,count,?_⟩
  intro accurate
  rw [← periods,accurateExactly] at accurate
  revert accurate
  decide +kernel

end FpgaSynthesizer.NoteFrequency
