import Mathlib.Data.Nat.ModEq

/-! An accumulator that adds a step until its value has passed a limit, and then
restarts from zero. The limit is compared before the step is added, so a period
has the steps up to and past the limit and one more for the restart. -/
namespace FpgaSynthesizer.Accumulator

def next (limit step value : Nat) : Nat := if value > limit then 0 else value + step

def period (limit step : Nat) : Nat := limit/step + 2

def value (limit step n : Nat) : Nat := (n % period limit step) * step

variable {limit step : Nat}

theorem valueZero (limit step : Nat) : value limit step 0 = 0 := by
  rw [value,Nat.zero_mod,Nat.zero_mul]

theorem valueNext (positive : 0 < step) (n : Nat) :
    next limit step (value limit step n) = value limit step (n+1) := by
  have position : n % period limit step < limit/step + 2 := Nat.mod_lt _ (Nat.succ_pos _)
  have later : (n+1) % period limit step = (n % period limit step + 1) % period limit step :=
    (Nat.mod_add_mod n _ 1).symm
  rw [next,value,value,later]
  rcases Nat.lt_or_ge (limit/step) (n % period limit step) with past | before
  · have passed : limit < n % period limit step * step := (Nat.div_lt_iff_lt_mul positive).mp past
    have full : n % period limit step + 1 = period limit step := by
      rw [period] at position past ⊢
      omega
    rw [if_pos passed,full,Nat.mod_self,Nat.zero_mul]
  · have under : n % period limit step * step ≤ limit := (Nat.le_div_iff_mul_le positive).mp before
    have inside : n % period limit step + 1 < period limit step := by
      rw [period] at before ⊢
      omega
    rw [if_neg (by omega),Nat.mod_eq_of_lt inside,Nat.add_mul,Nat.one_mul]

theorem valueBound (limit step n : Nat) : value limit step n ≤ limit + step := by
  have position : n % period limit step ≤ limit/step + 1 := Nat.le_of_lt_succ (Nat.mod_lt _ (Nat.succ_pos _))
  have product : limit/step*step ≤ limit := Nat.div_mul_le_self limit step
  calc value limit step n ≤ (limit/step + 1)*step := Nat.mul_le_mul_right step position
    _ = limit/step*step + step := by rw [Nat.add_mul,Nat.one_mul]
    _ ≤ limit + step := Nat.add_le_add_right product step

theorem periodsNext (positive : 0 < step) (n : Nat) :
    (n+1)/period limit step = n/period limit step + (if value limit step (n+1) = 0 then 1 else 0) := by
  have completes : value limit step (n+1) = 0 ↔ period limit step ∣ n+1 := by
    rw [value,Nat.mul_eq_zero,Nat.dvd_iff_mod_eq_zero]
    exact or_iff_left (by omega)
  rw [Nat.succ_div]
  simp only [completes]

end FpgaSynthesizer.Accumulator
