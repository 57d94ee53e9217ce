import Mathlib.Algebra.Group.Nat.Defs

/-! A clock divider: a counter of any width that flips its level when it reaches
a limit. After n edges from reset the counter is n modulo the half period, and the
level says whether the number of completed half periods is odd. -/
namespace FpgaSynthesizer.ClockDivider

structure Divider (w : Nat) where
  count : BitVec w
  level : Bool
  deriving DecidableEq, Repr

variable {w : Nat}

def cleared : Divider w := ⟨0,false⟩

def tick (limit : Nat) (d : Divider w) : Divider w :=
  if d.count.toNat ≥ limit then ⟨0,!d.level⟩ else ⟨d.count + 1,d.level⟩

def levelAt (limit n : Nat) : Bool := decide (n/(limit+1) % 2 = 1)

/- The divider after n edges from reset. -/
structure At (limit n : Nat) (d : Divider w) : Prop where
  count : d.count.toNat = n % (limit+1)
  level : d.level = levelAt limit n

theorem clearedAt (limit : Nat) : At limit 0 (cleared : Divider w) := by
  refine ⟨?_,?_⟩
  · rw [Nat.zero_mod]
    exact BitVec.toNat_zero
  · rw [levelAt,Nat.zero_div]
    rfl

theorem levelStays {limit n : Nat} (inside : n % (limit+1) < limit) :
    levelAt limit (n+1) = levelAt limit n := by
  have rest : (n+1) % (limit+1) ≠ 0 := by
    rw [ne_eq,Nat.succ_mod_succ_eq_zero_iff]
    omega
  rw [levelAt,levelAt,Nat.succ_div_of_mod_ne_zero rest]

theorem levelFlips {limit n : Nat} (full : n % (limit+1) = limit) :
    levelAt limit (n+1) = !levelAt limit n := by
  have done : (n+1) % (limit+1) = 0 := Nat.succ_mod_succ_eq_zero_iff.mpr full
  rw [levelAt,levelAt,Nat.succ_div_of_mod_eq_zero done,← decide_not,decide_eq_decide]
  omega

theorem tickAt {limit n : Nat} {d : Divider w} (fits : limit < 2^w) (h : At limit n d) :
    At limit (n+1) (tick limit d) := by
  have position : n % (limit+1) < limit+1 := Nat.mod_lt n (Nat.succ_pos limit)
  have count := h.count
  have level := h.level
  unfold tick
  rcases Nat.lt_or_ge (n % (limit+1)) limit with inside | full
  · rw [if_neg (by omega)]
    refine ⟨?_,?_⟩
    · have next : (n+1) % (limit+1) = n % (limit+1) + 1 := by
        rw [← Nat.mod_add_mod,Nat.mod_eq_of_lt (by omega)]
      have sum : (d.count + 1).toNat = (d.count.toNat + 1) % 2^w := by simp [BitVec.toNat_add]
      rw [sum,count,next,Nat.mod_eq_of_lt (by omega)]
    · rw [levelStays inside]
      exact level
  · have last : n % (limit+1) = limit := by omega
    rw [if_pos (by omega)]
    refine ⟨?_,?_⟩
    · rw [Nat.succ_mod_succ_eq_zero_iff.mpr last]
      exact BitVec.toNat_zero
    · rw [levelFlips last,← level]

end FpgaSynthesizer.ClockDivider
