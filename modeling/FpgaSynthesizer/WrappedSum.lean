import Mathlib.Algebra.BigOperators.Group.List.Basic
import Mathlib.Data.BitVec

/-! Sums of machine words. The wrapped sum, read in two's complement, is the
integer sum of the terms exactly when the integer sum fits the word. -/
namespace FpgaSynthesizer.WrappedSum

variable {w : Nat}

def integerSum (terms : List (BitVec w)) : Int := (terms.map BitVec.toInt).sum

theorem integerSumCons (x : BitVec w) (rest : List (BitVec w)) :
    integerSum (x :: rest) = x.toInt + integerSum rest := by
  rw [integerSum,List.map_cons,List.sum_cons,integerSum]

theorem sumToInt (terms : List (BitVec w)) : terms.sum.toInt = (integerSum terms).bmod (2^w) := by
  induction terms with
  | nil => simp [integerSum]
  | cons x rest ih =>
    rw [List.sum_cons,BitVec.toInt_add,ih,Int.add_bmod_bmod,integerSumCons]

def Fits (w : Nat) (x : Int) : Prop := -2^(w-1) ≤ x ∧ x < 2^(w-1)
instance (w x) : Decidable (Fits w x) := by unfold Fits; infer_instance

theorem sumExact (some : 0 < w) (terms : List (BitVec w)) :
    terms.sum.toInt = integerSum terms ↔ Fits w (integerSum terms) := by
  constructor
  · intro same
    rw [← same]
    exact ⟨BitVec.le_toInt _,BitVec.toInt_lt⟩
  · intro fits
    obtain ⟨low,high⟩ := fits
    have half : (2 : Int)^w = 2*2^(w-1) := by
      rw [← Int.pow_succ',Nat.sub_add_cancel some]
    rw [sumToInt]
    apply Int.bmod_eq_of_le_mul_two
    · push_cast
      omega
    · push_cast
      omega

def nonzero (x : BitVec w) : Bool := decide (x ≠ 0)

/- Only the terms that are not zero count. -/
theorem integerSumBounds {low high : Int} (terms : List (BitVec w))
    (bounded : ∀ x ∈ terms, x ≠ 0 → low ≤ x.toInt ∧ x.toInt ≤ high) :
    low * (terms.countP nonzero : Int) ≤ integerSum terms ∧
      integerSum terms ≤ high * (terms.countP nonzero : Int) := by
  induction terms with
  | nil => simp [integerSum]
  | cons x rest ih =>
    obtain ⟨lower,upper⟩ := ih (fun y hy => bounded y (List.mem_cons_of_mem x hy))
    rw [integerSumCons,List.countP_cons]
    by_cases zero : x = 0
    · have nothing : x.toInt = 0 := by rw [zero]; exact BitVec.toInt_zero
      rw [if_neg (by simp [nonzero,zero]),nothing,Int.zero_add,Nat.add_zero]
      exact ⟨lower,upper⟩
    · obtain ⟨least,most⟩ := bounded x List.mem_cons_self zero
      have counted : nonzero x = true := decide_eq_true zero
      rw [if_pos counted]
      push_cast
      rw [Int.mul_add,Int.mul_add,Int.mul_one,Int.mul_one]
      omega

/-! ### Parts of a sum -/

theorem sumSplit {α : Type} (p : α → Bool) (f : α → BitVec w) (xs : List α) :
    (xs.map f).sum = ((xs.filter p).map f).sum + ((xs.filter (fun x => !p x)).map f).sum := by
  induction xs with
  | nil => simp
  | cons x rest ih =>
    rw [List.map_cons,List.sum_cons,ih]
    cases own : p x with
    | true => simp [own,BitVec.add_assoc]
    | false =>
      simp only [List.filter_cons,own,Bool.false_eq_true,if_false,Bool.not_false,if_true,List.map_cons,
        List.sum_cons]
      rw [← BitVec.add_assoc,BitVec.add_comm (f x),BitVec.add_assoc]

theorem sumConstant {α : Type} {f : α → BitVec w} {c : BitVec w} {xs : List α} (constant : ∀ x ∈ xs, f x = c) :
    (xs.map f).sum.toNat = xs.length*c.toNat % 2^w := by
  induction xs with
  | nil => simp
  | cons x rest ih =>
    rw [List.map_cons,List.sum_cons,constant x List.mem_cons_self,BitVec.toNat_add,
      ih (fun y hy => constant y (List.mem_cons_of_mem x hy)),List.length_cons,Nat.add_mod_mod,Nat.add_mul,
      Nat.one_mul,Nat.add_comm]

end FpgaSynthesizer.WrappedSum
