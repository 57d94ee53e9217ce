import Mathlib.Data.List.Basic

/-! Every m-th element of a list. The phase counts what went by since the last
element that was taken. -/
namespace FpgaSynthesizer.Sampling

variable {α : Type} {m : Nat}

def sampled (m : Nat) : Nat → List α → List α
  | _, [] => []
  | p, x :: rest => if p + 1 = m then x :: sampled m 0 rest else sampled m (p+1) rest

theorem sampledAppend {p : Nat} (inside : p < m) (xs ys : List α) :
    sampled m p (xs ++ ys) = sampled m p xs ++ sampled m ((p + xs.length) % m) ys := by
  induction xs generalizing p with
  | nil => rw [List.nil_append,List.length_nil,Nat.add_zero,Nat.mod_eq_of_lt inside,sampled,List.nil_append]
  | cons x rest ih =>
    have place : p + (x :: rest).length = p + 1 + rest.length := by
      rw [List.length_cons]
      omega
    rw [List.cons_append,sampled,sampled,place]
    by_cases last : p + 1 = m
    · have wraps : (p + 1 + rest.length) % m = (0 + rest.length) % m := by
        rw [last,Nat.add_mod_left,Nat.zero_add]
      rw [if_pos last,if_pos last,ih (by omega),wraps,List.cons_append]
    · rw [if_neg last,if_neg last,ih (by omega)]

theorem sampledReplicate {p : Nat} (inside : p < m) (n : Nat) (x : α) :
    sampled m p (List.replicate n x) = List.replicate ((p+n)/m) x := by
  induction n generalizing p with
  | zero => rw [Nat.add_zero,Nat.div_eq_of_lt inside,List.replicate_zero,sampled]
  | succ n ih =>
    rw [List.replicate_succ,sampled]
    by_cases last : p + 1 = m
    · have more : (p+(n+1))/m = (0+n)/m + 1 := by
        have total : p+(n+1) = n + m := by omega
        rw [total,Nat.add_div_right _ (by omega),Nat.zero_add]
      rw [if_pos last,ih (by omega),more,List.replicate_succ]
    · have same : p+(n+1) = p+1+n := by omega
      rw [if_neg last,ih (by omega),same]

theorem sampledMap {β : Type} (f : α → β) (p : Nat) (xs : List α) :
    sampled m p (xs.map f) = (sampled m p xs).map f := by
  induction xs generalizing p with
  | nil => rfl
  | cons x rest ih =>
    rw [List.map_cons,sampled,sampled]
    by_cases last : p + 1 = m
    · rw [if_pos last,if_pos last,ih,List.map_cons]
    · rw [if_neg last,if_neg last,ih]

theorem sampledLength {p : Nat} (inside : p < m) (xs : List α) : (sampled m p xs).length = (p + xs.length)/m := by
  have units : xs.map (fun _ => ()) = List.replicate xs.length () := List.map_const'
  rw [← List.length_map (fun _ => ()),← sampledMap,units,sampledReplicate inside,List.length_replicate]

end FpgaSynthesizer.Sampling
