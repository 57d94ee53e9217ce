import Mathlib.Data.List.Infix

/-! Indexed bit writes on a register of any width. A bit-select write at an
index outside the vector is ignored, as the language prescribes. A sequence of
writes that agrees with one function of the index is read back by that function. -/
namespace FpgaSynthesizer.RegisterBits

structure Write where
  index : Nat
  bit : Bool
  deriving DecidableEq, Repr

def writeBit {w : Nat} (v : BitVec w) (index : Nat) (bit : Bool) : BitVec w :=
  if bit then v ||| BitVec.twoPow w index else v &&& ~~~BitVec.twoPow w index

theorem writeBitGet {w : Nat} (v : BitVec w) (index : Nat) (bit : Bool) (j : Nat) :
    (writeBit v index bit).getLsbD j = if index = j ∧ j < w then bit else v.getLsbD j := by
  unfold writeBit
  by_cases inside : j < w
  · by_cases same : index = j
    · cases bit <;> simp [same,inside]
    · have other : ¬ j = index := fun h => same h.symm
      cases bit <;> simp [same,other,inside]
  · have high := BitVec.getLsbD_of_ge v j (Nat.le_of_not_lt inside)
    have apart : index < w → index ≠ j := by omega
    cases bit with
    | true => simpa [BitVec.getLsbD_twoPow,inside,high] using apart
    | false => simp [BitVec.getLsbD_twoPow,inside,high]

def writeAll {w : Nat} (v : BitVec w) (writes : List Write) : BitVec w :=
  writes.foldl (fun v x => writeBit v x.index x.bit) v

theorem writeAllGet {w : Nat} (v : BitVec w) (writes : List Write) {j : Nat} {bit : Bool}
    (agree : ∀ x ∈ writes, x.index = j → x.bit = bit) (inside : j < w) :
    (writeAll v writes).getLsbD j = if j ∈ writes.map Write.index then bit else v.getLsbD j := by
  induction writes generalizing v with
  | nil => simp [writeAll]
  | cons x rest ih =>
    have tail := ih (writeBit v x.index x.bit) (fun y hy => agree y (List.mem_cons_of_mem x hy))
    change (writeAll (writeBit v x.index x.bit) rest).getLsbD j = _
    rw [tail,writeBitGet]
    by_cases later : j ∈ rest.map Write.index
    · have present : j ∈ (x :: rest).map Write.index := List.mem_cons_of_mem _ later
      rw [if_pos later,if_pos present]
    · by_cases same : x.index = j
      · have head := agree x List.mem_cons_self same
        simp [later,same,inside,head]
      · have absent : j ∉ (x :: rest).map Write.index := by
          simp only [List.map_cons,List.mem_cons,not_or]
          exact ⟨fun h => same h.symm,later⟩
        rw [if_neg later,if_neg absent,if_neg (fun h => same h.1)]

theorem prefixOfAppend {α : Type} {p xs ys : List α} (h : p <+: xs ++ ys) :
    p <+: xs ∨ ∃ q, q <+: ys ∧ p = xs ++ q := by
  obtain ⟨rest,eq⟩ := h
  rcases List.append_eq_append_iff.mp eq with ⟨mid,hx,hy⟩ | ⟨mid,hp,hy⟩
  · exact .inl ⟨mid,hx.symm⟩
  · exact .inr ⟨mid,⟨rest,hy.symm⟩,hp⟩

end FpgaSynthesizer.RegisterBits
