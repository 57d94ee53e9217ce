import Mathlib.Data.Nat.Notation

/-! A reader that blocks. It takes a prefix of the stream of reads and returns a
value, or waits for reads that the stream does not have. Every return takes at
least one read, so the calls on a finite stream come to an end. -/
namespace FpgaSynthesizer.Polling

structure Reader (α β : Type) where
  read : List α → Option (β × List α)
  progress : ∀ {xs y rest}, read xs = some (y,rest) → rest.length < xs.length

variable {α β : Type} {r : Reader α β}

def callsFrom (r : Reader α β) : Nat → List α → List (β × List α)
  | 0, _ => []
  | fuel+1, xs =>
    match r.read xs with
    | none => []
    | some (y,rest) => (y,rest) :: callsFrom r fuel rest

def Reader.calls (r : Reader α β) (xs : List α) : List (β × List α) := callsFrom r xs.length xs

def Reader.values (r : Reader α β) (xs : List α) : List β := (r.calls xs).map Prod.fst

theorem emptyBlocks (r : Reader α β) : r.read [] = none := by
  cases read : r.read [] with
  | none => rfl
  | some out =>
    obtain ⟨y,rest⟩ := out
    exact absurd (r.progress read) (Nat.not_lt_zero _)

theorem callsEnough {first second : Nat} {xs : List α} (enough : xs.length ≤ first)
    (other : xs.length ≤ second) : callsFrom r first xs = callsFrom r second xs := by
  induction first generalizing second xs with
  | zero =>
    obtain rfl := List.length_eq_zero_iff.mp (Nat.le_zero.mp enough)
    cases second with
    | zero => rfl
    | succ second => simp only [callsFrom,emptyBlocks]
  | succ first ih =>
    cases second with
    | zero =>
      obtain rfl := List.length_eq_zero_iff.mp (Nat.le_zero.mp other)
      simp only [callsFrom,emptyBlocks]
    | succ second =>
      simp only [callsFrom]
      cases read : r.read xs with
      | none => rfl
      | some out =>
        obtain ⟨y,rest⟩ := out
        have shorter := r.progress read
        have tail : callsFrom r first rest = callsFrom r second rest := ih (by omega) (by omega)
        simp only [tail]

theorem callsBlock {xs : List α} (blocks : r.read xs = none) : r.calls xs = [] := by
  unfold Reader.calls
  cases xs.length with
  | zero => rfl
  | succ fuel => simp only [callsFrom,blocks]

theorem callsReturn {xs rest : List α} {y : β} (returned : r.read xs = some (y,rest)) :
    r.calls xs = (y,rest) :: r.calls rest := by
  have shorter := r.progress returned
  unfold Reader.calls
  cases size : xs.length with
  | zero => omega
  | succ fuel =>
    have tail : callsFrom r fuel rest = callsFrom r rest.length rest :=
      callsEnough (by omega) (Nat.le_refl _)
    simp only [callsFrom,returned,tail]

theorem callsAlike {xs ys : List α} (alike : r.read xs = r.read ys) : r.calls xs = r.calls ys := by
  cases read : r.read ys with
  | none => rw [callsBlock (alike.trans read),callsBlock read]
  | some out =>
    obtain ⟨y,rest⟩ := out
    rw [callsReturn (alike.trans read),callsReturn read]

theorem valuesReturn {xs rest : List α} {y : β} (returned : r.read xs = some (y,rest)) :
    r.values xs = y :: r.values rest := by
  rw [Reader.values,callsReturn returned,List.map_cons]
  rfl

end FpgaSynthesizer.Polling
