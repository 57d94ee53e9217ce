import FpgaSynthesizer.Polling

/-! A reader that is given its reads one at a time. After each it goes on with other
locals or returns, and the next call begins with the next read; over a whole stream
its calls return what those of the reader on lists do. -/
namespace FpgaSynthesizer.PollingSteps
open Polling

inductive Outcome (σ β : Type) where
  | goesOn (locals : σ)
  | returns (value : β)
  deriving DecidableEq, Repr

/- The locals of a call that has not read yet, and what each read does. -/
structure Steps (σ α β : Type) where
  start : σ
  next : σ → α → Outcome σ β

variable {σ α β : Type} {s : Steps σ α β}

def Steps.call (s : Steps σ α β) (l : σ) : List α → Option (β × List α)
  | [] => none
  | x :: rest =>
    match s.next l x with
    | .goesOn now => s.call now rest
    | .returns y => some (y,rest)

def Steps.values (s : Steps σ α β) (l : σ) : List α → List β
  | [] => []
  | x :: rest =>
    match s.next l x with
    | .goesOn now => s.values now rest
    | .returns y => y :: s.values s.start rest

def Steps.after (s : Steps σ α β) (l : σ) : List α → σ
  | [] => l
  | x :: rest =>
    match s.next l x with
    | .goesOn now => s.after now rest
    | .returns _ => s.after s.start rest

theorem callProgress {l : σ} {xs rest : List α} {y : β} (returned : s.call l xs = some (y,rest)) :
    rest.length < xs.length := by
  induction xs generalizing l with
  | nil => cases returned
  | cons x xs ih =>
    simp only [Steps.call] at returned
    split at returned
    · exact Nat.lt_succ_of_lt (ih returned)
    · cases returned
      exact Nat.lt_succ_self _

def Steps.reader (s : Steps σ α β) : Reader α β := ⟨s.call s.start,callProgress⟩

theorem valuesReads (l : σ) (xs ys : List α) : s.values l (xs ++ ys) = s.values l xs ++ s.values (s.after l xs) ys := by
  induction xs generalizing l with
  | nil => rfl
  | cons x xs ih =>
    rw [List.cons_append]
    simp only [Steps.values,Steps.after]
    split
    · exact ih _
    · exact congrArg (List.cons _) (ih _)

theorem valuesBlock {l : σ} {xs : List α} (blocks : s.call l xs = none) : s.values l xs = [] := by
  induction xs generalizing l with
  | nil => rfl
  | cons x xs ih =>
    simp only [Steps.call] at blocks
    simp only [Steps.values]
    split at blocks
    · exact ih blocks
    · cases blocks

theorem valuesCall {l : σ} {xs rest : List α} {y : β} (returned : s.call l xs = some (y,rest)) :
    s.values l xs = y :: s.values s.start rest := by
  induction xs generalizing l with
  | nil => cases returned
  | cons x xs ih =>
    simp only [Steps.call] at returned
    simp only [Steps.values]
    split at returned
    · exact ih returned
    · cases returned
      rfl

theorem readerValues (s : Steps σ α β) (xs : List α) : s.reader.values xs = s.values s.start xs := by
  induction size : xs.length using Nat.strongRecOn generalizing xs with
  | ind n ih =>
    cases read : s.call s.start xs with
    | none => rw [valuesBlock read,Reader.values,callsBlock (r := s.reader) read,List.map_nil]
    | some out =>
      obtain ⟨y,rest⟩ := out
      have shorter := callProgress read
      rw [valuesReturn (r := s.reader) read,valuesCall read,ih rest.length (by omega) rest rfl]

theorem readerSame {r : Reader α β} (same : ∀ xs, s.call s.start xs = r.read xs) : s.reader = r := by
  obtain ⟨read,progress⟩ := r
  obtain rfl : s.call s.start = read := funext same
  rfl

end FpgaSynthesizer.PollingSteps
