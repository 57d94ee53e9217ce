import Mathlib.Data.List.Basic

/-! A sender that repeats each word until it is acknowledged, and then sends the
next one. What it has sent is a function of the words and of the answers so far. -/
namespace FpgaSynthesizer.StopAndWait

variable {Word : Type}

def sent (words : List Word) : List Bool → List Word
  | [] => []
  | acknowledged :: answers =>
    words.head?.toList ++ sent (if acknowledged then words.tail else words) answers

def pending (words : List Word) (answers : List Bool) : List Word := words.drop (answers.count true)

theorem pendingCons (words : List Word) (a : Bool) (answers : List Bool) :
    pending words (a :: answers) = pending (if a then words.tail else words) answers := by
  cases a with
  | false => simp [pending]
  | true => simp [pending,List.drop_tail]

theorem sentSnoc (words : List Word) (answers : List Bool) (a : Bool) :
    sent words (answers ++ [a]) = sent words answers ++ (pending words answers).head?.toList := by
  induction answers generalizing words with
  | nil => simp [sent,pending]
  | cons b answers ih =>
    rw [List.cons_append,sent,sent,ih,pendingCons,List.append_assoc]

theorem sentNothing (answers : List Bool) : sent ([] : List Word) answers = [] := by
  induction answers with
  | nil => rfl
  | cons a answers ih => cases a <;> exact ih

theorem sentMember {words : List Word} {answers : List Bool} {w : Word} (member : w ∈ sent words answers) :
    w ∈ words := by
  induction answers generalizing words with
  | nil => cases member
  | cons a answers ih =>
    rcases List.mem_append.1 member with first | later
    · exact List.mem_of_mem_head? (Option.mem_toList.1 first)
    · cases a with
      | false => exact ih later
      | true => exact List.mem_of_mem_tail (ih later)

theorem acknowledgedOnce (words : List Word) (answers : List Bool) :
    (((sent words answers).zip answers).filter Prod.snd).map Prod.fst = words.take (answers.count true) := by
  induction answers generalizing words with
  | nil => rfl
  | cons a answers ih =>
    cases words with
    | nil => simp [sentNothing]
    | cons w words =>
      cases a with
      | false => simpa [sent] using ih (w :: words)
      | true => simpa [sent] using ih words

end FpgaSynthesizer.StopAndWait
