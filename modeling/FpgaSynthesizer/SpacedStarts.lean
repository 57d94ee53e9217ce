import FpgaSynthesizer.Ps2Handshake
import Mathlib.Data.List.Chain

/-! A processor that never raises start in two cycles in a row keeps to the protocol
of ps2_ci without looking at done: SEND is the only state that owes an answer, and
one cycle later it has given it. -/
namespace FpgaSynthesizer.SpacedStarts
open Mailbox Ps2Ci Ps2Delivery Ps2Handshake

def Spaced (inputs : List Inputs) : Prop := inputs.IsChain (fun x y => x.start = true → y.start = false)
instance (inputs) : Decidable (Spaced inputs) := by unfold Spaced; infer_instance

def Settles (inputs : List Inputs) : Prop := ∀ i ∈ inputs.drop (inputs.length - 2), i.start = false
instance (inputs) : Decidable (Settles inputs) := by unfold Settles; infer_instance

theorem sendStarted {r : Regs} {i : Inputs} (sends : (clock r i).state = State.send) : i.start = true := by
  revert sends
  unfold clock onZero onNew onSend onInvalid edge
  dsimp only
  cases i.start with
  | true => exact fun _ => rfl
  | false =>
    intro sends
    repeat' split at sends
    all_goals simp_all [State.zero,State.new,State.send,State.invalid]

theorem owedStarted {r : Regs} {i : Inputs} {box : Box Byte} {owed : List Word} (holds : Holds (clock r i) box owed)
    (due : owed ≠ []) : i.start = true := by
  obtain ⟨_,_,owes⟩ := holdsState holds
  by_cases sends : (clock r i).state = State.send
  · exact sendStarted sends
  · rw [if_neg sends] at owes
    exact absurd (List.length_eq_zero_iff.mp owes) due

theorem spacedWaits {r : Regs} {box : Box Byte} {owed : List Word} (holds : Holds r box owed) (once : EdgeOnce r)
    {inputs : List Inputs} (spaced : Spaced inputs) (ready : ∀ i ∈ inputs.head?, i.start = true → owed = []) :
    Waits ((shown r).length + owed.length) r inputs := by
  induction inputs generalizing r box owed with
  | nil => exact fun n inside => absurd inside (Nat.not_lt_zero n)
  | cons i rest ih =>
    have free : i.start = true → owed = [] := ready i rfl
    obtain ⟨owed',holds',moved⟩ := clockHolds holds once i free
    have next : ∀ j ∈ rest.head?, j.start = true → owed' = [] := by
      intro j first raised
      by_contra due
      have quiet := (List.isChain_cons.mp spaced).1 j first (owedStarted holds' due)
      rw [quiet] at raised
      cases raised
    have later := ih holds' (clockEdgeOnce r i) (List.isChain_cons.mp spaced).2 next
    have lengths := congrArg List.length moved
    rw [List.length_append,List.length_append] at lengths
    intro n inside raised
    cases n with
    | zero =>
      rw [free raised]
      simp [starts,results]
    | succ n =>
      have count := later n (Nat.lt_of_succ_lt_succ inside) raised
      rw [List.take_succ_cons,List.take_succ_cons,results,List.length_append,starts,List.countP_cons]
      rw [starts] at count
      cases start : i.start with
      | false =>
        rw [start] at lengths
        simp only [Bool.false_eq_true,if_false,List.length_nil] at lengths ⊢
        omega
      | true =>
        rw [start] at lengths
        simp only [if_true,List.length_singleton] at lengths ⊢
        omega

theorem spacedProtocol {r : Regs} (idle : r.state = State.zero) (quiet : r.done = false)
    (silent : r.newByte = false) {inputs : List Inputs} (spaced : Spaced inputs) : Protocol r inputs := by
  have once : EdgeOnce r := fun fell => absurd (silent.symm.trans fell) Bool.false_ne_true
  have waits := spacedWaits (Holds.zero idle) once spaced (fun _ _ _ => rfl)
  intro n inside raised
  simpa [shown,quiet] using waits n inside raised

theorem settlesAnswered {r : Regs} (idle : r.state = State.zero) (quiet : r.done = false)
    (silent : r.newByte = false) {inputs : List Inputs} (protocol : Protocol r inputs) (settles : Settles inputs)
    (long : 2 ≤ inputs.length) : (results r inputs).length = starts inputs := by
  obtain ⟨n,size⟩ : ∃ n, inputs.length = n + 2 := ⟨inputs.length - 2,by omega⟩
  have before : n < inputs.length := by omega
  have last : n + 1 < inputs.length := by omega
  have drops : inputs.drop (inputs.length - 2) = inputs[n] :: inputs[n+1] :: [] := by
    have place : inputs.length - 2 = n := by omega
    rw [place,List.drop_eq_getElem_cons before,List.drop_eq_getElem_cons last,List.drop_of_length_le (by omega)]
  have first : inputs[n].start = false := settles _ (by rw [drops]; exact List.mem_cons_self)
  have second : inputs[n+1].start = false :=
    settles _ (by rw [drops]; exact List.mem_cons_of_mem _ List.mem_cons_self)
  obtain ⟨box,owed,holds,_,count⟩ := cycleHolds idle quiet silent protocol (n+1) last
  have none : owed = [] := by
    by_contra due
    rw [runTake r before] at holds
    rw [owedStarted holds due] at first
    cases first
  have all : inputs.take (n+1+1) = inputs := List.take_of_length_le (by omega)
  have total := startsTake last
  rw [all,second,if_neg Bool.false_ne_true] at total
  rw [all,none,← Nat.add_zero (starts _),← total] at count
  exact count.symm

end FpgaSynthesizer.SpacedStarts
