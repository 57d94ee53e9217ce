import FpgaSynthesizer.Ps2Delivery

/-! The custom instruction's handshake, cycle by cycle. A start is answered in the
next cycle, or in the one after it when SEND comes between; the answers owed are
those of the mailbox simulation, and only SEND owes one. -/
namespace FpgaSynthesizer.Ps2Handshake
open Mailbox Ps2Ci Ps2Delivery

def states : List (BitVec 4) := [State.zero,State.new,State.send,State.invalid]

def unanswered (r : Regs) (inputs : List Inputs) (n : Nat) : Int :=
  (starts (inputs.take n) : Int) - (results r (inputs.take (n+1))).length

theorem resultsSnoc (r : Regs) (inputs : List Inputs) (i : Inputs) :
    results r (inputs ++ [i]) = results r inputs ++ shown (run r inputs) := by
  induction inputs generalizing r with
  | nil => simp [results,run]
  | cons x rest ih =>
    rw [List.cons_append,results,ih,results,List.append_assoc]
    rfl

/-! ### From one cycle to the next -/

theorem runTake (r : Regs) {inputs : List Inputs} {n : Nat} (h : n < inputs.length) :
    run r (inputs.take (n+1)) = clock (run r (inputs.take n)) inputs[n] := by
  rw [List.take_succ_eq_append_getElem h,run,List.foldl_append]
  rfl

theorem startsTake {inputs : List Inputs} {n : Nat} (h : n < inputs.length) :
    starts (inputs.take (n+1)) = starts (inputs.take n) + (if inputs[n].start then 1 else 0) := by
  rw [List.take_succ_eq_append_getElem h,starts,List.countP_append,List.countP_singleton]
  rfl

theorem resultsTake (r : Regs) {inputs : List Inputs} {n : Nat} (h : n < inputs.length) :
    results r (inputs.take (n+1)) = results r (inputs.take n) ++ shown (run r (inputs.take n)) := by
  rw [List.take_succ_eq_append_getElem h,resultsSnoc]

theorem holdsState {r : Regs} {box : Box Byte} {owed : List Word} (holds : Holds r box owed) :
    r.state ∈ states ∧ (r.state = State.send → r.newByte = false) ∧
    owed.length = if r.state = State.send then 1 else 0 := by
  cases holds with
  | zero state =>
    rw [state]
    exact ⟨by decide,fun h => absurd h (by decide),rfl⟩
  | new code state slot =>
    rw [state]
    exact ⟨by decide,fun h => absurd h (by decide),rfl⟩
  | send state silent =>
    rw [state]
    exact ⟨by decide,fun _ => silent,rfl⟩
  | invalid seen state part =>
    rw [state]
    exact ⟨by decide,fun h => absurd h (by decide),rfl⟩

theorem cycleHolds {r : Regs} (idle : r.state = State.zero) (quiet : r.done = false)
    (silent : r.newByte = false) {inputs : List Inputs} (protocol : Protocol r inputs) (n : Nat)
    (h : n < inputs.length) :
    ∃ box owed, Holds (run r (inputs.take n)) box owed ∧ EdgeOnce (run r (inputs.take n)) ∧
      starts (inputs.take n) = (results r (inputs.take (n+1))).length + owed.length := by
  induction n with
  | zero =>
    have once : EdgeOnce r := fun fell => absurd (silent.symm.trans fell) Bool.false_ne_true
    have none : (results r (inputs.take (0+1))).length = 0 := by
      rw [resultsTake r h]
      simp [results,run,shown,quiet]
    exact ⟨_,_,Holds.zero idle,once,by rw [none]; rfl⟩
  | succ n ih =>
    have before : n < inputs.length := Nat.lt_of_succ_lt h
    obtain ⟨box,owed,holds,once,count⟩ := ih before
    have ready : inputs[n].start = true → owed = [] := by
      intro raised
      have answered := protocol n before raised
      exact List.length_eq_zero_iff.mp (by omega)
    obtain ⟨owed',holds',moved⟩ := clockHolds holds once inputs[n] ready
    have once' := clockEdgeOnce (run r (inputs.take n)) inputs[n]
    have lengths := congrArg List.length moved
    rw [List.length_append,List.length_append] at lengths
    have total := resultsTake r h
    rw [← runTake r before] at holds' once' lengths
    refine ⟨_,owed',holds',once',?_⟩
    rw [total,List.length_append,startsTake before]
    cases start : inputs[n].start with
    | false =>
      rw [start] at lengths
      simp only [Bool.false_eq_true,if_false,List.length_nil] at lengths ⊢
      omega
    | true =>
      rw [start] at lengths
      simp only [if_true,List.length_singleton] at lengths ⊢
      omega

theorem startsAnsweredOnce {r : Regs} (idle : r.state = State.zero) (quiet : r.done = false)
    (silent : r.newByte = false) (inputs : List Inputs) (protocol : Protocol r inputs) (n : Nat)
    (h : n < inputs.length) :
    unanswered r inputs n = (if (run r (inputs.take n)).state = State.send then 1 else 0) ∧
    ((run r (inputs.take n)).newByte = true → (clock (run r (inputs.take n)) inputs[n]).newByte = false) ∧
    ((run r (inputs.take n)).state = State.send → (run r (inputs.take n)).newByte = false) ∧
    (run r (inputs.take n)).state ∈ states := by
  obtain ⟨box,owed,holds,once,count⟩ := cycleHolds idle quiet silent protocol n h
  obtain ⟨state,send,owes⟩ := holdsState holds
  refine ⟨?_,noSecondByte once inputs[n],send,state⟩
  rw [unanswered,count,owes]
  split <;> push_cast <;> omega

def startWithByte : List Inputs :=
  [⟨false,true,0x1c⟩,⟨false,false,0x1c⟩,⟨true,true,0x1c⟩,⟨false,true,0x1c⟩,⟨false,true,0x1c⟩]

theorem startWithByteOpen :
    Protocol ⟨false,false,State.zero,0,false,0⟩ startWithByte ∧
    unanswered ⟨false,false,State.zero,0,false,0⟩ startWithByte 3 = 1 :=
  ⟨by decide,(startsAnsweredOnce (r := ⟨false,false,State.zero,0,false,0⟩) rfl rfl rfl startWithByte (by decide) 3
    (by decide)).1.trans (by decide)⟩

end FpgaSynthesizer.Ps2Handshake
