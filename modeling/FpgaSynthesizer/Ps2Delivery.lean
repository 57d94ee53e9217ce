import FpgaSynthesizer.Ps2Ci

/-! ps2_ci is the one-slot mailbox. The states ZERO, NEW and INVALID are the
mailbox's states; SEND holds one answer that is still owed, and relies on new_byte
never being high in two consecutive cycles. -/
namespace FpgaSynthesizer.Ps2Delivery
open Mailbox Ps2Ci

/- The registers stand for a mailbox state and the answers owed to earlier
starts, not counting one that is being shown. -/
inductive Holds (r : Regs) : Box Byte → List Word → Prop where
  | zero (state : r.state = State.zero) : Holds r (.waiting []) []
  | new (code) (state : r.state = State.new) (slot : r.shift = value code) : Holds r (.full code) []
  | send (state : r.state = State.send) (silent : r.newByte = false) : Holds r (.waiting []) [r.shift]
  | invalid (seen) (state : r.state = State.invalid) (part : r.shift = value seen) : Holds r (.waiting seen) []

def EdgeOnce (r : Regs) : Prop := r.newByte = true → r.dWorking = false

def answer (code : Option (List Byte)) : Word := code.elim 0 value

theorem clockEdge (r : Regs) (i : Inputs) :
    (clock r i).dWorking = i.working ∧ (clock r i).newByte = (!i.working && r.dWorking) := by
  unfold clock onZero onNew onSend onInvalid edge
  dsimp only
  repeat' split
  all_goals exact ⟨rfl,rfl⟩

theorem clockEdgeOnce (r : Regs) (i : Inputs) : EdgeOnce (clock r i) := by
  intro fell
  rw [(clockEdge r i).2] at fell
  rw [(clockEdge r i).1]
  cases h : i.working
  · rfl
  · rw [h] at fell
    contradiction

theorem noSecondByte {r : Regs} (once : EdgeOnce r) (i : Inputs) (fell : r.newByte = true) :
    (clock r i).newByte = false := by
  rw [(clockEdge r i).2,once fell,Bool.and_false]

/- One clock is one step of the mailbox. The answer to a start is shown in the
next cycle, except that a start met by a completing byte is owed for one more. -/
def Steps (r : Regs) (i : Inputs) (box : Box Byte) (owed : List Word) : Prop :=
  ∃ owed', Holds (clock r i) (next isPrefix box ⟨i.start,byteOf r i⟩) owed' ∧
    owed ++ (if i.start then [answer (reply isPrefix box (byteOf r i))] else []) =
      shown (clock r i) ++ owed'

theorem zeroSteps {r : Regs} (state : r.state = State.zero) (once : EdgeOnce r) (i : Inputs) :
    Steps r i (.waiting []) [] := by
  unfold Steps
  rw [clockZero state]
  cases fell : r.newByte with
  | false =>
    refine ⟨[],?_,?_⟩
    · simpa [byteOf,fell,next] using Holds.zero (by simp [onZero,fell,edge,state])
    · cases h : i.start <;> simp [byteOf,fell,reply,answer,onZero,edge,shown,h]
  | true =>
    have silent := noSecondByte once i fell
    rw [clockZero state] at silent
    by_cases pre : isPrefix i.keycode = true
    · refine ⟨[],?_,?_⟩
      · simpa [byteOf,fell,next,pre] using
          Holds.invalid [i.keycode] (by simp [onZero,fell,pre]) (by simp [onZero,fell,pre,valueOne])
      · cases h : i.start <;> simp [byteOf,fell,reply,answer,onZero,edge,shown,h,pre]
    · cases h : i.start with
      | false =>
        refine ⟨[],?_,?_⟩
        · simpa [byteOf,fell,next,pre] using
            Holds.new [i.keycode] (by simp [onZero,fell,pre,h]) (by simp [onZero,fell,pre,valueOne])
        · simp [onZero,fell,edge,shown,pre]
      | true =>
        refine ⟨[(onZero r i).shift],?_,?_⟩
        · simpa [byteOf,fell,next,pre] using Holds.send (by simp [onZero,fell,pre,h]) silent
        · simp [byteOf,fell,reply,answer,onZero,edge,shown,pre,valueOne]

theorem newSteps {r : Regs} {code : List Byte} (state : r.state = State.new) (slot : r.shift = value code)
    (i : Inputs) : Steps r i (.full code) [] := by
  unfold Steps
  rw [clockNew state]
  cases fell : r.newByte with
  | false =>
    cases h : i.start with
    | false =>
      refine ⟨[],?_,?_⟩
      · simpa [byteOf,fell,next] using
          Holds.new code (by simp [onNew,fell,edge,h,state]) (by simp [onNew,fell,edge,h,slot])
      · simp [onNew,fell,edge,shown,h]
    | true =>
      refine ⟨[],?_,?_⟩
      · simpa [byteOf,fell,next] using Holds.zero (by simp [onNew,fell,h])
      · simp [reply,answer,onNew,fell,edge,shown,h,slot]
  | true =>
    refine ⟨[],?_,?_⟩
    · by_cases pre : isPrefix i.keycode = true
      · simpa [byteOf,fell,next,pre] using
          Holds.invalid [i.keycode] (by simp [onNew,fell,pre]) (by simp [onNew,fell,pre,valueOne])
      · simpa [byteOf,fell,next,pre] using
          Holds.new [i.keycode] (by simp [onNew,fell,edge,pre,state]) (by simp [onNew,fell,pre,valueOne])
    · -- the old code is answered whatever the new byte is
      cases h : i.start <;> cases pre : isPrefix i.keycode <;>
        simp [reply,answer,onNew,fell,edge,shown,h,pre,slot]

theorem sendSteps {r : Regs} (state : r.state = State.send) (silent : r.newByte = false) {i : Inputs}
    (idle : i.start = false) : Steps r i (.waiting []) [r.shift] := by
  unfold Steps
  rw [clockSend state]
  refine ⟨[],?_,?_⟩
  · simpa [byteOf,silent,next] using Holds.zero (by simp [onSend])
  · simp [idle,onSend,shown]

theorem invalidSteps {r : Regs} {seen : List Byte} (state : r.state = State.invalid)
    (part : r.shift = value seen) (once : EdgeOnce r) (i : Inputs) : Steps r i (.waiting seen) [] := by
  unfold Steps
  rw [clockInvalid state]
  cases fell : r.newByte with
  | false =>
    refine ⟨[],?_,?_⟩
    · simpa [byteOf,fell,next] using
        Holds.invalid seen (by simp [onInvalid,fell,edge,state]) (by simp [onInvalid,fell,edge,part])
    · cases h : i.start <;> simp [byteOf,fell,reply,answer,onInvalid,edge,shown,h]
  | true =>
    have silent := noSecondByte once i fell
    rw [clockInvalid state] at silent
    by_cases pre : isPrefix i.keycode = true
    · refine ⟨[],?_,?_⟩
      · simpa [byteOf,fell,next,pre] using
          Holds.invalid (seen ++ [i.keycode]) (by simp [onInvalid,fell,edge,pre,state])
            (by simp [onInvalid,fell,pre,valueSnoc,part])
      · cases h : i.start <;> simp [byteOf,fell,reply,answer,onInvalid,edge,shown,h,pre]
    · cases h : i.start with
      | false =>
        refine ⟨[],?_,?_⟩
        · simpa [byteOf,fell,next,pre] using
            Holds.new (seen ++ [i.keycode]) (by simp [onInvalid,fell,pre,h])
              (by simp [onInvalid,fell,pre,valueSnoc,part])
        · simp [onInvalid,fell,edge,shown,pre]
      | true =>
        refine ⟨[(onInvalid r i).shift],?_,?_⟩
        · simpa [byteOf,fell,next,pre] using Holds.send (by simp [onInvalid,fell,pre,h]) silent
        · simp [byteOf,fell,reply,answer,onInvalid,edge,shown,pre,valueSnoc,part]

theorem clockHolds {r : Regs} {box : Box Byte} {owed : List Word} (holds : Holds r box owed)
    (once : EdgeOnce r) (i : Inputs) (ready : i.start = true → owed = []) : Steps r i box owed := by
  cases holds with
  | zero state => exact zeroSteps state once i
  | new code state slot => exact newSteps state slot i
  | send state silent =>
    have idle : i.start = false := by
      by_contra raised
      have none := ready (by simpa using raised)
      simp at none
    exact sendSteps state silent idle
  | invalid seen state part => exact invalidSteps state part once i

/-! ### Whole runs -/

def Waits (due : Nat) (r : Regs) (inputs : List Inputs) : Prop :=
  ∀ n, (h : n < inputs.length) → inputs[n].start = true →
    due + starts (inputs.take n) = (results r (inputs.take (n+1))).length

theorem waitsReady {r : Regs} {owed : List Word} {i : Inputs} {rest : List Inputs}
    (waits : Waits ((shown r).length + owed.length) r (i :: rest)) : i.start = true → owed = [] := by
  intro raised
  have count := waits 0 (by simp) (by simpa using raised)
  simp only [List.take_zero,starts,List.countP_nil,Nat.zero_add,List.take_succ_cons,results,
    List.append_nil] at count
  exact List.length_eq_zero_iff.mp (by omega)

theorem waitsNext {r : Regs} {owed owed' : List Word} {i : Inputs} {rest : List Inputs}
    (waits : Waits ((shown r).length + owed.length) r (i :: rest))
    (moved : owed.length + (if i.start then 1 else 0) = (shown (clock r i)).length + owed'.length) :
    Waits ((shown (clock r i)).length + owed'.length) (clock r i) rest := by
  intro n h raised
  have count := waits (n+1) (by simpa using h) (by simpa using raised)
  simp only [List.take_succ_cons (i := n),List.take_succ_cons (i := n+1),starts,List.countP_cons] at count
  rw [results,List.length_append] at count
  simp only [starts]
  omega

theorem runAnswers {r : Regs} {box : Box Byte} {owed : List Word} (holds : Holds r box owed)
    (once : EdgeOnce r) (t : Nat) (inputs : List Inputs)
    (waits : Waits ((shown r).length + owed.length) r inputs) :
    ∃ later, shown r ++ owed ++ (exchanges isPrefix t box (cyclesOf r inputs)).map (fun e => answer e.2) =
      results r inputs ++ later := by
  induction inputs generalizing r box owed t with
  | nil => exact ⟨shown r ++ owed,by simp [cyclesOf,exchanges,results]⟩
  | cons i rest ih =>
    obtain ⟨owed',holds',moved⟩ := clockHolds holds once i (waitsReady waits)
    have lengths := congrArg List.length moved
    simp only [List.length_append] at lengths
    have waits' : Waits ((shown (clock r i)).length + owed'.length) (clock r i) rest := by
      apply waitsNext waits
      cases h : i.start <;> simpa [h] using lengths
    obtain ⟨later,served⟩ := ih holds' (clockEdgeOnce r i) (t+1) waits'
    refine ⟨later,?_⟩
    rw [results,List.append_assoc,List.append_assoc,← served,← moved]
    simp only [cyclesOf,exchanges]
    cases h : i.start <;> simp

theorem startsCount (r : Regs) (t : Nat) (inputs : List Inputs) :
    (startsFrom t (cyclesOf r inputs)).length = starts inputs := by
  induction inputs generalizing r t with
  | nil => rfl
  | cons i rest ih =>
    have tail := ih (clock r i) (t+1)
    cases h : i.start <;> simp [cyclesOf,startsFrom,starts,h] <;> exact tail

theorem runExchanges {r : Regs} (idle : r.state = State.zero) (quiet : r.done = false)
    (silent : r.newByte = false) {inputs : List Inputs} (protocol : Protocol r inputs)
    (answered : (results r inputs).length = starts inputs) :
    results r inputs =
      (exchanges isPrefix 0 (.waiting []) (cyclesOf r inputs)).map (fun e => answer e.2) := by
  have once : EdgeOnce r := by simp [EdgeOnce,silent]
  have waits : Waits ((shown r).length + ([] : List Word).length) r inputs := by
    intro n h raised
    simpa [shown,quiet] using protocol n h raised
  obtain ⟨later,served⟩ := runAnswers (Holds.zero idle) once 0 inputs waits
  have count := congrArg List.length (exchangesStarts isPrefix 0 (.waiting []) (cyclesOf r inputs))
  rw [List.length_map,startsCount,← answered] at count
  have nothing : later = [] := by
    have lengths := congrArg List.length served
    simp only [shown,quiet,List.length_append,List.length_map,List.length_nil,Bool.false_eq_true,
      if_false,count] at lengths
    exact List.length_eq_zero_iff.mp (by omega)
  simpa [shown,quiet,nothing] using served.symm

theorem answersHanded (es : List (Nat × Option (List Byte))) :
    (es.map (fun e => answer e.2)).filter (· ≠ 0) =
      ((es.filterMap handed).map (fun e => value e.2)).filter (· ≠ 0) := by
  induction es with
  | nil => rfl
  | cons e rest ih =>
    obtain ⟨s,code⟩ := e
    cases code with
    | none =>
      have dropped : ((s,none) :: rest : List (Nat × Option (List Byte))).filterMap handed =
          rest.filterMap handed := rfl
      rw [dropped,← ih]
      rfl
    | some bytes =>
      have kept : ((s,some bytes) :: rest).filterMap handed = (s,bytes) :: rest.filterMap handed := rfl
      rw [kept,List.map_cons,List.map_cons,List.filter_cons,List.filter_cons,ih]
      rfl

def codesOf (r : Regs) (inputs : List Inputs) : List (Code Byte) :=
  codesFrom isPrefix 0 [] (cyclesOf r inputs)

def startsOf (r : Regs) (inputs : List Inputs) : List Nat := startsFrom 0 (cyclesOf r inputs)

def deliveries (r : Regs) (inputs : List Inputs) : List (Delivery Byte) :=
  deliver (startsOf r inputs) (codesOf r inputs) []

theorem runServes (r : Regs) (inputs : List Inputs) :
    (exchanges isPrefix 0 (.waiting []) (cyclesOf r inputs)).filterMap handed =
      (deliveries r inputs).map Delivery.handed :=
  exchangesServe isPrefix 0 0 (.waiting []) (cyclesOf r inputs) [] (Nat.le_refl 0) (by simp)

theorem nonzeroResults {r : Regs} (idle : r.state = State.zero) (quiet : r.done = false)
    (silent : r.newByte = false) {inputs : List Inputs} (protocol : Protocol r inputs)
    (answered : (results r inputs).length = starts inputs) :
    (results r inputs).filter (· ≠ 0) =
      ((deliveries r inputs).map (fun d => value d.code.bytes)).filter (· ≠ 0) := by
  rw [runExchanges idle quiet silent protocol answered,answersHanded,runServes,List.map_map]
  rfl

theorem startAnswer {r : Regs} (idle : r.state = State.zero) (quiet : r.done = false)
    (silent : r.newByte = false) {inputs : List Inputs} (protocol : Protocol r inputs)
    (answered : (results r inputs).length = starts inputs) {x : Nat × Word}
    (member : x ∈ (startsOf r inputs).zip (results r inputs)) :
    (∃ d ∈ deliveries r inputs, d.start = x.1 ∧ x.2 = value d.code.bytes) ∨
    ((∀ d ∈ deliveries r inputs, d.start ≠ x.1) ∧ x.2 = 0) := by
  rw [startsOf,← exchangesStarts isPrefix 0 (.waiting []),
    runExchanges idle quiet silent protocol answered,List.zip_map'] at member
  obtain ⟨e,he,rfl⟩ := List.mem_map.mp member
  rcases exchangeOutcome (runServes r inputs) he with ⟨d,hd,start,code⟩ | ⟨none,code⟩
  · exact .inl ⟨d,hd,start,by simp [answer,code]⟩
  · exact .inr ⟨none,by simp [answer,code]⟩

theorem resultsAreDeliveries {r : Regs} (idle : r.state = State.zero) (quiet : r.done = false)
    (silent : r.newByte = false) (inputs : List Inputs) (protocol : Protocol r inputs)
    (answered : (results r inputs).length = starts inputs) :
    ((deliveries r inputs).map Delivery.code).Sublist (codesOf r inputs) ∧
    (results r inputs).filter (· ≠ 0) =
      ((deliveries r inputs).map (fun d => value d.code.bytes)).filter (· ≠ 0) ∧
    (∀ x ∈ (startsOf r inputs).zip (results r inputs),
      (∃ d ∈ deliveries r inputs, d.start = x.1 ∧ x.2 = value d.code.bytes) ∨
      ((∀ d ∈ deliveries r inputs, d.start ≠ x.1) ∧ x.2 = 0)) ∧
    (∀ k ∈ codesOf r inputs, k ∉ (deliveries r inputs).map Delivery.code → ∀ s ∈ startsOf r inputs,
      k.completed ≤ s → s ≤ k.last → ∃ d ∈ deliveries r inputs, d.start = s) := by
  refine ⟨deliverSublist _ _ _,nonzeroResults idle quiet silent protocol answered,
    fun x member => startAnswer idle quiet silent protocol answered member,?_⟩
  intro k member lost s hs opened closes
  exact (deliverLost [] member lost hs opened closes).resolve_left List.not_mem_nil

theorem pressAndReleaseDelivered :
    (results ⟨true,false,State.zero,0,false,0⟩
      [⟨false,false,0x1c⟩,⟨true,true,0x1c⟩,⟨false,false,0xf0⟩,⟨false,true,0xf0⟩,⟨false,false,0x1c⟩,
       ⟨false,true,0x1c⟩,⟨true,true,0x1c⟩,⟨false,true,0x1c⟩]).filter (· ≠ 0) = [0x1c,0xf01c] := by
  have run := (resultsAreDeliveries (r := ⟨true,false,State.zero,0,false,0⟩) rfl rfl rfl
    [⟨false,false,0x1c⟩,⟨true,true,0x1c⟩,⟨false,false,0xf0⟩,⟨false,true,0xf0⟩,⟨false,false,0x1c⟩,
     ⟨false,true,0x1c⟩,⟨true,true,0x1c⟩,⟨false,true,0x1c⟩] (by decide) (by decide)).2.1
  exact run.trans (by decide)

end FpgaSynthesizer.Ps2Delivery
