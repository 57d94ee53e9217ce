import FpgaSynthesizer.Ps2Handshake
import FpgaSynthesizer.SynthCi

/-! The custom instruction port between the processor and its two devices, one
clock at a time. The interconnect gates start with the select of each device and
joins done and result; the translators pass every signal on, the synthesizer's
only the low two bits of n. -/
namespace FpgaSynthesizer.InstructionPort
open Ps2Ci hiding Regs Inputs clock run
open Ps2Handshake (states)
open SynthCi (Opcode)

/-! ### The macros of system.h -/

inductive Instruction where
  | keyboardCi
  | synthCi (n : Opcode) (a : Word)
  deriving DecidableEq, Repr

def keyboardN : BitVec 8 := 0x4
def synthN : BitVec 8 := 0x0
def synthNMask : BitVec 8 := (1 <<< 2) - 1

def Instruction.n : Instruction → BitVec 8
  | .keyboardCi => keyboardN
  | .synthCi n _ => synthN + (n.n.setWidth 8 &&& synthNMask)

/-! ### The wires -/

structure Master where
  n : BitVec 8
  dataa : Word
  start : Bool
  clkEn : Bool
  reset : Bool
  deriving DecidableEq, Repr

def select0 (n : BitVec 8) : Bool := n ≥ 4 && n < 5

def select1 (n : BitVec 8) : Bool := n ≥ 0 && n < 4

def keyboardStart (m : Master) : Bool := select0 m.n && m.start

def synthInputs (m : Master) : SynthCi.Inputs := ⟨m.reset,m.clkEn,select1 m.n && m.start,m.n.setWidth 2,m.dataa⟩

def done (keyboard : Ps2Ci.Regs) (m : Master) : Bool :=
  (select0 m.n && keyboard.done) || (select1 m.n && SynthCi.done (synthInputs m))

/- synth_ci has no result, and its translator's input is left open. -/
def result (keyboard : Ps2Ci.Regs) (open1 : Word) (m : Master) : Word :=
  (if select0 m.n then keyboard.result else 0) ||| (if select1 m.n then open1 else 0)

/- The signals that nothing depends on, and the ones of a processor without a custom
instruction. -/
structure Idle where
  n : BitVec 8
  dataa : Word
  clkEn : Bool
  reset : Bool
  deriving DecidableEq, Repr

/- An instruction holds n, its operand and clk_en until done, and raises start in
its first clock. -/
def drive (idle : Idle) (start : Bool) : Option Instruction → Master
  | none => ⟨idle.n,idle.dataa,false,idle.clkEn,idle.reset⟩
  | some .keyboardCi => ⟨Instruction.n .keyboardCi,idle.dataa,start,true,false⟩
  | some (.synthCi n a) => ⟨Instruction.n (.synthCi n a),a,start,true,false⟩

/-! ### What each instruction does on the port -/

section
variable (idle : Idle) (start : Bool)

theorem idleStart : keyboardStart (drive idle start none) = false := Bool.and_false _

theorem idleSynth (r : SynthCi.Regs) : SynthCi.clock r (synthInputs (drive idle start none)) = r := by
  simp only [SynthCi.clock,synthInputs,drive,Bool.and_false,Bool.false_eq_true,if_false,ite_self]

theorem keyboardStarts : keyboardStart (drive idle start (some .keyboardCi)) = start := rfl

theorem keyboardDone (keyboard : Ps2Ci.Regs) : done keyboard (drive idle start (some .keyboardCi)) = keyboard.done :=
  Bool.or_false _

theorem keyboardResult (keyboard : Ps2Ci.Regs) (open1 : Word) :
    result keyboard open1 (drive idle start (some .keyboardCi)) = keyboard.result := BitVec.or_zero

theorem keyboardSynth (r : SynthCi.Regs) :
    SynthCi.clock r (synthInputs (drive idle start (some .keyboardCi))) = r := rfl

variable (n : Opcode) (a : Word)

theorem synthStarts : keyboardStart (drive idle start (some (.synthCi n a))) = false := by
  cases n <;> rfl

theorem synthDone (keyboard : Ps2Ci.Regs) : done keyboard (drive idle start (some (.synthCi n a))) = !start := by
  cases n <;> rfl

theorem synthFirst (r : SynthCi.Regs) :
    SynthCi.clock r (synthInputs (drive idle true (some (.synthCi n a)))) = SynthCi.customInstruction r n a := by
  cases n <;> rfl

theorem synthWaits (r : SynthCi.Regs) : SynthCi.clock r (synthInputs (drive idle false (some (.synthCi n a)))) = r := by
  cases n <;> rfl

end

/-! ### The answer of the keyboard's device -/

/- ps2_ci owes nothing: no start is open and done is low. -/
structure Rests (r : Ps2Ci.Regs) : Prop where
  state : r.state ∈ states
  waits : r.state ≠ State.send
  low : r.done = false

/- A start is open: its answer is on the port, or SEND will put it there. -/
structure Answers (r : Ps2Ci.Regs) : Prop where
  state : r.state ∈ states
  once : r.done = true ↔ r.state ≠ State.send

theorem clockOpen {r : Ps2Ci.Regs} (state : r.state ∈ states) (waits : r.state ≠ State.send) (i : Ps2Ci.Inputs) :
    (Ps2Ci.clock r i).state ∈ states ∧ ((Ps2Ci.clock r i).state = State.send → i.start = true) ∧
      ((Ps2Ci.clock r i).done = true ↔ i.start = true ∧ (Ps2Ci.clock r i).state ≠ State.send) := by
  simp only [states,List.mem_cons,List.not_mem_nil,or_false] at state
  rcases state with zero | new | send | invalid
  · rw [clockZero zero]
    unfold onZero edge
    dsimp only
    cases r.newByte <;> cases isPrefix i.keycode <;> cases i.start <;> simp [zero,states] <;> decide
  · rw [clockNew new]
    unfold onNew edge
    dsimp only
    cases r.newByte <;> cases isPrefix i.keycode <;> cases i.start <;> simp [new,states] <;> decide
  · exact absurd send waits
  · rw [clockInvalid invalid]
    unfold onInvalid edge
    dsimp only
    cases r.newByte <;> cases isPrefix i.keycode <;> cases i.start <;> simp [invalid,states] <;> decide

theorem restsStart {r : Ps2Ci.Regs} (rests : Rests r) {i : Ps2Ci.Inputs} (start : i.start = true) :
    Answers (Ps2Ci.clock r i) := by
  obtain ⟨state,_,done⟩ := clockOpen rests.state rests.waits i
  exact ⟨state,done.trans (and_iff_right start)⟩

theorem quietRests {r : Ps2Ci.Regs} (state : r.state ∈ states) (waits : r.state ≠ State.send) {i : Ps2Ci.Inputs}
    (quiet : i.start = false) : Rests (Ps2Ci.clock r i) := by
  obtain ⟨state',sends,done⟩ := clockOpen state waits i
  have none : ¬ i.start = true := by simp [quiet]
  exact ⟨state',fun send => none (sends send),Bool.eq_false_iff.mpr fun high => none (done.mp high).1⟩

theorem restsWait {r : Ps2Ci.Regs} (rests : Rests r) {i : Ps2Ci.Inputs} (quiet : i.start = false) :
    Rests (Ps2Ci.clock r i) := quietRests rests.state rests.waits quiet

theorem answersDone {r : Ps2Ci.Regs} (answers : Answers r) (high : r.done = true) {i : Ps2Ci.Inputs}
    (quiet : i.start = false) : Rests (Ps2Ci.clock r i) := quietRests answers.state (answers.once.mp high) quiet

theorem answersSend {r : Ps2Ci.Regs} (answers : Answers r) (low : r.done = false) (i : Ps2Ci.Inputs) :
    Answers (Ps2Ci.clock r i) ∧ (Ps2Ci.clock r i).done = true := by
  have send : r.state = State.send := by
    by_contra other
    exact Bool.false_ne_true (low.symm.trans (answers.once.mpr other))
  have zero : (onSend r i).state = State.zero := rfl
  rw [clockSend send]
  exact ⟨⟨by rw [zero]; decide,iff_of_true rfl (by rw [zero]; decide)⟩,rfl⟩

end FpgaSynthesizer.InstructionPort
