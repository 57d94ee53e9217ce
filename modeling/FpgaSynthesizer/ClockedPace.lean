import FpgaSynthesizer.ClockedBoard

/-! How often the board reads the keyboard. Between two reads main performs at most
40 turns, each instruction is done within two clocks, and so a bound on the pauses
of the processor bounds the time between two reads. -/
namespace FpgaSynthesizer.ClockedPace
open ClockedBoard InstructionPort PolledMailbox ToneCalls
open GetKeySteps (Version)
open Ps2Board (Pins cycles)
open SynthCi (Opcode)
open ToneProgram (Statics Action Word numRelTones handleKey handleSwitches silenceWindow soundWindow)

variable {v : Version}

/-! ### The actions of a call -/

theorem silenceLength (octave : Int) (window : List (Fin numRelTones)) :
    (silenceWindow octave window).length ≤ window.length := by
  induction window with
  | nil => exact Nat.le_refl 0
  | cons i rest ih =>
    simp only [silenceWindow]
    split
    · exact Nat.succ_le_succ ih
    · exact Nat.le_succ_of_le ih

theorem soundLength (status : Vector Int numRelTones) (octave : Int) (window : List (Fin numRelTones)) (leds : Word) :
    (soundWindow status octave window leds).1.length ≤ window.length := by
  induction window generalizing leds with
  | nil => exact Nat.le_refl 0
  | cons i rest ih =>
    simp only [soundWindow]
    split
    · split
      · exact Nat.succ_le_succ (ih _)
      · exact Nat.succ_le_succ (ih _)
    · exact Nat.le_succ_of_le (ih _)

theorem keyLength (s : Statics) (key : Word) : (handleKey s key).2.length ≤ 37 := by
  rcases handleKeyCases s key with ⟨_,shift⟩ | ⟨_,i,_,note⟩ | ⟨_,_,nothing⟩
  · have silence : _ ≤ 18 := silenceLength s.prevOctave (List.finRange numRelTones)
    have sound : _ ≤ 18 :=
      soundLength s.tonesStatus (octaveAfter s.prevOctave key) (List.finRange numRelTones) 0
    rw [shift]
    simp only [shiftActions,List.length_append,List.length_singleton]
    omega
  · have two : (noteActions i s.prevOctave (keyOpcode key)).length ≤ 2 := by
      simp only [noteActions]
      split
      · split <;> exact Nat.le_refl 2
      · exact Nat.zero_le 2
    rw [note]
    exact Nat.le_trans two (by decide)
  · rw [nothing]
    exact Nat.zero_le 37

theorem switchesLength (s : Statics) (sw : Word) : (handleSwitches s sw).2.length ≤ 2 := by
  rw [handleSwitches]
  split
  · exact Nat.le_refl 2
  · exact Nat.zero_le 2

/-! ### The turns before the next read -/

/- After the pending actions: the read, or the switches, their two actions and the
read. -/
def turnsLeft (p : Processor v) : Nat := p.pending.length + if p.reading then 1 else 4

def mostTurns : Nat := 41

def readies : List Event → List Bool
  | [] => []
  | .clock50 i :: rest => i.ready :: readies rest
  | .clk18 :: rest => readies rest

/- The processor never pauses for more than so many clocks in a row, and now for no
more than its patience. -/
def Brisk (wait : Nat) : Nat → List Bool → Prop
  | _, [] => True
  | _, true :: rest => Brisk wait wait rest
  | 0, false :: _ => False
  | patience+1, false :: rest => Brisk wait patience rest

def clocksLeft (wait patience : Nat) (b : Board v) : Nat :=
  match b.processor.inFlight with
  | none => (turnsLeft b.processor - 1)*(wait+2) + patience + 1
  | some (.synthCi _ _) => turnsLeft b.processor*(wait+2)
  | some .keyboardCi => mostTurns*(wait+2) + if b.keyboard.ci.done then 0 else 1

section
variable {b b' : Board v} {i : Inputs} {start : Bool} {events : List SoundBoard.Event}

theorem clockTurns (few : turnsLeft b.processor ≤ mostTurns) (clocked : Clock b i start b' events) :
    turnsLeft b'.processor ≤ mostTurns := by
  cases clocked with
  | @returns key flight high ends =>
    have actions := keyLength b.processor.statics key
    simp only [turnsLeft,mostTurns,Bool.false_eq_true,if_false]
    omega
  | switches free idle handled =>
    have actions := switchesLength b.processor.statics i.switches
    simp only [turnsLeft,mostTurns,if_true]
    omega
  | synth free next =>
    simp only [turnsLeft,next,List.length_cons] at few ⊢
    omega
  | write free next other =>
    simp only [turnsLeft,next,List.length_cons] at few ⊢
    omega
  | held flight low => exact few
  | goesOn flight high more => exact few
  | retire flight => exact few
  | wait free still => exact few
  | read free idle reading => exact few

theorem turnsPositive (p : Processor v) : 0 < turnsLeft p := by
  rw [turnsLeft]
  split <;> omega

theorem turnsPop {p q : Processor v} {x : Action} (next : p.pending = x :: q.pending) (same : q.reading = p.reading) :
    turnsLeft q = turnsLeft p - 1 := by
  rw [turnsLeft,turnsLeft,next,same,List.length_cons]
  omega

theorem freeNear {turns wait patience : Nat} (some : 0 < turns) (patient : patience ≤ wait) :
    (turns - 1)*(wait+2) + patience + 1 + 1 ≤ turns*(wait+2) := by
  obtain ⟨t,rfl⟩ : ∃ t, turns = t + 1 := ⟨turns - 1,by omega⟩
  rw [Nat.add_sub_cancel,Nat.succ_mul]
  omega

theorem clockNear (wired : Wired b) (few : turnsLeft b.processor ≤ mostTurns) {wait patience left : Nat}
    (patient : left ≤ wait) (spent : i.ready = false → left + 1 ≤ patience) (clocked : Clock b i start b' events) :
    start = true ∨ clocksLeft wait left b' + 1 ≤ clocksLeft wait patience b := by
  have few' := clockTurns few clocked
  have near := freeNear (turnsPositive b'.processor) patient
  have all : turnsLeft b'.processor*(wait+2) ≤ mostTurns*(wait+2) := Nat.mul_le_mul_right _ few'
  cases clocked with
  | held flight low =>
    have high : (keyboardClock b i false).ci.done = true := (answersSend (wired.answers flight) low _).2
    simp only [clocksLeft,flight,low,high]
    exact .inr (Nat.le_refl _)
  | goesOn flight high more =>
    simp only [clocksLeft,flight,high]
    exact .inr (Nat.le_trans near all)
  | returns flight high ends =>
    simp only [clocksLeft,flight,high]
    exact .inr (Nat.le_trans near all)
  | retire flight =>
    simp only [clocksLeft,flight]
    exact .inr near
  | wait free still =>
    have less := spent still
    simp only [clocksLeft,free]
    omega
  | @synth n a rest free next =>
    have turns := turnsPop (q := ⟨b.processor.statics,rest,b.processor.reading,b.processor.locals,
      some (.synthCi n a)⟩) next rfl
    simp only [clocksLeft,free,turns]
    omega
  | @write x rest free next other =>
    have turns := turnsPop (q := ⟨b.processor.statics,rest,b.processor.reading,b.processor.locals,
      b.processor.inFlight⟩) next rfl
    rw [turns] at near
    simp only [clocksLeft,free]
    rw [free] at turns
    rw [turns]
    omega
  | read free idle reading => exact .inl rfl
  | switches free idle handled =>
    have actions := switchesLength b.processor.statics i.switches
    have before : turnsLeft b.processor - 1 = 3 := by simp [turnsLeft,idle,handled]
    have fewer : turnsLeft {b.processor with
        statics := (handleSwitches b.processor.statics i.switches).1
        pending := (handleSwitches b.processor.statics i.switches).2
        reading := true} ≤ 3 := Nat.succ_le_succ actions
    simp only [clocksLeft,free,before] at near fewer ⊢
    have less := Nat.mul_le_mul_right (wait+2) fewer
    omega

end

/-! ### Every window of so many clocks has a read -/

def longest (wait : Nat) : Nat := mostTurns*(wait+2) + 1

theorem clocksLongest {b : Board v} (few : turnsLeft b.processor ≤ mostTurns) {wait patience : Nat}
    (patient : patience ≤ wait) : clocksLeft wait patience b ≤ longest wait := by
  have all : turnsLeft b.processor*(wait+2) ≤ mostTurns*(wait+2) := Nat.mul_le_mul_right _ few
  have near := freeNear (turnsPositive b.processor) patient
  rw [longest]
  cases flight : b.processor.inFlight with
  | none =>
    simp only [clocksLeft,flight]
    omega
  | some x =>
    cases x with
    | keyboardCi =>
      simp only [clocksLeft,flight]
      split <;> omega
    | synthCi n a =>
      simp only [clocksLeft,flight]
      omega

theorem clocksPositive (b : Board v) (wait patience : Nat) : 0 < clocksLeft wait patience b := by
  have turns := Nat.mul_pos (turnsPositive b.processor) (Nat.succ_pos (wait+1))
  have most : 0 < mostTurns*(wait+2) := Nat.mul_pos (by decide) (Nat.succ_pos (wait+1))
  unfold clocksLeft
  split <;> omega

theorem briskCons {wait patience : Nat} {ready : Bool} {rest : List Bool} (patient : patience ≤ wait)
    (brisk : Brisk wait patience (ready :: rest)) :
    ∃ left, left ≤ wait ∧ (ready = false → left + 1 ≤ patience) ∧ Brisk wait left rest := by
  cases ready with
  | true => exact ⟨wait,Nat.le_refl _,(fun none => nomatch none),brisk⟩
  | false =>
    cases patience with
    | zero => exact brisk.elim
    | succ patience => exact ⟨patience,by omega,fun _ => Nat.le_refl _,brisk⟩

theorem readWithin {b : Board v} (wired : Wired b) (few : turnsLeft b.processor ≤ mostTurns) {wait patience : Nat}
    (patient : patience ≤ wait) {events : List Event} (brisk : Brisk wait patience (readies events))
    (long : clocksLeft wait patience b ≤ (pins b events).length) :
    ∃ m x, m < clocksLeft wait patience b ∧ (pins b events)[m]? = some x ∧ x.start = true := by
  induction events generalizing b patience with
  | nil =>
    have some : 0 < clocksLeft wait patience b := clocksPositive b wait patience
    exact absurd long (Nat.not_le_of_lt some)
  | cons e rest ih =>
    cases e with
    | clock50 i =>
      have clocked := clockCases wired i
      have some := clocksPositive b wait patience
      obtain ⟨left,patient',spent,brisk'⟩ := briskCons patient brisk
      rcases clockNear wired few patient' spent clocked with start | near
      · exact ⟨0,pinsOf b i,some,rfl,start⟩
      · have size : (pins b (.clock50 i :: rest)).length = (pins (clock50 b i) rest).length + 1 := rfl
        obtain ⟨m,x,inside,place,start⟩ := ih (clockWired wired clocked) (clockTurns few clocked) patient' brisk'
          (by omega)
        exact ⟨m+1,x,by omega,place,start⟩
    | clk18 => exact ih (stepWired wired .clk18) few patient brisk long

theorem startCycle {r : Ps2Board.Regs} {pins : List Pins} {m : Nat} {x : Pins} (place : pins[m]? = some x)
    (start : x.start = true) : StartAt (cycles r pins) m := by
  have same := congrArg (fun xs => xs[m]?) (Keyboard.cyclesStart r pins)
  simp only [List.getElem?_map,place,Option.map_some] at same
  obtain ⟨y,here,raised⟩ := Option.map_eq_some_iff.mp same
  exact ⟨y,here,raised.trans start⟩

theorem windowsRead {b : Board v} (wired : Wired b) (few : turnsLeft b.processor ≤ mostTurns) {wait patience : Nat}
    (patient : patience ≤ wait) {events : List Event} (brisk : Brisk wait patience (readies events)) :
    Polled (longest wait) (cycles b.keyboard (pins b events)) := by
  induction events generalizing b patience with
  | nil =>
    intro n inside
    have none : (cycles b.keyboard (pins b [])).length = 0 := rfl
    have some : 0 < longest wait := Nat.succ_pos _
    omega
  | cons e rest ih =>
    cases e with
    | clock50 i =>
      have clocked := clockCases wired i
      obtain ⟨left,patient',_,brisk'⟩ := briskCons patient brisk
      have tail := ih (clockWired wired clocked) (clockTurns few clocked) patient' brisk'
      intro n inside
      rw [Keyboard.cyclesLength] at inside
      cases n with
      | zero =>
        have most := clocksLongest few patient
        obtain ⟨m,x,before,place,start⟩ := readWithin wired few patient brisk (by omega)
        exact ⟨m,Nat.zero_le m,by omega,startCycle place start⟩
      | succ n =>
        have size : (pins b (.clock50 i :: rest)).length = (pins (clock50 b i) rest).length + 1 := rfl
        obtain ⟨m,after,before,start⟩ := tail n (by rw [Keyboard.cyclesLength]; omega)
        exact ⟨m+1,by omega,by omega,start⟩
    | clk18 => exact ih (stepWired wired .clk18) few patient brisk

theorem powerUpTurns (v : Version) (keyboard : Ps2Board.Regs) :
    turnsLeft (powerUp v keyboard).processor ≤ mostTurns := by
  have four : turnsLeft (powerUp v keyboard).processor = 4 := rfl
  rw [four]
  decide

theorem briskReads {keyboard : Ps2Board.Regs} (zero : keyboard.ci.state = Ps2Ci.State.zero)
    (quiet : keyboard.ci.done = false) {wait : Nat} {events : List Event}
    (brisk : Brisk wait wait (readies events)) :
    Polled (longest wait) (cycles keyboard (pins (powerUp v keyboard) events)) :=
  windowsRead (powerUpWired v zero quiet) (powerUpTurns v keyboard) (Nat.le_refl wait) brisk

def busyClock : Event := .clock50 ⟨⟨true,true⟩,true,1,⟨0,0,false,false⟩,0⟩

theorem busyBrisk (n : Nat) : Brisk 0 0 (readies (List.replicate n busyClock)) := by
  induction n with
  | zero => exact trivial
  | succ n ih => exact ih

theorem busyReads :
    Polled 83 (cycles Ps2Board.powerUp (pins (powerUp .theSynth Ps2Board.powerUp) (List.replicate 100 busyClock))) :=
  briskReads rfl rfl (busyBrisk 100)

end FpgaSynthesizer.ClockedPace
