import FpgaSynthesizer.AvalonPort
import FpgaSynthesizer.Keyboard

/-! The LEDs and the switches as Avalon slaves. The reads and writes of led_on,
led_off and set_leds, one after the other on the bus, leave on the LEDs what the
program's actions leave there as single steps; the program reads the switches as
they are at a clock of its access. -/
namespace FpgaSynthesizer.PioDevices
open AvalonPort
open ToneProgram hiding Word run ledOn ledOff setLeds
open Keyboard (keyOf)
open ToneKeys (heldBy)
open ToneRange (octaveOf)
open ToneWindow (performAllAppend)

/-! ### The two cores -/

def pioLed : Core (BitVec 18) Unit :=
  {readdata := fun dataOut av => (if av.address = 0 then dataOut else 0).setWidth 32
   clock := fun dataOut av _ =>
    if av.chipselect && av.write && decide (av.address = 0) then av.writedata.setWidth 18 else dataOut}

/- in_port is on the pins; readdata is a register. -/
def pioSwitches : Core Word (BitVec 18) :=
  {readdata := fun readdata _ => readdata
   clock := fun _ av inPort => (if av.address = 0 then inPort else 0).setWidth 32}

def pioLedBase : Address := 0x81010
def pioSwitchesBase : Address := 0x81000

/-! ### The accesses of the program -/

def ledOn (num : Int) (rest : Io) : Io :=
  if num < 0 ∨ num > 17 then rest
  else .read pioLedBase fun tmp => .write pioLedBase (tmp ||| (1#32 <<< num.toNat)) rest

def ledOff (num : Int) (rest : Io) : Io :=
  if num < 0 ∨ num > 17 then rest
  else
    let mask := ~~~(0#32) ^^^ (1#32 <<< num.toNat)
    .read pioLedBase fun tmp => .write pioLedBase (tmp &&& mask) rest

def setLeds (val : Word) (rest : Io) : Io := .write pioLedBase (val &&& 0x3ffff) rest

/- The synthesizer is not on the bus. -/
def accesses : List Action → Io
  | [] => .done
  | .synth _ _ :: rest => accesses rest
  | .ledOn num :: rest => ledOn num (accesses rest)
  | .ledOff num :: rest => ledOff num (accesses rest)
  | .setLeds val :: rest => setLeds val (accesses rest)

def getSwitches (next : Word → Io) : Io := .read pioSwitchesBase next

/-! ### The LEDs -/

def ledValue (leds : BitVec 18) (address : Address) : Word :=
  (if address.extractLsb' 2 2 = 0 then leds else 0).setWidth 32

def ledEffect (leds : BitVec 18) (address : Address) (data : Word) : BitVec 18 :=
  if address.extractLsb' 2 2 = 0 then data.setWidth 18 else leds

theorem ledRegister : Register pioLed ledValue ledEffect where
  reads _ _ _ := rfl
  quiets _ _ := rfl
  keeps _ _ _ := rfl
  stores leds address data i := by
    simp only [pioLed,writing,ledEffect,Bool.true_and,decide_eq_true_eq]
  again leds address data := by
    unfold ledEffect
    split <;> rfl

abbrev LedReaches : Io → BitVec 18 → Io → BitVec 18 → Prop := Reaches ledValue ledEffect

theorem writeReached {data : Word} {rest now : Io} {leds last : BitVec 18}
    (reached : LedReaches (.write pioLedBase data rest) leds now last) :
    (now ≠ .done ∧ last = leds) ∨ LedReaches rest (data.setWidth 18) now last := by
  cases reached with
  | refl => exact .inl ⟨nofun,rfl⟩
  | write after => exact .inr after

theorem rewriteReached {change : Word → Word} {rest now : Io} {leds last : BitVec 18}
    (reached : LedReaches (.read pioLedBase fun tmp => .write pioLedBase (change tmp) rest) leds now last) :
    (now ≠ .done ∧ last = leds) ∨ LedReaches rest ((change (leds.setWidth 32)).setWidth 18) now last := by
  cases reached with
  | refl => exact .inl ⟨nofun,rfl⟩
  | read written => exact writeReached written

theorem actionReached (b : Board) (x : Action) {rest : List Action} {now : Io} {last : BitVec 18}
    (reached : LedReaches (accesses (x :: rest)) b.leds now last) :
    (now ≠ .done ∧ last = b.leds) ∨ LedReaches (accesses rest) (perform b x).leds now last := by
  cases x with
  | synth opcode a => exact .inr reached
  | ledOn num =>
    by_cases outside : num < 0 ∨ num > 17
    · simp only [accesses,ledOn,if_pos outside] at reached
      simp only [perform,ToneProgram.ledOn,if_pos outside]
      exact .inr reached
    · simp only [accesses,ledOn,if_neg outside] at reached
      simp only [perform,ToneProgram.ledOn,if_neg outside]
      exact rewriteReached reached
  | ledOff num =>
    by_cases outside : num < 0 ∨ num > 17
    · simp only [accesses,ledOff,if_pos outside] at reached
      simp only [perform,ToneProgram.ledOff,if_pos outside]
      exact .inr reached
    · simp only [accesses,ledOff,if_neg outside] at reached
      simp only [perform,ToneProgram.ledOff,if_neg outside]
      exact rewriteReached reached
  | setLeds val => exact writeReached reached

theorem noneReached {leds last : BitVec 18} {now : Io} (reached : LedReaches .done leds now last) : last = leds := by
  cases reached
  rfl

theorem accessesDone (b : Board) {actions : List Action} {last : BitVec 18}
    (reached : LedReaches (accesses actions) b.leds .done last) : last = (performAll b actions).leds := by
  induction actions generalizing b with
  | nil => exact noneReached reached
  | cons x rest ih =>
    rcases actionReached b x reached with ⟨some,_⟩ | after
    · exact absurd rfl some
    · exact ih (perform b x) after

theorem actionsMade (b : Board) {actions : List Action} {p : Port (BitVec 18)}
    (follows : Follows ledValue ledEffect (accesses actions) b.leds p) :
    ∃ made rest, actions = made ++ rest ∧ p.regs = (performAll b made).leds ∧
      Follows ledValue ledEffect (accesses rest) (performAll b made).leds p := by
  induction actions generalizing b with
  | nil => exact ⟨[],[],rfl,noneReached follows.reached,follows⟩
  | cons x rest ih =>
    rcases actionReached b x follows.reached with ⟨_,same⟩ | after
    · exact ⟨[],x :: rest,rfl,same,follows⟩
    · obtain ⟨made,later,split,leds,now⟩ := ih (perform b x) ⟨after,follows.stored,follows.data⟩
      exact ⟨x :: made,later,congrArg (x :: ·) split,leds,now⟩

/- What the LEDs show at each clock while actions are performed as single steps, some
of them, in their order, with any number of clocks between two. -/
inductive Shown : Board → List Action → List (BitVec 18) → Prop where
  | stop {b : Board} {actions : List Action} : Shown b actions []
  | clock {b : Board} {actions : List Action} {leds : List (BitVec 18)} (later : Shown b actions leds) :
      Shown b actions (b.leds :: leds)
  | action {b : Board} {x : Action} {rest : List Action} {leds : List (BitVec 18)}
      (later : Shown (perform b x) rest leds) : Shown b (x :: rest) leds

theorem shownLater {b : Board} {made rest : List Action} {leds : List (BitVec 18)}
    (later : Shown (performAll b made) rest leds) : Shown b (made ++ rest) leds := by
  induction made generalizing b with
  | nil => exact later
  | cons x more ih => exact .action (ih later)

theorem followsShown (b : Board) {actions : List Action} {p : Port (BitVec 18)} (place : Place p)
    (follows : Follows ledValue ledEffect (accesses actions) b.leds p) (inputs : List (Inputs Unit)) :
    Shown b actions (trace pioLed p inputs) := by
  induction inputs generalizing b actions p with
  | nil => exact .stop
  | cons i rest ih =>
    have moves := clockCases pioLed i place
    obtain ⟨made,later,rfl,leds,now⟩ := actionsMade b (clockFollows ledRegister follows moves)
    refine shownLater ?_
    rw [trace,leds]
    exact .clock (ih (performAll b made) (clockPlace moves) now)

theorem accessesWithin (actions : List Action) : Within (4*actions.length) (accesses actions) := by
  induction actions with
  | nil => exact .done
  | cons x rest ih =>
    have skipped : Within (4*(rest.length+1)) (accesses rest) := withinMore ih (Nat.mul_le_mul_left 4 (Nat.le_succ _))
    cases x with
    | synth opcode a => exact skipped
    | ledOn num =>
      simp only [accesses,ledOn]
      split
      · exact skipped
      · exact .read fun _ => .write ih
    | ledOff num =>
      simp only [accesses,ledOff]
      split
      · exact skipped
      · exact .read fun _ => .write ih
    | setLeds val => exact withinMore (.write ih) (by rw [List.length_cons]; omega)

section
variable (b : Board) (actions : List Action) (inputs : List (Inputs Unit))

theorem ledsDone (enough : 4*actions.length+1 ≤ inputs.countP Inputs.go) :
    (run pioLed (start (accesses actions) b.leds) inputs).regs = (performAll b actions).leds := by
  have left := startLeft (accesses actions) (accessesWithin actions) b.leds
  have done : (run pioLed (start (accesses actions) b.leds) inputs).io = .done :=
    runDone .resting left inputs enough
  have follows := runFollows ledRegister .resting (startFollows (accesses actions) b.leds) inputs
  refine accessesDone b ?_
  rw [← owedDone done]
  exact follows.reached

theorem ledsFollowProgram :
    Shown b actions (trace pioLed (start (accesses actions) b.leds) inputs) ∧
      (4*actions.length+1 ≤ inputs.countP Inputs.go →
        (run pioLed (start (accesses actions) b.leds) inputs).regs = (performAll b actions).leds) :=
  ⟨followsShown b .resting (startFollows (accesses actions) b.leds) inputs,ledsDone b actions inputs⟩

end

/-! ### The LEDs and the keys -/

def actionsOf (s : Statics) : List Call → List Action
  | [] => []
  | c :: rest => (handle s c).2 ++ actionsOf (handle s c).1 rest

theorem actionsPerformed (s : System) (calls : List Call) :
    performAll s.board (actionsOf s.statics calls) = (ToneProgram.run s calls).board := by
  induction calls generalizing s with
  | nil => rfl
  | cons c rest ih =>
    rw [actionsOf,performAllAppend]
    exact ih (call s c)

theorem ledPinsMirrorHeldKeys (calls : List Call) (inputs : List (Inputs Unit))
    (enough : 4*(actionsOf initial calls).length+1 ≤ inputs.countP Inputs.go) (i : Fin numRelTones) :
    (run pioLed (start (accesses (actionsOf initial calls)) 0) inputs).regs.getLsbD i = true ↔
      heldBy i (calls.filterMap keyOf) = true ∧ relToAbsTone i (octaveOf (calls.filterMap keyOf)) ≠ -1 := by
  have pins : (run pioLed (start (accesses (actionsOf initial calls)) 0) inputs).regs =
      (ToneProgram.run powerUp calls).board.leds := by
    rw [← actionsPerformed powerUp calls]
    exact ledsDone powerUp.board (actionsOf initial calls) inputs enough
  rw [pins]
  exact (Keyboard.callsPlay calls).leds i

theorem pressedLit :
    (run pioLed (start (accesses (actionsOf initial [.key Key.A])) 0)
      (List.replicate 9 ⟨true,0,0,()⟩)).regs.getLsbD (0 : Fin numRelTones) = true :=
  (ledPinsMirrorHeldKeys [.key Key.A] (List.replicate 9 ⟨true,0,0,()⟩) (by decide) 0).mpr (by decide)

/-! ### The switches -/

theorem switchesSampled (readdata : Word) (i : Inputs (BitVec 18)) :
    pioSwitches.clock readdata (reading pioSwitchesBase i) i.pins = i.pins.setWidth 32 := rfl

theorem switchesRead (next : Word → Io) (readdata : Word) (inputs : List (Inputs (BitVec 18)))
    (enough : 4 ≤ inputs.countP Inputs.go) :
    ∃ before asked taken ended after, inputs = before ++ [asked,taken,ended] ++ after ∧
      request (run pioSwitches (start (getSwitches next) readdata) before) asked =
        ⟨pioSwitchesBase,true,false,asked.writedata⟩ ∧
      (run pioSwitches (start (getSwitches next) readdata) (before ++ [asked,taken])).io = getSwitches next ∧
      (run pioSwitches (start (getSwitches next) readdata) (before ++ [asked,taken,ended])).io =
        next (asked.pins.setWidth 32) ∧
      (run pioSwitches (start (getSwitches next) readdata) (before ++ [asked,taken,ended])).stage = .resting := by
  obtain ⟨before,asked,taken,ended,after,split,stands,open',given,resting⟩ :=
    readAnswered pioSwitches pioSwitchesBase next readdata inputs enough
  rw [switchesSampled] at given
  exact ⟨before,asked,taken,ended,after,split,stands,open',given,resting⟩

theorem fiveGiven :
    ∃ n, (run pioSwitches (start (getSwitches fun sw => .write pioLedBase sw .done) 0)
      ((List.replicate 4 ⟨true,0,0,5⟩).take n)).io = .write pioLedBase 5 .done := by
  obtain ⟨before,asked,taken,ended,after,split,_,_,given,_⟩ :=
    switchesRead (fun sw => .write pioLedBase sw .done) 0 (List.replicate 4 ⟨true,0,0,5⟩) (by decide)
  have five : asked = ⟨true,0,0,5⟩ := List.eq_of_mem_replicate (n := 4) (by rw [split]; simp)
  refine ⟨(before ++ [asked,taken,ended]).length,?_⟩
  rw [split,List.take_left,given,five]
  rfl

end FpgaSynthesizer.PioDevices
