import FpgaSynthesizer.GetKeySteps
import FpgaSynthesizer.InstructionPort
import FpgaSynthesizer.SoundBoard

/-! The whole board, clock by clock: the keyboard's lines, main of either program on a
processor that waits as long as it likes between any two actions, the custom
instruction port, and the codec on a clock of its own. It does what the program does
when each of its actions is one step. -/
namespace FpgaSynthesizer.ClockedBoard
open ToneProgram hiding Board run call ledOn ledOff
open AudioCodec (Codec)
open GetKeySteps (Version)
open InstructionPort
open Keyboard (keyOf)
open Ps2 (Sample)
open Ps2Board (Pins shows)
open PollingSteps (Steps)
open Ps2Ci (results starts shown Protocol)
open SoundBoard (callsOf accepts)

variable {v : Version}

/- The statics, what the call in progress has left to do, whether get_key is next
after it, the locals of get_key, and the custom instruction that has not seen done. -/
structure Processor (v : Version) where
  statics : Statics
  pending : List Action
  reading : Bool
  locals : v.Locals
  inFlight : Option Instruction
  deriving DecidableEq, Repr

/- The keyboard's lines, whether the processor goes on if it can, and what it reads
from the switches and finds on the wires that are not driven. -/
structure Inputs where
  sample : Sample
  ready : Bool
  switches : Word
  idle : Idle
  open1 : Word
  deriving DecidableEq, Repr

inductive Turn where
  | wait
  | execute (x : Instruction) (start : Bool)
  | write (x : Action)
  | getSwitches
  deriving DecidableEq, Repr

def turn (p : Processor v) (ready : Bool) : Turn :=
  match p.inFlight with
  | some x => .execute x false
  | none =>
    if ready then
      match p.pending with
      | .synth n a :: _ => .execute (.synthCi n a) true
      | x :: _ => .write x
      | [] => if p.reading then .execute .keyboardCi true else .getSwitches
    else .wait

def master (idle : Idle) : Turn → Master
  | .execute x start => drive idle start (some x)
  | _ => drive idle false none

/- get_key goes on with what it has read, or returns, and the call of handle_key
begins. -/
def retire (p : Processor v) (result : Word) : Instruction → Processor v
  | .synthCi _ _ => {p with inFlight := none}
  | .keyboardCi =>
    match v.getKey.next p.locals result with
    | .goesOn now => {p with locals := now, inFlight := none}
    | .returns key =>
      let out := handleKey p.statics key
      ⟨out.1,out.2,false,v.getKey.start,none⟩

def issue (p : Processor v) : Instruction → Processor v
  | .synthCi n a => {p with pending := p.pending.tail, inFlight := some (.synthCi n a)}
  | .keyboardCi => {p with inFlight := some .keyboardCi}

def proceed (p : Processor v) (switches : Word) (done : Bool) (result : Word) : Turn → Processor v
  | .wait => p
  | .execute x start =>
    let p := if start then issue p x else p
    if done then retire p result x else p
  | .write _ => {p with pending := p.pending.tail}
  | .getSwitches =>
    let out := handleSwitches p.statics switches
    {p with statics := out.1, pending := out.2, reading := true}

structure Board (v : Version) where
  keyboard : Ps2Board.Regs
  synth : SynthCi.Regs
  leds : BitVec 18
  processor : Processor v
  codec : Codec
  deriving DecidableEq, Repr

def portOf (b : Board v) (i : Inputs) : Master := master i.idle (turn b.processor i.ready)

def pinsOf (b : Board v) (i : Inputs) : Ps2Board.Pins := ⟨i.sample.ps2Clk,i.sample.ps2Dat,keyboardStart (portOf b i)⟩

def clock50 (b : Board v) (i : Inputs) : Board v :=
  let synth := SynthCi.clock b.synth (synthInputs (portOf b i))
  let done := done b.keyboard.ci (portOf b i)
  let result := result b.keyboard.ci i.open1 (portOf b i)
  {keyboard := Ps2Board.clock b.keyboard (pinsOf b i)
   synth := synth
   leds :=
    match turn b.processor i.ready with
    | .write x => (perform ⟨b.synth,b.leds⟩ x).leds
    | _ => b.leds
   processor := proceed b.processor i.switches done result (turn b.processor i.ready)
   codec := SoundBoard.drive b.codec synth}

inductive Event where
  | clock50 (i : Inputs)
  | clk18
  deriving DecidableEq, Repr

def step (b : Board v) : Event → Board v
  | .clock50 i => clock50 b i
  | .clk18 => {b with codec := AudioCodec.clk b.codec}

def run (b : Board v) (events : List Event) : Board v := events.foldl step b

def powerUp (v : Version) (keyboard : Ps2Board.Regs) : Board v :=
  ⟨keyboard,⟨0,0⟩,0,⟨initial,[],false,v.getKey.start,none⟩,AudioCodec.released ⟨0,0,Voices.restVoices⟩⟩

/-! ### The program that the board runs -/

def system (b : Board v) : System := ⟨b.processor.statics,⟨b.synth,b.leds⟩⟩

structure GetsKey (b : Board v) : Prop where
  idle : b.processor.pending = []
  reading : b.processor.reading = true

/- The board with each action as one step. -/
def program (b : Board v) : SoundBoard.Board := ⟨b.processor.statics,b.processor.pending,⟨b.synth,b.leds⟩,b.codec⟩

/- What a clock is to it: a key that get_key returns, the switches, or an action. -/
def moved (b : Board v) (i : Inputs) : List SoundBoard.Event :=
  match turn b.processor i.ready with
  | .execute .keyboardCi _ =>
    if b.keyboard.ci.done then
      match v.getKey.next b.processor.locals b.keyboard.ci.result with
      | .goesOn _ => []
      | .returns key => [.call (.key key)]
    else []
  | .execute (.synthCi _ _) start => if start then [.action] else []
  | .write _ => [.action]
  | .getSwitches => [.call (.switches i.switches)]
  | .wait => []

def movedBy (b : Board v) : Event → List SoundBoard.Event
  | .clock50 i => moved b i
  | .clk18 => [.clk]

def trace (b : Board v) : List Event → List SoundBoard.Event
  | [] => []
  | e :: rest => movedBy b e ++ trace (step b e) rest

/-! ### One clock -/

inductive TurnOf (p : Processor v) (ready : Bool) : Turn → Prop where
  | held {x : Instruction} (flight : p.inFlight = some x) : TurnOf p ready (.execute x false)
  | wait (free : p.inFlight = none) (still : ready = false) : TurnOf p ready .wait
  | synth {n : SynthCi.Opcode} {a : Word} {rest : List Action} (free : p.inFlight = none)
      (next : p.pending = .synth n a :: rest) : TurnOf p ready (.execute (.synthCi n a) true)
  | write {x : Action} {rest : List Action} (free : p.inFlight = none) (next : p.pending = x :: rest)
      (other : ∀ s, (perform s x).synth = s.synth) : TurnOf p ready (.write x)
  | read (free : p.inFlight = none) (idle : p.pending = []) (reading : p.reading = true) :
      TurnOf p ready (.execute .keyboardCi true)
  | switches (free : p.inFlight = none) (idle : p.pending = []) (handled : p.reading = false) :
      TurnOf p ready .getSwitches

theorem turnOf (p : Processor v) (ready : Bool) : TurnOf p ready (turn p ready) := by
  unfold turn
  cases flight : p.inFlight with
  | some x => exact .held flight
  | none =>
    cases ready with
    | false => exact .wait flight rfl
    | true =>
      cases next : p.pending with
      | nil =>
        cases reading : p.reading with
        | true => exact .read flight next reading
        | false => exact .switches flight next reading
      | cons x rest =>
        cases x with
        | synth n a => exact .synth flight next
        | ledOn num => exact .write flight next fun _ => rfl
        | ledOff num => exact .write flight next fun _ => rfl
        | setLeds val => exact .write flight next fun _ => rfl

/- Between two clocks. A read that is in flight is the only open start of ps2_ci, and
get_key waits for it. -/
structure Wired (b : Board v) : Prop where
  answers : b.processor.inFlight = some .keyboardCi → Answers b.keyboard.ci
  rests : b.processor.inFlight ≠ some .keyboardCi → Rests b.keyboard.ci
  waits : b.processor.inFlight = some .keyboardCi → b.processor.pending = [] ∧ b.processor.reading = true
  keys : b.codec.bank.keys = b.synth.curSounds
  effects : b.codec.bank.effects = b.synth.curEffects

theorem noRead {x : Option Instruction} (free : x = none) : x ≠ some .keyboardCi := by
  rw [free]
  exact (Option.some_ne_none _).symm

def keyboardClock (b : Board v) (i : Inputs) (start : Bool) : Ps2Board.Regs :=
  Ps2Board.clock b.keyboard ⟨i.sample.ps2Clk,i.sample.ps2Dat,start⟩

/- All that one clock can do: whether it starts a read, the board after it, and what
it is to the program. -/
inductive Clock (b : Board v) (i : Inputs) : Bool → Board v → List SoundBoard.Event → Prop where
  | held (flight : b.processor.inFlight = some .keyboardCi) (low : b.keyboard.ci.done = false) :
      Clock b i false {b with keyboard := keyboardClock b i false} []
  | goesOn {now : v.Locals} (flight : b.processor.inFlight = some .keyboardCi) (high : b.keyboard.ci.done = true)
      (more : v.getKey.next b.processor.locals b.keyboard.ci.result = .goesOn now) :
      Clock b i false {b with
        keyboard := keyboardClock b i false
        processor := {b.processor with locals := now, inFlight := none}} []
  | returns {key : Word} (flight : b.processor.inFlight = some .keyboardCi) (high : b.keyboard.ci.done = true)
      (ends : v.getKey.next b.processor.locals b.keyboard.ci.result = .returns key) :
      Clock b i false {b with
        keyboard := keyboardClock b i false
        processor := ⟨(handleKey b.processor.statics key).1,(handleKey b.processor.statics key).2,false,
          v.getKey.start,none⟩} [.call (.key key)]
  | retire {n : SynthCi.Opcode} {a : Word} (flight : b.processor.inFlight = some (.synthCi n a)) :
      Clock b i false {b with
        keyboard := keyboardClock b i false
        processor := {b.processor with inFlight := none}} []
  | wait (free : b.processor.inFlight = none) (still : i.ready = false) :
      Clock b i false {b with keyboard := keyboardClock b i false} []
  | synth {n : SynthCi.Opcode} {a : Word} {rest : List Action} (free : b.processor.inFlight = none)
      (next : b.processor.pending = .synth n a :: rest) :
      Clock b i false {b with
        keyboard := keyboardClock b i false
        synth := SynthCi.customInstruction b.synth n a
        processor := {b.processor with pending := rest, inFlight := some (.synthCi n a)}
        codec := SoundBoard.drive b.codec (SynthCi.customInstruction b.synth n a)} [.action]
  | write {x : Action} {rest : List Action} (free : b.processor.inFlight = none)
      (next : b.processor.pending = x :: rest) (other : ∀ s, (perform s x).synth = s.synth) :
      Clock b i false {b with
        keyboard := keyboardClock b i false
        leds := (perform ⟨b.synth,b.leds⟩ x).leds
        processor := {b.processor with pending := rest}} [.action]
  | read (free : b.processor.inFlight = none) (idle : b.processor.pending = [])
      (reading : b.processor.reading = true) :
      Clock b i true {b with
        keyboard := keyboardClock b i true
        processor := {b.processor with inFlight := some .keyboardCi}} []
  | switches (free : b.processor.inFlight = none) (idle : b.processor.pending = [])
      (handled : b.processor.reading = false) :
      Clock b i false {b with
        keyboard := keyboardClock b i false
        processor := {b.processor with
          statics := (handleSwitches b.processor.statics i.switches).1
          pending := (handleSwitches b.processor.statics i.switches).2
          reading := true}} [.call (.switches i.switches)]

theorem clockCases {b : Board v} (wired : Wired b) (i : Inputs) :
    Clock b i (pinsOf b i).start (clock50 b i) (moved b i) := by
  have kind := turnOf b.processor i.ready
  have same := SoundBoard.driveSame wired.keys wired.effects
  unfold clock50 moved pinsOf portOf
  generalize turn b.processor i.ready = now at kind
  cases kind with
  | @held x flight =>
    cases x with
    | keyboardCi =>
      simp only [master,keyboardStarts,keyboardDone,keyboardResult,keyboardSynth,same,proceed,retire,
        Bool.false_eq_true,if_false]
      by_cases high : b.keyboard.ci.done = true
      · cases outcome : v.getKey.next b.processor.locals b.keyboard.ci.result with
        | goesOn now =>
          simp only [high,if_true]
          exact .goesOn flight high outcome
        | returns key =>
          simp only [high,if_true]
          exact .returns flight high outcome
      · simp only [high,Bool.false_eq_true,if_false]
        exact .held flight (Bool.eq_false_iff.mpr high)
    | synthCi n a =>
      simp only [master,synthStarts,synthDone,synthWaits,same,proceed,retire,Bool.not_false,Bool.false_eq_true,
        if_false,if_true]
      exact .retire flight
  | wait free still =>
    simp only [master,idleStart,idleSynth,same,proceed]
    exact .wait free still
  | synth free next =>
    simp only [master,synthStarts,synthDone,synthFirst,proceed,issue,Bool.not_true,Bool.false_eq_true,if_false,
      if_true,next,List.tail_cons]
    exact .synth free next
  | write free next other =>
    simp only [master,idleStart,idleSynth,same,proceed,next,List.tail_cons]
    exact .write free next other
  | read free idle reading =>
    have low : b.keyboard.ci.done = false := (wired.rests (noRead free)).low
    simp only [master,keyboardStarts,keyboardDone,keyboardSynth,same,proceed,issue,low,
      Bool.false_eq_true,if_false,if_true]
    exact .read free idle reading
  | switches free idle handled =>
    simp only [master,idleStart,idleSynth,same,proceed]
    exact .switches free idle handled

/-! ### A clock keeps the wires, and is a step of the program -/

section
variable {b b' : Board v} {i : Inputs} {start : Bool} {events : List SoundBoard.Event}

theorem clockProgram (wired : Wired b) (clocked : Clock b i start b' events) :
    program b' = SoundBoard.run (program b) events := by
  cases clocked with
  | held flight low => rfl
  | goesOn flight high more => rfl
  | returns flight high ends =>
    have waits : (program b).pending = [] := (wired.waits flight).1
    rw [SoundBoard.run,List.foldl_cons,List.foldl_nil]
    simp only [SoundBoard.step,waits]
    rfl
  | retire flight => rfl
  | wait free still => rfl
  | synth free next =>
    have first : (program b).pending = _ := next
    rw [SoundBoard.run,List.foldl_cons,List.foldl_nil]
    simp only [SoundBoard.step,first]
    rfl
  | @write x rest free next other =>
    have first : (program b).pending = _ := next
    have quiet := SoundBoard.driveSame wired.keys wired.effects
    have devices : perform ⟨b.synth,b.leds⟩ x = ⟨b.synth,(perform ⟨b.synth,b.leds⟩ x).leds⟩ :=
      congrArg (fun r => (⟨r,(perform ⟨b.synth,b.leds⟩ x).leds⟩ : ToneProgram.Board)) (other ⟨b.synth,b.leds⟩)
    rw [SoundBoard.run,List.foldl_cons,List.foldl_nil]
    simp only [SoundBoard.step,first]
    simp only [program]
    rw [devices,quiet]
  | read free idle reading => rfl
  | switches free idle handled =>
    have waits : (program b).pending = [] := idle
    rw [SoundBoard.run,List.foldl_cons,List.foldl_nil]
    simp only [SoundBoard.step,waits]
    rfl

theorem freeWired (free : b.processor.inFlight ≠ some .keyboardCi) (rests : Rests b.keyboard.ci)
    (keys : b.codec.bank.keys = b.synth.curSounds) (effects : b.codec.bank.effects = b.synth.curEffects) : Wired b :=
  ⟨fun own => absurd own free,fun _ => rests,fun own => absurd own free,keys,effects⟩

theorem clockWired (wired : Wired b) (clocked : Clock b i start b' events) : Wired b' := by
  cases clocked with
  | held flight low =>
    have answers : Answers (keyboardClock b i false).ci := (answersSend (wired.answers flight) low _).1
    exact ⟨fun _ => answers,fun other => absurd flight other,wired.waits,wired.keys,wired.effects⟩
  | goesOn flight high more =>
    have rests : Rests (keyboardClock b i false).ci := answersDone (wired.answers flight) high rfl
    exact freeWired (noRead rfl) rests wired.keys wired.effects
  | returns flight high ends =>
    have rests : Rests (keyboardClock b i false).ci := answersDone (wired.answers flight) high rfl
    exact freeWired (noRead rfl) rests wired.keys wired.effects
  | retire flight =>
    have rests : Rests (keyboardClock b i false).ci :=
      restsWait (wired.rests (by rw [flight]; exact fun same => nomatch same)) rfl
    exact freeWired (noRead rfl) rests wired.keys wired.effects
  | wait free still =>
    have rests : Rests (keyboardClock b i false).ci := restsWait (wired.rests (noRead free)) rfl
    exact freeWired (noRead free) rests wired.keys wired.effects
  | synth free next =>
    have rests : Rests (keyboardClock b i false).ci := restsWait (wired.rests (noRead free)) rfl
    refine freeWired (fun own => nomatch own) rests ?_ ?_
    · rw [SoundBoard.driveBank,Voices.effectsKeys,Voices.keysKeys]
    · rw [SoundBoard.driveBank,Voices.effectsEffects]
  | write free next other =>
    have rests : Rests (keyboardClock b i false).ci := restsWait (wired.rests (noRead free)) rfl
    exact freeWired (noRead free) rests wired.keys wired.effects
  | read free idle reading =>
    have answers : Answers (keyboardClock b i true).ci := restsStart (wired.rests (noRead free)) rfl
    exact ⟨fun _ => answers,fun other => absurd rfl other,fun _ => ⟨idle,reading⟩,wired.keys,wired.effects⟩
  | switches free idle handled =>
    have rests : Rests (keyboardClock b i false).ci := restsWait (wired.rests (noRead free)) rfl
    exact freeWired (noRead free) rests wired.keys wired.effects

def openReads (b : Board v) : Nat := if b.processor.inFlight = some .keyboardCi then 1 else 0

theorem restsShown {r : Ps2Ci.Regs} (rests : Rests r) : shown r = [] := by simp [shown,rests.low]

theorem freeShown (wired : Wired b) (free : b.processor.inFlight = none) : shown b.keyboard.ci = [] :=
  restsShown (wired.rests (noRead free))

theorem synthShown {n : SynthCi.Opcode} {a : Word} (wired : Wired b)
    (flight : b.processor.inFlight = some (.synthCi n a)) : shown b.keyboard.ci = [] :=
  restsShown (wired.rests (by rw [flight]; exact fun same => nomatch same))

theorem doneShown {r : Ps2Ci.Regs} (high : r.done = true) : shown r = [r.result] := by simp [shown,high]

theorem clockReads (wired : Wired b) (clocked : Clock b i start b' events) :
    openReads b + (if start then 1 else 0) = (shown b.keyboard.ci).length + openReads b' := by
  cases clocked with
  | held flight low => simp [openReads,flight,shown,low]
  | goesOn flight high more => simp [openReads,flight,doneShown high]
  | returns flight high ends => simp [openReads,flight,doneShown high]
  | retire flight => simp [openReads,flight,synthShown wired flight]
  | wait free still => simp [openReads,free,freeShown wired free]
  | synth free next => simp [openReads,free,freeShown wired free]
  | write free next other => simp [openReads,free,freeShown wired free]
  | read free idle reading => simp [openReads,free,freeShown wired free]
  | switches free idle handled => simp [openReads,free,freeShown wired free]

def Takes (b b' : Board v) (events : List SoundBoard.Event) : Prop :=
  (callsOf (program b) events).filterMap keyOf = v.getKey.values b.processor.locals (shown b.keyboard.ci) ∧
    b'.processor.locals = v.getKey.after b.processor.locals (shown b.keyboard.ci)

theorem takesNone (quiet : shown b.keyboard.ci = []) (calls : (callsOf (program b) events).filterMap keyOf = [])
    (same : b'.processor.locals = b.processor.locals) : Takes b b' events := by
  rw [Takes,quiet]
  exact ⟨calls,same⟩

theorem clockKeys (wired : Wired b) (clocked : Clock b i start b' events) : Takes b b' events := by
  cases clocked with
  | held flight low => exact takesNone (by simp [shown,low]) rfl rfl
  | goesOn flight high more =>
    rw [Takes,doneShown high]
    simp [callsOf,Steps.values,Steps.after,more]
  | returns flight high ends =>
    have waits : (program b).pending = [] := (wired.waits flight).1
    rw [Takes,doneShown high]
    simp [callsOf,accepts,keyOf,waits,Steps.values,Steps.after,ends]
  | retire flight => exact takesNone (synthShown wired flight) rfl rfl
  | wait free still => exact takesNone (freeShown wired free) rfl rfl
  | synth free next => exact takesNone (freeShown wired free) (by simp [callsOf,accepts]) rfl
  | write free next other => exact takesNone (freeShown wired free) (by simp [callsOf,accepts]) rfl
  | read free idle reading => exact takesNone (freeShown wired free) rfl rfl
  | switches free idle handled =>
    have waits : (program b).pending = [] := idle
    exact takesNone (freeShown wired free) (by simp [callsOf,accepts,keyOf,waits]) rfl

theorem clockFlight (wired : Wired b) (clocked : Clock b i start b' events)
    (flight : b'.processor.inFlight = some .keyboardCi) : events = [] ∧
      ((b.processor.inFlight = none ∧ GetsKey b) ∨
        (b.processor.inFlight = some .keyboardCi ∧ b.keyboard.ci.done = false ∧ b'.keyboard.ci.done = true)) := by
  cases clocked with
  | held flight low => exact ⟨rfl,.inr ⟨flight,low,(answersSend (wired.answers flight) low _).2⟩⟩
  | read free idle reading => exact ⟨rfl,.inl ⟨free,idle,reading⟩⟩
  | goesOn before high more => exact absurd flight (noRead rfl)
  | returns before high ends => exact absurd flight (noRead rfl)
  | retire before => exact absurd flight (noRead rfl)
  | wait free still => exact absurd flight (noRead free)
  | synth free next => exact nomatch flight
  | write free next other => exact absurd flight (noRead free)
  | switches free idle handled => exact absurd flight (noRead free)

theorem clockFirst (wired : Wired b) (clocked : Clock b i true b' events) :
    openReads b = 0 ∧ shown b.keyboard.ci = [] := by
  cases clocked with
  | read free idle reading => exact ⟨if_neg (noRead free),freeShown wired free⟩

end

/-! ### Every run -/

def pins (b : Board v) : List Event → List Pins
  | [] => []
  | .clock50 i :: rest => pinsOf b i :: pins (clock50 b i) rest
  | .clk18 :: rest => pins (step b .clk18) rest

theorem stepWired {b : Board v} (wired : Wired b) (e : Event) : Wired (step b e) := by
  cases e with
  | clock50 i => exact clockWired wired (clockCases wired i)
  | clk18 =>
    have bank := SoundBoard.clkBankKeys b.codec
    exact ⟨wired.answers,wired.rests,wired.waits,bank.1.trans wired.keys,bank.2.trans wired.effects⟩

theorem runWired {b : Board v} (wired : Wired b) (events : List Event) : Wired (run b events) := by
  induction events generalizing b with
  | nil => exact wired
  | cons e rest ih => exact ih (stepWired wired e)

theorem stepProgram {b : Board v} (wired : Wired b) (e : Event) :
    program (step b e) = SoundBoard.run (program b) (movedBy b e) := by
  cases e with
  | clock50 i => exact clockProgram wired (clockCases wired i)
  | clk18 => rfl

theorem runProgram {b : Board v} (wired : Wired b) (events : List Event) :
    program (run b events) = SoundBoard.run (program b) (trace b events) := by
  induction events generalizing b with
  | nil => rfl
  | cons e rest ih =>
    have tail := ih (stepWired wired e)
    rw [run,List.foldl_cons,← run,tail,stepProgram wired e,trace,SoundBoard.run,SoundBoard.run,SoundBoard.run,
      List.foldl_append]

theorem callsAppend (b : SoundBoard.Board) (first last : List SoundBoard.Event) :
    callsOf b (first ++ last) = callsOf b first ++ callsOf (SoundBoard.run b first) last := by
  induction first generalizing b with
  | nil => rfl
  | cons e rest ih =>
    rw [List.cons_append,callsOf,ih,callsOf,List.append_assoc]
    rfl

theorem runKeys {b : Board v} (wired : Wired b) (events : List Event) :
    (callsOf (program b) (trace b events)).filterMap keyOf =
      v.getKey.values b.processor.locals (results b.keyboard.ci (shows b.keyboard (pins b events))) := by
  induction events generalizing b with
  | nil => rfl
  | cons e rest ih =>
    have tail := ih (stepWired wired e)
    rw [trace,callsAppend,List.filterMap_append,← stepProgram wired e,tail]
    cases e with
    | clock50 i =>
      obtain ⟨keys,locals⟩ := clockKeys wired (clockCases wired i)
      have after : (step b (.clock50 i)).processor.locals = _ := locals
      rw [movedBy,keys,after,pins,shows,results,PollingSteps.valuesReads]
      rfl
    | clk18 => rfl

theorem showsClock (b : Board v) (i : Inputs) (rest : List Event) :
    shows b.keyboard (pins b (.clock50 i :: rest)) = Ps2Board.ciInputs b.keyboard (pinsOf b i) ::
      shows (clock50 b i).keyboard (pins (clock50 b i) rest) := rfl

theorem clockCi (b : Board v) (i : Inputs) :
    Ps2Ci.clock b.keyboard.ci (Ps2Board.ciInputs b.keyboard (pinsOf b i)) = (clock50 b i).keyboard.ci := rfl

theorem startsClock (r : Ps2Board.Regs) (x : Pins) (rest : List Ps2Ci.Inputs) :
    starts (Ps2Board.ciInputs r x :: rest) = starts rest + if x.start then 1 else 0 := List.countP_cons

theorem runReads {b : Board v} (wired : Wired b) (events : List Event) :
    openReads b + starts (shows b.keyboard (pins b events)) =
      (results b.keyboard.ci (shows b.keyboard (pins b events))).length + openReads (run b events) := by
  induction events generalizing b with
  | nil => exact Nat.add_comm _ _
  | cons e rest ih =>
    have tail := ih (stepWired wired e)
    cases e with
    | clock50 i =>
      have first := clockReads wired (clockCases wired i)
      have later : run b (.clock50 i :: rest) = run (clock50 b i) rest := rfl
      simp only [step] at tail
      rw [showsClock,startsClock,results,List.length_append,clockCi,later]
      omega
    | clk18 => exact tail

theorem runWaits {b : Board v} (wired : Wired b) (events : List Event) :
    Ps2Delivery.Waits (openReads b) b.keyboard.ci (shows b.keyboard (pins b events)) := by
  induction events generalizing b with
  | nil => exact fun n inside => absurd inside (Nat.not_lt_zero n)
  | cons e rest ih =>
    have tail := ih (stepWired wired e)
    cases e with
    | clock50 i =>
      have clocked := clockCases wired i
      have first := clockReads wired clocked
      rw [showsClock]
      intro n inside raised
      cases n with
      | zero =>
        have start : (pinsOf b i).start = true := raised
        rw [start] at clocked
        obtain ⟨free,quiet⟩ := clockFirst wired clocked
        simp [free,starts,results,quiet]
      | succ n =>
        have count := tail n (Nat.lt_of_succ_lt_succ inside) raised
        simp only [step] at count
        rw [List.take_succ_cons,List.take_succ_cons,startsClock,results,List.length_append,clockCi,← count]
        omega
    | clk18 => exact tail

theorem runSnoc (b : Board v) (events : List Event) (e : Event) : run b (events ++ [e]) = step (run b events) e := by
  rw [run,List.foldl_append]
  rfl

theorem traceAppend (b : Board v) (first last : List Event) :
    trace b (first ++ last) = trace b first ++ trace (run b first) last := by
  induction first generalizing b with
  | nil => rfl
  | cons e rest ih =>
    rw [List.cons_append,trace,ih,trace,List.append_assoc]
    rfl

theorem traceSnoc (b : Board v) (events : List Event) (e : Event) :
    trace b (events ++ [e]) = trace b events ++ movedBy (run b events) e := by
  rw [traceAppend,trace,trace,List.append_nil]

/- The program does not see the codec. -/
theorem traceAlike {b c : Board v} (keyboard : b.keyboard = c.keyboard) (processor : b.processor = c.processor)
    (events : List Event) : trace b events = trace c events := by
  induction events generalizing b c with
  | nil => rfl
  | cons e rest ih =>
    have now : movedBy b e = movedBy c e := by
      cases e with
      | clk18 => rfl
      | clock50 i =>
        rw [movedBy,movedBy,moved,keyboard,processor]
        rfl
    have later : (step b e).keyboard = (step c e).keyboard ∧ (step b e).processor = (step c e).processor := by
      obtain ⟨keyboard',synth,leds,processor',codec⟩ := b
      obtain rfl : keyboard' = c.keyboard := keyboard
      obtain rfl : processor' = c.processor := processor
      cases e <;> exact ⟨rfl,rfl⟩
    rw [trace,trace,now,ih later.1 later.2]

/-! ### The lines of the keyboard in a run -/

def samples : List Event → List Sample
  | [] => []
  | .clock50 i :: rest => i.sample :: samples rest
  | .clk18 :: rest => samples rest

theorem pinsSamples (b : Board v) (events : List Event) : (pins b events).map Pins.sample = samples events := by
  induction events generalizing b with
  | nil => rfl
  | cons e rest ih =>
    cases e with
    | clock50 i => exact congrArg (List.cons i.sample) (ih (clock50 b i))
    | clk18 => exact ih (step b .clk18)

theorem pinsLength (b : Board v) (events : List Event) : (pins b events).length = (samples events).length := by
  rw [← pinsSamples b events,List.length_map]

theorem samplesAppend (first last : List Event) : samples (first ++ last) = samples first ++ samples last := by
  induction first with
  | nil => rfl
  | cons e rest ih =>
    cases e with
    | clock50 i => exact congrArg (List.cons i.sample) ih
    | clk18 => exact ih

theorem pinsAppend (b : Board v) (first last : List Event) :
    pins b (first ++ last) = pins b first ++ pins (run b first) last := by
  induction first generalizing b with
  | nil => rfl
  | cons e rest ih =>
    cases e with
    | clock50 i => exact congrArg (List.cons (pinsOf b i)) (ih (clock50 b i))
    | clk18 => exact ih (step b .clk18)

/-! ### From power-up -/

section
variable {keyboard : Ps2Board.Regs}

theorem powerUpWired (v : Version) (zero : keyboard.ci.state = Ps2Ci.State.zero) (quiet : keyboard.ci.done = false) :
    Wired (powerUp v keyboard) := by
  have rests : Rests keyboard.ci := ⟨by rw [zero]; decide,by rw [zero]; decide,quiet⟩
  exact freeWired (noRead rfl) rests rfl rfl

theorem powerUpProtocol (v : Version) (zero : keyboard.ci.state = Ps2Ci.State.zero) (quiet : keyboard.ci.done = false)
    (events : List Event) : Protocol keyboard.ci (shows keyboard (pins (powerUp v keyboard) events)) := by
  have waits := runWaits (powerUpWired v zero quiet) events
  intro n inside raised
  have count := waits n inside raised
  rwa [show openReads (powerUp v keyboard) = 0 from rfl,Nat.zero_add] at count

theorem powerUpAnswered (v : Version) (zero : keyboard.ci.state = Ps2Ci.State.zero) (quiet : keyboard.ci.done = false)
    {events : List Event} (free : (run (powerUp v keyboard) events).processor.inFlight ≠ some .keyboardCi) :
    (results keyboard.ci (shows keyboard (pins (powerUp v keyboard) events))).length =
      starts (shows keyboard (pins (powerUp v keyboard) events)) := by
  have count := runReads (powerUpWired v zero quiet) events
  have none : openReads (run (powerUp v keyboard) events) = 0 := if_neg free
  rw [none,show openReads (powerUp v keyboard) = 0 from rfl,Nat.zero_add] at count
  exact count.symm

end

end FpgaSynthesizer.ClockedBoard
