import FpgaSynthesizer.ClockedBoard
import FpgaSynthesizer.TwoPrograms
import Mathlib.Data.List.GetD

/-! What the clocked board computes: main of its program on the values of ps2_ci,
whatever the processor's pauses, the codec's clock and the wires that are not
driven. -/
namespace FpgaSynthesizer.ClockedMain
open ClockedBoard
open GetKeySteps (Version)
open Keyboard (keyOf)
open Ps2Board (shows)
open Ps2Ci (results starts Protocol)
open SoundBoard (callsOf)
open ToneRuns (switchesOf)
open ToneProgram (Call Word System)
open TwoPrograms (main mainCalls)

variable {v : Version}

def found (calls : List Call) (n : Nat) : Word := (calls.filterMap switchesOf).getD n 0

inductive Loop : Bool → List Call → Prop where
  | begin : Loop false []
  | switches {calls : List Call} (sw : Word) (before : Loop false calls) : Loop true (calls ++ [.switches sw])
  | key {calls : List Call} (key : Word) (before : Loop true calls) : Loop false (calls ++ [.key key])

theorem mainCallsSnoc (switches : Nat → Word) (n : Nat) (keys : List Word) (key : Word) :
    mainCalls switches n (keys ++ [key]) =
      mainCalls switches n keys ++ [.key key,.switches (switches (n + keys.length + 1))] := by
  induction keys generalizing n with
  | nil => rfl
  | cons x rest ih =>
    have place : n + 1 + rest.length + 1 = n + (x :: rest).length + 1 := by
      rw [List.length_cons]
      omega
    rw [List.cons_append,mainCalls,ih,mainCalls,place]
    rfl

theorem mainCallsEarly {switches later : Nat → Word} {n : Nat} {keys : List Word}
    (same : ∀ k, k ≤ keys.length → switches (n+k) = later (n+k)) :
    mainCalls switches n keys = mainCalls later n keys := by
  induction keys generalizing n with
  | nil =>
    have first := same 0 (Nat.le_refl _)
    rw [mainCalls,mainCalls]
    rw [Nat.add_zero] at first
    rw [first]
  | cons x rest ih =>
    have first := same 0 (Nat.zero_le _)
    rw [Nat.add_zero] at first
    have tail := ih (n := n+1) fun k inside => by
      have next := same (k+1) (by rw [List.length_cons]; omega)
      rwa [Nat.add_comm k 1,← Nat.add_assoc] at next
    rw [mainCalls,mainCalls,first,tail]

structure Iterated (calls : List Call) : Prop where
  made : calls = mainCalls (found calls) 0 (calls.filterMap keyOf)
  once : (calls.filterMap switchesOf).length = (calls.filterMap keyOf).length + 1

theorem firstIteration (sw : Word) : Iterated [.switches sw] := ⟨rfl,rfl⟩

theorem nextIteration {calls : List Call} (iterated : Iterated calls) (key sw : Word) :
    Iterated (calls ++ [Call.key key,.switches sw]) := by
  have keys : (calls ++ [Call.key key,.switches sw]).filterMap keyOf = calls.filterMap keyOf ++ [key] :=
    List.filterMap_append
  have switches : (calls ++ [Call.key key,.switches sw]).filterMap switchesOf = calls.filterMap switchesOf ++ [sw] :=
    List.filterMap_append
  have early : ∀ k, k ≤ (calls.filterMap keyOf).length →
      found calls (0+k) = found (calls ++ [Call.key key,.switches sw]) (0+k) := by
    intro k inside
    rw [found,found,switches,List.getD_append _ _ _ _ (by rw [iterated.once]; omega)]
  have last : found (calls ++ [Call.key key,.switches sw]) (0 + (calls.filterMap keyOf).length + 1) = sw := by
    rw [found,switches,List.getD_append_right _ _ _ _ (by rw [iterated.once]; omega),iterated.once,Nat.zero_add,
      Nat.sub_self]
    rfl
  refine ⟨?_,?_⟩
  · rw [keys,mainCallsSnoc,last,← mainCallsEarly early,← iterated.made]
  · rw [keys,switches,List.length_append,List.length_append,iterated.once]
    rfl

theorem loopIterated {reading : Bool} {calls : List Call} (loop : Loop reading calls) :
    if reading then Iterated calls
    else calls = [] ∨ ∃ before key, Iterated before ∧ calls = before ++ [.key key] := by
  induction loop with
  | begin => exact .inl rfl
  | switches sw before ih =>
    rcases ih with rfl | ⟨earlier,key,iterated,rfl⟩
    · exact firstIteration sw
    · have next := nextIteration iterated key sw
      rwa [List.append_cons] at next
  | key key before ih => exact .inr ⟨_,key,ih,rfl⟩

section
variable {b b' : Board v} {i : Inputs} {start : Bool} {events : List SoundBoard.Event}

theorem clockLoop (wired : Wired b) (clocked : Clock b i start b' events) {calls : List Call}
    (loop : Loop b.processor.reading calls) :
    Loop b'.processor.reading (calls ++ callsOf (program b) events) := by
  cases clocked with
  | @returns key flight high ends =>
    obtain ⟨waits,reading⟩ := wired.waits flight
    have accepted : callsOf (program b) [.call (.key key)] = [.key key] := by
      have idle : (program b).pending = [] := waits
      simp [callsOf,SoundBoard.accepts,idle]
    rw [reading] at loop
    rw [accepted]
    exact .key _ loop
  | switches free idle handled =>
    have accepted : callsOf (program b) [.call (.switches i.switches)] = [.switches i.switches] := by
      have waits : (program b).pending = [] := idle
      simp [callsOf,SoundBoard.accepts,waits]
    rw [handled] at loop
    rw [accepted]
    exact .switches _ loop
  | held flight low => simpa [callsOf] using loop
  | goesOn flight high more => simpa [callsOf] using loop
  | retire flight => simpa [callsOf] using loop
  | wait free still => simpa [callsOf] using loop
  | synth free next => simpa [callsOf,SoundBoard.accepts] using loop
  | write free next other => simpa [callsOf,SoundBoard.accepts] using loop
  | read free idle reading => simpa [callsOf] using loop

end

/-! ### Every run is a run of main -/

section
variable {keyboard : Ps2Board.Regs}

def made (v : Version) (keyboard : Ps2Board.Regs) (events : List Event) : List Call :=
  callsOf SoundBoard.powerUp (trace (powerUp v keyboard) events)

theorem madeSnoc (zero : keyboard.ci.state = Ps2Ci.State.zero) (quiet : keyboard.ci.done = false)
    (events : List Event) (e : Event) : made v keyboard (events ++ [e]) =
      made v keyboard events ++
        callsOf (program (run (powerUp v keyboard) events)) (movedBy (run (powerUp v keyboard) events) e) := by
  rw [made,traceSnoc,callsAppend,runProgram (powerUpWired v zero quiet)]
  rfl

theorem runLoop (v : Version) (zero : keyboard.ci.state = Ps2Ci.State.zero) (quiet : keyboard.ci.done = false)
    (events : List Event) : Loop (run (powerUp v keyboard) events).processor.reading (made v keyboard events) := by
  have wired := powerUpWired v zero quiet
  induction events using List.reverseRecOn with
  | nil => exact .begin
  | append_singleton events e ih =>
    rw [madeSnoc zero quiet,runSnoc]
    cases e with
    | clock50 i =>
      have before := runWired wired events
      exact clockLoop before (clockCases before i) ih
    | clk18 =>
      have none : callsOf (program (run (powerUp v keyboard) events))
          (movedBy (run (powerUp v keyboard) events) .clk18) = [] := rfl
      rw [none,List.append_nil]
      exact ih

theorem madeKeys (v : Version) (zero : keyboard.ci.state = Ps2Ci.State.zero) (quiet : keyboard.ci.done = false)
    (events : List Event) : (made v keyboard events).filterMap keyOf =
      v.getKey.values v.getKey.start (results keyboard.ci (shows keyboard (pins (powerUp v keyboard) events))) :=
  runKeys (powerUpWired v zero quiet) events

theorem idleSystem (zero : keyboard.ci.state = Ps2Ci.State.zero) (quiet : keyboard.ci.done = false)
    {events : List Event} (idle : (run (powerUp v keyboard) events).processor.pending = []) :
    system (run (powerUp v keyboard) events) = ToneProgram.run ToneProgram.powerUp (made v keyboard events) := by
  have refined := runProgram (powerUpWired v zero quiet) events
  have waits : (SoundBoard.run (program (powerUp v keyboard)) (trace (powerUp v keyboard) events)).pending = [] := by
    rw [← refined]
    exact idle
  obtain ⟨statics,devices⟩ := SoundBoard.followsIdle (SoundBoard.runFollows (trace (powerUp v keyboard) events)) waits
  have same : program (run (powerUp v keyboard) events) =
      SoundBoard.run SoundBoard.powerUp (trace (powerUp v keyboard) events) := refined
  rw [← same] at statics devices
  exact congrArg₂ System.mk statics devices

theorem flightSince (zero : keyboard.ci.state = Ps2Ci.State.zero) (quiet : keyboard.ci.done = false)
    (events : List Event) (flight : (run (powerUp v keyboard) events).processor.inFlight = some .keyboardCi) :
    ∃ first last, events = first ++ last ∧ GetsKey (run (powerUp v keyboard) first) ∧
      (run (powerUp v keyboard) first).processor.inFlight = none ∧ made v keyboard events = made v keyboard first ∧
      (samples last).length ≤ if (run (powerUp v keyboard) events).keyboard.ci.done then 2 else 1 := by
  induction events using List.reverseRecOn with
  | nil => cases flight
  | append_singleton events e ih =>
    have wired := runWired (powerUpWired v zero quiet) events
    rw [runSnoc] at flight ⊢
    cases e with
    | clk18 =>
      obtain ⟨first,last,rfl,gets,free,same,short⟩ := ih flight
      refine ⟨first,last ++ [.clk18],List.append_assoc _ _ _,gets,free,?_,?_⟩
      · rw [madeSnoc zero quiet,← same]
        exact List.append_nil _
      · have none : samples [.clk18] = [] := rfl
        rw [samplesAppend,none,List.append_nil]
        exact short
    | clock50 i =>
      have clocked := clockCases wired i
      obtain ⟨silent,begun⟩ := clockFlight wired clocked flight
      have quietly : made v keyboard (events ++ [.clock50 i]) = made v keyboard events := by
        rw [madeSnoc zero quiet,movedBy,silent]
        exact List.append_nil _
      rcases begun with ⟨free,gets⟩ | ⟨before,low,high⟩
      · refine ⟨events,[.clock50 i],rfl,gets,free,quietly,?_⟩
        split
        · exact Nat.le_succ 1
        · exact Nat.le_refl 1
      · obtain ⟨first,last,rfl,gets,free,same,short⟩ := ih before
        refine ⟨first,last ++ [.clock50 i],List.append_assoc _ _ _,gets,free,quietly.trans same,?_⟩
        rw [low] at short
        have done : (step (run (powerUp v keyboard) (first ++ last)) (.clock50 i)).keyboard.ci.done = true := high
        rw [done,if_pos rfl,samplesAppend,List.length_append]
        exact Nat.succ_le_succ short

theorem boardRunsMain (zero : keyboard.ci.state = Ps2Ci.State.zero) (quiet : keyboard.ci.done = false)
    (events : List Event) :
    (GetsKey (run (powerUp v keyboard) events) →
      system (run (powerUp v keyboard) events) = main v.reader (found (made v keyboard events)) ToneProgram.powerUp
        (results keyboard.ci (shows keyboard (pins (powerUp v keyboard) events)))) ∧
    Protocol keyboard.ci (shows keyboard (pins (powerUp v keyboard) events)) ∧
    ((run (powerUp v keyboard) events).processor.inFlight ≠ some .keyboardCi →
      (results keyboard.ci (shows keyboard (pins (powerUp v keyboard) events))).length =
        starts (shows keyboard (pins (powerUp v keyboard) events))) := by
  refine ⟨?_,powerUpProtocol v zero quiet events,fun free => powerUpAnswered v zero quiet free⟩
  intro gets
  have loop := runLoop v zero quiet events
  rw [gets.reading] at loop
  have iterated : Iterated (made v keyboard events) := loopIterated loop
  rw [idleSystem zero quiet gets.idle,TwoPrograms.mainRun,GetKeySteps.versionValues,← madeKeys v zero quiet events,
    ← iterated.made]

end

/- ps2_ci has just seen the code of A. -/
def typed : Ps2Board.Regs := {Ps2Board.powerUp with
  ps2 := {Ps2Board.powerUp.ps2 with serial := {Ps2Board.powerUp.ps2.serial with keycode := 0x1c}}
  ci := {Ps2Board.powerUp.ci with newByte := true}}

def handling (switches : Word) (n : Nat) : List Event :=
  List.replicate n (.clock50 ⟨⟨true,true⟩,true,switches,⟨0,0,false,false⟩,0⟩)

theorem typedResults :
    results typed.ci (shows typed (pins (powerUp .fpgaSynth typed) (handling 1 13))) = [0x1c,0] := by decide +kernel

theorem typedGets : GetsKey (run (powerUp .fpgaSynth typed) (handling 1 13)) := ⟨by decide +kernel,by decide +kernel⟩

theorem typedRuns :
    system (run (powerUp .fpgaSynth typed) (handling 1 13)) =
      main GetKey.fpgaSynth (found (made .fpgaSynth typed (handling 1 13))) ToneProgram.powerUp [0x1c,0] ∧
    starts (shows typed (pins (powerUp .fpgaSynth typed) (handling 1 13))) = 2 := by
  obtain ⟨system,_,answered⟩ := @boardRunsMain .fpgaSynth typed rfl rfl (handling 1 13)
  rw [typedResults] at system answered
  exact ⟨system typedGets,(answered (by decide +kernel)).symm⟩

end FpgaSynthesizer.ClockedMain
