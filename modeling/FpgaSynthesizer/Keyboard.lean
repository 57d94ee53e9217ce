import FpgaSynthesizer.KeyPath
import FpgaSynthesizer.Ps2Board
import FpgaSynthesizer.SpacedStarts
import FpgaSynthesizer.ToneKeys
import FpgaSynthesizer.ToneLeds
import FpgaSynthesizer.ToneRange
import Mathlib.Data.List.Range

/-! From the two wires of the keyboard to the tones and the LEDs. Two bytes are
never closer than 11264 clocks, so a program that starts a read in any so many
clocks takes every code, each once and in order, and its table, the synthesizer
and the LEDs are then functions of the codes that were sent. -/
namespace FpgaSynthesizer.Keyboard
open Mailbox PolledMailbox Ps2Delivery Ps2Frames Ps2Board
open KeyPath (Read mainLoop)
open Ps2 (Sample)
open Ps2Ci hiding Word run clock Regs
open ToneProgram (Word Call numRelTones relToAbsTone)
open ToneAgreement ToneCalls ToneKeys

def keysSent (bytes : List Byte) : List Word := ((splitFrom isPrefix [] bytes).map value).filter (· ≠ 0)

/-! ### Every code is read -/

theorem polledReads {r : Ps2Ci.Regs} (idle : r.state = State.zero) (quiet : r.done = false)
    (silent : r.newByte = false) {inputs : List Inputs} (protocol : Protocol r inputs)
    (answered : (results r inputs).length = starts inputs) {gap : Nat} (apart : Apart gap (cyclesOf r inputs))
    (polled : Polled gap (cyclesOf r inputs)) (outlasts : Outlasts gap (cyclesOf r inputs)) :
    (results r inputs).filter (· ≠ 0) = keysSent (bytesOf r inputs) := by
  have all : (deliveries r inputs).map Delivery.code = codesOf r inputs := polledDelivers apart polled outlasts
  have split : (codesOf r inputs).map Code.bytes = splitFrom isPrefix [] (bytesOf r inputs) :=
    codesSplit isPrefix 0 [] (cyclesOf r inputs)
  have bytes : (deliveries r inputs).map (fun d => d.code.bytes) = splitFrom isPrefix [] (bytesOf r inputs) := by
    rw [← split,← all,List.map_map]
    rfl
  have values := congrArg (List.map value) bytes
  rw [List.map_map] at values
  rw [nonzeroResults idle quiet silent protocol answered,keysSent,← values]
  rfl

theorem cyclesAppend (r : Ps2Board.Regs) (first last : List Pins) :
    cycles r (first ++ last) = cycles r first ++ cycles (run r first) last := by
  induction first generalizing r with
  | nil => rfl
  | cons x rest ih => exact congrArg (List.cons _) (ih (clock r x))

theorem cyclesLength (r : Ps2Board.Regs) (pins : List Pins) : (cycles r pins).length = pins.length := by
  induction pins generalizing r with
  | nil => rfl
  | cons x rest ih => exact congrArg Nat.succ (ih (clock r x))

theorem cyclesBytes (r : Ps2Board.Regs) (pins : List Pins) :
    (cycles r pins).filterMap ClockCycle.byte = bytesOf r.ci (shows r pins) := rfl

theorem byteAppend {xs ys : List (ClockCycle Byte)} {n : Nat} (beyond : xs.length ≤ n) (byte : ByteAt (xs ++ ys) n) :
    ys.filterMap ClockCycle.byte ≠ [] := by
  obtain ⟨x,place,some⟩ := byte
  rw [List.getElem?_append_right beyond] at place
  obtain ⟨b,own⟩ := Option.isSome_iff_exists.mp some
  exact List.ne_nil_of_mem (List.mem_filterMap.mpr ⟨x,List.mem_of_getElem? place,own⟩)

theorem framesOutlast {frames : List Frame} (slow : ∀ f ∈ frames, SlowFrame f) {rest : List Bool} {gap : Nat}
    (ended : 1026 + gap ≤ rest.length) {r : Ps2Board.Regs} (idle : Idle r) {pins : List Pins}
    (lines : pins.map Pins.sample = transmission frames rest) : Outlasts gap (cycles r pins) := by
  have size := linesTime lines
  obtain ⟨first,hfirst⟩ : ∃ first, first = pins.take (framesTime frames + 1026) := ⟨_,rfl⟩
  have cut : first.map Pins.sample = transmission frames (rest.take 1026) := by
    rw [hfirst]
    exact linesCut lines 1026
  have part : first.length = framesTime frames + 1026 := by
    rw [hfirst,List.length_take]
    omega
  have early := framesReach slow (by rw [List.length_take]; omega) idle cut
  have all := framesReach slow (by omega) idle lines
  have whole : pins = first ++ pins.drop (framesTime frames + 1026) := by
    rw [hfirst,List.take_append_drop]
  intro i byte
  rw [cyclesLength,size]
  by_contra late
  rw [whole,cyclesAppend] at byte
  have more := byteAppend (by rw [cyclesLength,part]; omega) byte
  rw [whole,← cyclesBytes,cyclesAppend,List.filterMap_append,cyclesBytes,early] at all
  exact more (List.append_right_eq_self.mp all)

/-! ### What the program makes of the codes -/

def keyOf : Call → Option Word
  | .key key => some key
  | .switches _ => none

theorem callsStatus (calls : List Call) (i : Fin numRelTones) :
    (ToneProgram.run ToneProgram.powerUp calls).statics.tonesStatus.get i =
      if heldBy i (calls.filterMap keyOf) then 1 else 0 := by
  induction calls using List.reverseRecOn with
  | nil => exact initialStatus i
  | append_singleton calls c ih =>
    rw [List.filterMap_append,ToneProgram.run,List.foldl_append,List.foldl_cons,List.foldl_nil,← ToneProgram.run]
    cases c with
    | key key =>
      have last : [Call.key key].filterMap keyOf = [key] := rfl
      rw [keyStatus,ih,last,heldBySnoc]
      split <;> rfl
    | switches sw =>
      have last : [Call.switches sw].filterMap keyOf = [] := rfl
      rw [switchesKeep,ih,last,List.append_nil]

theorem callsOctave (calls : List Call) :
    (ToneProgram.run ToneProgram.powerUp calls).statics.prevOctave = ToneRange.octaveOf (calls.filterMap keyOf) := by
  induction calls using List.reverseRecOn with
  | nil => rfl
  | append_singleton calls c ih =>
    rw [List.filterMap_append,ToneProgram.run,List.foldl_append,List.foldl_cons,List.foldl_nil,← ToneProgram.run,
      ToneRuns.callOctave,ih]
    cases c with
    | key key =>
      have last : [Call.key key].filterMap keyOf = [key] := rfl
      rw [last,ToneRange.octaveOf,ToneRange.octaveOf,List.foldl_append]
      rfl
    | switches sw =>
      have last : [Call.switches sw].filterMap keyOf = [] := rfl
      rw [last,List.append_nil]

def loopCalls (switches : Word) (reads : List Read) : List Call :=
  .switches switches :: reads.flatMap (fun x => if x.key = 0 then [] else [.key x.key,.switches x.switches])

theorem loopRun (s : ToneProgram.System) (switches : Word) (reads : List Read) :
    mainLoop s switches reads = ToneProgram.run s (loopCalls switches reads) := by
  rw [mainLoop,loopCalls,ToneProgram.run,List.foldl_cons,List.foldl_flatMap]
  refine congrArg (fun step => reads.foldl step _) ?_
  funext s x
  rw [KeyPath.getKey]
  split <;> rfl

theorem loopKeys (switches : Word) (reads : List Read) :
    (loopCalls switches reads).filterMap keyOf = (reads.map Read.key).filter (· ≠ 0) := by
  have first : keyOf (.switches switches) = none := rfl
  rw [loopCalls,List.filterMap_cons,first]
  dsimp only
  induction reads with
  | nil => rfl
  | cons x rest ih =>
    rw [List.flatMap_cons,List.filterMap_append,ih,List.map_cons,List.filter_cons]
    by_cases zero : x.key = 0
    · rw [if_pos zero,if_neg (fun real => absurd zero (of_decide_eq_true real))]
      rfl
    · rw [if_neg zero,if_pos (decide_eq_true zero)]
      rfl

structure Plays (s : ToneProgram.System) (keys : List Word) : Prop where
  table : ∀ i : Fin numRelTones, s.statics.tonesStatus.get i = if heldBy i keys then 1 else 0
  octave : s.statics.prevOctave = ToneRange.octaveOf keys
  tones : ∀ a : Nat, a < 88 → (s.board.synth.curSounds.getLsbD a = true ↔
    ∃ i : Fin numRelTones, heldBy i keys = true ∧ ToneWindow.Addresses i (ToneRange.octaveOf keys) a)
  leds : ∀ i : Fin numRelTones, s.board.leds.getLsbD i = true ↔
    heldBy i keys = true ∧ relToAbsTone i (ToneRange.octaveOf keys) ≠ -1

theorem callsPlay (calls : List Call) :
    Plays (ToneProgram.run ToneProgram.powerUp calls) (calls.filterMap keyOf) := by
  have octave := callsOctave calls
  have held : ∀ i : Fin numRelTones, (ToneProgram.run ToneProgram.powerUp calls).statics.tonesStatus.get i = 1 ↔
      heldBy i (calls.filterMap keyOf) = true := by
    intro i
    rw [callsStatus]
    split
    · rename_i on
      exact iff_of_true rfl on
    · rename_i off
      exact iff_of_false (by decide) off
  refine ⟨callsStatus calls,octave,?_,?_⟩
  · intro a inside
    have mirrored := (runMirrors powerUpMirrors calls).sounding a inside
    rw [octave] at mirrored
    refine mirrored.trans (exists_congr fun i => ?_)
    rw [held]
  · intro i
    have shown := (ToneLeds.runLeds ToneLeds.powerUpLeds calls).leds i
    rw [ToneLeds.Shown,octave,held] at shown
    exact shown

/-! ### From the wires to the devices -/

section
variable {frames : List Frame} {rest : List Bool} {r : Ps2Board.Regs} {pins : List Pins}

theorem wiresRead (slow : ∀ f ∈ frames, SlowFrame f) (ended : 12290 ≤ rest.length) (idle : Idle r)
    (zero : r.ci.state = State.zero) (quiet : r.ci.done = false)
    (lines : pins.map Pins.sample = transmission frames rest) (protocol : Protocol r.ci (shows r pins))
    (answered : (results r.ci (shows r pins)).length = starts (shows r pins))
    (polled : Polled 11264 (cycles r pins)) :
    (results r.ci (shows r pins)).filter (· ≠ 0) = keysSent (frames.map Frame.byte) := by
  have outlasts : Outlasts 11264 (cycles r pins) := framesOutlast slow ended idle lines
  rw [polledReads zero quiet idle.silent protocol answered (bytesApart idle pins) polled outlasts,
    framesReach slow (by omega) idle lines]

theorem keyboardPlays (slow : ∀ f ∈ frames, SlowFrame f) (ended : 12290 ≤ rest.length) (idle : Idle r)
    (zero : r.ci.state = State.zero) (quiet : r.ci.done = false)
    (lines : pins.map Pins.sample = transmission frames rest) (protocol : Protocol r.ci (shows r pins))
    (answered : (results r.ci (shows r pins)).length = starts (shows r pins))
    (polled : Polled 11264 (cycles r pins)) (switches : Word) (reads : List Read)
    (read : reads.map Read.key = results r.ci (shows r pins)) :
    Plays (mainLoop ToneProgram.powerUp switches reads) (keysSent (frames.map Frame.byte)) := by
  have keys : (loopCalls switches reads).filterMap keyOf = keysSent (frames.map Frame.byte) := by
    rw [loopKeys,read]
    exact wiresRead slow ended idle zero quiet lines protocol answered polled
  rw [loopRun,← keys]
  exact callsPlay (loopCalls switches reads)

end

/-! ### A program that reads at a fixed rate -/

def polling (period : Nat) (samples : List Sample) : List Pins :=
  samples.zipIdx.map (fun x => ⟨x.1.ps2Clk,x.1.ps2Dat,decide (x.2 % period = 0)⟩)

theorem pollingSample (period : Nat) (samples : List Sample) :
    (polling period samples).map Pins.sample = samples := by
  rw [polling,List.map_map]
  exact List.zipIdx_map_fst 0 samples

theorem pollingStart (period : Nat) (samples : List Sample) :
    (polling period samples).map Pins.start = (List.range samples.length).map (fun n => decide (n % period = 0)) := by
  rw [polling,List.map_map,List.range_eq_range',← List.zipIdx_map_snd 0 samples,List.map_map]
  rfl

theorem cyclesStart (r : Ps2Board.Regs) (pins : List Pins) :
    (cycles r pins).map ClockCycle.start = pins.map Pins.start := by
  induction pins generalizing r with
  | nil => rfl
  | cons x rest ih => exact congrArg (List.cons x.start) (ih (clock r x))

theorem showsStart (r : Ps2Board.Regs) (pins : List Pins) :
    (shows r pins).map Inputs.start = pins.map Pins.start := by
  induction pins generalizing r with
  | nil => rfl
  | cons x rest ih => exact congrArg (List.cons x.start) (ih (clock r x))

theorem pollingPolled (r : Ps2Board.Regs) {period gap : Nat} (some : 0 < period) (often : period ≤ gap)
    (samples : List Sample) : Polled gap (cycles r (polling period samples)) := by
  have begun := (cyclesStart r (polling period samples)).trans (pollingStart period samples)
  intro n inside
  have size : (cycles r (polling period samples)).length = samples.length := by
    simpa using congrArg List.length begun
  have below : (n + period - 1)/period*period ≤ n + period - 1 := Nat.div_mul_le_self _ _
  have above : n + period - 1 < (n + period - 1)/period*period + period := Nat.lt_div_mul_add some
  refine ⟨(n + period - 1)/period*period,by omega,by omega,?_⟩
  have start := congrArg (fun xs => xs[(n + period - 1)/period*period]?) begun
  rw [List.getElem?_map,List.getElem?_map,List.getElem?_range (by omega)] at start
  obtain ⟨x,place,raised⟩ := Option.map_eq_some_iff.mp start
  refine ⟨x,place,?_⟩
  exact raised.trans (decide_eq_true (Nat.mul_mod_left _ _))

theorem pollingSpaced (r : Ps2Board.Regs) {period : Nat} (apart : 2 ≤ period) (samples : List Sample) :
    SpacedStarts.Spaced (shows r (polling period samples)) := by
  have begun := (showsStart r (polling period samples)).trans (pollingStart period samples)
  have chain : ((shows r (polling period samples)).map Inputs.start).IsChain (fun x y => x = true → y = false) := by
    rw [begun,List.isChain_map,List.isChain_range]
    intro n _ start
    have here : n % period = 0 := of_decide_eq_true start
    have next : (n+1) % period = 1 := by
      rw [Nat.add_mod,here,Nat.zero_add,Nat.mod_mod,Nat.mod_eq_of_lt apart]
    rw [decide_eq_false_iff_not,next]
    decide
  rwa [List.isChain_map] at chain

theorem pollingSettles (r : Ps2Board.Regs) {period : Nat} {samples : List Sample} {n : Nat}
    (size : samples.length = n + 2) (first : n % period ≠ 0) (second : (n+1) % period ≠ 0) :
    SpacedStarts.Settles (shows r (polling period samples)) := by
  have begun := (showsStart r (polling period samples)).trans (pollingStart period samples)
  have length : (shows r (polling period samples)).length - 2 = n := by
    have same := congrArg List.length begun
    rw [List.length_map,List.length_map,List.length_range] at same
    omega
  intro i member
  have start := List.mem_map_of_mem (f := Inputs.start) member
  rw [length,List.map_drop,begun,size,List.range_succ,List.range_succ,List.append_assoc,List.map_append,
    List.drop_append_of_le_length (by rw [List.length_map,List.length_range]),
    List.drop_of_length_le (by rw [List.length_map,List.length_range]),List.nil_append] at start
  simpa [first,second] using start

theorem streamTime (bits : List (Bool × Stretch)) :
    (stream bits).length = (bits.map (fun b => b.2.high + b.2.low)).sum := by
  rw [stream,List.length_flatMap]
  refine congrArg List.sum (List.map_congr_left fun b _ => ?_)
  rw [bitSamples,List.length_append,List.length_replicate,List.length_replicate]

def pressed : List Pins := polling 10000 (transmission [shortest] (List.replicate 12290 true))

theorem pressedLines : pressed.map Pins.sample = transmission [shortest] (List.replicate 12290 true) :=
  pollingSample 10000 _

theorem pressedTime : (transmission [shortest] (List.replicate 12290 true)).length = 23552 + 2 := by
  have long : framesTime [shortest] = 11264 := by
    rw [framesTime,streamTime]
    decide
  rw [transmission,List.length_append,List.length_map,List.length_replicate,← framesTime,long]

theorem pressedProtocol : Protocol powerUp.ci (shows powerUp pressed) :=
  SpacedStarts.spacedProtocol rfl rfl rfl (pollingSpaced powerUp (by decide) _)

theorem pressedAnswered :
    (results powerUp.ci (shows powerUp pressed)).length = starts (shows powerUp pressed) := by
  have enough : 2 ≤ (shows powerUp pressed).length := by
    have same := congrArg List.length (showsStart powerUp pressed)
    rw [List.length_map,List.length_map] at same
    rw [same,← List.length_map (f := Pins.sample),pressedLines,pressedTime]
    decide
  exact SpacedStarts.settlesAnswered rfl rfl rfl pressedProtocol
    (pollingSettles powerUp pressedTime (by decide) (by decide)) enough

theorem pressedPolled : Polled 11264 (cycles powerUp pressed) :=
  pollingPolled powerUp (by decide) (by decide) _

theorem pressedSlow : ∀ f ∈ [shortest], SlowFrame f := by decide

theorem pressedRead :
    (results powerUp.ci (shows powerUp pressed)).filter (· ≠ 0) =
      keysSent (bytesOf powerUp.ci (shows powerUp pressed)) :=
  polledReads rfl rfl rfl pressedProtocol pressedAnswered (bytesApart powerUpIdle pressed) pressedPolled
    (framesOutlast pressedSlow (Nat.le_of_eq List.length_replicate.symm) powerUpIdle pressedLines)

theorem pressedPlays :
    Plays (mainLoop ToneProgram.powerUp 0
      ((results powerUp.ci (shows powerUp pressed)).map (fun key => ⟨key,0⟩))) (keysSent [0x1c]) := by
  have read : ((results powerUp.ci (shows powerUp pressed)).map (fun key => (⟨key,0⟩ : Read))).map Read.key =
      results powerUp.ci (shows powerUp pressed) := by
    rw [List.map_map]
    exact List.map_id _
  exact keyboardPlays pressedSlow (Nat.le_of_eq List.length_replicate.symm) powerUpIdle rfl rfl pressedLines
    pressedProtocol pressedAnswered pressedPolled 0 _ read

end FpgaSynthesizer.Keyboard
