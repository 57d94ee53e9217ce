import FpgaSynthesizer.BoardSamples
import FpgaSynthesizer.ClockedMain
import FpgaSynthesizer.ClockedPace

/-! From the keyboard's two wires to the devices, on the whole board with either
program: nothing is assumed of the processor but that it does not let the time of a
byte go by without a read, or half of that time under fpga_synth. -/
namespace FpgaSynthesizer.ClockedWires
open ClockedBoard ClockedMain PolledMailbox Ps2Frames
open GetKeySteps (Version)
open Keyboard (keysSent keyOf Plays)
open Ps2 (Sample)
open Ps2Board (Pins shows cycles framesTime Idle SlowFrame)
open Ps2Ci (results starts Protocol)
open AudioCodec (oAudLrck)
open BoardSamples (chord tones)
open DacReads (Read bitOf readAt reads readsAppend readsNone readsStill)
open SoundBoard (callsOf)
open ToneProgram (Call Word)

variable {v : Version}

theorem polledPrefix {Byte : Type} {gap : Nat} {xs ys : List (Mailbox.ClockCycle Byte)}
    (polled : Polled gap (xs ++ ys)) : Polled gap xs := by
  intro n inside
  obtain ⟨m,after,before,x,place,start⟩ := polled n (by rw [List.length_append]; omega)
  rw [List.getElem?_append_left (by omega)] at place
  exact ⟨m,after,before,x,place,start⟩

section
variable {frames : List Frame} {rest : List Bool} {keyboard : Ps2Board.Regs} {events first last : List Event}

theorem samplesTime (lines : samples events = transmission frames rest) :
    (samples events).length = framesTime frames + rest.length := by
  rw [lines,transmission,List.length_append,List.length_map]
  rfl

theorem linesPart (v : Version) (keyboard : Ps2Board.Regs) (lines : samples events = transmission frames rest)
    (split : events = first ++ last) {n : Nat}
    (long : framesTime frames + n ≤ (samples first).length) :
    ∃ rest', n ≤ rest'.length ∧ (pins (powerUp v keyboard) first).map Pins.sample = transmission frames rest' := by
  have whole := samplesTime lines
  have parts : (samples events).length = (samples first).length + (samples last).length := by
    rw [split,samplesAppend,List.length_append]
  obtain ⟨k,size⟩ : ∃ k, (samples first).length = framesTime frames + k :=
    ⟨_,(Nat.add_sub_cancel' (Nat.le_trans (Nat.le_add_right _ n) long)).symm⟩
  have cut : samples first = (samples events).take (framesTime frames + k) := by
    rw [split,samplesAppend,← size,List.take_left]
  refine ⟨rest.take k,?_,?_⟩
  · rw [List.length_take]
    omega
  · rw [pinsSamples,cut,lines,transmission,transmission,framesTime,List.take_length_add_append,List.map_take]

theorem polledPart {gap : Nat} (polled : Polled gap (cycles keyboard (pins (powerUp v keyboard) events)))
    (split : events = first ++ last) : Polled gap (cycles keyboard (pins (powerUp v keyboard) first)) := by
  have apart : cycles keyboard (pins (powerUp v keyboard) events) = _ :=
    congrArg (cycles keyboard) ((congrArg (pins (powerUp v keyboard)) split).trans (pinsAppend _ first last))
  rw [apart,Keyboard.cyclesAppend] at polled
  exact polledPrefix polled

theorem versionReads (v : Version) {r : Ps2Board.Regs} {pins : List Pins} (slow : ∀ f ∈ frames, SlowFrame f)
    (plain : ∀ f ∈ frames, v.Plain f.byte) (ended : 12290 ≤ rest.length) (idle : Idle r)
    (zero : r.ci.state = Ps2Ci.State.zero) (quiet : r.ci.done = false)
    (lines : pins.map Pins.sample = transmission frames rest) (protocol : Protocol r.ci (shows r pins))
    (answered : (results r.ci (shows r pins)).length = starts (shows r pins)) (polled : Polled v.gap (cycles r pins)) :
    v.getKey.values v.getKey.start (results r.ci (shows r pins)) = keysSent (frames.map Frame.byte) := by
  rw [← GetKeySteps.versionValues]
  cases v with
  | theSynth =>
    have sent := Keyboard.wiresRead slow ended idle zero quiet lines protocol answered polled
    exact (GetKey.theSynthCodes _).trans sent
  | fpgaSynth =>
    have sent := Keyboard.wiresRead slow ended idle zero quiet lines protocol answered
      (TwoPrograms.polledMore (by decide) polled)
    exact (TwoPrograms.wiresBoth slow plain ended idle zero quiet lines protocol answered polled).trans sent

theorem freeHandled (slow : ∀ f ∈ frames, SlowFrame f) (plain : ∀ f ∈ frames, v.Plain f.byte) (idle : Idle keyboard)
    (zero : keyboard.ci.state = Ps2Ci.State.zero) (quiet : keyboard.ci.done = false)
    (lines : samples events = transmission frames rest)
    (polled : Polled v.gap (cycles keyboard (pins (powerUp v keyboard) events))) (split : events = first ++ last)
    (long : framesTime frames + 12290 ≤ (samples first).length)
    (free : (run (powerUp v keyboard) first).processor.inFlight ≠ some .keyboardCi) :
    (made v keyboard first).filterMap keyOf = keysSent (frames.map Frame.byte) := by
  obtain ⟨rest',ended,part⟩ := linesPart v keyboard lines split long
  rw [madeKeys v zero quiet]
  exact versionReads v slow plain ended idle zero quiet part (powerUpProtocol v zero quiet first)
    (powerUpAnswered v zero quiet free) (polledPart polled split)

theorem framesHandled (slow : ∀ f ∈ frames, SlowFrame f) (plain : ∀ f ∈ frames, v.Plain f.byte) (idle : Idle keyboard)
    (zero : keyboard.ci.state = Ps2Ci.State.zero) (quiet : keyboard.ci.done = false)
    (lines : samples events = transmission frames rest)
    (polled : Polled v.gap (cycles keyboard (pins (powerUp v keyboard) events))) (split : events = first ++ last)
    (long : framesTime frames + 12292 ≤ (samples first).length) (gets : GetsKey (run (powerUp v keyboard) first)) :
    (made v keyboard first).filterMap keyOf = keysSent (frames.map Frame.byte) := by
  by_cases flight : (run (powerUp v keyboard) first).processor.inFlight = some .keyboardCi
  · obtain ⟨early,late,rfl,_,free,same,short⟩ := flightSince zero quiet first flight
    have two : (samples late).length ≤ 2 := by
      split at short <;> omega
    rw [samplesAppend,List.length_append] at long
    rw [same]
    exact freeHandled slow plain idle zero quiet lines polled (split.trans (List.append_assoc _ _ _)) (by omega)
      (noRead free)
  · exact freeHandled slow plain idle zero quiet lines polled split (by omega) flight

theorem framesPlay (slow : ∀ f ∈ frames, SlowFrame f) (plain : ∀ f ∈ frames, v.Plain f.byte) (idle : Idle keyboard)
    (zero : keyboard.ci.state = Ps2Ci.State.zero) (quiet : keyboard.ci.done = false)
    (lines : samples events = transmission frames rest)
    (polled : Polled v.gap (cycles keyboard (pins (powerUp v keyboard) events))) (split : events = first ++ last)
    (long : framesTime frames + 12292 ≤ (samples first).length) (gets : GetsKey (run (powerUp v keyboard) first)) :
    Plays (system (run (powerUp v keyboard) first)) (keysSent (frames.map Frame.byte)) := by
  have plays := Keyboard.callsPlay (made v keyboard first)
  rwa [← idleSystem zero quiet gets.idle,framesHandled slow plain idle zero quiet lines polled split long gets] at plays

theorem startedReads {b b' : Board v} {i : Inputs} {calls : List SoundBoard.Event} (clocked : Clock b i true b' calls) :
    GetsKey b := by
  cases clocked with
  | read free idle reading => exact ⟨idle,reading⟩

theorem startReads {b : Board v} (wired : Wired b) {events : List Event} {m : Nat} {x : Pins}
    (place : (pins b events)[m]? = some x) (start : x.start = true) :
    ∃ first last, events = first ++ last ∧ (samples first).length = m ∧ GetsKey (run b first) := by
  induction events generalizing b m with
  | nil => cases place
  | cons e rest ih =>
    cases e with
    | clock50 i =>
      cases m with
      | zero =>
        obtain rfl : pinsOf b i = x := Option.some.inj place
        have clocked := clockCases wired i
        rw [start] at clocked
        exact ⟨[],.clock50 i :: rest,rfl,rfl,startedReads clocked⟩
      | succ m =>
        obtain ⟨first,last,rfl,count,reads⟩ := ih (stepWired wired (.clock50 i)) place
        exact ⟨.clock50 i :: first,last,rfl,congrArg Nat.succ count,reads⟩
    | clk18 =>
      obtain ⟨first,last,rfl,count,reads⟩ := ih (stepWired wired .clk18) place
      exact ⟨.clk18 :: first,last,rfl,count,reads⟩

theorem framesRead (lines : samples events = transmission frames rest) (ended : 23556 ≤ rest.length)
    (zero : keyboard.ci.state = Ps2Ci.State.zero) (quiet : keyboard.ci.done = false)
    (polled : Polled v.gap (cycles keyboard (pins (powerUp v keyboard) events))) :
    ∃ first last, events = first ++ last ∧ framesTime frames + 12292 ≤ (samples first).length ∧
      GetsKey (run (powerUp v keyboard) first) := by
  have size : (cycles keyboard (pins (powerUp v keyboard) events)).length = framesTime frames + rest.length := by
    rw [Keyboard.cyclesLength,pinsLength,samplesTime lines]
  have byte := GetKeySteps.gapInByte v
  obtain ⟨m,after,_,y,place,raised⟩ := polled (framesTime frames + 12292) (by omega)
  have same := congrArg (fun xs => xs[m]?) (Keyboard.cyclesStart keyboard (pins (powerUp v keyboard) events))
  simp only [List.getElem?_map,place,Option.map_some] at same
  obtain ⟨x,here,start⟩ := Option.map_eq_some_iff.mp same.symm
  obtain ⟨first,last,split,count,reads⟩ := startReads (powerUpWired v zero quiet) here (start.trans raised)
  exact ⟨first,last,split,by omega,reads⟩

theorem boardPlays (slow : ∀ f ∈ frames, SlowFrame f) (plain : ∀ f ∈ frames, v.Plain f.byte) (idle : Idle keyboard)
    (zero : keyboard.ci.state = Ps2Ci.State.zero) (quiet : keyboard.ci.done = false)
    (lines : samples events = transmission frames rest) (ended : 23556 ≤ rest.length)
    (polled : Polled v.gap (cycles keyboard (pins (powerUp v keyboard) events))) :
    (∃ first last, events = first ++ last ∧ framesTime frames + 12292 ≤ (samples first).length ∧
      GetsKey (run (powerUp v keyboard) first)) ∧
    ∀ first last, events = first ++ last → framesTime frames + 12292 ≤ (samples first).length →
      GetsKey (run (powerUp v keyboard) first) →
      Plays (system (run (powerUp v keyboard) first)) (keysSent (frames.map Frame.byte)) :=
  ⟨framesRead lines ended zero quiet polled,fun _ _ split long reads =>
    framesPlay slow plain idle zero quiet lines polled split long reads⟩

end

/-! ### The wires of the DAC -/

theorem movedClks (b : Board v) (i : Inputs) : SoundBoard.clks (moved b i) = 0 := by
  unfold moved
  split
  · split
    · split <;> rfl
    · rfl
  · split <;> rfl
  · rfl
  · rfl
  · rfl

theorem traceClks (b : Board v) (events : List Event) : SoundBoard.clks (trace b events) = events.count .clk18 := by
  induction events generalizing b with
  | nil => rfl
  | cons e rest ih =>
    have tail := ih (step b e)
    have both : SoundBoard.clks (trace b (e :: rest)) =
        SoundBoard.clks (movedBy b e) + SoundBoard.clks (trace (step b e) rest) := List.count_append
    rw [both,tail]
    cases e with
    | clock50 i =>
      have other : Event.clock50 i ≠ .clk18 := fun same => nomatch same
      rw [movedBy,movedClks,Nat.zero_add,List.count_cons_of_ne other]
    | clk18 =>
      rw [List.count_cons_self]
      exact Nat.add_comm _ _

def clockedReads (b : Board v) : List Event → List Read
  | [] => []
  | e :: rest => readAt b.codec (step b e).codec ++ clockedReads (step b e) rest

theorem clockedTrace {b : Board v} (wired : Wired b)
    (events : List Event) :
    clockedReads b events = reads (program b) (trace b events) := by
  induction events generalizing b with
  | nil => rfl
  | cons e rest ih =>
    have tail := ih (stepWired wired e)
    rw [clockedReads,trace,readsAppend,← stepProgram wired e,tail]
    congr 1
    cases e with
    | clock50 i =>
      rw [movedBy,readsNone (movedClks b i)]
      exact readsStill b.codec _
    | clk18 => exact (List.append_nil _).symm

/-! ### From the wires to the DAC -/

theorem loopHead {reading : Bool} {calls : List Call} (loop : Loop reading calls) :
    (reading = true → calls ≠ []) ∧ ∀ key, calls.head? ≠ some (.key key) := by
  induction loop with
  | begin => exact ⟨(fun none => nomatch none),fun key head => nomatch head⟩
  | @switches calls sw before ih =>
    refine ⟨fun _ => by simp,?_⟩
    intro key head
    cases calls with
    | nil => cases head
    | cons c rest => exact ih.2 key head
  | @key calls last before ih =>
    refine ⟨(fun none => nomatch none),?_⟩
    intro key head
    cases calls with
    | nil => exact ih.1 rfl rfl
    | cons c rest => exact ih.2 key head

theorem clockSwitches {b b' : Board v} {i : Inputs} {start : Bool} {moves : List SoundBoard.Event}
    (clocked : Clock b i start b' moves) {sw : Word} (member : Call.switches sw ∈ callsOf (program b) moves) :
    sw = i.switches := by
  cases clocked with
  | switches free idle handled =>
    have waits : (program b).pending = [] := idle
    simpa [callsOf,SoundBoard.accepts,waits] using member
  | returns flight high ends =>
    simp only [callsOf,SoundBoard.accepts,List.append_nil,Option.mem_toList] at member
    split at member <;> cases member
  | held flight low => cases member
  | goesOn flight high more => cases member
  | retire flight => cases member
  | wait free still => cases member
  | synth free next => cases member
  | write free next other => cases member
  | read free idle reading => cases member

section
variable {frames : List Frame} {rest : List Bool} {keyboard : Ps2Board.Regs} {events : List Event}

theorem madeSwitches (zero : keyboard.ci.state = Ps2Ci.State.zero) (quiet : keyboard.ci.done = false) {sw : Word}
    (member : Call.switches sw ∈ made v keyboard events) : ∃ i, Event.clock50 i ∈ events ∧ i.switches = sw := by
  induction events using List.reverseRecOn with
  | nil => cases member
  | append_singleton events e ih =>
    have wired := runWired (powerUpWired v zero quiet) events
    rw [madeSnoc zero quiet,List.mem_append] at member
    rcases member with before | now
    · obtain ⟨i,inside,same⟩ := ih before
      exact ⟨i,List.mem_append_left _ inside,same⟩
    · cases e with
      | clk18 => cases now
      | clock50 i =>
        exact ⟨i,List.mem_append_right _ (List.mem_singleton.mpr rfl),(clockSwitches (clockCases wired i) now).symm⟩

theorem madeSine (zero : keyboard.ci.state = Ps2Ci.State.zero) (quiet : keyboard.ci.done = false)
    (sine : ∀ i, Event.clock50 i ∈ events → i.switches.setWidth 2 = 1#2) :
    BoardSamples.SineCalls (made v keyboard events) := by
  refine ⟨(loopHead (runLoop v zero quiet events)).2,?_⟩
  intro sw member
  obtain ⟨i,inside,rfl⟩ := madeSwitches zero quiet member
  exact sine i inside

theorem octaveCalls (calls : List Call) :
    ToneRuns.octaveKeys calls = (calls.filterMap keyOf).countP (fun key => ToneCalls.OctaveKey key) := by
  induction calls with
  | nil => rfl
  | cons c rest ih =>
    rw [ToneRuns.octaveKeys,List.countP_cons,← ToneRuns.octaveKeys,ih]
    cases c with
    | key key =>
      have head : (Call.key key :: rest).filterMap keyOf = key :: rest.filterMap keyOf := rfl
      rw [head,List.countP_cons]
      rfl
    | switches sw => rfl

theorem clockGets {b b' : Board v} {i : Inputs} {start : Bool} {moves : List SoundBoard.Event}
    (clocked : Clock b i start b' moves) (gets : GetsKey b) :
    (GetsKey b' ∧ moves = []) ∨ (b'.processor.inFlight = none ∧ ∃ key, moves = [.call (.key key)]) := by
  cases clocked with
  | returns flight high ends => exact .inr ⟨rfl,_,rfl⟩
  | synth free next => cases next.symm.trans gets.idle
  | write free next other => cases next.symm.trans gets.idle
  | switches free idle handled => cases handled.symm.trans gets.reading
  | held flight low => exact .inl ⟨⟨gets.idle,gets.reading⟩,rfl⟩
  | goesOn flight high more => exact .inl ⟨⟨gets.idle,gets.reading⟩,rfl⟩
  | retire flight => exact .inl ⟨⟨gets.idle,gets.reading⟩,rfl⟩
  | wait free still => exact .inl ⟨⟨gets.idle,gets.reading⟩,rfl⟩
  | read free idle reading => exact .inl ⟨⟨gets.idle,gets.reading⟩,rfl⟩

/- After the frames main stays in get_key: a key that it returned would be one more
than they carry. -/
theorem staysGetting (slow : ∀ f ∈ frames, SlowFrame f) (plain : ∀ f ∈ frames, v.Plain f.byte) (idle : Idle keyboard)
    (zero : keyboard.ci.state = Ps2Ci.State.zero) (quiet : keyboard.ci.done = false)
    (lines : samples events = transmission frames rest)
    (polled : Polled v.gap (cycles keyboard (pins (powerUp v keyboard) events))) {first mid last : List Event}
    (split : events = first ++ mid ++ last) (long : framesTime frames + 12292 ≤ (samples first).length)
    (gets : GetsKey (run (powerUp v keyboard) first)) :
    GetsKey (run (powerUp v keyboard) (first ++ mid)) ∧
      trace (run (powerUp v keyboard) first) mid = List.replicate (mid.count .clk18) .clk := by
  induction mid using List.reverseRecOn generalizing last with
  | nil =>
    rw [List.append_nil]
    exact ⟨gets,rfl⟩
  | append_singleton mid e ih =>
    have whole : run (powerUp v keyboard) (first ++ mid) = run (run (powerUp v keyboard) first) mid :=
      List.foldl_append
    rw [← List.append_assoc] at split ⊢
    have earlier : events = first ++ mid ++ ([e] ++ last) := split.trans (List.append_assoc _ _ _)
    obtain ⟨now,traced⟩ := ih earlier
    have far : framesTime frames + 12292 ≤ (samples (first ++ mid)).length := by
      rw [samplesAppend,List.length_append]
      omega
    rw [runSnoc,traceSnoc,traced,List.count_append,← whole]
    cases e with
    | clk18 =>
      refine ⟨⟨now.idle,now.reading⟩,?_⟩
      rw [List.count_singleton_self,List.replicate_succ']
      rfl
    | clock50 i =>
      have wired := runWired (powerUpWired v zero quiet) (first ++ mid)
      have clocked := clockCases wired i
      have other : List.count Event.clk18 [.clock50 i] = 0 := rfl
      rcases clockGets clocked now with ⟨stays,silent⟩ | ⟨free,key,returned⟩
      · refine ⟨stays,?_⟩
        rw [other,Nat.add_zero,movedBy,silent,List.append_nil]
      · have before := framesHandled slow plain idle zero quiet lines polled earlier far now
        have after : (made v keyboard (first ++ mid ++ [.clock50 i])).filterMap keyOf = _ :=
          freeHandled slow plain idle zero quiet lines polled split
            (by rw [samplesAppend,List.length_append]; omega)
            (by rw [runSnoc]; exact noRead free)
        have waits : (program (run (powerUp v keyboard) (first ++ mid))).pending = [] := now.idle
        have accepted : callsOf (program (run (powerUp v keyboard) (first ++ mid))) [.call (.key key)] = [.key key] := by
          simp [callsOf,SoundBoard.accepts,waits]
        rw [madeSnoc zero quiet,movedBy,returned,accepted,List.filterMap_append,before] at after
        have size := congrArg List.length after
        rw [List.length_append] at size
        exact absurd size (Nat.succ_ne_self _)

theorem boardSounds (slow : ∀ f ∈ frames, SlowFrame f) (plain : ∀ f ∈ frames, v.Plain f.byte) (idle : Idle keyboard)
    (zero : keyboard.ci.state = Ps2Ci.State.zero) (quiet : keyboard.ci.done = false)
    (lines : samples events = transmission frames rest)
    (polled : Polled v.gap (cycles keyboard (pins (powerUp v keyboard) events)))
    (sine : ∀ i, Event.clock50 i ∈ events → i.switches.setWidth 2 = 1#2)
    (few : (keysSent (frames.map Frame.byte)).countP (fun key => ToneCalls.OctaveKey key) < 10^8)
    (sounding : 0 < (tones (keysSent (frames.map Frame.byte))).length)
    (four : (tones (keysSent (frames.map Frame.byte))).length ≤ 4) {first last : List Event}
    (split : events = first ++ [.clk18] ++ last) (long : framesTime frames + 12292 ≤ (samples first).length)
    (gets : GetsKey (run (powerUp v keyboard) first))
    (high : oAudLrck (run (powerUp v keyboard) first).codec = true)
    (low : oAudLrck (run (powerUp v keyboard) (first ++ [.clk18])).codec = false) :
    ∃ word : WaveGen.Sample,
      word.toInt = chord (trace (powerUp v keyboard) (first ++ [.clk18])) (keysSent (frames.map Frame.byte)) ∧
      ∀ n, n < 32 → 12*n + 6 ≤ last.count .clk18 →
        (clockedReads (run (powerUp v keyboard) (first ++ [.clk18])) last)[n]? = some (bitOf n word) := by
  have wired := powerUpWired v zero quiet
  have handled : (made v keyboard first).filterMap keyOf = keysSent (frames.map Frame.byte) :=
    framesHandled slow plain idle zero quiet lines polled (split.trans (List.append_assoc _ _ _)) long gets
  have fewCalls : ToneRuns.octaveKeys (made v keyboard first) < 10^8 := by
    rw [octaveCalls,handled]
    exact few
  have calls : ∀ i, Event.clock50 i ∈ first → i.switches.setWidth 2 = 1#2 := by
    intro i member
    refine sine i ?_
    rw [split,List.append_assoc]
    exact List.mem_append_left _ member
  have traced : trace (powerUp v keyboard) (first ++ [.clk18]) = trace (powerUp v keyboard) first ++ [.clk] :=
    traceSnoc (powerUp v keyboard) first .clk18
  have before := runProgram wired first
  have after := runProgram wired (first ++ [.clk18])
  have waits : (program (run (powerUp v keyboard) first)).pending = [] := gets.idle
  have level : oAudLrck (program (run (powerUp v keyboard) first)).codec = true := high
  have level' : oAudLrck (program (run (powerUp v keyboard) (first ++ [.clk18]))).codec = false := low
  rw [before] at waits level
  rw [after,traced] at level'
  rw [← handled] at sounding four
  have begins := BoardSamples.fallBegins (madeSine zero quiet calls) fewCalls waits level level' sounding four
  -- for the program the clocks of the sample are those of the codec alone
  have next : GetsKey (run (powerUp v keyboard) (first ++ [.clk18])) := by
    rw [runSnoc]
    exact ⟨gets.idle,gets.reading⟩
  have far : framesTime frames + 12292 ≤ (samples (first ++ [.clk18])).length := by
    rw [samplesAppend,List.length_append]
    omega
  have stays := (staysGetting slow plain idle zero quiet lines polled (split.trans (List.append_nil _).symm) far next).2
  have none : ∀ key, SoundBoard.Event.call (.key key) ∉ List.replicate (last.count .clk18) SoundBoard.Event.clk :=
    fun key member => nomatch List.eq_of_mem_replicate member
  have rests : (program (run (powerUp v keyboard) (first ++ [.clk18]))).pending = [] := next.idle
  rw [after,traced] at rests
  have steady := DacReads.idleSteady (SoundBoard.runFollows _).keys rests none
  rw [← handled,traced]
  refine ⟨_,begins.sound,?_⟩
  intro n inside enough
  rw [clockedTrace (runWired wired _),stays,after]
  have count : SoundBoard.clks (List.replicate (last.count .clk18) .clk) = last.count .clk18 := List.count_replicate_self
  rw [traced]
  exact BoardSamples.beginsReads begins steady inside (by rw [count]; exact enough)

end

def goOn (x : Sample) : Event := .clock50 ⟨x,true,1,⟨0,0,false,false⟩,0⟩

def Busy (events : List Event) : Prop := ∀ e ∈ events, e = .clk18 ∨ ∃ x, e = goOn x

theorem goOnSamples (xs : List Sample) : samples (xs.map goOn) = xs := by
  induction xs with
  | nil => rfl
  | cons x rest ih => exact congrArg (List.cons x) ih

theorem goOnBusy (xs : List Sample) : Busy (xs.map goOn) := by
  intro e member
  obtain ⟨x,_,rfl⟩ := List.mem_map.mp member
  exact .inr ⟨x,rfl⟩

theorem busyAppend {first last : List Event} (early : Busy first) (late : Busy last) : Busy (first ++ last) :=
  fun e member => (List.mem_append.mp member).elim (early e) (late e)

theorem busyBrisk {events : List Event} (busy : Busy events) :
    ClockedPace.Brisk 0 0 (ClockedPace.readies events) := by
  induction events with
  | nil => exact trivial
  | cons e rest ih =>
    have tail := ih fun x member => busy x (List.mem_cons_of_mem e member)
    rcases busy e List.mem_cons_self with rfl | ⟨x,rfl⟩
    · exact tail
    · exact tail

theorem busyPolled {events : List Event} (busy : Busy events) :
    Polled (Version.gap .fpgaSynth) (cycles Ps2Board.powerUp (pins (powerUp .fpgaSynth Ps2Board.powerUp) events)) :=
  TwoPrograms.polledMore (by decide) (ClockedPace.windowsRead (powerUpWired .fpgaSynth rfl rfl)
    (ClockedPace.powerUpTurns .fpgaSynth Ps2Board.powerUp) (Nat.le_refl 0) (busyBrisk busy))

theorem busySine {events : List Event} (busy : Busy events) :
    ∀ i, Event.clock50 i ∈ events → i.switches.setWidth 2 = 1#2 := by
  intro i member
  rcases busy _ member with same | ⟨x,same⟩
  · cases same
  · cases same
    rfl

def pressed : List Event := (transmission [Ps2Board.shortest] (List.replicate 23556 true)).map goOn

theorem pressedPlain : ∀ f ∈ [Ps2Board.shortest], Version.Plain .fpgaSynth f.byte :=
  (by decide : ∀ f ∈ [Ps2Board.shortest], f.byte ≠ 0)

theorem pressedPolled : Polled (Version.gap .fpgaSynth)
    (cycles Ps2Board.powerUp (pins (powerUp .fpgaSynth Ps2Board.powerUp) pressed)) :=
  busyPolled (goOnBusy _)

theorem pressedShown :
    ∃ first, GetsKey (run (powerUp .fpgaSynth Ps2Board.powerUp) first) ∧
      Plays (system (run (powerUp .fpgaSynth Ps2Board.powerUp) first)) (keysSent [0x1c]) := by
  obtain ⟨⟨first,last,split,long,reads⟩,shown⟩ := boardPlays Keyboard.pressedSlow pressedPlain
    Ps2Board.powerUpIdle rfl rfl (goOnSamples _) (Nat.le_of_eq List.length_replicate.symm) pressedPolled
  exact ⟨first,reads,shown first last split long reads⟩

/-! ### The first sample after the press -/

def edges (n : Nat) : List Event := List.replicate n .clk18

theorem edgesBusy (n : Nat) : Busy (edges n) := fun _ member => .inl (List.eq_of_mem_replicate member)

theorem edgesSamples (n : Nat) : samples (edges n) = [] := by
  induction n with
  | zero => rfl
  | succ n ih => exact ih

theorem edgesProcessor (b : Board v) (n : Nat) : (run b (edges n)).processor = b.processor := by
  induction n generalizing b with
  | zero => rfl
  | succ n ih => exact ih (step b .clk18)

theorem laterGets {b : Board v} {first : List Event} (gets : GetsKey (run b first)) (n : Nat) :
    GetsKey (run b (first ++ edges n)) := by
  have split : run b (first ++ edges n) = run (run b first) (edges n) := List.foldl_append
  have kept := edgesProcessor (run b first) n
  rw [split]
  exact ⟨(congrArg Processor.pending kept).trans gets.idle,(congrArg Processor.reading kept).trans gets.reading⟩

theorem edgesTrace (b : Board v) (n : Nat) (rest : List Event) :
    trace b (edges n ++ rest) = List.replicate n .clk ++ trace b rest := by
  induction n generalizing b with
  | zero => rfl
  | succ n ih =>
    have same := traceAlike (b := step b .clk18) (c := b) rfl rfl rest
    have tail := ih (step b .clk18)
    rw [same] at tail
    exact congrArg (List.cons _) tail

def sampling : Nat → List Event
  | 0 => []
  | n+1 => goOn ⟨true,true⟩ :: .clk18 :: sampling n

theorem samplingBusy (n : Nat) : Busy (sampling n) := by
  induction n with
  | zero => exact fun _ member => nomatch member
  | succ n ih =>
    intro e member
    rcases List.mem_cons.mp member with rfl | later
    · exact .inr ⟨_,rfl⟩
    · exact (List.mem_cons.mp later).elim .inl (ih e)

theorem samplingSamples (n : Nat) : samples (sampling n) = (List.replicate n true).map (fun dat => ⟨true,dat⟩) := by
  induction n with
  | zero => rfl
  | succ n ih => exact congrArg (List.cons _) ih

theorem samplingCount (n : Nat) : (sampling n).count .clk18 = n := by
  induction n with
  | zero => rfl
  | succ n ih =>
    have other : goOn ⟨true,true⟩ ≠ .clk18 := fun same => nomatch same
    rw [sampling,List.count_cons_of_ne other,List.count_cons_self,ih]

theorem boardPhase (events : List Event) :
    AudioCodec.Phase (events.count .clk18) (run (powerUp .fpgaSynth Ps2Board.powerUp) events).codec := by
  have wired : Wired (powerUp .fpgaSynth Ps2Board.powerUp) := powerUpWired .fpgaSynth rfl rfl
  have refined := runProgram wired events
  have phase := SoundBoard.runPhase (trace (powerUp .fpgaSynth Ps2Board.powerUp) events)
  rw [traceClks] at phase
  have codec : (run (powerUp .fpgaSynth Ps2Board.powerUp) events).codec =
      (SoundBoard.run SoundBoard.powerUp (trace (powerUp .fpgaSynth Ps2Board.powerUp) events)).codec :=
    congrArg SoundBoard.Board.codec refined
  rwa [codec]

structure Pressing (first : List Event) : Prop where
  busy : Busy first
  silent : first.count .clk18 = 0
  lines : ∃ rest, 12292 ≤ rest.length ∧ samples first = transmission [Ps2Board.shortest] rest
  gets : GetsKey (run (powerUp .fpgaSynth Ps2Board.powerUp) first)

theorem pressedStops : ∃ first, Pressing first := by
  obtain ⟨first,last,split,long,gets⟩ := framesRead (goOnSamples _) (Nat.le_of_eq List.length_replicate.symm) rfl rfl
    pressedPolled
  obtain ⟨rest,ended,part⟩ := linesPart .fpgaSynth Ps2Board.powerUp (goOnSamples _) split long
  have own : ∀ e ∈ first, ∃ x, e = goOn x := by
    intro e member
    have inside := List.mem_append_left last member
    rw [← split] at inside
    obtain ⟨x,_,rfl⟩ := List.mem_map.mp inside
    exact ⟨x,rfl⟩
  refine ⟨first,fun e member => .inr (own e member),?_,⟨rest,ended,?_⟩,gets⟩
  · rw [List.count_eq_zero]
    intro member
    obtain ⟨x,same⟩ := own _ member
    cases same
  · rw [← pinsSamples (powerUp .fpgaSynth Ps2Board.powerUp),part]

theorem pressedSounds :
    ∃ first, ∃ word : WaveGen.Sample,
      word.toInt = chord (trace (powerUp .fpgaSynth Ps2Board.powerUp) (first ++ [.clk18])) (keysSent [0x1c]) ∧
      ∀ n, n < 32 → (clockedReads (run (powerUp .fpgaSynth Ps2Board.powerUp) (first ++ [.clk18]))
        (sampling 384))[n]? = some (bitOf n word) := by
  obtain ⟨first,pressing⟩ := pressedStops
  obtain ⟨rest,ended,lines⟩ := pressing.lines
  have early : samples (first ++ edges 383) = transmission [Ps2Board.shortest] rest := by
    rw [samplesAppend,edgesSamples,List.append_nil,lines]
  have seen : samples (first ++ edges 383 ++ [.clk18] ++ sampling 384) =
      transmission [Ps2Board.shortest] (rest ++ List.replicate 384 true) := by
    have none : samples [.clk18] = [] := rfl
    rw [samplesAppend,samplesAppend,early,none,samplingSamples,transmission,transmission,List.map_append,List.append_nil,
      List.append_assoc]
  have busy : Busy (first ++ edges 383 ++ [.clk18] ++ sampling 384) :=
    busyAppend (busyAppend (busyAppend pressing.busy (edgesBusy 383)) (edgesBusy 1)) (samplingBusy 384)
  have count : List.count Event.clk18 (first ++ edges 383) = 383 := by
    rw [List.count_append,pressing.silent,edges,List.count_replicate_self]
  have last : List.count Event.clk18 (first ++ edges 383 ++ [.clk18]) = 384 := by
    rw [List.count_append,count,List.count_singleton_self]
  have sent : keysSent ([Ps2Board.shortest].map Frame.byte) = [0x1c] := by decide
  have long : framesTime [Ps2Board.shortest] + 12292 ≤ (samples (first ++ edges 383)).length := by
    rw [samplesTime early]
    omega
  obtain ⟨word,value,bits⟩ := boardSounds Keyboard.pressedSlow pressedPlain Ps2Board.powerUpIdle rfl rfl seen
    (busyPolled busy) (busySine busy) (by decide) (by rw [sent,BoardSamples.pressedTones]; decide)
    (by rw [sent,BoardSamples.pressedTones]; decide) rfl long (laterGets pressing.gets 383)
    (by rw [AudioCodec.phaseLrck (boardPhase _),count]; decide)
    (by rw [AudioCodec.phaseLrck (boardPhase _),last]; decide)
  refine ⟨first ++ edges 383,word,value,?_⟩
  intro n inside
  exact bits n inside (by rw [samplingCount]; omega)

end FpgaSynthesizer.ClockedWires
