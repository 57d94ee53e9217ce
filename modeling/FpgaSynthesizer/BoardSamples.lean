import FpgaSynthesizer.DacReads
import FpgaSynthesizer.IdleVoices
import FpgaSynthesizer.RampPhase

/-! From the keys that the program has handled to the bits that the DAC reads. With
the sine wave selected before any key goes down, the codec's outputs are always up
to date, and up to four tones are added exactly. -/
namespace FpgaSynthesizer.BoardSamples
open SoundBoard
open DacReads (Steady bitOf reads readsSteady idleSteady)
open ToneProgram hiding Board run powerUp
open AudioCodec (Codec clk oAudLrck)
open Voices (Bank numNotes)
open ToneAgreement ToneWindow
open Keyboard (keyOf)

/-! ### The sine wave from the first call on -/

/- main reads the switches first, and they select the sine wave in every call. -/
structure SineCalls (calls : List Call) : Prop where
  first : ∀ key, calls.head? ≠ some (.key key)
  switches : ∀ sw, .switches sw ∈ calls → sw.setWidth 2 = 1#2

def Quiet (bank : Bank) : Prop := bank.keys = 0 ∧ bank.effects = 0 ∧ ∀ i, bank.voice i = ⟨0,0⟩

def keepsSine (x : Action) : Prop := ∀ w, effectWrite x = some w → w = ⟨0,true⟩ ∨ w = ⟨1,false⟩

inductive Tuned (calls : List Call) (b : Board) : Prop where
  | waiting (none : calls = []) (idle : b.pending = []) (quiet : Quiet b.codec.bank) (statics : b.statics = initial)
  | starting (some : calls ≠ []) (switching : b.pending = [.synth .effectOn 0,.synth .effectOff 1])
      (quiet : Quiet b.codec.bank)
  | sine (some : calls ≠ []) (settled : VoiceOutputs.Settled 0b0001 b.codec.bank)
      (effects : b.codec.bank.effects = 1) (keeps : ∀ x ∈ b.pending, keepsSine x)

theorem sineLow {sw : Word} (low : sw.setWidth 2 = 1#2) : sw.getLsbD 0 = true ∧ sw.getLsbD 1 = false := by
  have bits : ∀ j, j < 2 → sw.getLsbD j = (1#2).getLsbD j := by
    intro j inside
    rw [← low,BitVec.getLsbD_setWidth,decide_eq_true inside,Bool.true_and]
  exact ⟨bits 0 (by decide),bits 1 (by decide)⟩

theorem sineSwitches {sw : Word} (low : sw.setWidth 2 = 1#2) (s : Statics) :
    (handleSwitches s sw).2 = if sw ≠ s.prevSw then [.synth .effectOn 0,.synth .effectOff 1] else [] := by
  obtain ⟨zero,one⟩ := sineLow low
  have first : sw &&& 0x1 ≠ 0 := by
    change sw &&& BitVec.twoPow 32 0 ≠ 0
    rw [BitVec.and_twoPow,zero]
    decide
  have second : ¬ sw &&& 0x2 ≠ 0 := by
    change ¬ sw &&& BitVec.twoPow 32 1 ≠ 0
    rw [BitVec.and_twoPow,one]
    decide
  simp only [handleSwitches,if_pos first,if_neg second]
  split <;> rfl

theorem callKeepsSine (s : Statics) {c : Call} (sine : ∀ sw, c = .switches sw → sw.setWidth 2 = 1#2) :
    ∀ x ∈ (handle s c).2, keepsSine x := by
  intro x member w write
  cases c with
  | key key =>
    have inside : w ∈ effectWrites (handleKey s key).2 := List.mem_filterMap.mpr ⟨x,member,write⟩
    rw [keyEffectWrites] at inside
    cases inside
  | switches sw =>
    change x ∈ (handleSwitches s sw).2 at member
    rw [sineSwitches (sine sw rfl)] at member
    split at member
    · rcases List.mem_pair.mp member with rfl | rfl
      · exact .inl (Option.some.inj write).symm
      · exact .inr (Option.some.inj write).symm
    · cases member

theorem performKeepsSine {devices : ToneProgram.Board} (effects : devices.synth.curEffects = 1) {x : Action}
    (keeps : keepsSine x) : (perform devices x).synth.curEffects = 1 := by
  rw [performSynth]
  change RegisterBits.writeAll devices.synth.curEffects _ = 1
  cases write : effectWrite x with
  | none => exact effects
  | some w =>
    rw [effects]
    rcases keeps w write with rfl | rfl <;> decide

theorem quietFall {bank : Bank} (quiet : Quiet bank) : Quiet (Voices.step bank .lrckFall) := by
  obtain ⟨keys,effects,voices⟩ := quiet
  refine ⟨?_,?_,?_⟩
  · rw [Voices.fallKeys,keys]
  · rw [Voices.fallEffects,effects]
  · intro i
    have up : (0 : BitVec numNotes).getLsbD i = false := BitVec.getLsbD_zero
    have parked : Voices.rampNext false 0 (Voices.freq i) = 0 := rfl
    rw [Voices.fallVoice,voices,keys,up,parked]
    simp [Voices.Voice.setRamp]

theorem quietClk {bank : Bank} (quiet : Quiet bank) {b : Board} (own : b.codec.bank = bank) :
    Quiet (step b .clk).codec.bank := by
  rw [bankStep,bankEvent,own]
  split
  · exact quietFall quiet
  · exact quiet

theorem quietSettles {bank : Bank} (quiet : Quiet bank) :
    VoiceOutputs.Settled 0b0001 (Voices.run bank [.keys 0,.effects 1]) := by
  obtain ⟨keys,_,voices⟩ := quiet
  have rests : ∀ i, (Voices.run bank [.keys 0,.effects 1]).voice i = ⟨0,0⟩ := by
    intro i
    change (Voices.step (Voices.step bank (.keys 0)) (.effects 1)).voice i = _
    rw [Voices.effectsVoice,Voices.keysVoice,voices,keys,Bool.and_not_self]
    rfl
  refine ⟨?_,?_,?_⟩
  · change Voices.selected (Voices.step (Voices.step bank (.keys 0)) (.effects 1)).effects = _
    rw [Voices.effectsEffects]
    decide
  · intro i
    rw [rests]
    decide
  · intro i _
    rw [rests]

theorem firstSwitches {sw : Word} (low : sw.setWidth 2 = 1#2) :
    (handle initial (.switches sw)).2 = [.synth .effectOn 0,.synth .effectOff 1] := by
  have changed : sw ≠ initial.prevSw := by
    rintro rfl
    exact absurd low (by decide)
  change (handleSwitches initial sw).2 = _
  rw [sineSwitches low,if_pos changed]

theorem tunedClk {calls : List Call} {b : Board} (tuned : Tuned calls b) : Tuned calls (step b .clk) := by
  cases tuned with
  | waiting none idle quiet statics => exact .waiting none idle (quietClk quiet rfl) statics
  | starting some switching quiet => exact .starting some switching (quietClk quiet rfl)
  | sine some settled effects keeps =>
    have bank := bankStep b .clk
    refine .sine some ?_ ?_ keeps
    · rw [bank]
      refine VoiceOutputs.settledRun (.inl rfl) settled _ ?_
      intro e member
      simp only [bankEvent] at member
      split at member
      · rw [List.mem_singleton.mp member]
        trivial
      · cases member
    · exact (clkBankKeys b.codec).2.trans effects

theorem tunedCall {calls : List Call} {b : Board} (tuned : Tuned calls b) (idle : b.pending = []) {c : Call}
    (sine : SineCalls (calls ++ [c])) : Tuned (calls ++ [c]) (step b (.call c)) := by
  have begun : step b (.call c) = {b with statics := (handle b.statics c).1, pending := (handle b.statics c).2} := by
    simp only [step,idle]
  have some : calls ++ [c] ≠ [] := by simp
  have own : ∀ sw, c = .switches sw → sw.setWidth 2 = 1#2 := by
    intro sw same
    exact sine.switches sw (by simp [same])
  rw [begun]
  cases tuned with
  | waiting none _ quiet statics =>
    subst none
    cases c with
    | key key => exact absurd rfl (sine.first key)
    | switches sw =>
      refine .starting some ?_ quiet
      rw [statics]
      exact firstSwitches (own sw rfl)
  | starting _ switching _ =>
    rw [idle] at switching
    cases switching
  | sine _ settled effects _ => exact .sine some settled effects (callKeepsSine b.statics own)

theorem tunedAction {calls : List Call} {b : Board} (tuned : Tuned calls b) (follows : Follows calls b) :
    Tuned calls (step b .action) := by
  cases busy : b.pending with
  | nil =>
    have waits : step b .action = b := by simp only [step,busy]
    rwa [waits]
  | cons x rest =>
    have done : step b .action = ⟨b.statics,rest,perform b.devices x,drive b.codec (perform b.devices x).synth⟩ := by
      simp only [step,busy]
    have bank := bankStep b .action
    have events : bankEvent b .action =
        [.keys (perform b.devices x).synth.curSounds,.effects (perform b.devices x).synth.curEffects] := by
      simp only [bankEvent,busy]
    rw [events,done] at bank
    rw [done]
    cases tuned with
    | waiting _ idle _ _ =>
      rw [idle] at busy
      cases busy
    | starting some switching quiet =>
      rw [switching] at busy
      obtain ⟨rfl,rfl⟩ := List.cons.inj busy
      have silent : b.devices.synth.curSounds = 0 := follows.keys.symm.trans quiet.1
      have clear : b.devices.synth.curEffects = 0 := follows.effects.symm.trans quiet.2.1
      have sounds : (perform b.devices (.synth .effectOn 0)).synth.curSounds = 0 := silent
      have effects : (perform b.devices (.synth .effectOn 0)).synth.curEffects = 1 := by
        have write : RegisterBits.writeAll (0 : BitVec 18) [⟨0,true⟩] = 1 := by decide
        rw [performSynth,clear]
        exact write
      rw [sounds,effects] at bank
      refine .sine some ?_ ?_ ?_
      · rw [bank]
        exact quietSettles quiet
      · rw [driveBank,Voices.effectsEffects,effects]
      · intro y member w write
        rw [List.mem_singleton.mp member] at write
        exact .inr (Option.some.inj write).symm
    | sine some settled effects keeps =>
      have kept := keeps x (by rw [busy]; exact List.mem_cons_self)
      have effects' := performKeepsSine (follows.effects.symm.trans effects) kept
      rw [effects'] at bank
      refine .sine some ?_ ?_ ?_
      · rw [bank]
        refine VoiceOutputs.settledRun (.inl rfl) settled _ ?_
        intro e member
        rcases List.mem_pair.mp member with rfl | rfl
        · trivial
        · exact (by decide : Voices.selected 1 = 0b0001)
      · rw [driveBank,Voices.effectsEffects,effects']
      · intro y member
        exact keeps y (by rw [busy]; exact List.mem_cons_of_mem x member)

theorem sinePrefix {first last : List Call} (sine : SineCalls (first ++ last)) : SineCalls first := by
  refine ⟨?_,?_⟩
  · intro key head
    refine sine.first key ?_
    cases first with
    | nil => cases head
    | cons c rest => exact head
  · intro sw member
    exact sine.switches sw (List.mem_append_left last member)

theorem runTuned (events : List Event) (sine : SineCalls (callsOf powerUp events)) :
    Tuned (callsOf powerUp events) (run powerUp events) := by
  induction events using List.reverseRecOn with
  | nil =>
    refine .waiting rfl rfl ⟨rfl,rfl,?_⟩ rfl
    intro i
    exact Voices.restVoice 0 0 i
  | append_singleton events e ih =>
    rw [callsSnoc] at sine ⊢
    rw [runSnoc]
    have before := ih (sinePrefix sine)
    cases e with
    | clk =>
      have same : callsOf powerUp events ++ (accepts (run powerUp events) .clk).toList = callsOf powerUp events :=
        List.append_nil _
      rw [same]
      exact tunedClk before
    | call c =>
      cases busy : (run powerUp events).pending with
      | nil =>
        have accepted : (accepts (run powerUp events) (.call c)).toList = [c] := by simp [accepts,busy]
        rw [accepted] at sine ⊢
        exact tunedCall before busy sine
      | cons x rest =>
        have refused : (accepts (run powerUp events) (.call c)).toList = [] := by simp [accepts,busy]
        have waits : step (run powerUp events) (.call c) = run powerUp events := by simp only [step,busy]
        rw [refused,waits,List.append_nil]
        exact before
    | action =>
      have same : callsOf powerUp events ++ (accepts (run powerUp events) .action).toList = callsOf powerUp events :=
        List.append_nil _
      rw [same]
      exact tunedAction before (runFollows events)

/-! ### What the DAC reads -/

theorem tunedSounds {calls : List Call} {b : Board} (tuned : Tuned calls b)
    (pressed : b.codec.bank.keys ≠ 0) : VoiceOutputs.Settled 0b0001 b.codec.bank := by
  cases tuned with
  | waiting _ _ quiet _ => exact absurd quiet.1 pressed
  | starting _ _ quiet => exact absurd quiet.1 pressed
  | sine _ settled _ _ => exact settled

theorem heldCount (bank : Bank) :
    ((List.finRange numNotes).filter (IdleVoices.held bank)).length = MixerRange.heldKeys bank.keys :=
  List.countP_eq_length_filter.symm

theorem mixExact {bank : Bank} (settled : VoiceOutputs.Settled 0b0001 bank)
    (few : MixerRange.heldKeys bank.keys ≤ 4) :
    (Voices.soundO bank).toInt = WrappedSum.integerSum (IdleVoices.heldMusic bank) := by
  have bounded : ∀ x ∈ IdleVoices.heldMusic bank, x ≠ 0 → -8192 ≤ x.toInt ∧ x.toInt ≤ 8191 := by
    intro x member _
    obtain ⟨i,_,rfl⟩ := List.mem_map.mp member
    rw [settled.current i]
    exact WaveGen.sineQuarter _
  obtain ⟨lower,upper⟩ := WrappedSum.integerSumBounds _ bounded
  have count : (IdleVoices.heldMusic bank).countP WrappedSum.nonzero ≤ 4 := by
    have most := List.countP_le_length (p := WrappedSum.nonzero) (l := IdleVoices.heldMusic bank)
    rw [IdleVoices.heldMusic,List.length_map,heldCount] at most
    rw [IdleVoices.heldMusic]
    omega
  rw [(IdleVoices.mixHeldExactly (.inl rfl) settled).mpr (.inl rfl),WrappedSum.sumExact (by decide)]
  unfold WrappedSum.Fits
  omega

def tone (a : Fin numNotes) (age : Nat) : WaveGen.Sample :=
  WaveGen.sine (Voices.phase (BitVec.ofNat 16 (Accumulator.value 60000 (Voices.freq a).toNat age)))

def age (events : List Event) (a : Fin numNotes) : Nat :=
  RampPhase.heldFalls a powerUp.codec.bank (bankEvents powerUp events)

def tones (keys : List Word) : List (Fin numNotes) :=
  (List.finRange numNotes).filter (fun a => ∃ i : Fin numRelTones,
    ToneKeys.heldBy i keys = true ∧ (i : Int) + 12*ToneRange.octaveOf keys = (a.val : Int))

def chord (events : List Event) (keys : List Word) : Int :=
  ((tones keys).map (fun a => (tone a (age events a)).toInt)).sum

/- The sample that begins is one word of the given value, in both halves, whatever else
the program does before the next one. -/
def Carries (b : Board) (value : Int) : Prop :=
  ∃ word : WaveGen.Sample, word.toInt = value ∧
    ∀ rest, Steady b rest → ∀ n, n < 32 → 12*n + 6 ≤ clks rest → (reads b rest)[n]? = some (bitOf n word)

structure Begins (b : Board) (value : Int) : Prop where
  place : ∃ n, AudioCodec.Phase n b.codec ∧ n % 384 = 0
  pressed : AudioCodec.keyPressed b.codec.bank = true
  sound : (Voices.soundO b.codec.bank).toInt = value

theorem beginsReads {b : Board} {value : Int} (begins : Begins b value) {rest : List Event} (steady : Steady b rest)
    {n : Nat} (inside : n < 32) (long : 12*n + 6 ≤ clks rest) :
    (reads b rest)[n]? = some (bitOf n (Voices.soundO b.codec.bank)) := by
  obtain ⟨place,phase,start⟩ := begins.place
  exact readsSteady phase start begins.pressed steady inside long

theorem rampAge (events : List Event) (a : Fin numNotes) :
    ((run powerUp events).codec.bank.voice a).ramp =
      BitVec.ofNat 16 (Accumulator.value 60000 (Voices.freq a).toNat (age events a)) := by
  have start : (powerUp.codec.bank.voice a).ramp = 0 := congrArg Voices.Voice.ramp (Voices.restVoice 0 0 a)
  have ramp := RampPhase.rampHeldFalls start (bankEvents powerUp events)
  rw [← bankRun] at ramp
  rw [age,← ramp,BitVec.ofNat_toNat,BitVec.setWidth_eq]

theorem mixAges {events : List Event} (settled : VoiceOutputs.Settled 0b0001 (run powerUp events).codec.bank) :
    WrappedSum.integerSum (IdleVoices.heldMusic (run powerUp events).codec.bank) =
      (((List.finRange numNotes).filter (IdleVoices.held (run powerUp events).codec.bank)).map
        (fun a => (tone a (age events a)).toInt)).sum := by
  rw [WrappedSum.integerSum,IdleVoices.heldMusic,List.map_map]
  refine congrArg List.sum (List.map_congr_left fun a _ => ?_)
  simp only [Function.comp]
  rw [settled.current a,rampAge,tone]
  rfl

theorem heldTones {events : List Event} (few : ToneRuns.octaveKeys (callsOf powerUp events) < 10^8)
    (idle : (run powerUp events).pending = []) :
    (List.finRange numNotes).filter (IdleVoices.held (run powerUp events).codec.bank) =
      tones ((callsOf powerUp events).filterMap keyOf) := by
  refine List.filter_congr fun a _ => ?_
  rw [IdleVoices.held,Bool.eq_iff_iff,decide_eq_true_iff]
  exact idleKeys few idle a

theorem chordPressed {events : List Event} (some : 0 < MixerRange.heldKeys (run powerUp events).codec.bank.keys) :
    (run powerUp events).codec.bank.keys ≠ 0 := by
  intro none
  rw [none] at some
  exact absurd some (by decide)

section
variable {events : List Event}

theorem fallBegins (sine : SineCalls (callsOf powerUp events))
    (few : ToneRuns.octaveKeys (callsOf powerUp events) < 10^8) (idle : (run powerUp events).pending = [])
    (high : oAudLrck (run powerUp events).codec = true)
    (low : oAudLrck (run powerUp (events ++ [.clk])).codec = false)
    (some : 0 < (tones ((callsOf powerUp events).filterMap keyOf)).length)
    (four : (tones ((callsOf powerUp events).filterMap keyOf)).length ≤ 4) :
    Begins (run powerUp (events ++ [.clk]))
      (chord (events ++ [.clk]) ((callsOf powerUp events).filterMap keyOf)) := by
  have calls : callsOf powerUp (events ++ [.clk]) = callsOf powerUp events := by
    rw [callsSnoc]
    exact List.append_nil _
  have waits : (run powerUp (events ++ [.clk])).pending = [] := by
    rw [runSnoc]
    exact idle
  have count : clks (events ++ [.clk]) = clks events + 1 := List.count_append
  have start : clks (events ++ [.clk]) % 384 = 0 := by
    rw [count]
    rw [runSnoc] at low
    exact SerialOutput.fallPosition (runPhase events) high low
  rw [← calls] at sine few some four ⊢
  have held := heldTones few waits
  rw [← held,heldCount] at some four
  have pressed := chordPressed some
  have settled := tunedSounds (runTuned (events ++ [.clk]) sine) pressed
  refine ⟨⟨_,runPhase (events ++ [.clk]),start⟩,decide_eq_true pressed,?_⟩
  rw [mixExact settled four,mixAges settled,held,chord]

theorem keysToDac (sine : SineCalls (callsOf powerUp events))
    (few : ToneRuns.octaveKeys (callsOf powerUp events) < 10^8) (idle : (run powerUp events).pending = [])
    (high : oAudLrck (run powerUp events).codec = true)
    (low : oAudLrck (run powerUp (events ++ [.clk])).codec = false)
    (some : 0 < (tones ((callsOf powerUp events).filterMap keyOf)).length)
    (four : (tones ((callsOf powerUp events).filterMap keyOf)).length ≤ 4) :
    Carries (run powerUp (events ++ [.clk]))
      (chord (events ++ [.clk]) ((callsOf powerUp events).filterMap keyOf)) := by
  have begins := fallBegins sine few idle high low some four
  refine ⟨_,begins.sound,?_⟩
  intro rest steady n inside long
  exact beginsReads begins steady inside long

end

theorem clksKeep (b : Board) (events : List Event) (n : Nat) :
    callsOf b (events ++ List.replicate n .clk) = callsOf b events ∧
      (run b (events ++ List.replicate n .clk)).pending = (run b events).pending := by
  induction n with
  | zero => rw [List.replicate_zero,List.append_nil]; exact ⟨rfl,rfl⟩
  | succ n ih =>
    rw [List.replicate_succ',← List.append_assoc,callsSnoc,runSnoc]
    exact ⟨(List.append_nil _).trans ih.1,ih.2⟩

def pressed : List Event := [.call (.switches 1),.action,.action,.call (.key 0x1c),.action,.action]

def playing : List Event := pressed ++ List.replicate 383 .clk

theorem playingCalls : callsOf powerUp playing = [.switches 1,.key 0x1c] := by
  have calls : callsOf powerUp pressed = [.switches 1,.key 0x1c] := by decide +kernel
  exact (clksKeep powerUp pressed 383).1.trans calls

theorem playingIdle : (run powerUp playing).pending = [] := by
  have idle : (run powerUp pressed).pending = [] := by decide +kernel
  exact (clksKeep powerUp pressed 383).2.trans idle

theorem playingClks : clks playing = 383 := by
  have none : List.count Event.clk pressed = 0 := by decide
  rw [clks,playing,List.count_append,List.count_replicate_self,none]

theorem playingLevels : oAudLrck (run powerUp playing).codec = true ∧
    oAudLrck (run powerUp (playing ++ [.clk])).codec = false := by
  have one : List.count Event.clk [.clk] = 1 := rfl
  have count : clks (playing ++ [.clk]) = 384 := by
    rw [clks,List.count_append,← clks,playingClks,one]
  rw [AudioCodec.phaseLrck (runPhase playing),AudioCodec.phaseLrck (runPhase (playing ++ [Event.clk])),count,playingClks]
  decide

theorem playingKeys : (callsOf powerUp playing).filterMap keyOf = [0x1c] := by
  rw [playingCalls]
  decide

theorem playingSine : SineCalls (callsOf powerUp playing) := by
  rw [playingCalls]
  refine ⟨fun key same => (by cases same),?_⟩
  intro sw member
  rcases List.mem_pair.mp member with same | other
  · cases same
    decide
  · cases other

theorem playingFew : ToneRuns.octaveKeys (callsOf powerUp playing) < 10^8 := by
  rw [playingCalls]
  decide

theorem pressedTones : (tones [0x1c]).length = 1 := by decide +kernel

def selecting : List Event :=
  List.replicate 90 .clk ++ [.call (.switches 2),.action,.action] ++ List.replicate 294 .clk

theorem selectingKeys (key : Word) : Event.call (.key key) ∉ selecting := by
  intro member
  rcases List.mem_append.mp member with early | last
  · rcases List.mem_append.mp early with first | call
    · cases List.eq_of_mem_replicate first
    · simp at call
  · cases List.eq_of_mem_replicate last

theorem selectingClks : clks selecting = 384 := by
  have silent : List.count Event.clk [.call (.switches 2),.action,.action] = 0 := by decide
  rw [clks,selecting,List.count_append,List.count_append,List.count_replicate_self,List.count_replicate_self,silent]

theorem playingToDac :
    ∃ word : WaveGen.Sample, word.toInt = chord (playing ++ [.clk]) [0x1c] ∧
      ∀ n, n < 32 → (reads (run powerUp (playing ++ [.clk])) selecting)[n]? = some (bitOf n word) := by
  obtain ⟨word,value,bits⟩ := keysToDac playingSine playingFew playingIdle playingLevels.1 playingLevels.2
    (by rw [playingKeys,pressedTones]; decide) (by rw [playingKeys,pressedTones]; decide)
  rw [playingKeys] at value
  have waits : (run powerUp (playing ++ [.clk])).pending = [] := (clksKeep powerUp playing 1).2.trans playingIdle
  have steady : Steady (run powerUp (playing ++ [.clk])) selecting :=
    idleSteady (runFollows _).keys waits selectingKeys
  have long := selectingClks
  exact ⟨word,value,fun n inside => bits selecting steady n inside (by omega)⟩

end FpgaSynthesizer.BoardSamples
