import FpgaSynthesizer.AudioCodec
import FpgaSynthesizer.Keyboard
import FpgaSynthesizer.ToneShift

/-! The processor beside the codec. sounds_ctrl and effects_ctrl are the codec's
keys and effects, so each custom instruction of a call changes what is played at
once, between any two edges of iCLK_18_4 and in the middle of a sample. -/
namespace FpgaSynthesizer.SoundBoard
open ToneProgram hiding Board run
open AudioCodec (Codec clk oAudLrck released)
open Voices (Bank numNotes restVoices)
open ToneAgreement ToneCalls ToneWindow
open Keyboard (keyOf)

/- The statics, the actions that the call in progress still has to perform, the
devices and the codec. -/
structure Board where
  statics : Statics
  pending : List Action
  devices : ToneProgram.Board
  codec : Codec
  deriving DecidableEq, Repr

inductive Event where
  | clk
  | call (c : Call)
  | action
  deriving DecidableEq, Repr

def drive (c : Codec) (r : SynthCi.Regs) : Codec :=
  AudioCodec.step (AudioCodec.step c (.keys r.curSounds)) (.effects r.curEffects)

/- main calls a function only when the one before has returned. -/
def step (b : Board) : Event → Board
  | .clk => {b with codec := clk b.codec}
  | .call c =>
    match b.pending with
    | [] => {b with statics := (handle b.statics c).1, pending := (handle b.statics c).2}
    | _ :: _ => b
  | .action =>
    match b.pending with
    | [] => b
    | x :: rest =>
      let devices := perform b.devices x
      {b with pending := rest, devices := devices, codec := drive b.codec devices.synth}

def run (b : Board) (events : List Event) : Board := events.foldl step b

def powerUp : Board := ⟨initial,[],ToneProgram.powerUp.board,released ⟨0,0,restVoices⟩⟩

def accepts (b : Board) : Event → Option Call
  | .call c => if b.pending = [] then some c else none
  | _ => none

def callsOf (b : Board) : List Event → List Call
  | [] => []
  | e :: rest => (accepts b e).toList ++ callsOf (step b e) rest

theorem callsSnoc (b : Board) (events : List Event) (e : Event) :
    callsOf b (events ++ [e]) = callsOf b events ++ (accepts (run b events) e).toList := by
  induction events generalizing b with
  | nil => simp [callsOf,run]
  | cons x rest ih =>
    rw [List.cons_append,callsOf,ih,callsOf,List.append_assoc]
    rfl

theorem runSnoc (b : Board) (events : List Event) (e : Event) : run b (events ++ [e]) = step (run b events) e := by
  rw [run,List.foldl_append]
  rfl

/-! ### Where the program is -/

def Inside (calls : List Call) (b : Board) : Prop :=
  ∃ before c done, calls = before ++ [c] ∧
    (handle (ToneProgram.run ToneProgram.powerUp before).statics c).2 = done ++ b.pending ∧
    b.devices = performAll (ToneProgram.run ToneProgram.powerUp before).board done ∧
    b.statics = (handle (ToneProgram.run ToneProgram.powerUp before).statics c).1

structure Follows (calls : List Call) (b : Board) : Prop where
  place : (calls = [] ∧ b.pending = [] ∧ b.statics = initial ∧ b.devices = ToneProgram.powerUp.board) ∨
    Inside calls b
  keys : b.codec.bank.keys = b.devices.synth.curSounds
  effects : b.codec.bank.effects = b.devices.synth.curEffects

theorem programSnoc (calls : List Call) (c : Call) :
    ToneProgram.run ToneProgram.powerUp (calls ++ [c]) = call (ToneProgram.run ToneProgram.powerUp calls) c := by
  rw [ToneProgram.run,List.foldl_append]
  rfl

theorem followsIdle {calls : List Call} {b : Board} (follows : Follows calls b) (idle : b.pending = []) :
    b.statics = (ToneProgram.run ToneProgram.powerUp calls).statics ∧
      b.devices = (ToneProgram.run ToneProgram.powerUp calls).board := by
  rcases follows.place with ⟨rfl,_,statics,devices⟩ | ⟨before,c,done,rfl,actions,devices,statics⟩
  · exact ⟨statics,devices⟩
  · rw [idle,List.append_nil] at actions
    rw [programSnoc,call,statics,devices,actions]
    exact ⟨rfl,rfl⟩

theorem clkBankKeys (c : Codec) : (clk c).bank.keys = c.bank.keys ∧ (clk c).bank.effects = c.bank.effects := by
  simp only [clk]
  split
  · exact ⟨Voices.fallKeys c.bank,Voices.fallEffects c.bank⟩
  · exact ⟨rfl,rfl⟩

theorem driveBank (c : Codec) (r : SynthCi.Regs) :
    (drive c r).bank = Voices.step (Voices.step c.bank (.keys r.curSounds)) (.effects r.curEffects) := rfl

theorem keysSame (bank : Bank) : Voices.step bank (.keys bank.keys) = bank := by
  have voices : Vector.ofFn bank.voice = bank.voices := by
    apply Vector.ext
    intro n inside
    rw [Vector.getElem_ofFn]
    rfl
  simp only [Voices.step,Bool.and_not_self,Bool.false_eq_true,if_false,voices]

theorem driveVoices {c : Codec} {r : SynthCi.Regs} (keys : c.bank.keys = r.curSounds) :
    (drive c r).bank = {c.bank with effects := r.curEffects} := by
  rw [driveBank,← keys,keysSame]
  rfl

theorem driveSame {c : Codec} {r : SynthCi.Regs} (keys : c.bank.keys = r.curSounds)
    (effects : c.bank.effects = r.curEffects) : drive c r = c := by
  have bank : (drive c r).bank = c.bank := by rw [driveVoices keys,← effects]
  exact congrArg (fun bank => {c with bank := bank}) bank

theorem followsStep {calls : List Call} {b : Board} (follows : Follows calls b) (e : Event) :
    Follows (calls ++ (accepts b e).toList) (step b e) := by
  cases e with
  | clk =>
    have kept := clkBankKeys b.codec
    have same : calls ++ (accepts b .clk).toList = calls := List.append_nil calls
    rw [same]
    exact ⟨follows.place,kept.1.trans follows.keys,kept.2.trans follows.effects⟩
  | call c =>
    cases busy : b.pending with
    | nil =>
      obtain ⟨statics,devices⟩ := followsIdle follows busy
      have accepted : (accepts b (.call c)).toList = [c] := by simp [accepts,busy]
      have begun : step b (.call c) = {b with statics := (handle b.statics c).1, pending := (handle b.statics c).2} := by
        simp only [step,busy]
      rw [accepted,begun]
      refine ⟨.inr ⟨calls,c,[],rfl,?_,?_,?_⟩,follows.keys,follows.effects⟩
      · rw [statics]
        rfl
      · exact devices
      · rw [statics]
    | cons x rest =>
      have refused : (accepts b (.call c)).toList = [] := by simp [accepts,busy]
      have waits : step b (.call c) = b := by simp only [step,busy]
      rw [refused,waits,List.append_nil]
      exact follows
  | action =>
    have same : calls ++ (accepts b .action).toList = calls := List.append_nil calls
    rw [same]
    cases busy : b.pending with
    | nil =>
      have waits : step b .action = b := by simp only [step,busy]
      rw [waits]
      exact follows
    | cons x rest =>
      have done : step b .action = ⟨b.statics,rest,perform b.devices x,drive b.codec (perform b.devices x).synth⟩ := by
        simp only [step,busy]
      rw [done]
      refine ⟨.inr ?_,?_,?_⟩
      · rcases follows.place with ⟨_,idle,_⟩ | ⟨before,c,done,split,actions,devices,statics⟩
        · rw [busy] at idle
          cases idle
        · refine ⟨before,c,done ++ [x],split,?_,?_,statics⟩
          · rw [actions,busy,List.append_assoc]
            rfl
          · rw [performAllAppend,← devices]
            rfl
      · rw [driveBank,Voices.effectsKeys,Voices.keysKeys]
      · rw [driveBank,Voices.effectsEffects]

theorem powerUpFollows : Follows [] powerUp := ⟨.inl ⟨rfl,rfl,rfl,rfl⟩,rfl,rfl⟩

theorem runFollows (events : List Event) : Follows (callsOf powerUp events) (run powerUp events) := by
  induction events using List.reverseRecOn with
  | nil => exact powerUpFollows
  | append_singleton events e ih =>
    rw [callsSnoc,runSnoc]
    exact followsStep ih e

/-! ### One window at every instant -/

theorem switchesPart {s : System} {sw : Word} {p : List Action} (part : p <+: (handleSwitches s.statics sw).2)
    (a : Nat) : sounds (performAll s.board p) a = sounds s.board a := by
  have none : soundWrites p = [] := by
    have writes := part.filterMap soundWrite
    rw [← soundWrites,← soundWrites,switchSoundWrites] at writes
    exact List.prefix_nil.mp writes
  rw [sounds,performSounds,none]
  rfl

theorem insideWindow {calls : List Call} {b : Board} (inside : Inside calls b)
    (fits : NoOverflow ToneProgram.powerUp calls) :
    ∃ octave : Int, ∀ a ∈ ToneShift.soundingTones b.devices, ∃ i : Fin numRelTones,
      (i : Int) + 12*octave = (a.val : Int) := by
  obtain ⟨before,c,done,rfl,actions,devices,_⟩ := inside
  have agree : Agree (ToneProgram.run ToneProgram.powerUp before) :=
    runAgree powerUpAgree (fun q hq => fits q (hq.trans (List.prefix_append _ _)))
  have first := fits before (List.prefix_append _ _)
  have last := fits (before ++ [c]) (List.prefix_refl _)
  rw [programSnoc] at last
  have part : done <+: (handle (ToneProgram.run ToneProgram.powerUp before).statics c).2 := ⟨b.pending,actions.symm⟩
  rw [devices]
  cases c with
  | key key =>
    obtain ⟨octave,_,tones⟩ := ToneShift.keyPart agree first last part
    refine ⟨octave,?_⟩
    intro a on
    obtain ⟨i,tone,_⟩ := tones a on
    exact ⟨i,tone⟩
  | switches sw =>
    refine ⟨(ToneProgram.run ToneProgram.powerUp before).statics.prevOctave,?_⟩
    intro a on
    have same := switchesPart part a
    exact agreeWindow agree a a.isLt (same.symm.trans (ToneShift.memberSounding.mp on))

theorem followsWindow {calls : List Call} {b : Board} (follows : Follows calls b)
    (fits : NoOverflow ToneProgram.powerUp calls) :
    ∃ octave : Int, ∀ a ∈ ToneShift.soundingTones b.devices, ∃ i : Fin numRelTones,
      (i : Int) + 12*octave = (a.val : Int) := by
  rcases follows.place with ⟨_,_,_,devices⟩ | inside
  · refine ⟨0,?_⟩
    intro a on
    rw [devices] at on
    have off : sounds ToneProgram.powerUp.board a = false := by simp [sounds,ToneProgram.powerUp]
    exact absurd (ToneShift.memberSounding.mp on) (by rw [off]; exact Bool.false_ne_true)
  · exact insideWindow inside fits

theorem idleKeys {events : List Event} (few : ToneRuns.octaveKeys (callsOf powerUp events) < 10^8)
    (idle : (run powerUp events).pending = []) (a : Fin numNotes) :
    (run powerUp events).codec.bank.keys.getLsbD a = true ↔ ∃ i : Fin numRelTones,
      ToneKeys.heldBy i ((callsOf powerUp events).filterMap keyOf) = true ∧
      (i : Int) + 12*ToneRange.octaveOf ((callsOf powerUp events).filterMap keyOf) = (a.val : Int) := by
  have follows := runFollows events
  have plays := Keyboard.callsPlay (callsOf powerUp events)
  have last := ToneRuns.fewNoOverflow few _ (List.prefix_refl _)
  rw [plays.octave] at last
  rw [follows.keys,(followsIdle follows idle).2,plays.tones a a.isLt]
  simp only [windowIndex last _ a.isLt]

theorem codecStaysInOneWindow (events : List Event) (few : ToneRuns.octaveKeys (callsOf powerUp events) < 10^8) :
    (∃ octave : Int, ∀ a : Fin numNotes, (run powerUp events).codec.bank.keys.getLsbD a = true →
      ∃ i : Fin numRelTones, (i : Int) + 12*octave = (a.val : Int)) ∧
    (Finset.univ.filter (fun a : Fin numNotes => (run powerUp events).codec.bank.keys.getLsbD a = true)).card ≤
      numRelTones ∧
    ((run powerUp events).pending = [] → ∀ a : Fin numNotes,
      ((run powerUp events).codec.bank.keys.getLsbD a = true ↔ ∃ i : Fin numRelTones,
        ToneKeys.heldBy i ((callsOf powerUp events).filterMap keyOf) = true ∧
        (i : Int) + 12*ToneRange.octaveOf ((callsOf powerUp events).filterMap keyOf) = (a.val : Int))) := by
  have follows := runFollows events
  obtain ⟨octave,tones⟩ := followsWindow follows (ToneRuns.fewNoOverflow few)
  have wired := follows.keys
  refine ⟨⟨octave,?_⟩,?_,?_⟩
  · intro a on
    rw [wired] at on
    exact tones a (ToneShift.memberSounding.mpr on)
  · rw [wired]
    exact ToneShift.windowCard octave tones
  · exact idleKeys few

def pressing : List Event := [.call (.key 0x1c),.clk,.action,.clk,.action]

theorem pressingOneWindow :
    (Finset.univ.filter (fun a : Fin numNotes => (run powerUp pressing).codec.bank.keys.getLsbD a = true)).card ≤
      numRelTones :=
  (codecStaysInOneWindow pressing (by decide)).2.1

/-! ### The voices of the codec -/

def bankEvent (b : Board) : Event → List Voices.Event
  | .clk => if oAudLrck b.codec && !oAudLrck (clk b.codec) then [.lrckFall] else []
  | .call _ => []
  | .action =>
    match b.pending with
    | [] => []
    | x :: _ => [.keys (perform b.devices x).synth.curSounds,.effects (perform b.devices x).synth.curEffects]

def bankEvents (b : Board) : List Event → List Voices.Event
  | [] => []
  | e :: rest => bankEvent b e ++ bankEvents (step b e) rest

theorem bankStep (b : Board) (e : Event) : (step b e).codec.bank = Voices.run b.codec.bank (bankEvent b e) := by
  cases e with
  | clk =>
    have bank : (clk b.codec).bank =
        if oAudLrck b.codec && !oAudLrck (clk b.codec) then Voices.step b.codec.bank .lrckFall else b.codec.bank := rfl
    simp only [step,bankEvent,bank]
    split <;> rfl
  | call c =>
    simp only [step,bankEvent]
    cases b.pending <;> rfl
  | action =>
    simp only [step,bankEvent]
    cases b.pending <;> rfl

theorem bankRun (b : Board) (events : List Event) :
    (run b events).codec.bank = Voices.run b.codec.bank (bankEvents b events) := by
  induction events generalizing b with
  | nil => rfl
  | cons e rest ih =>
    change (run (step b e) rest).codec.bank = _
    rw [ih,bankStep,bankEvents,Voices.run,Voices.run,Voices.run,List.foldl_append]

def clks (events : List Event) : Nat := events.count .clk

theorem stepPhase {n : Nat} {b : Board} (phase : AudioCodec.Phase n b.codec) (e : Event) :
    AudioCodec.Phase (n + clks [e]) (step b e).codec := by
  cases e with
  | clk => exact AudioCodec.clkPhase phase
  | call c =>
    simp only [step]
    cases b.pending <;> exact phase
  | action =>
    simp only [step]
    cases b.pending with
    | nil => exact phase
    | cons x rest => exact ⟨phase.bck,phase.lrck1x,phase.selCont⟩

theorem phaseFrom {n : Nat} {b : Board} (phase : AudioCodec.Phase n b.codec) (events : List Event) :
    AudioCodec.Phase (n + clks events) (run b events).codec := by
  induction events using List.reverseRecOn with
  | nil => exact phase
  | append_singleton events e ih =>
    have count : clks (events ++ [e]) = clks events + clks [e] := List.count_append
    rw [runSnoc,count,← Nat.add_assoc]
    exact stepPhase ih e

theorem runPhase (events : List Event) : AudioCodec.Phase (clks events) (run powerUp events).codec := by
  have phase := phaseFrom (b := powerUp) (AudioCodec.releasedPhase _) events
  rwa [Nat.zero_add] at phase

end FpgaSynthesizer.SoundBoard
