import FpgaSynthesizer.ClockedWires
import FpgaSynthesizer.WaveHistory

/-! Every bit that the DAC reads, whatever the program does between two of them. The
word clock and the place of the bit follow from the number of bits before it alone;
the bit is one of the mixer's sum at that instant, and a voice adds the sample at
which its ramp last found a wave selected. -/
namespace FpgaSynthesizer.BoardBits
open SoundBoard
open AudioCodec (Codec oAudBck oAudLrck oAudData keyPressed)
open Voices (numNotes)
open WaveGen (Sample)
open DacReads (Read Steady readAt reads bitOf clksSnoc steadyPart steadySound idleSteady)
open ClockedWires (clockedReads clockedTrace)
open GetKeySteps (Version)
open ClockedMain (handling typed)
open BoardSamples (pressed selecting)

/- The inputs of a voice's wave_gen at its last evaluation that had a table. -/
def evaluated (a : Fin numNotes) (events : List Event) : Option WaveHistory.Inputs :=
  WaveHistory.evaluated ⟨0,0⟩ none (WaveHistory.changesOf a powerUp.codec.bank (bankEvents powerUp events))

def wave (a : Fin numNotes) (events : List Event) : Sample :=
  ((evaluated a events).map WaveHistory.Inputs.entry).getD 0

def word (events : List Event) : Sample :=
  if (run powerUp events).codec.bank.keys = 0 then 0 else ((List.finRange numNotes).map (fun a => wave a events)).sum

def words (done : List Event) : List Event → List Sample
  | [] => []
  | e :: rest =>
    (if !oAudBck (run powerUp done).codec && oAudBck (run powerUp (done ++ [e])).codec then [word (done ++ [e])]
      else []) ++ words (done ++ [e]) rest

/-! ### The word of an instant -/

theorem waveMusic (a : Fin numNotes) (events : List Event) :
    ((run powerUp events).codec.bank.voice a).music = wave a events := by
  have rest : WaveHistory.blockOf a powerUp.codec.bank = ⟨⟨0,0⟩,0⟩ := by
    have voice : powerUp.codec.bank.voice a = ⟨0,0⟩ := Voices.restVoice 0 0 a
    rw [WaveHistory.blockOf,voice]
    rfl
  have block := WaveHistory.voiceRun a powerUp.codec.bank (bankEvents powerUp events)
  have start : WaveHistory.Shows 0 ⟨⟨0,0⟩,0⟩ none := ⟨rfl,by simp⟩
  have shows := WaveHistory.runShows start (WaveHistory.changesOf a powerUp.codec.bank (bankEvents powerUp events))
  rw [rest,← bankRun] at block
  exact (congrArg WaveHistory.Block.music block).trans shows.1

theorem wordSound (events : List Event) : word events =
    if keyPressed (run powerUp events).codec.bank then Voices.soundO (run powerUp events).codec.bank else 0 := by
  have sound : Voices.soundO (run powerUp events).codec.bank =
      ((List.finRange numNotes).map (fun a => wave a events)).sum := by
    rw [Voices.soundO,Voices.music]
    exact congrArg List.sum (List.map_congr_left fun a _ => waveMusic a events)
  rw [sound,word,keyPressed]
  by_cases none : (run powerUp events).codec.bank.keys = 0
  · rw [if_pos none,if_neg (by simpa using none)]
  · rw [if_neg none,if_pos (by simpa using none)]

theorem soundWord (events : List Event) (n : Nat) :
    (if keyPressed (run powerUp events).codec.bank then
      (Voices.soundO (run powerUp events).codec.bank).getLsbD n else false) = (word events).getLsbD n := by
  rw [wordSound]
  split
  · rfl
  · exact BitVec.getLsbD_zero.symm

/-! ### The place of a bit -/

/- The rises of BCK so far. -/
def bits (events : List Event) : Nat := (clks events + 6)/12

theorem bitsSnoc (events : List Event) (e : Event) :
    bits (events ++ [e]) = bits events +
      (if !oAudBck (run powerUp events).codec && oAudBck (run powerUp (events ++ [e])).codec then 1 else 0) := by
  have before := AudioCodec.phaseBck (runPhase events)
  have after := AudioCodec.phaseBck (runPhase (events ++ [e]))
  have count : clks (events ++ [e]) = clks events + clks [e] := List.count_append
  have one : clks [e] ≤ 1 := List.count_le_length
  rw [before,after,bits,bits,count,← decide_not,← Bool.decide_and]
  split
  · rename_i rises
    have rises := of_decide_eq_true rises
    omega
  · rename_i still
    have still := of_decide_eq_false (Bool.eq_false_iff.mpr still)
    omega

theorem readBit (events : List Event) (e : Event) :
    readAt (run powerUp events).codec (run powerUp (events ++ [e])).codec =
      if !oAudBck (run powerUp events).codec && oAudBck (run powerUp (events ++ [e])).codec then
        [bitOf (bits events) (word (events ++ [e]))] else [] := by
  unfold readAt
  split
  · rename_i rises
    have phase := runPhase (events ++ [e])
    have count : clks (events ++ [e]) = clks events + clks [e] := List.count_append
    have one : clks [e] ≤ 1 := List.count_le_length
    have place : clks (events ++ [e]) = 12*bits events + 6 := by
      rw [AudioCodec.phaseBck (runPhase events),AudioCodec.phaseBck phase,← decide_not,← Bool.decide_and] at rises
      have rises := of_decide_eq_true rises
      rw [bits]
      omega
    have sel : (~~~(run powerUp (events ++ [e])).codec.selCont).toNat = 15 - bits events % 16 := by
      rw [BitVec.toNat_not,phase.selCont,place]
      omega
    have half : clks (events ++ [e])/192 % 2 = bits events/16 % 2 := by omega
    rw [AudioCodec.phaseLrck phase,oAudData,sel,soundWord,half]
    rfl
  · rfl

/-! ### The bits of a run -/

theorem readsFrom (done rest : List Event) :
    reads (run powerUp done) rest = (words done rest).mapIdx (fun n w => bitOf (bits done + n) w) := by
  induction rest generalizing done with
  | nil => rfl
  | cons e rest ih =>
    have tail := ih (done ++ [e])
    have read := readBit done e
    have count := bitsSnoc done e
    rw [runSnoc] at tail read count
    rw [reads,words,read,tail,runSnoc]
    cases rises : !oAudBck (run powerUp done).codec && oAudBck (step (run powerUp done) e).codec with
    | false =>
      rw [rises,if_neg Bool.false_ne_true,Nat.add_zero] at count
      rw [if_neg Bool.false_ne_true,if_neg Bool.false_ne_true,List.nil_append,List.nil_append,count]
    | true =>
      rw [rises,if_pos rfl] at count
      have later : (fun n w => bitOf (bits done + 1 + n) w) = fun n w => bitOf (bits done + (n + 1)) w := by
        funext n w
        rw [Nat.add_assoc,Nat.add_comm 1 n]
      rw [if_pos rfl,if_pos rfl,List.singleton_append,List.singleton_append,List.mapIdx_cons,count,later]
      rfl

theorem readsEach (events : List Event) : reads powerUp events = (words [] events).mapIdx bitOf := by
  have all := readsFrom [] events
  have first : bits [] = 0 := rfl
  simp only [first,Nat.zero_add] at all
  exact all

theorem wordsLength (done rest : List Event) : bits done + (words done rest).length = bits (done ++ rest) := by
  induction rest generalizing done with
  | nil => rw [words,List.append_nil,List.length_nil,Nat.add_zero]
  | cons e rest ih =>
    have tail := ih (done ++ [e])
    have count := bitsSnoc done e
    rw [List.append_assoc,List.singleton_append] at tail
    rw [words,List.length_append,← tail,count]
    split
    · rw [List.length_singleton]
      omega
    · rw [List.length_nil]
      omega

/-! ### A sample in which the keys stay -/

theorem wordsAppend (done first last : List Event) :
    words done (first ++ last) = words done first ++ words (done ++ first) last := by
  induction first generalizing done with
  | nil => rw [List.append_nil]; rfl
  | cons e rest ih =>
    rw [List.cons_append,words,ih,words,List.append_assoc,List.append_assoc]
    rfl

theorem wordsNone (done : List Event) {rest : List Event} (none : clks rest = 0) : words done rest = [] := by
  have count := wordsLength done rest
  have still : clks (done ++ rest) = clks done := by
    rw [clks,List.count_append,← clks,← clks,none,Nat.add_zero]
  rw [bits,bits,still] at count
  exact List.length_eq_zero_iff.mp (by omega)

theorem runAppend (first last : List Event) : run powerUp (first ++ last) = run (run powerUp first) last :=
  List.foldl_append

section
variable {done rest : List Event}

theorem wordSteady (start : clks done % 384 = 0) (steady : Steady (run powerUp done) rest) (within : clks rest < 384) :
    word (done ++ rest) = word done := by
  obtain ⟨keys,sound⟩ := steadySound (runPhase done) start steady within
  rw [← runAppend] at keys sound
  rw [wordSound,wordSound,keys,sound]

theorem wordsSteady (start : clks done % 384 = 0) (steady : Steady (run powerUp done) rest) (short : clks rest ≤ 384) :
    words done rest = List.replicate ((clks rest + 6)/12) (word done) := by
  induction rest using List.reverseRecOn with
  | nil => rfl
  | append_singleton rest e ih =>
    have count := clksSnoc rest e
    have one : clks [e] ≤ 1 := List.count_le_length
    have whole : clks (done ++ rest) = clks done + clks rest := List.count_append
    have longer : clks (done ++ rest ++ [e]) = clks done + clks (rest ++ [e]) := by
      rw [List.append_assoc]
      exact List.count_append
    have place := bitsSnoc (done ++ rest) e
    rw [bits,bits,whole,longer] at place
    rw [wordsAppend,ih (steadyPart steady (List.prefix_append _ _)) (by omega),words,words,List.append_nil]
    split
    · rename_i rises
      rw [if_pos rises] at place
      have more : (clks (rest ++ [e]) + 6)/12 = (clks rest + 6)/12 + 1 := by omega
      rw [more,List.replicate_succ',List.append_assoc,wordSteady start steady (by omega)]
    · rename_i still
      rw [if_neg still] at place
      have same : (clks (rest ++ [e]) + 6)/12 = (clks rest + 6)/12 := by omega
      rw [same,List.append_nil]

end

/-! ### On the board clock by clock -/

theorem everyBitRead (v : Version) {keyboard : Ps2Board.Regs} (zero : keyboard.ci.state = Ps2Ci.State.zero)
    (quiet : keyboard.ci.done = false) (events : List ClockedBoard.Event) :
    clockedReads (ClockedBoard.powerUp v keyboard) events =
      (words [] (ClockedBoard.trace (ClockedBoard.powerUp v keyboard) events)).mapIdx bitOf ∧
    (clockedReads (ClockedBoard.powerUp v keyboard) events).length = (events.count .clk18 + 6)/12 := by
  have each := (clockedTrace (ClockedBoard.powerUpWired v zero quiet) events).trans (readsEach _)
  have count := wordsLength [] (ClockedBoard.trace (ClockedBoard.powerUp v keyboard) events)
  rw [List.nil_append,bits,bits,ClockedWires.traceClks] at count
  refine ⟨each,?_⟩
  rw [each,List.length_mapIdx,← count]
  exact (Nat.zero_add _).symm

/-! ### A tone, and a call inside its sample -/

/- A is pressed, and some samples later the square wave is selected inside one. -/
def sounding : List ClockedBoard.Event :=
  handling 1 10 ++ (ClockedWires.edges 1242 ++ (handling 2 4 ++ ClockedWires.edges 294))

theorem soundingTrace : ClockedBoard.trace (ClockedBoard.powerUp .theSynth typed) sounding =
    pressed ++ List.replicate 1152 .clk ++ selecting := by
  have first : ClockedBoard.trace (ClockedBoard.powerUp .theSynth typed) (handling 1 10) = pressed := by decide +kernel
  have second : ClockedBoard.trace (ClockedBoard.run (ClockedBoard.powerUp .theSynth typed) (handling 1 10))
      (handling 2 4) = [.call (.switches 2),.action,.action] := by decide +kernel
  have last := fun b => ClockedWires.edgesTrace (v := .theSynth) b 294 []
  simp only [List.append_nil,ClockedBoard.trace] at last
  rw [sounding,ClockedBoard.traceAppend,first,ClockedWires.edgesTrace,ClockedBoard.traceAppend,second,last,selecting,
    List.replicate_add 1152 90]
  simp only [List.append_assoc]

theorem pressedStart (k : Nat) : clks (pressed ++ List.replicate (384*k) .clk) % 384 = 0 := by
  have none : List.count Event.clk pressed = 0 := by decide
  rw [clks,List.count_append,List.count_replicate_self,none]
  omega

theorem pressedSamples (k : Nat) :
    (run powerUp (pressed ++ List.replicate (384*k) .clk)).codec.bank =
      Voices.run (run powerUp pressed).codec.bank (List.replicate k .lrckFall) := by
  induction k with
  | zero => rfl
  | succ k ih =>
    have bank := DacReads.sampleBank (runPhase (pressed ++ List.replicate (384*k) .clk)) (pressedStart k)
    rw [Nat.mul_succ,List.replicate_add,← List.append_assoc,runAppend,bank,ih,List.replicate_succ',Voices.run,
      Voices.run,List.foldl_append]
    rfl

theorem pressedSteady (k : Nat) {rest : List Event} (none : ∀ key, Event.call (.key key) ∉ rest) :
    Steady (run powerUp (pressed ++ List.replicate (384*k) .clk)) rest := by
  have waits : (run powerUp pressed).pending = [] := by decide +kernel
  exact idleSteady (runFollows _).keys ((BoardSamples.clksKeep powerUp pressed (384*k)).2.trans waits) none

theorem pressedSilent {k : Nat} (silent : ∀ j, j < k → word (pressed ++ List.replicate (384*j) .clk) = 0) :
    words pressed (List.replicate (384*k) .clk) = List.replicate (32*k) 0 := by
  induction k with
  | zero => rfl
  | succ k ih =>
    have count : clks (List.replicate 384 Event.clk) = 384 := List.count_replicate_self
    have none : ∀ key, Event.call (.key key) ∉ List.replicate 384 Event.clk :=
      fun key member => nomatch List.eq_of_mem_replicate member
    have last := wordsSteady (pressedStart k) (pressedSteady k none) (Nat.le_of_eq count)
    rw [count,silent k (Nat.lt_succ_self k)] at last
    rw [Nat.mul_succ,Nat.mul_succ,List.replicate_add,List.replicate_add,wordsAppend,last,
      ih fun j before => silent j (Nat.lt_succ_of_lt before)]

theorem pressedWords : (∀ j, j < 3 → word (pressed ++ List.replicate (384*j) .clk) = 0) ∧
    word (pressed ++ List.replicate (384*3) .clk) = 802 := by
  simp only [wordSound,pressedSamples]
  decide +kernel

theorem soundingBitsRead :
    ClockedBoard.trace (ClockedBoard.powerUp .theSynth typed) sounding =
      pressed ++ List.replicate 1152 .clk ++ selecting ∧
    clockedReads (ClockedBoard.powerUp .theSynth typed) sounding =
      (List.replicate 96 (0 : Sample) ++ List.replicate 32 802).mapIdx bitOf := by
  refine ⟨soundingTrace,?_⟩
  have early : words pressed (List.replicate 1152 .clk) = List.replicate 96 0 := pressedSilent pressedWords.1
  have long := BoardSamples.selectingClks
  have last : words (pressed ++ List.replicate 1152 .clk) selecting = List.replicate 32 802 := by
    have same := wordsSteady (pressedStart 3) (pressedSteady 3 BoardSamples.selectingKeys) (Nat.le_of_eq long)
    rw [long,pressedWords.2] at same
    exact same
  rw [(@everyBitRead .theSynth typed rfl rfl sounding).1,soundingTrace,wordsAppend,wordsAppend,
    wordsNone [] (by decide),List.nil_append,List.nil_append,List.nil_append,early,last]

end FpgaSynthesizer.BoardBits
