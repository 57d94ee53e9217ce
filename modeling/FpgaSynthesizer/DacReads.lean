import FpgaSynthesizer.SerialOutput
import FpgaSynthesizer.SoundBoard

/-! The wires of the DAC at each rise of BCK, while the program goes on. As long as
the keys stay, the thirty-two bits from a fall of LRCK on are the voices' sum of that
fall, in both halves. -/
namespace FpgaSynthesizer.DacReads
open SoundBoard
open ToneProgram (Action Call Statics Word handleSwitches perform)
open AudioCodec (Codec Phase clk oAudBck oAudLrck oAudData keyPressed)
open Voices (soundO)
open WaveGen (Sample)

structure Read where
  lrck : Bool
  data : Bool
  deriving DecidableEq, Repr

def readAt (before after : Codec) : List Read :=
  if !oAudBck before && oAudBck after then [⟨oAudLrck after,oAudData after⟩] else []

def reads (b : Board) : List Event → List Read
  | [] => []
  | e :: rest => readAt b.codec (step b e).codec ++ reads (step b e) rest

/- The n-th bit: sixteen in each half of the word clock, the highest first. -/
def bitOf (n : Nat) (w : Sample) : Read := ⟨decide (n/16 % 2 = 1),w.getLsbD (15 - n % 16)⟩

theorem readsAppend (b : Board) (first last : List Event) :
    reads b (first ++ last) = reads b first ++ reads (run b first) last := by
  induction first generalizing b with
  | nil => rfl
  | cons e rest ih =>
    rw [List.cons_append,reads,ih,reads,List.append_assoc]
    rfl

theorem readsStill (c : Codec) (r : SynthCi.Regs) : readAt c (SoundBoard.drive c r) = [] := by
  have same : oAudBck (SoundBoard.drive c r) = oAudBck c := rfl
  rw [readAt,same,Bool.not_and_self]
  rfl

theorem readsSame (c : Codec) : readAt c c = [] := by
  rw [readAt,Bool.not_and_self]
  rfl

theorem clkOther {e : Event} (other : e ≠ .clk) : clks [e] = 0 := by
  cases e with
  | clk => exact absurd rfl other
  | call c => rfl
  | action => rfl

theorem readOther (b : Board) {e : Event} (other : e ≠ .clk) : readAt b.codec (step b e).codec = [] := by
  cases e with
  | clk => exact absurd rfl other
  | call c =>
    simp only [step]
    cases b.pending <;> exact readsSame b.codec
  | action =>
    simp only [step]
    cases b.pending with
    | nil => exact readsSame b.codec
    | cons x rest => exact readsStill b.codec _

theorem readsNone {b : Board} {events : List Event} (none : clks events = 0) : reads b events = [] := by
  induction events generalizing b with
  | nil => rfl
  | cons e rest ih =>
    have parts : clks ([e] ++ rest) = clks [e] + clks rest := List.count_append
    rw [List.singleton_append] at parts
    have tail := ih (b := step b e) (by omega)
    have other : e ≠ .clk := by
      rintro rfl
      exact absurd none (by simp [clks])
    rw [reads,tail,List.append_nil,readOther b other]

theorem readsSnoc (b : Board) (events : List Event) (e : Event) :
    reads b (events ++ [e]) = reads b events ++ readAt (run b events).codec (step (run b events) e).codec := by
  rw [readsAppend,reads,reads,List.append_nil]

theorem clksSnoc (events : List Event) (e : Event) : clks (events ++ [e]) = clks events + clks [e] := List.count_append

theorem clksBank {b : Board} {n : Nat} (phase : Phase n b.codec) {k : Nat} (within : n % 384 + k < 384) :
    (run b (List.replicate k .clk)).codec.bank = b.codec.bank := by
  induction k with
  | zero => rfl
  | succ k ih =>
    have later := phaseFrom phase (List.replicate k .clk)
    rw [clks,List.count_replicate_self] at later
    rw [List.replicate_succ',runSnoc]
    exact (SerialOutput.clkBank later (by omega)).trans (ih (by omega))

/- A sample ends with a fall of LRCK. -/
theorem sampleBank {b : Board} {n : Nat} (phase : Phase n b.codec) (start : n % 384 = 0) :
    (run b (List.replicate 384 .clk)).codec.bank = Voices.step b.codec.bank .lrckFall := by
  have before := phaseFrom phase (List.replicate 383 .clk)
  have bank := clksBank phase (k := 383) (by omega)
  have fall := bankStep (run b (List.replicate 383 .clk)) .clk
  rw [clks,List.count_replicate_self] at before
  have high := AudioCodec.phaseLrck before
  have low := AudioCodec.phaseLrck (AudioCodec.clkPhase before)
  rw [decide_eq_true (by omega)] at high
  rw [decide_eq_false (by omega)] at low
  rw [bankEvent,high,low,bank] at fall
  rw [List.replicate_succ',runSnoc]
  exact fall

/-! ### A sample in which the keys stay -/

def Steady (b : Board) (rest : List Event) : Prop :=
  ∀ first, first <+: rest → clks first < 384 → (run b first).codec.bank.keys = b.codec.bank.keys

theorem steadyPart {b : Board} {first rest : List Event} (steady : Steady b rest) (part : first <+: rest) :
    Steady b first := fun _ inside within => steady _ (inside.trans part) within

theorem steadyCons {b : Board} {e : Event} {rest : List Event}
    (keys : (step b e).codec.bank.keys = b.codec.bank.keys) (steady : Steady (step b e) rest) :
    Steady b (e :: rest) := by
  intro first part within
  cases first with
  | nil => rfl
  | cons x first =>
    obtain ⟨rfl,inside⟩ := List.cons_prefix_cons.mp part
    have fewer : clks first ≤ clks (x :: first) := List.count_le_count_cons
    exact (steady first inside (by omega)).trans keys

def KeepsSounds (x : Action) : Prop := ∀ s, (perform s x).synth.curSounds = s.synth.curSounds

theorem switchesKeep (s : Statics) (sw : Word) : ∀ x ∈ (handleSwitches s sw).2, KeepsSounds x := by
  intro x member board
  unfold handleSwitches at member
  split at member
  · rcases List.mem_pair.mp member with rfl | rfl
    · split <;> rfl
    · split <;> rfl
  · cases member

theorem switchesSteady {b : Board} (wired : b.codec.bank.keys = b.devices.synth.curSounds)
    (begun : ∀ x ∈ b.pending, KeepsSounds x) {rest : List Event} (none : ∀ key, Event.call (.key key) ∉ rest) :
    Steady b rest := by
  induction rest generalizing b with
  | nil =>
    intro first part within
    rw [List.prefix_nil.mp part]
    rfl
  | cons e rest ih =>
    have later : ∀ key, Event.call (.key key) ∉ rest := fun key member => none key (List.mem_cons_of_mem e member)
    cases e with
    | clk =>
      have keys := (clkBankKeys b.codec).1
      exact steadyCons keys (ih (keys.trans wired) begun later)
    | call c =>
      have same : (step b (.call c)).codec = b.codec ∧ (step b (.call c)).devices = b.devices := by
        simp only [step]
        cases b.pending <;> exact ⟨rfl,rfl⟩
      refine steadyCons (congrArg (fun codec => codec.bank.keys) same.1) (ih ?_ ?_ later)
      · rw [same.1,same.2]
        exact wired
      · cases c with
        | key key => exact absurd List.mem_cons_self (none key)
        | switches sw =>
          cases busy : b.pending with
          | nil =>
            have own : (step b (.call (.switches sw))).pending = (handleSwitches b.statics sw).2 := by
              simp only [step,busy]
              rfl
            rw [own]
            exact switchesKeep b.statics sw
          | cons x more =>
            have waits : step b (.call (.switches sw)) = b := by simp only [step,busy]
            rw [waits]
            exact begun
    | action =>
      cases busy : b.pending with
      | nil =>
        have still : step b .action = b := by simp only [step,busy]
        exact steadyCons (by rw [still]) (by rw [still]; exact ih wired begun later)
      | cons x more =>
        have done : step b .action =
            ⟨b.statics,more,perform b.devices x,drive b.codec (perform b.devices x).synth⟩ := by simp only [step,busy]
        have sounds := begun x (by rw [busy]; exact List.mem_cons_self) b.devices
        have keys : (step b .action).codec.bank.keys = (perform b.devices x).synth.curSounds := by
          rw [done,driveBank,Voices.effectsKeys,Voices.keysKeys]
        refine steadyCons (keys.trans (sounds.trans wired.symm)) (ih ?_ ?_ later)
        · rw [keys,done]
        · rw [done]
          exact fun y member => begun y (by rw [busy]; exact List.mem_cons_of_mem x member)

theorem idleSteady {b : Board} (wired : b.codec.bank.keys = b.devices.synth.curSounds) (idle : b.pending = [])
    {rest : List Event} (none : ∀ key, Event.call (.key key) ∉ rest) : Steady b rest := by
  refine switchesSteady wired ?_ none
  rw [idle]
  exact fun _ member => nomatch member

section
variable {b : Board} {n : Nat} {rest : List Event}

/- Whatever an action does to the effects, no voice hears of it before its ramp moves. -/
theorem actionKeeps {e : Event} (other : e ≠ .clk) (keys : (step b e).codec.bank.keys = b.codec.bank.keys) :
    (step b e).codec.bank.voices = b.codec.bank.voices := by
  cases e with
  | clk => exact absurd rfl other
  | call c =>
    simp only [step]
    cases b.pending <;> rfl
  | action =>
    cases busy : b.pending with
    | nil => simp only [step,busy]
    | cons x rest =>
      have codec : (step b .action).codec = drive b.codec (perform b.devices x).synth := by simp only [step,busy]
      rw [codec,driveBank,Voices.effectsKeys,Voices.keysKeys] at keys
      rw [codec,driveVoices keys.symm]

theorem steadyVoices (phase : Phase n b.codec) (start : n % 384 = 0) (steady : Steady b rest)
    (within : clks rest < 384) : (run b rest).codec.bank.voices = b.codec.bank.voices := by
  induction rest using List.reverseRecOn with
  | nil => rfl
  | append_singleton rest e ih =>
    have count := clksSnoc rest e
    have part : rest <+: rest ++ [e] := List.prefix_append _ _
    have before := ih (steadyPart steady part) (by omega)
    by_cases clocked : e = .clk
    · subst clocked
      have one : clks [Event.clk] = 1 := rfl
      have bank := SerialOutput.clkBank (phaseFrom phase rest) (by omega)
      rw [runSnoc]
      exact (congrArg Voices.Bank.voices bank).trans before
    · have keys := (steady (rest ++ [e]) (List.prefix_refl _) within).trans (steady rest part (by omega)).symm
      rw [runSnoc] at keys ⊢
      rw [actionKeeps clocked keys,before]

theorem soundVoices {bank other : Voices.Bank} (same : bank.voices = other.voices) : soundO bank = soundO other := by
  simp only [soundO,Voices.music,Voices.Bank.voice,same]

theorem steadySound (phase : Phase n b.codec) (start : n % 384 = 0) (steady : Steady b rest)
    (within : clks rest < 384) :
    keyPressed (run b rest).codec.bank = keyPressed b.codec.bank ∧
      soundO (run b rest).codec.bank = soundO b.codec.bank :=
  ⟨congrArg (fun keys => decide (keys ≠ 0)) (steady rest (List.prefix_refl _) within),
    soundVoices (steadyVoices phase start steady within)⟩

theorem readsCount (phase : Phase n b.codec) (start : n % 12 = 0) (rest : List Event) :
    (reads b rest).length = (clks rest + 6)/12 := by
  induction rest using List.reverseRecOn with
  | nil => rfl
  | append_singleton rest e ih =>
    rw [readsSnoc,List.length_append,ih,clksSnoc]
    by_cases clocked : e = .clk
    · subst clocked
      have one : clks [Event.clk] = 1 := rfl
      have rise : (!oAudBck (run b rest).codec && oAudBck (step (run b rest) .clk).codec) =
          decide ((n + clks rest + 1) % 12 = 6) := SerialOutput.clkRise (phaseFrom phase rest)
      rw [readAt,rise,one]
      split
      · rename_i here
        have place := of_decide_eq_true here
        rw [List.length_singleton]
        omega
      · rename_i still
        have place := of_decide_eq_false (Bool.eq_false_iff.mpr still)
        rw [List.length_nil]
        omega
    · rw [readOther _ clocked,clkOther clocked]
      rfl

theorem readsSteady (phase : Phase n b.codec) (start : n % 384 = 0) (pressed : keyPressed b.codec.bank = true)
    (steady : Steady b rest) {k : Nat} (inside : k < 32) (long : 12*k + 6 ≤ clks rest) :
    (reads b rest)[k]? = some (bitOf k (soundO b.codec.bank)) := by
  induction rest using List.reverseRecOn with
  | nil => exact absurd long (Nat.not_succ_le_zero _)
  | append_singleton rest e ih =>
    have count := clksSnoc rest e
    have part : rest <+: rest ++ [e] := List.prefix_append _ _
    have length := readsCount phase (by omega) rest
    rw [readsSnoc]
    by_cases before : 12*k + 6 ≤ clks rest
    · rw [List.getElem?_append_left (by omega)]
      exact ih (steadyPart steady part) before
    · by_cases clocked : e = .clk
      · subst clocked
        have one : clks [Event.clk] = 1 := rfl
        have place : clks rest + 1 = 12*k + 6 := by omega
        have after := AudioCodec.clkPhase (phaseFrom phase rest)
        obtain ⟨keys,sound⟩ := steadySound phase start steady (by omega)
        rw [runSnoc] at keys sound
        have sound : soundO (clk (run b rest).codec).bank = soundO b.codec.bank := sound
        have down : keyPressed (clk (run b rest).codec).bank = true := keys.trans pressed
        have rise : (!oAudBck (run b rest).codec && oAudBck (clk (run b rest).codec)) =
            decide ((n + clks rest + 1) % 12 = 6) := SerialOutput.clkRise (phaseFrom phase rest)
        have here : (n + clks rest + 1) % 12 = 6 := by omega
        have half : (n + clks rest + 1)/192 % 2 = k/16 % 2 := by omega
        have bit : (n + clks rest + 1)/12 % 16 = k % 16 := by omega
        have read : readAt (run b rest).codec (step (run b rest) .clk).codec = [bitOf k (soundO b.codec.bank)] := by
          change readAt (run b rest).codec (clk (run b rest).codec) = _
          rw [readAt,rise,if_pos (decide_eq_true here),AudioCodec.phaseLrck after,half,
            SerialOutput.dataBit after down,sound,SerialOutput.bitAt,bit]
          rfl
        have last : (reads b rest).length = k := by omega
        rw [read,← last,List.getElem?_concat_length]
      · rw [clkOther clocked] at count
        omega

end

end FpgaSynthesizer.DacReads
