import FpgaSynthesizer.WaveGen
import FpgaSynthesizer.Accumulator
import FpgaSynthesizer.WrappedSum

/-! The 88 voices of audio_codec: a ramp for each key, a wave_gen on its upper six
bits, and the sum of the outputs. Ramps change on the falling edge of LRCK_1X and
on the falling edge of their own key, and have no reset. -/
namespace FpgaSynthesizer.Voices
open WaveGen

abbrev numNotes : Nat := 88

def rampMax : BitVec 16 := 60000

def freqTable : Vector (BitVec 16) numNotes :=
  #v[27,29,30,32,34,36,38,41,43,46,48,51,
     55,58,61,65,69,73,77,82,87,92,97,103,
     110,116,123,130,138,146,155,164,174,184,195,207,
     220,233,246,261,277,293,311,329,349,369,391,415,
     440,466,493,523,554,587,622,659,698,739,783,830,
     880,932,987,1046,1108,1174,1244,1318,1396,1479,1567,1661,
     1760,1864,1975,2093,2217,2349,2489,2637,2793,2959,3135,3322,
     3520,3729,3951,4186]

def freq (i : Fin numNotes) : BitVec 16 := freqTable.get i

structure Voice where
  ramp : BitVec 16
  music : Sample
  deriving DecidableEq, Repr

def phase (ramp : BitVec 16) : BitVec 6 := ramp.extractLsb' 10 6

/- The voice's wave_gen sees the new ramp only where its upper bits change. -/
def Voice.setRamp (v : Voice) (effects : BitVec 4) (ramp : BitVec 16) : Voice :=
  {ramp := ramp
   music := if phase ramp = phase v.ramp then v.music else musicO effects (phase ramp) v.music}

theorem setRampRamp (v : Voice) (effects : BitVec 4) (ramp : BitVec 16) :
    (v.setRamp effects ramp).ramp = ramp := rfl

structure Bank where
  keys : BitVec numNotes
  effects : BitVec 18
  voices : Vector Voice numNotes
  deriving DecidableEq, Repr

def restVoices : Vector Voice numNotes := Vector.replicate numNotes ⟨0,0⟩

def Bank.voice (b : Bank) (i : Fin numNotes) : Voice := b.voices.get i

inductive Event where
  | lrckFall
  | keys (keys : BitVec numNotes)
  | effects (effects : BitVec 18)
  deriving DecidableEq, Repr

def selected (effects : BitVec 18) : BitVec 4 := effects.extractLsb' 0 4

def rampNext (key : Bool) (ramp freq : BitVec 16) : BitVec 16 :=
  if !key then 0
  else if ramp > rampMax then 0
  else ramp + freq

def step (b : Bank) : Event → Bank
  | .lrckFall =>
    {b with voices := Vector.ofFn (fun i : Fin numNotes =>
      (b.voice i).setRamp (selected b.effects) (rampNext (b.keys.getLsbD i) (b.voice i).ramp (freq i)))}
  | .keys keys =>
    {b with
      keys := keys
      voices := Vector.ofFn (fun i : Fin numNotes =>
        if b.keys.getLsbD i && !keys.getLsbD i then (b.voice i).setRamp (selected b.effects) 0 else b.voice i)}
  | .effects effects => {b with effects := effects}

def run (b : Bank) (events : List Event) : Bank := events.foldl step b

def music (b : Bank) : List Sample := (List.finRange numNotes).map (fun i => (b.voice i).music)

def soundO (b : Bank) : Sample := (music b).sum

/-! ### What an event does to one voice -/

@[simp] theorem fallKeys (b : Bank) : (step b .lrckFall).keys = b.keys := by simp only [step]

@[simp] theorem fallEffects (b : Bank) : (step b .lrckFall).effects = b.effects := by simp only [step]

@[simp] theorem keysKeys (b : Bank) (keys : BitVec numNotes) : (step b (.keys keys)).keys = keys := by
  simp only [step]

@[simp] theorem keysEffects (b : Bank) (keys : BitVec numNotes) :
    (step b (.keys keys)).effects = b.effects := by
  simp only [step]

@[simp] theorem effectsKeys (b : Bank) (effects : BitVec 18) :
    (step b (.effects effects)).keys = b.keys := by
  simp only [step]

@[simp] theorem effectsEffects (b : Bank) (effects : BitVec 18) :
    (step b (.effects effects)).effects = effects := by
  simp only [step]

theorem ofFnGet {α : Type} {n : Nat} (f : Fin n → α) (i : Fin n) : (Vector.ofFn f).get i = f i := by
  change (Vector.ofFn f)[i.val] = f i
  rw [Vector.getElem_ofFn]

theorem restVoice (keys : BitVec numNotes) (effects : BitVec 18) (i : Fin numNotes) :
    (⟨keys,effects,restVoices⟩ : Bank).voice i = ⟨0,0⟩ := by
  change (Vector.replicate numNotes (⟨0,0⟩ : Voice))[i.val] = ⟨0,0⟩
  rw [Vector.getElem_replicate]

theorem fallVoice (b : Bank) (i : Fin numNotes) :
    (step b .lrckFall).voice i =
      (b.voice i).setRamp (selected b.effects) (rampNext (b.keys.getLsbD i) (b.voice i).ramp (freq i)) := by
  simp only [Bank.voice,step,ofFnGet]

theorem keysVoice (b : Bank) (keys : BitVec numNotes) (i : Fin numNotes) :
    (step b (.keys keys)).voice i =
      if b.keys.getLsbD i && !keys.getLsbD i then (b.voice i).setRamp (selected b.effects) 0
      else b.voice i := by
  simp only [Bank.voice,step,ofFnGet]

theorem effectsVoice (b : Bank) (effects : BitVec 18) (i : Fin numNotes) :
    (step b (.effects effects)).voice i = b.voice i := by
  simp only [Bank.voice,step]

theorem freqPositive (i : Fin numNotes) : 0 < (freq i).toNat ∧ (freq i).toNat ≤ 4186 := by
  revert i
  decide

theorem rampNextAccumulates {ramp : BitVec 16} {i : Fin numNotes} (bound : ramp.toNat ≤ 64186) :
    (rampNext true ramp (freq i)).toNat = Accumulator.next 60000 (freq i).toNat ramp.toNat := by
  have small := (freqPositive i).2
  have limit : ramp > rampMax ↔ ramp.toNat > 60000 := Iff.rfl
  simp only [rampNext,Bool.not_true,Bool.false_eq_true,if_false,Accumulator.next,limit]
  split
  · rfl
  · rw [BitVec.toNat_add]
    omega

/-! ### Runs -/

def lrckFalls (events : List Event) : Nat := events.count .lrckFall

def Holding (i : Fin numNotes) : Event → Prop
  | .keys keys => keys.getLsbD i = true
  | _ => True
instance (i) : (e : Event) → Decidable (Holding i e)
  | .lrckFall => inferInstanceAs (Decidable True)
  | .keys keys => inferInstanceAs (Decidable (keys.getLsbD i = true))
  | .effects _ => inferInstanceAs (Decidable True)

theorem runCons (b : Bank) (e : Event) (events : List Event) :
    run b (e :: events) = run (step b e) events := rfl

theorem lrckFallsCons (e : Event) (events : List Event) :
    lrckFalls (e :: events) = lrckFalls [e] + lrckFalls events := by
  rw [← List.singleton_append]
  exact List.count_append

theorem heldStep {b : Bank} {i : Fin numNotes} {n : Nat} (key : b.keys.getLsbD i = true)
    (ramp : (b.voice i).ramp.toNat = Accumulator.value 60000 (freq i).toNat n) {e : Event}
    (holding : Holding i e) :
    (step b e).keys.getLsbD i = true ∧
    ((step b e).voice i).ramp.toNat = Accumulator.value 60000 (freq i).toNat (n + lrckFalls [e]) := by
  cases e with
  | lrckFall =>
    rw [fallKeys]
    refine ⟨key,?_⟩
    have small := (freqPositive i).2
    have bound := Accumulator.valueBound 60000 (freq i).toNat n
    have one : lrckFalls [.lrckFall] = 1 := rfl
    rw [fallVoice,key,setRampRamp,rampNextAccumulates (by omega),ramp,
      Accumulator.valueNext (freqPositive i).1,one]
  | keys keys =>
    have down : keys.getLsbD i = true := holding
    have none : lrckFalls [.keys keys] = 0 := rfl
    rw [keysKeys,keysVoice,down,Bool.not_true,Bool.and_false,none]
    exact ⟨rfl,ramp⟩
  | effects effects =>
    have none : lrckFalls [.effects effects] = 0 := rfl
    rw [effectsKeys,effectsVoice,none]
    exact ⟨key,ramp⟩

theorem heldRun {b : Bank} {i : Fin numNotes} {n : Nat} (key : b.keys.getLsbD i = true)
    (ramp : (b.voice i).ramp.toNat = Accumulator.value 60000 (freq i).toNat n) (events : List Event)
    (holding : ∀ e ∈ events, Holding i e) :
    (run b events).keys.getLsbD i = true ∧
    ((run b events).voice i).ramp.toNat =
      Accumulator.value 60000 (freq i).toNat (n + lrckFalls events) := by
  induction events generalizing b n with
  | nil => exact ⟨key,ramp⟩
  | cons e rest ih =>
    obtain ⟨key',ramp'⟩ := heldStep key ramp (holding e List.mem_cons_self)
    have tail := ih key' ramp' (fun x hx => holding x (List.mem_cons_of_mem e hx))
    rw [lrckFallsCons,← Nat.add_assoc]
    exact tail

end FpgaSynthesizer.Voices
