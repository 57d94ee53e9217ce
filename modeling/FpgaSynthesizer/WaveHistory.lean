import FpgaSynthesizer.Voices

/-! wave_gen over a history of its inputs. The block waits for its ramp alone and
has no branch for other effects than the two, so its output is the table entry of
an earlier moment: the last change of the ramp that found a wave selected. -/
namespace FpgaSynthesizer.WaveHistory
open WaveGen
open Voices (Voice Bank Event phase selected rampNext freq numNotes)

structure Inputs where
  ramp : BitVec 6
  effects : BitVec 4
  deriving DecidableEq, Repr

structure Block where
  inputs : Inputs
  music : Sample
  deriving DecidableEq, Repr

inductive Change where
  | ramp (ramp : BitVec 6)
  | effects (effects : BitVec 4)
  deriving DecidableEq, Repr

def Inputs.change (i : Inputs) : Change → Inputs
  | .ramp ramp => {i with ramp := ramp}
  | .effects effects => {i with effects := effects}

/- The block is evaluated when the ramp takes another value. -/
def step (b : Block) (c : Change) : Block :=
  let inputs := b.inputs.change c
  ⟨inputs,if inputs.ramp = b.inputs.ramp then b.music else musicO inputs.effects inputs.ramp b.music⟩

def run (b : Block) (history : List Change) : Block := history.foldl step b

/- The inputs at the last evaluation that had a table, if there was one. -/
def evaluated (i : Inputs) (last : Option Inputs) : List Change → Option Inputs
  | [] => last
  | c :: rest =>
    let now := i.change c
    evaluated now (if now.ramp ≠ i.ramp ∧ Selects now.effects then some now else last) rest

def Inputs.entry (i : Inputs) : Sample := WaveGen.entry i.effects i.ramp

/- The ramp at which the sine is at the square's level. -/
def crest (ramp : BitVec 6) : BitVec 6 := if ramp.msb then 16 else 48

/- The tables give one sample: the sine has no two ramps of one sample, the square
has two halves, and the sine's crests are the levels of the square. -/
def SameEntry (i j : Inputs) : Prop :=
  if i.effects = 0b0001 then
    if j.effects = 0b0001 then i.ramp = j.ramp else i.ramp = crest j.ramp
  else
    if j.effects = 0b0001 then j.ramp = crest i.ramp else i.ramp.msb = j.ramp.msb
instance (i j) : Decidable (SameEntry i j) := by unfold SameEntry; infer_instance

def Alike (start : Sample) : Option Inputs → Option Inputs → Prop
  | none, none => True
  | some i, none => i.entry = start
  | none, some j => j.entry = start
  | some i, some j => SameEntry i j

theorem sineEntries (x y : BitVec 6) : sine x = sine y ↔ x = y := by
  revert x y
  decide +kernel

theorem crestLevel (x : BitVec 6) : sine (crest x) = square x := by
  revert x
  decide

theorem crestEntries (x y : BitVec 6) : sine x = square y ↔ x = crest y := by
  rw [← crestLevel,sineEntries]

theorem squareEntries (x y : BitVec 6) : square x = square y ↔ x.msb = y.msb := by
  rw [← crestLevel,crestEntries,crest,crest]
  cases x.msb <;> cases y.msb <;> decide

theorem entrySame {i j : Inputs} (first : Selects i.effects) (second : Selects j.effects) :
    i.entry = j.entry ↔ SameEntry i j := by
  obtain ⟨x,e⟩ := i
  obtain ⟨y,d⟩ := j
  change Selects e at first
  change Selects d at second
  rcases first with rfl | rfl
  · rcases second with rfl | rfl
    · exact sineEntries x y
    · exact crestEntries x y
  · rcases second with rfl | rfl
    · exact eq_comm.trans (crestEntries y x)
    · exact squareEntries x y

/-! ### The output is the last evaluation's -/

def Shows (start : Sample) (b : Block) (last : Option Inputs) : Prop :=
  b.music = (last.map Inputs.entry).getD start ∧ ∀ i ∈ last, Selects i.effects

theorem stepMusic (b : Block) (c : Change) : (step b c).music =
    if (b.inputs.change c).ramp = b.inputs.ramp then b.music
    else musicO (b.inputs.change c).effects (b.inputs.change c).ramp b.music := rfl

theorem stepShows {start : Sample} {b : Block} {last : Option Inputs} (shows : Shows start b last) (c : Change) :
    Shows start (step b c) (if (b.inputs.change c).ramp ≠ b.inputs.ramp ∧ Selects (b.inputs.change c).effects
      then some (b.inputs.change c) else last) := by
  unfold Shows
  rw [stepMusic]
  by_cases moved : (b.inputs.change c).ramp = b.inputs.ramp
  · simp only [moved,ne_eq,not_true_eq_false,false_and,if_false,if_true]
    exact shows
  · by_cases selects : Selects (b.inputs.change c).effects
    · rw [if_neg moved,if_pos ⟨moved,selects⟩,musicSelected selects]
      refine ⟨rfl,?_⟩
      intro i member
      cases member
      exact selects
    · rw [if_neg moved,if_neg (fun h => selects h.2),musicKept selects]
      exact shows

theorem runShows {start : Sample} {b : Block} {last : Option Inputs} (shows : Shows start b last)
    (history : List Change) : Shows start (run b history) (evaluated b.inputs last history) := by
  induction history generalizing b last with
  | nil => exact shows
  | cons c rest ih => exact ih (stepShows shows c)

theorem showsSame {start : Sample} {b d : Block} {last other : Option Inputs} (first : Shows start b last)
    (second : Shows start d other) : b.music = d.music ↔ Alike start last other := by
  rw [first.1,second.1]
  cases last with
  | none =>
    cases other with
    | none => exact iff_of_true rfl trivial
    | some j => exact eq_comm
  | some i =>
    cases other with
    | none => exact Iff.rfl
    | some j => exact entrySame (first.2 i rfl) (second.2 j rfl)

theorem sameOutputExactly (b : Block) (first second : List Change) :
    (run b first).music = (run b second).music ↔
      Alike b.music (evaluated b.inputs none first) (evaluated b.inputs none second) := by
  have start : Shows b.music b none := ⟨rfl,by simp⟩
  exact showsSame (runShows start first) (runShows start second)

/- The square selected at ramp 8 from the start, or after the sine: the switches
then go through 00, and the sine's sample stays. -/
def square8 : List Change := [.effects 0b0010,.ramp 8]

def sineThenSquare8 : List Change := [.effects 0b0001,.ramp 8,.effects 0b0000,.effects 0b0010]

theorem earlierWaveLeaks :
    (run ⟨⟨0,0⟩,0⟩ square8).inputs = (run ⟨⟨0,0⟩,0⟩ sineThenSquare8).inputs ∧
    (run ⟨⟨0,0⟩,0⟩ square8).music ≠ (run ⟨⟨0,0⟩,0⟩ sineThenSquare8).music := by
  decide

/-! ### The voices -/

def blockOf (i : Fin numNotes) (b : Bank) : Block :=
  ⟨⟨phase (b.voice i).ramp,selected b.effects⟩,(b.voice i).music⟩

def changeOf (i : Fin numNotes) (b : Bank) : Event → Change
  | .effects effects => .effects (selected effects)
  | e => .ramp (phase ((Voices.step b e).voice i).ramp)

def changesOf (i : Fin numNotes) (b : Bank) : List Event → List Change
  | [] => []
  | e :: rest => changeOf i b e :: changesOf i (Voices.step b e) rest

theorem setRampBlock (v : Voice) (effects : BitVec 4) (ramp : BitVec 16) :
    (v.setRamp effects ramp).music = (step ⟨⟨phase v.ramp,effects⟩,v.music⟩ (.ramp (phase ramp))).music := rfl

theorem voiceStep (i : Fin numNotes) (b : Bank) (e : Event) :
    blockOf i (Voices.step b e) = step (blockOf i b) (changeOf i b e) := by
  cases e with
  | lrckFall =>
    simp only [blockOf,changeOf,Voices.fallEffects,Voices.fallVoice,setRampBlock,Voices.setRampRamp]
    rfl
  | keys keys =>
    simp only [blockOf,changeOf,Voices.keysEffects,Voices.keysVoice]
    split
    · rfl
    · simp [step,Inputs.change]
  | effects effects =>
    simp only [blockOf,changeOf,Voices.effectsEffects,Voices.effectsVoice]
    simp [step,Inputs.change]

theorem voiceRun (i : Fin numNotes) (b : Bank) (events : List Event) :
    blockOf i (Voices.run b events) = run (blockOf i b) (changesOf i b events) := by
  induction events generalizing b with
  | nil => rfl
  | cons e rest ih =>
    rw [Voices.runCons,ih,voiceStep]
    rfl

end FpgaSynthesizer.WaveHistory
