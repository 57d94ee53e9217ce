import FpgaSynthesizer.KeyPath

/-! The tone table as a function of the keys handed to handle_key. The last value
with a note's low byte decides the note, whatever its other bytes are apart from
the second. -/
namespace FpgaSynthesizer.ToneKeys
open ToneProgram ToneCalls ToneAgreement
open KeyPath (noteKeys)
open SynthCi (Opcode)

def touches (i : Fin numRelTones) (key : Word) : Bool := decide (key &&& 0xff = noteKeys.get i)

def presses (key : Word) : Bool := decide ((key >>> 8) &&& 0xff ≠ 0xf0)

def heldBy (i : Fin numRelTones) (keys : List Word) : Bool :=
  ((keys.filter (touches i)).getLast?.map presses).getD false

def runKeys (keys : List Word) : System := run powerUp (keys.map .key)

/-! ### One key -/

theorem toneOfKey (i : Fin numRelTones) : keyToRelTone (noteKeys.get i) = i := by
  revert i
  decide

def KeyOf (key : Word) (tone : Int) : Prop := ∀ i : Fin numRelTones, tone = i → key = noteKeys.get i

theorem keyOfBranch {key other : Word} {x y : Int} (hx : KeyOf other x) (hy : KeyOf key y) :
    KeyOf key (if key = other then x else y) := by
  split
  · rename_i same
    rwa [same]
  · exact hy

theorem keyOfTone (key : Word) : KeyOf key (keyToRelTone key) := by
  unfold keyToRelTone
  repeat' apply keyOfBranch
  all_goals first | (unfold KeyOf; decide) | (intro i none; omega)

theorem touchesTone (i : Fin numRelTones) (key : Word) :
    touches i key = true ↔ keyToRelTone (key &&& 0xff) = i := by
  rw [touches,decide_eq_true_iff]
  constructor
  · intro same
    rw [same,toneOfKey]
  · exact keyOfTone _ i

theorem opcodePresses (key : Word) : keyOpcode key = .keyOn ↔ presses key = true := by
  unfold keyOpcode presses
  split
  · rename_i release
    rw [decide_eq_false (not_not_intro release)]
    decide
  · rename_i other
    rw [decide_eq_true other]
    decide

theorem keyStatus (s : System) (key : Word) (i : Fin numRelTones) :
    (call s (.key key)).statics.tonesStatus.get i =
      if touches i key then (if presses key then 1 else 0) else s.statics.tonesStatus.get i := by
  have touch := touchesTone i key
  rcases handleKeyCases s.statics key with ⟨shift,same⟩ | ⟨_,j,tone,same⟩ | ⟨_,tone,same⟩
  · have none := octaveKeyNoTone shift
    have apart : ¬ touches i key = true := by
      rw [touch,none]
      omega
    simp only [call,handle,same,if_neg apart]
  · simp only [call,handle,same,pressStatus,opcodePresses]
    rw [tone] at touch
    by_cases own : j = i
    · rw [if_pos own,if_pos (touch.mpr (by rw [own]))]
    · rw [if_neg own,if_neg (fun h => own (Fin.ext (by exact_mod_cast touch.mp h)))]
  · have apart : ¬ touches i key = true := by
      rw [touch,tone]
      omega
    simp only [call,handle,same,if_neg apart]

/-! ### Runs of keys -/

theorem runKeysSnoc (keys : List Word) (key : Word) :
    runKeys (keys ++ [key]) = call (runKeys keys) (.key key) := by
  simp [runKeys,run]

theorem heldBySnoc (i : Fin numRelTones) (keys : List Word) (key : Word) :
    heldBy i (keys ++ [key]) = if touches i key then presses key else heldBy i keys := by
  rw [heldBy,List.filter_append]
  split
  · rename_i touch
    simp [touch]
  · rename_i other
    simp [other,heldBy]

theorem runStatus (keys : List Word) (i : Fin numRelTones) :
    (runKeys keys).statics.tonesStatus.get i = if heldBy i keys then 1 else 0 := by
  induction keys using List.reverseRecOn with
  | nil => exact initialStatus i
  | append_singleton keys key ih =>
    rw [runKeysSnoc,keyStatus,heldBySnoc,ih]
    split <;> rfl

end FpgaSynthesizer.ToneKeys
