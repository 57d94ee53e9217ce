import Mathlib.Data.BitVec

/-! wave_gen: one period of a sine and of a square wave in 64 steps. The block is
evaluated when the ramp changes; other effects than the two assign nothing, so
the output keeps its value. The constants are cut to 16 bits. -/
namespace FpgaSynthesizer.WaveGen

abbrev Sample := BitVec 16

def sineTable : Vector Sample 64 :=
  #v[0x0000,0x0322,0x063d,0x0948,0x0c3d,0x0f13,0x11c5,0x144a,
     0x169e,0x18b9,0x1a98,0x1c36,0x1d8e,0x1e9d,0x1f61,0x1fd7,
     0x1fff,0x1fd8,0x1f63,0x1ea1,0x1d93,0x1c3c,0x1aa0,0x18c2,
     0x16a7,0x1454,0x11cf,0x0f1f,0x0c49,0x0955,0x064a,0x032f,
     0x000d,0xfcea,0xf9cf,0xf6c3,0xf3ce,0xf0f7,0xee45,0xebbf,
     0xe96b,0xe74e,0xe56e,0xe3cf,0xe276,0xe166,0xe0a1,0xe029,
     0xe000,0xe025,0xe099,0xe15a,0xe267,0xe3bd,0xe558,0xe735,
     0xe94f,0xeba1,0xee25,0xf0d5,0xf3aa,0xf69e,0xf9a9,0xfcc3]

def squareTable : Vector Sample 64 :=
  #v[0xe000,0xe000,0xe000,0xe000,0xe000,0xe000,0xe000,0xe000,
     0xe000,0xe000,0xe000,0xe000,0xe000,0xe000,0xe000,0xe000,
     0xe000,0xe000,0xe000,0xe000,0xe000,0xe000,0xe000,0xe000,
     0xe000,0xe000,0xe000,0xe000,0xe000,0xe000,0xe000,0xe000,
     0x1fff,0x1fff,0x1fff,0x1fff,0x1fff,0x1fff,0x1fff,0x1fff,
     0x1fff,0x1fff,0x1fff,0x1fff,0x1fff,0x1fff,0x1fff,0x1fff,
     0x1fff,0x1fff,0x1fff,0x1fff,0x1fff,0x1fff,0x1fff,0x1fff,
     0x1fff,0x1fff,0x1fff,0x1fff,0x1fff,0x1fff,0x1fff,0x1fff]

def sine (ramp : BitVec 6) : Sample := sineTable[ramp.toNat]

def square (ramp : BitVec 6) : Sample := squareTable[ramp.toNat]

def musicO (effects : BitVec 4) (ramp : BitVec 6) (music : Sample) : Sample :=
  if effects = 0b0001 then sine ramp
  else if effects = 0b0010 then square ramp
  else music

/- The selections that have a table, and the sample that a table gives. -/
def Selects (effects : BitVec 4) : Prop := effects = 0b0001 ∨ effects = 0b0010
instance (effects) : Decidable (Selects effects) := by unfold Selects; infer_instance

def entry (effects : BitVec 4) (ramp : BitVec 6) : Sample := if effects = 0b0001 then sine ramp else square ramp

theorem musicSelected {effects : BitVec 4} (selects : Selects effects) (ramp : BitVec 6) (music : Sample) :
    musicO effects ramp music = entry effects ramp := by
  rcases selects with rfl | rfl <;> rfl

theorem musicKept {effects : BitVec 4} (other : ¬ Selects effects) (ramp : BitVec 6) (music : Sample) :
    musicO effects ramp music = music := by
  rw [musicO,if_neg (fun h => other (.inl h)),if_neg (fun h => other (.inr h))]

/- The peak of a voice is a quarter of the range of a sample. -/
theorem sineQuarter (ramp : BitVec 6) : -8192 ≤ (sine ramp).toInt ∧ (sine ramp).toInt ≤ 8191 := by
  revert ramp
  decide

/- Around the crest, five voices exceed the range of a sample. -/
theorem sineCrest {ramp : BitVec 6} (low : 10 ≤ ramp.toNat) (high : ramp.toNat ≤ 22) :
    6808 ≤ (sine ramp).toInt := by
  revert ramp
  decide

end FpgaSynthesizer.WaveGen
