import FpgaSynthesizer.GetKey
import FpgaSynthesizer.PollingSteps

/-! get_key of the two programs, one read at a time: what a value of ps2_ci makes of
the locals, and whether it ends the call. -/
namespace FpgaSynthesizer.GetKeySteps
open GetKey Polling PollingSteps
open Ps2Ci (Byte Word)

inductive Version where
  | theSynth
  | fpgaSynth
  deriving DecidableEq, Repr

def Version.Locals : Version → Type
  | .theSynth => Unit
  | .fpgaSynth => FpgaSynth.Locals
instance (v : Version) : DecidableEq v.Locals :=
  match v with
  | .theSynth => inferInstanceAs (DecidableEq Unit)
  | .fpgaSynth => inferInstanceAs (DecidableEq FpgaSynth.Locals)
instance (v : Version) : Repr v.Locals :=
  match v with
  | .theSynth => inferInstanceAs (Repr Unit)
  | .fpgaSynth => inferInstanceAs (Repr FpgaSynth.Locals)

def theSynthSteps : Steps Unit Word Word := ⟨(),fun _ key => if key = 0 then .goesOn () else .returns key⟩

def fpgaSynthSteps : Steps FpgaSynth.Locals Word Word :=
  ⟨⟨0,0⟩,fun l tmp =>
    let now := l.read tmp
    if tmp = 0 ∧ FpgaSynth.validKey now.key then .returns now.key else .goesOn now⟩

def Version.getKey : (v : Version) → Steps v.Locals Word Word
  | .theSynth => theSynthSteps
  | .fpgaSynth => fpgaSynthSteps

def Version.reader : Version → Reader Word Word
  | .theSynth => GetKey.theSynth
  | .fpgaSynth => GetKey.fpgaSynth

/- The clocks of CLOCK_50 in which a read has to start so that it returns every key:
those of a byte, or less than half of them. -/
def Version.gap : Version → Nat
  | .theSynth => 11264
  | .fpgaSynth => 5631

theorem gapInByte (v : Version) : v.gap ≤ 11264 := by cases v <;> decide

/- fpga_synth returns no key that ends with the byte 0. -/
def Version.Plain : Version → Byte → Prop
  | .theSynth, _ => True
  | .fpgaSynth, b => b ≠ 0

theorem theSynthCall (reads : List Word) : theSynthSteps.call () reads = TheSynth.getKey reads := by
  induction reads with
  | nil => rfl
  | cons key rest ih =>
    simp only [Steps.call,theSynthSteps,TheSynth.getKey]
    by_cases zero : key = 0
    · rw [if_pos zero,if_pos zero]
      exact ih
    · rw [if_neg zero,if_neg zero]

theorem fpgaSynthCall (l : FpgaSynth.Locals) (reads : List Word) :
    fpgaSynthSteps.call l reads = FpgaSynth.loop l reads := by
  induction reads generalizing l with
  | nil => rfl
  | cons tmp rest ih =>
    simp only [Steps.call,fpgaSynthSteps,FpgaSynth.loop]
    by_cases ends : tmp = 0 ∧ FpgaSynth.validKey (l.read tmp).key
    · rw [if_pos ends,if_pos ends]
    · rw [if_neg ends,if_neg ends]
      exact ih (l.read tmp)

theorem versionReader (v : Version) : v.getKey.reader = v.reader := by
  cases v with
  | theSynth => exact readerSame theSynthCall
  | fpgaSynth => exact readerSame (fpgaSynthCall ⟨0,0⟩)

theorem versionValues (v : Version) (reads : List Word) :
    v.reader.values reads = v.getKey.values v.getKey.start reads := by
  rw [← versionReader,readerValues]

end FpgaSynthesizer.GetKeySteps
