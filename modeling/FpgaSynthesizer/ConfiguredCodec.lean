import FpgaSynthesizer.ClockedBoard
import FpgaSynthesizer.I2cClocked

/-! The board from reset on, with the configuration of the converters beside it. The
PLL that makes the codec's clock is in reset until o_I2C_END is high, so the codec
does not move before the last word of the table is acknowledged. -/
namespace FpgaSynthesizer.ConfiguredCodec
open GetKeySteps (Version)
open I2cBus
open I2cClocked (acknowledged configured)

variable {v : Version}

structure Chip (v : Version) where
  i2c : I2cClocked.Board
  board : ClockedBoard.Board v
  deriving DecidableEq, Repr

/- An edge of CLOCK_50, with what the devices leave on I2C_SDAT until the next one, and
an edge of the codec's clock. -/
inductive Event where
  | clock50 (i : ClockedBoard.Inputs) (released : Bool)
  | clk18
  deriving DecidableEq, Repr

def step (c : Chip v) : Event → Chip v
  | .clock50 i released => ⟨I2cClocked.clock c.i2c released,ClockedBoard.clock50 c.board i⟩
  | .clk18 => {c with board := ClockedBoard.step c.board .clk18}

def run (c : Chip v) (events : List Event) : Chip v := events.foldl step c

def powerUp (v : Version) (i2c : I2cClocked.Board) (keyboard : Ps2Board.Regs) : Chip v :=
  ⟨I2cClocked.reset i2c,ClockedBoard.powerUp v keyboard⟩

/- The reset of VGA_Audio_PLL. -/
def areset (c : Chip v) : Bool := !c.i2c.config.oI2cEnd

/- The output of a PLL that is in reset has no edge. -/
def PllHolds (c : Chip v) : List Event → Prop
  | [] => True
  | e :: rest => (e = .clk18 → areset c = false) ∧ PllHolds (step c e) rest

def sda : List Event → List Bool
  | [] => []
  | .clock50 _ released :: rest => released :: sda rest
  | .clk18 :: rest => sda rest

def shown (c : Chip v) (events : List Event) : Observer := I2cClocked.watched (quiet []) c.i2c (sda events)

/-! ### The two parts -/

theorem runI2c (c : Chip v) (events : List Event) : (run c events).i2c = I2cClocked.run c.i2c (sda events) := by
  induction events generalizing c with
  | nil => rfl
  | cons e rest ih =>
    cases e with
    | clock50 i released => exact ih (step c (.clock50 i released))
    | clk18 => exact ih (step c .clk18)

theorem sdaAppend (first last : List Event) : sda (first ++ last) = sda first ++ sda last := by
  induction first with
  | nil => rfl
  | cons e rest ih =>
    cases e with
    | clock50 i released => exact congrArg (List.cons released) ih
    | clk18 => exact ih

theorem pllSplit {c : Chip v} {first last : List Event} (holds : PllHolds c (first ++ .clk18 :: last)) :
    areset (run c first) = false := by
  induction first generalizing c with
  | nil => exact holds.1 rfl
  | cons e rest ih => exact ih holds.2

theorem aresetLow {c : Chip v} {events : List Event} :
    areset (run c events) = false ↔ (I2cClocked.run c.i2c (sda events)).config.oI2cEnd = true := by
  rw [areset,runI2c,Bool.not_eq_false']

theorem codecConfigured (i2c : I2cClocked.Board) (down : i2c.config.oI2cEnd = false) (keyboard : Ps2Board.Regs)
    (first last : List Event) (polite : I2cClocked.Polite (I2cClocked.reset i2c) (sda (first ++ .clk18 :: last)))
    (holds : PllHolds (powerUp v i2c keyboard) (first ++ .clk18 :: last)) :
    acknowledged (shown (powerUp v i2c keyboard) first) = configured ∧
      8841035 + 185074 * (messages (shown (powerUp v i2c keyboard) first)).countP I2cTransfers.refusal ≤
        (sda first).length := by
  have done := aresetLow.mp (pllSplit holds)
  rw [sdaAppend] at polite
  have part := I2cClocked.politePart polite
  have begun : 2501 ≤ (sda first).length := by
    rcases Nat.lt_or_ge (sda first).length 2501 with early | late
    · have still := I2cClocked.earlyEnd i2c part early
      exact absurd (done.symm.trans (still.trans down)) (by decide)
    · exact late
  exact ⟨I2cClocked.clockedDone i2c part begun done,(I2cClocked.clockedEnd i2c part begun).mp done⟩

def resting : ClockedBoard.Inputs := ⟨⟨true,true⟩,false,0,⟨0,0,true,false⟩,0⟩

def clocks (levels : List Bool) : List Event := levels.map (.clock50 resting)

theorem sdaClocks (levels : List Bool) : sda (clocks levels) = levels := by
  induction levels with
  | nil => rfl
  | cons x rest ih => exact congrArg (List.cons x) ih

theorem pllClocks (c : Chip v) (levels : List Bool) (done : areset (run c (clocks levels)) = false) :
    PllHolds c (clocks levels ++ [.clk18]) := by
  induction levels generalizing c with
  | nil => exact ⟨fun _ => done,trivial⟩
  | cons x rest ih => exact ⟨(nomatch ·),ih _ done⟩

def answered (i2c : I2cClocked.Board) (n : Nat) : List Event :=
  clocks (I2cClocked.answering (I2cClocked.reset i2c) n)

theorem answeredPolite (i2c : I2cClocked.Board) (n : Nat) :
    I2cClocked.Polite (I2cClocked.reset i2c) (sda (answered i2c n ++ [.clk18])) := by
  rw [sdaAppend,answered,sdaClocks,sda,sda,List.append_nil]
  exact (I2cClocked.answeringPolite (I2cClocked.resetFollows i2c) n).1

theorem answeredHolds (i2c : I2cClocked.Board) (keyboard : Ps2Board.Regs) {n : Nat} (late : 8841035 ≤ n) :
    PllHolds (powerUp v i2c keyboard) (answered i2c n ++ [.clk18]) := by
  have devices := I2cClocked.answeringPolite (I2cClocked.resetFollows i2c) n
  have length := I2cClocked.answeringLength (I2cClocked.reset i2c) n
  refine pllClocks _ _ (aresetLow.mpr ?_)
  rw [sdaClocks]
  refine (I2cClocked.answeredEnd i2c devices.1 devices.2 ?_).mpr ?_
  · omega
  · omega

theorem answeredConfigured :
    acknowledged (shown (powerUp .fpgaSynth I2cClocked.powerUp Ps2Board.powerUp)
      (answered I2cClocked.powerUp 8841035)) = configured :=
  (codecConfigured I2cClocked.powerUp rfl Ps2Board.powerUp _ [] (answeredPolite I2cClocked.powerUp 8841035)
    (answeredHolds I2cClocked.powerUp Ps2Board.powerUp (Nat.le_refl 8841035))).1

end FpgaSynthesizer.ConfiguredCodec
