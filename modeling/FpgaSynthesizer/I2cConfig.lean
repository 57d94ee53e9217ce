import FpgaSynthesizer.I2cController

/-! I2C_AV_Config: the table of register words, the process that hands them to
the controller one after the other, and the two together on one control clock. A
word is handed over again when a device did not acknowledge it. -/
namespace FpgaSynthesizer.I2cConfig
open I2cBus
open I2cController (Period ack i2cSdat levels)

def lutSize : Nat := 50

def setVideo : Nat := 10

def lutTable : List (BitVec 16) :=
  [0x001A,0x021A,0x047B,0x067B,0x08F8,0x0A06,0x0C00,0x0E01,0x1002,0x1201,
   0x1500,0x1741,0x3a16,0x5004,0xc305,0xc480,0x0e80,0x5020,0x5218,0x58ed,
   0x77c5,0x7c93,0x7d00,0xd048,0xd5a0,0xd7ea,0xe43e,0xea0f,0x3112,0x3281,
   0x3384,0x37A0,0xe580,0xe603,0xe785,0x5000,0x5100,0x0050,0x1000,0x0402,
   0x0b00,0x0a20,0x1100,0x2b00,0x2c8c,0x2df2,0x2eee,0x2ff4,0x30d2,0x0e05]

/- No index from lutSize on is looked up; the source leaves those unknown. -/
def lutData (index : BitVec 6) : BitVec 16 := lutTable.getD index.toNat 0

def word (index : BitVec 6) : BitVec 24 :=
  if index.toNat < setVideo then 0x34#8 ++ lutData index else 0x40#8 ++ lutData index

structure Regs where
  lutIndex : BitVec 6
  mSetupST : BitVec 4
  mI2cGo : Bool
  mI2cData : BitVec 24
  oI2cEnd : Bool
  deriving DecidableEq, Repr

def clock (r : Regs) (mI2cEnd mI2cAck : Bool) : Regs :=
  if r.lutIndex.toNat < lutSize then
    if r.mSetupST = 0 then
      {r with oI2cEnd := false, mI2cData := word r.lutIndex, mI2cGo := true, mSetupST := 1}
    else if r.mSetupST = 1 then
      if mI2cEnd then
        {r with oI2cEnd := false, mSetupST := if !mI2cAck then 2 else 0, mI2cGo := false}
      else {r with oI2cEnd := false}
    else if r.mSetupST = 2 then
      {r with oI2cEnd := false, lutIndex := r.lutIndex + 1, mSetupST := 0}
    else {r with oI2cEnd := false}
  else {r with oI2cEnd := true}

/- RESET clears neither the data nor o_I2C_END. -/
def reset (r : Regs) : Regs := {r with lutIndex := 0, mSetupST := 0, mI2cGo := false}

/-! ### The two processes on the control clock -/

structure System where
  config : Regs
  controller : I2cController.Regs
  released : Bool
  deriving DecidableEq, Repr

def step (s : System) (x : Period) : System :=
  {config := clock s.config s.controller.endReg (ack s.controller)
   controller := I2cController.clock s.controller
     ⟨s.config.mI2cGo,s.config.mI2cData,i2cSdat s.controller s.released⟩
   released := x.low}

def run (s : System) (periods : List Period) : System := periods.foldl step s

/- iRST_N low, with the lines at rest. -/
def resetSystem (s : System) : System := ⟨reset s.config,I2cController.reset s.controller,true⟩

def watched (o : Observer) (s : System) : List Period → Observer
  | [] => o
  | x :: rest => watched (watchAll o (levels (step s x).controller x)) (step s x) rest

def Polite (s : System) : List Period → Prop
  | [] => True
  | x :: rest => I2cController.Polite (step s x).controller x ∧ Polite (step s x) rest

instance politeDecidable (s : System) (periods : List Period) : Decidable (Polite s periods) :=
  match periods with
  | [] => isTrue trivial
  | x :: rest =>
    have := politeDecidable (step s x) rest
    inferInstanceAs (Decidable (_ ∧ _))

end FpgaSynthesizer.I2cConfig
