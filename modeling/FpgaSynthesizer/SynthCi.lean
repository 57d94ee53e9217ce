import FpgaSynthesizer.RegisterBits

/-! The synthesizer's custom instruction. One clock of synth_ci, and the
transaction the processor makes of it: start is high for one clock, and the
instruction ends in the first later clock with done. The reset input is in the
sensitivity list, but its branch assigns nothing. -/
namespace FpgaSynthesizer.SynthCi
open RegisterBits

inductive Opcode where
  | keyOn
  | keyOff
  | effectOn
  | effectOff
  deriving DecidableEq, Repr

/- The program's enumeration counts from zero in this order; the module's
localparams give the same codes. -/
def Opcode.n : Opcode → BitVec 2
  | .keyOn => 0b00
  | .keyOff => 0b01
  | .effectOn => 0b10
  | .effectOff => 0b11

structure Regs where
  curSounds : BitVec 88
  curEffects : BitVec 18
  deriving DecidableEq, Repr

structure Inputs where
  reset : Bool
  clkEn : Bool
  start : Bool
  opcode : BitVec 2
  data : BitVec 32
  deriving DecidableEq, Repr

def done (i : Inputs) : Bool := i.clkEn && !i.start

def clock (r : Regs) (i : Inputs) : Regs :=
  if i.reset then r
  else if i.clkEn then
    if i.start then
      if i.opcode = Opcode.n .keyOn then {r with curSounds := writeBit r.curSounds i.data.toNat true}
      else if i.opcode = Opcode.n .keyOff then {r with curSounds := writeBit r.curSounds i.data.toNat false}
      else if i.opcode = Opcode.n .effectOn then {r with curEffects := writeBit r.curEffects i.data.toNat true}
      else {r with curEffects := writeBit r.curEffects i.data.toNat false}
    else r
  else r

/- ALT_CI_SYNTH_CI_0(n, A): the start clock, then a clock that sees done. -/
def customInstruction (r : Regs) (opcode : Opcode) (a : BitVec 32) : Regs :=
  let started := clock r ⟨false,true,true,opcode.n,a⟩
  let waiting : Inputs := ⟨false,true,false,opcode.n,a⟩
  if done waiting then clock started waiting else started

def reset (r : Regs) : Regs := clock r ⟨true,false,false,0,0⟩

theorem instructionKeyOn (r : Regs) (a : BitVec 32) :
    customInstruction r .keyOn a = {r with curSounds := writeBit r.curSounds a.toNat true} := rfl

theorem instructionKeyOff (r : Regs) (a : BitVec 32) :
    customInstruction r .keyOff a = {r with curSounds := writeBit r.curSounds a.toNat false} := rfl

theorem instructionEffectOn (r : Regs) (a : BitVec 32) :
    customInstruction r .effectOn a = {r with curEffects := writeBit r.curEffects a.toNat true} := rfl

theorem instructionEffectOff (r : Regs) (a : BitVec 32) :
    customInstruction r .effectOff a = {r with curEffects := writeBit r.curEffects a.toNat false} := rfl

theorem resetKeeps (r : Regs) : reset r = r := rfl

end FpgaSynthesizer.SynthCi
