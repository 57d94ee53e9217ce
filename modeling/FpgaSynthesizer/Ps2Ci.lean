import FpgaSynthesizer.Mailbox

/-! The keyboard's custom instruction, one clock at a time. The inputs clk_en and
reset of ps2_ci are read by no process. Every register is assigned from the
values before the clock, and the last assignment to one of them counts. -/
namespace FpgaSynthesizer.Ps2Ci
open Mailbox

abbrev Byte := BitVec 8
abbrev Word := BitVec 32

namespace State
def zero : BitVec 4 := 0x0
def new : BitVec 4 := 0x1
def send : BitVec 4 := 0x2
def invalid : BitVec 4 := 0x3
end State

structure Regs where
  dWorking : Bool
  newByte : Bool
  state : BitVec 4
  shift : Word
  done : Bool
  result : Word
  deriving DecidableEq, Repr

structure Inputs where
  start : Bool
  working : Bool
  keycode : Byte
  deriving DecidableEq, Repr

def isPrefix (keycode : Byte) : Bool := keycode = 0xf0 || keycode = 0xe0

/- The falling edge of working, seen one clock later. -/
def edge (r : Regs) (i : Inputs) : Regs :=
  {r with dWorking := i.working, newByte := !i.working && r.dWorking}

def onZero (r : Regs) (i : Inputs) : Regs :=
  let e := edge r i
  if r.newByte then
    if isPrefix i.keycode then
      {e with shift := i.keycode.setWidth 32, result := 0, done := i.start, state := State.invalid}
    else
      {e with shift := i.keycode.setWidth 32, result := 0, done := false,
              state := if i.start then State.send else State.new}
  else {e with shift := 0, result := 0, done := i.start}

def onNew (r : Regs) (i : Inputs) : Regs :=
  let e := edge r i
  if r.newByte then
    if isPrefix i.keycode then
      {e with shift := i.keycode.setWidth 32, result := r.shift, done := i.start, state := State.invalid}
    else {e with shift := i.keycode.setWidth 32, result := r.shift, done := i.start}
  else if i.start then
    {e with shift := 0, result := r.shift, done := i.start, state := State.zero}
  else {e with result := r.shift, done := i.start}

def onSend (r : Regs) (i : Inputs) : Regs :=
  {edge r i with shift := 0, result := r.shift, done := true, state := State.zero}

def onInvalid (r : Regs) (i : Inputs) : Regs :=
  let e := edge r i
  if r.newByte then
    if isPrefix i.keycode then
      {e with shift := r.shift.extractLsb' 0 24 ++ i.keycode, result := 0, done := i.start}
    else
      {e with shift := r.shift.extractLsb' 0 24 ++ i.keycode, result := 0, done := false,
              state := if i.start then State.send else State.new}
  else {e with result := 0, done := i.start}

def clock (r : Regs) (i : Inputs) : Regs :=
  if r.state = State.zero then onZero r i
  else if r.state = State.new then onNew r i
  else if r.state = State.send then onSend r i
  else if r.state = State.invalid then onInvalid r i
  else {edge r i with state := State.zero}

theorem clockZero {r : Regs} (state : r.state = State.zero) (i : Inputs) : clock r i = onZero r i := by
  rw [clock,if_pos state]

theorem clockNew {r : Regs} (state : r.state = State.new) (i : Inputs) : clock r i = onNew r i := by
  rw [clock,state,if_neg (by decide),if_pos rfl]

theorem clockSend {r : Regs} (state : r.state = State.send) (i : Inputs) : clock r i = onSend r i := by
  rw [clock,state,if_neg (by decide),if_neg (by decide),if_pos rfl]

theorem clockInvalid {r : Regs} (state : r.state = State.invalid) (i : Inputs) :
    clock r i = onInvalid r i := by
  rw [clock,state,if_neg (by decide),if_neg (by decide),if_neg (by decide),if_pos rfl]

/- A cycle is the registers before a clock with the inputs of that clock. -/
def byteOf (r : Regs) (i : Inputs) : Option Byte := if r.newByte then some i.keycode else none

def cyclesOf (r : Regs) : List Inputs → List (ClockCycle Byte)
  | [] => []
  | i :: rest => ⟨i.start,byteOf r i⟩ :: cyclesOf (clock r i) rest

def bytesOf (r : Regs) (inputs : List Inputs) : List Byte := (cyclesOf r inputs).filterMap ClockCycle.byte

def shown (r : Regs) : List Word := if r.done then [r.result] else []

def results (r : Regs) : List Inputs → List Word
  | [] => []
  | i :: rest => shown r ++ results (clock r i) rest

def run (r : Regs) (inputs : List Inputs) : Regs := inputs.foldl clock r

theorem bytesAppend (r : Regs) (a b : List Inputs) :
    bytesOf r (a ++ b) = bytesOf r a ++ bytesOf (run r a) b := by
  induction a generalizing r with
  | nil => rfl
  | cons i rest ih =>
    have tail := ih (clock r i)
    simp only [bytesOf] at tail
    simp only [bytesOf,List.cons_append,cyclesOf,List.filterMap_cons,tail]
    cases byteOf r i <;> rfl

def starts (inputs : List Inputs) : Nat := inputs.countP (fun i => i.start)

/- The processor raises start only when every earlier start has seen done. -/
def Protocol (r : Regs) (inputs : List Inputs) : Prop :=
  ∀ n, (h : n < inputs.length) → inputs[n].start = true →
    starts (inputs.take n) = (results r (inputs.take (n+1))).length
instance (r inputs) : Decidable (Protocol r inputs) := by unfold Protocol; infer_instance

def value (bytes : List Byte) : Word := BitVec.ofNat 32 (bytes.foldl (fun v b => v*256 + b.toNat) 0)

theorem valueOne (b : Byte) : value [b] = b.setWidth 32 := by
  apply BitVec.eq_of_toNat_eq
  simp [value]

theorem valueSnoc (seen : List Byte) (b : Byte) :
    value (seen ++ [b]) = (value seen).extractLsb' 0 24 ++ b := by
  apply BitVec.eq_of_toNat_eq
  have small := b.isLt
  rw [BitVec.toNat_append,Nat.shiftLeft_eq,Nat.mul_comm,← Nat.two_pow_add_eq_or_of_lt small]
  simp only [value,List.foldl_append,List.foldl_cons,List.foldl_nil,BitVec.toNat_ofNat,
    BitVec.extractLsb'_toNat,Nat.shiftRight_zero]
  omega

/-! ### Bytes of a value -/

theorem wordByte (b : Byte) : (b.setWidth 32 : Word).setWidth 8 = b := by simp

theorem wordInjective (b d : Byte) : (b.setWidth 32 : Word) = d.setWidth 32 ↔ b = d := by
  constructor
  · intro same
    rw [← wordByte b,same,wordByte]
  · rintro rfl
    rfl

theorem lowByte (key : Word) : key &&& 0xff = (key.setWidth 8).setWidth 32 := by
  apply BitVec.eq_of_toNat_eq
  have low : (key &&& 0xff).toNat = key.toNat % 256 :=
    (BitVec.toNat_and key 0xff).trans (Nat.and_two_pow_sub_one_eq_mod key.toNat 8)
  rw [low,BitVec.toNat_setWidth,BitVec.toNat_setWidth]
  omega

theorem valueShift (seen : List Byte) (b : Byte) :
    value (seen ++ [b]) = (value seen <<< 8) ||| b.setWidth 32 := by
  rw [valueSnoc]
  apply BitVec.eq_of_getLsbD_eq
  intro j _
  simp only [BitVec.getLsbD_append,BitVec.getLsbD_or,BitVec.getLsbD_shiftLeft,BitVec.getLsbD_setWidth,
    BitVec.getLsbD_extractLsb']
  grind

theorem valueLow (seen : List Byte) (b : Byte) : (value (seen ++ [b])).setWidth 8 = b := by
  rw [valueShift,BitVec.setWidth_or,wordByte]
  simp

end FpgaSynthesizer.Ps2Ci
