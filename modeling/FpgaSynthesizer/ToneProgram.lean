import FpgaSynthesizer.SynthCi
import Mathlib.Algebra.Group.Int.Defs
import Mathlib.Algebra.Group.Nat.Defs

/-! The program the_synth over its two devices. Each function of main.c returns
its new statics and the ordered device actions it performs; no device read
decides a branch, so the actions are performed afterwards in that order. An int
is the mathematical value wrapped to 32 bits after each operation. -/
namespace FpgaSynthesizer.ToneProgram
open SynthCi (Opcode)

abbrev Word := BitVec 32

/- Keyboard values of the used keys, under the names of mappings.h. -/
namespace Key
def A : Word := 0x1c
def W : Word := 0x1d
def S : Word := 0x1b
def D : Word := 0x23
def R : Word := 0x2d
def F : Word := 0x2b
def T : Word := 0x2c
def G : Word := 0x34
def H : Word := 0x33
def U : Word := 0x3c
def J : Word := 0x3b
def I : Word := 0x43
def K : Word := 0x42
def O : Word := 0x44
def L : Word := 0x4b
def OE : Word := 0x4c
def AA : Word := 0x54
def AE : Word := 0x52
def LT : Word := 0x61
def Z : Word := 0x1a
end Key

abbrev numRelTones : Nat := 18

def int32 (x : Int) : Int := x.bmod (2^32)

theorem int32Mod (x : Int) : int32 x % 2^32 = x % 2^32 := Int.bmod_emod

def keyToRelTone (key : Word) : Int :=
  if key = Key.A then 0
  else if key = Key.W then 1
  else if key = Key.S then 2
  else if key = Key.D then 3
  else if key = Key.R then 4
  else if key = Key.F then 5
  else if key = Key.T then 6
  else if key = Key.G then 7
  else if key = Key.H then 8
  else if key = Key.U then 9
  else if key = Key.J then 10
  else if key = Key.I then 11
  else if key = Key.K then 12
  else if key = Key.O then 13
  else if key = Key.L then 14
  else if key = Key.OE then 15
  else if key = Key.AA then 16
  else if key = Key.AE then 17
  else -1

def relToAbsTone (relTone octave : Int) : Int :=
  if relTone < 0 ∨ relTone ≥ numRelTones then -1
  else
    let tone := int32 (relTone + int32 (12 * octave))
    if tone < 88 then tone else -1

inductive Action where
  | synth (opcode : Opcode) (a : Word)
  | ledOn (num : Int)
  | ledOff (num : Int)
  | setLeds (val : Word)
  deriving DecidableEq, Repr

structure Statics where
  tonesStatus : Vector Int numRelTones
  prevOctave : Int
  prevSw : Word
  deriving DecidableEq, Repr

def initial : Statics := ⟨Vector.replicate numRelTones 0,4,0⟩

/- The first loop of an octave shift: every tone of the old window goes off. -/
def silenceWindow (octave : Int) : List (Fin numRelTones) → List Action
  | [] => []
  | i :: rest =>
    let absTone := relToAbsTone i octave
    if absTone ≠ -1 then .synth .keyOff (BitVec.ofInt 32 absTone) :: silenceWindow octave rest
    else silenceWindow octave rest

/- The second loop: every tone of the new window is written from its status,
and leds collects the keys that sound. -/
def soundWindow (tonesStatus : Vector Int numRelTones) (octave : Int) :
    List (Fin numRelTones) → Word → List Action × Word
  | [], leds => ([],leds)
  | i :: rest, leds =>
    let absTone := relToAbsTone i octave
    if absTone ≠ -1 then
      if tonesStatus.get i ≠ 0 then
        let tail := soundWindow tonesStatus octave rest (leds ||| (1#32 <<< i.val))
        (.synth .keyOn (BitVec.ofInt 32 absTone) :: tail.1,tail.2)
      else
        let tail := soundWindow tonesStatus octave rest leds
        (.synth .keyOff (BitVec.ofInt 32 absTone) :: tail.1,tail.2)
    else soundWindow tonesStatus octave rest leds

def updateSynthTones (s : Statics) (relTone : Int) (opcode : Opcode) (octKey : Word) :
    Statics × List Action :=
  let octave :=
    if octKey = Key.LT then int32 (s.prevOctave - 1)
    else if octKey = Key.Z then int32 (s.prevOctave + 1)
    else s.prevOctave
  let tonesStatus :=
    if relTone ≠ -1 then
      s.tonesStatus.setIfInBounds relTone.toNat (if opcode = .keyOn then 1 else 0)
    else s.tonesStatus
  if octave ≠ s.prevOctave then
    let on := soundWindow tonesStatus octave (List.finRange numRelTones) 0
    ({s with tonesStatus := tonesStatus, prevOctave := octave},
      silenceWindow s.prevOctave (List.finRange numRelTones) ++ on.1 ++ [.setLeds on.2])
  else
    let absTone := relToAbsTone relTone octave
    ({s with tonesStatus := tonesStatus},
      if absTone ≠ -1 then
        if opcode = .keyOn then [.synth .keyOn (BitVec.ofInt 32 absTone),.ledOn relTone]
        else [.synth .keyOff (BitVec.ofInt 32 absTone),.ledOff relTone]
      else [])

def handleKey (s : Statics) (key : Word) : Statics × List Action :=
  let byte1 := key &&& 0xff
  let byte2 := (key >>> 8) &&& 0xff
  let opcode := if byte2 = 0xf0 then Opcode.keyOff else Opcode.keyOn
  let relTone := keyToRelTone byte1
  updateSynthTones s relTone opcode key

def handleSwitches (s : Statics) (sw : Word) : Statics × List Action :=
  if sw ≠ s.prevSw then
    ({s with prevSw := sw},
      [if sw &&& 0x1 ≠ 0 then .synth .effectOn 0 else .synth .effectOff 0,
       if sw &&& 0x2 ≠ 0 then .synth .effectOn 1 else .synth .effectOff 1])
  else (s,[])

/-! The devices: the synthesizer's registers and the 18-bit output PIO of the
LEDs, which reads back the value last written. -/
structure Board where
  synth : SynthCi.Regs
  leds : BitVec 18
  deriving DecidableEq, Repr

def ledOn (num : Int) (leds : BitVec 18) : BitVec 18 :=
  if num < 0 ∨ num > 17 then leds
  else ((leds.setWidth 32) ||| (1#32 <<< num.toNat)).setWidth 18

def ledOff (num : Int) (leds : BitVec 18) : BitVec 18 :=
  if num < 0 ∨ num > 17 then leds
  else
    let mask := ~~~(0#32) ^^^ (1#32 <<< num.toNat)
    ((leds.setWidth 32) &&& mask).setWidth 18

def setLeds (val : Word) : BitVec 18 := (val &&& 0x3ffff).setWidth 18

def perform (b : Board) : Action → Board
  | .synth opcode a => {b with synth := SynthCi.customInstruction b.synth opcode a}
  | .ledOn num => {b with leds := ledOn num b.leds}
  | .ledOff num => {b with leds := ledOff num b.leds}
  | .setLeds val => {b with leds := setLeds val}

def performAll (b : Board) (actions : List Action) : Board := actions.foldl perform b

inductive Call where
  | key (key : Word)
  | switches (sw : Word)
  deriving DecidableEq, Repr

structure System where
  statics : Statics
  board : Board
  deriving DecidableEq, Repr

def handle (s : Statics) : Call → Statics × List Action
  | .key key => handleKey s key
  | .switches sw => handleSwitches s sw

def call (s : System) (c : Call) : System :=
  let out := handle s.statics c
  ⟨out.1,performAll s.board out.2⟩

def run (s : System) (calls : List Call) : System := calls.foldl call s

def powerUp : System := ⟨initial,⟨⟨0,0⟩,0⟩⟩

end FpgaSynthesizer.ToneProgram
