import FpgaSynthesizer.I2cBus
import Mathlib.Tactic.IntervalCases

/-! I2C_Controller, one rising edge of its CLOCK at a time. Its two processes are
clocked by the same edge and each takes the other's register as it stood before
that edge, as their flip-flops do. Between two edges CLOCK is high and then low, and
SCL follows CLOCK inverted while the counter stands on a bit. -/
namespace FpgaSynthesizer.I2cController
open I2cBus

structure Regs where
  sdo : Bool
  sclk : Bool
  endReg : Bool
  sd : BitVec 24
  sdCounter : BitVec 6
  ack1 : Bool
  ack2 : Bool
  ack3 : Bool
  deriving DecidableEq, Repr

structure Inputs where
  go : Bool
  i2cData : BitVec 24
  i2cSdat : Bool
  deriving DecidableEq, Repr

def ack (r : Regs) : Bool := r.ack1 || r.ack2 || r.ack3

def i2cSclk (r : Regs) (clock : Bool) : Bool :=
  r.sclk || (if 4 ≤ r.sdCounter ∧ r.sdCounter ≤ 30 then !clock else false)

/- SDO pulls the line low or leaves it to the devices. -/
def i2cSdat (r : Regs) (released : Bool) : Bool := if r.sdo then released else false

def counter (r : Regs) (i : Inputs) : BitVec 6 :=
  if i.go = false then 0
  else if r.sdCounter < 63 then r.sdCounter + 1
  else r.sdCounter

def onCounter (r : Regs) (i : Inputs) : Regs :=
  match r.sdCounter.toNat with
  | 0 => {r with ack1 := false, ack2 := false, ack3 := false, endReg := false, sdo := true, sclk := true}
  -- start
  | 1 => {r with sd := i.i2cData, sdo := false}
  | 2 => {r with sclk := false}
  -- slave address
  | 3 => {r with sdo := r.sd.getLsbD 23}
  | 4 => {r with sdo := r.sd.getLsbD 22}
  | 5 => {r with sdo := r.sd.getLsbD 21}
  | 6 => {r with sdo := r.sd.getLsbD 20}
  | 7 => {r with sdo := r.sd.getLsbD 19}
  | 8 => {r with sdo := r.sd.getLsbD 18}
  | 9 => {r with sdo := r.sd.getLsbD 17}
  | 10 => {r with sdo := r.sd.getLsbD 16}
  | 11 => {r with sdo := true}
  -- sub address
  | 12 => {r with sdo := r.sd.getLsbD 15, ack1 := i.i2cSdat}
  | 13 => {r with sdo := r.sd.getLsbD 14}
  | 14 => {r with sdo := r.sd.getLsbD 13}
  | 15 => {r with sdo := r.sd.getLsbD 12}
  | 16 => {r with sdo := r.sd.getLsbD 11}
  | 17 => {r with sdo := r.sd.getLsbD 10}
  | 18 => {r with sdo := r.sd.getLsbD 9}
  | 19 => {r with sdo := r.sd.getLsbD 8}
  | 20 => {r with sdo := true}
  -- data
  | 21 => {r with sdo := r.sd.getLsbD 7, ack2 := i.i2cSdat}
  | 22 => {r with sdo := r.sd.getLsbD 6}
  | 23 => {r with sdo := r.sd.getLsbD 5}
  | 24 => {r with sdo := r.sd.getLsbD 4}
  | 25 => {r with sdo := r.sd.getLsbD 3}
  | 26 => {r with sdo := r.sd.getLsbD 2}
  | 27 => {r with sdo := r.sd.getLsbD 1}
  | 28 => {r with sdo := r.sd.getLsbD 0}
  | 29 => {r with sdo := true}
  -- stop
  | 30 => {r with sdo := false, sclk := false, ack3 := i.i2cSdat}
  | 31 => {r with sclk := true}
  | 32 => {r with sdo := true, endReg := true}
  | _ => r

def clock (r : Regs) (i : Inputs) : Regs := {onCounter r i with sdCounter := counter r i}

def reset (r : Regs) : Regs :=
  {r with sdCounter := 63, sclk := true, sdo := true, ack1 := false, ack2 := false, ack3 := false, endReg := true}

/- What the devices leave on SDA while CLOCK is high and while it is low. -/
structure Period where
  high : Bool
  low : Bool
  deriving DecidableEq, Repr

def levels (r : Regs) (x : Period) : List Level :=
  [⟨i2cSclk r true,i2cSdat r x.high⟩,⟨i2cSclk r false,i2cSdat r x.low⟩]

/-! ### The registers during a transfer -/

/- The level of SDA in the three acknowledge bits; a device pulls it low. -/
structure Acks where
  first : Bool
  second : Bool
  third : Bool
  deriving DecidableEq, Repr

def Acks.refused (a : Acks) : Bool := a.first || a.second || a.third

def frame (w : BitVec 24) (a : Acks) : List Bool :=
  [w.getLsbD 23,w.getLsbD 22,w.getLsbD 21,w.getLsbD 20,w.getLsbD 19,w.getLsbD 18,w.getLsbD 17,w.getLsbD 16,
   a.first,
   w.getLsbD 15,w.getLsbD 14,w.getLsbD 13,w.getLsbD 12,w.getLsbD 11,w.getLsbD 10,w.getLsbD 9,w.getLsbD 8,
   a.second,
   w.getLsbD 7,w.getLsbD 6,w.getLsbD 5,w.getLsbD 4,w.getLsbD 3,w.getLsbD 2,w.getLsbD 1,w.getLsbD 0,
   a.third]

def sdoLevels (w : BitVec 24) : List Bool :=
  [true,true,false,false] ++ frame w ⟨true,true,true⟩ ++ [false,false]

/- The registers at count k of a transfer, from GO to END. -/
def sending (w sd : BitVec 24) (a : Acks) (k : Nat) : Regs :=
  {sdo := (sdoLevels w).getD k true
   sclk := decide (k ≤ 2 ∨ 32 ≤ k)
   endReg := decide (33 ≤ k)
   sd := if k ≤ 1 then sd else w
   sdCounter := BitVec.ofNat 6 k
   ack1 := decide (13 ≤ k) && a.first
   ack2 := decide (22 ≤ k) && a.second
   ack3 := decide (31 ≤ k) && a.third}

def Acks.at (a : Acks) (k : Nat) (level : Bool) : Acks :=
  if k = 12 then {a with first := level}
  else if k = 21 then {a with second := level}
  else if k = 30 then {a with third := level}
  else a

theorem sendingClock {w sd : BitVec 24} {a : Acks} {k : Nat} (part : k < 33) {line : Bool}
    (sampled : a.at k line = a) : clock (sending w sd a k) ⟨true,w,line⟩ = sending w sd a (k+1) := by
  obtain ⟨first,second,third⟩ := a
  have slots : k = 12 ∨ k = 21 ∨ k = 30 ∨ (k ≠ 12 ∧ k ≠ 21 ∧ k ≠ 30) := by omega
  rcases slots with rfl | rfl | rfl | ⟨_,_,_⟩
  · obtain rfl : line = first := congrArg Acks.first sampled
    rfl
  · obtain rfl : line = second := congrArg Acks.second sampled
    rfl
  · obtain rfl : line = third := congrArg Acks.third sampled
    rfl
  · interval_cases k
    all_goals first | contradiction | rfl

theorem sendingAhead {w sd : BitVec 24} {a : Acks} {k : Nat} (part : k < 33) (level : Bool) :
    sending w sd (a.at (k+1) level) k = sending w sd a k := by
  have slots : k = 11 ∨ k = 20 ∨ k = 29 ∨ (k+1 ≠ 12 ∧ k+1 ≠ 21 ∧ k+1 ≠ 30) := by omega
  rcases slots with rfl | rfl | rfl | ⟨first,second,third⟩
  · rfl
  · rfl
  · rfl
  · rw [Acks.at,if_neg first,if_neg second,if_neg third]

theorem atAgain (a : Acks) (k : Nat) (level : Bool) : (a.at k level).at k level = a.at k level := by
  unfold Acks.at
  split
  · rfl
  · split
    · rfl
    · split <;> rfl

theorem atSampled {a : Acks} {k : Nat} {line : Bool} (sampled : a.at k line = a) (level : Bool) :
    (a.at (k+1) level).at k line = a.at (k+1) level := by
  by_cases slot : k+1 = 12 ∨ k+1 = 21 ∨ k+1 = 30
  · have apart : ∀ b : Acks, b.at k line = b := by
      intro b
      rw [Acks.at,if_neg (by omega),if_neg (by omega),if_neg (by omega)]
    exact apart _
  · have same : a.at (k+1) level = a := by
      rw [Acks.at,if_neg (by omega),if_neg (by omega),if_neg (by omega)]
    rw [same,sampled]

/-! ### The lines during a transfer -/

/- The controller leaves SDA to the devices, and takes it at the next edge. -/
def Acknowledges (r : Regs) : Prop := r.sdCounter = 12 ∨ r.sdCounter = 21 ∨ r.sdCounter = 30
instance (r) : Decidable (Acknowledges r) := by unfold Acknowledges; infer_instance

theorem controllerTaken {r : Regs} {i : Inputs} (clear : ack r = false)
    (pulled : Acknowledges r → i.i2cSdat = false) : ack (clock r i) = false := by
  have bits : (r.ack1 = false ∧ r.ack2 = false) ∧ r.ack3 = false := by simpa [ack] using clear
  obtain ⟨⟨first,second⟩,third⟩ := bits
  have own : ack (onCounter r i) = false := by
    unfold onCounter
    split
    all_goals first | exact clear | skip
    · rfl
    · rename_i count
      simp [ack,second,third,pulled (.inl (BitVec.eq_of_toNat_eq count))]
    · rename_i count
      simp [ack,first,third,pulled (.inr (.inl (BitVec.eq_of_toNat_eq count)))]
    · rename_i count
      simp [ack,first,second,pulled (.inr (.inr (BitVec.eq_of_toNat_eq count)))]
  exact own

def Polite (r : Regs) (x : Period) : Prop :=
  r.sdCounter = 12 ∨ r.sdCounter = 21 ∨ r.sdCounter = 30 ∨ x = ⟨true,true⟩
instance (r x) : Decidable (Polite r x) := by unfold Polite; infer_instance

def seen (w : BitVec 24) (a : Acks) (k : Nat) (ended : List (List Bool)) : Observer :=
  if k ≤ 1 then quiet ended
  else if k = 2 then begun ended
  else if k = 3 then between false [] ended
  else if k ≤ 30 then shows ((frame w a).take (k-4)) ((frame w a).getD (k-4) true) ended
  else if k = 31 then between false (frame w a) ended
  else if k = 32 then shows (frame w a) false ended
  else quiet (ended ++ [frame w a])

theorem seenAhead {w : BitVec 24} {a : Acks} {k : Nat} (part : k < 33) (level : Bool) (ended : List (List Bool)) :
    seen w (a.at (k+1) level) k ended = seen w a k ended := by
  have slots : k = 11 ∨ k = 20 ∨ k = 29 ∨ (k+1 ≠ 12 ∧ k+1 ≠ 21 ∧ k+1 ≠ 30) := by omega
  rcases slots with rfl | rfl | rfl | ⟨first,second,third⟩
  · rfl
  · rfl
  · rfl
  · rw [Acks.at,if_neg first,if_neg second,if_neg third]

theorem sendingSclk (w sd : BitVec 24) (a : Acks) {k : Nat} (part : k ≤ 33) (clock : Bool) :
    i2cSclk (sending w sd a k) clock = (decide (k ≤ 2 ∨ 32 ≤ k) || (decide (4 ≤ k ∧ k ≤ 30) && !clock)) := by
  have range : (4 : BitVec 6) ≤ BitVec.ofNat 6 k ∧ BitVec.ofNat 6 k ≤ 30 ↔ 4 ≤ k ∧ k ≤ 30 := by
    rw [BitVec.le_def,BitVec.le_def,BitVec.toNat_ofNat,Nat.mod_eq_of_lt (by omega)]
    rfl
  simp only [i2cSclk,sending,range]
  by_cases bit : 4 ≤ k ∧ k ≤ 30 <;> simp [bit]

theorem releasedSdat (r : Regs) : i2cSdat r true = r.sdo := by
  unfold i2cSdat
  cases r.sdo <;> rfl

theorem lineSampled {w sd : BitVec 24} {a : Acks} {k : Nat} {released : Bool} (sampled : a.at k released = a) :
    a.at k (i2cSdat (sending w sd a k) released) = a := by
  by_cases slot : k = 12 ∨ k = 21 ∨ k = 30
  · rcases slot with rfl | rfl | rfl <;> exact sampled
  · rw [Acks.at,if_neg (by omega),if_neg (by omega),if_neg (by omega)]

theorem politeElsewhere {w sd : BitVec 24} {a : Acks} {k : Nat} (part : k ≤ 33)
    (elsewhere : ¬ (k = 12 ∨ k = 21 ∨ k = 30)) {x : Period} (polite : Polite (sending w sd a k) x) :
    x = ⟨true,true⟩ := by
  have count : (sending w sd a k).sdCounter.toNat = k := Nat.mod_eq_of_lt (by omega)
  rcases polite with first | second | third | free
  · rw [first] at count
    exact absurd (.inl count.symm) elsewhere
  · rw [second] at count
    exact absurd (.inr (.inl count.symm)) elsewhere
  · rw [third] at count
    exact absurd (.inr (.inr count.symm)) elsewhere
  · exact free

theorem sendingBit {w sd : BitVec 24} {a : Acks} {k : Nat} (first : 4 ≤ k) (last : k ≤ 30) {x : Period}
    (polite : Polite (sending w sd a k) x) (sampled : a.at k x.low = a) :
    i2cSdat (sending w sd a k) x.low = (frame w a).getD (k-4) true := by
  by_cases slot : k = 12 ∨ k = 21 ∨ k = 30
  · rcases slot with rfl | rfl | rfl
    · exact congrArg Acks.first sampled
    · exact congrArg Acks.second sampled
    · exact congrArg Acks.third sampled
  · rw [politeElsewhere (by omega) slot polite,releasedSdat]
    interval_cases k
    all_goals first | contradiction | rfl

theorem bitSeen {w : BitVec 24} {a : Acks} {k : Nat} (first : 4 ≤ k) (last : k ≤ 30) (ended : List (List Bool)) :
    seen w a k ended = shows ((frame w a).take (k-4)) ((frame w a).getD (k-4) true) ended := by
  rw [seen,if_neg (by omega),if_neg (by omega),if_neg (by omega),if_pos last]

theorem bitLevels {w sd : BitVec 24} {a : Acks} {k : Nat} (first : 4 ≤ k) (last : k ≤ 30) {x : Period}
    (polite : Polite (sending w sd a k) x) (sampled : a.at k x.low = a) :
    levels (sending w sd a k) x =
      [⟨false,i2cSdat (sending w sd a k) x.high⟩,⟨true,(frame w a).getD (k-4) true⟩] := by
  have inside : 4 ≤ k ∧ k ≤ 30 := ⟨first,last⟩
  have outside : ¬ (k ≤ 2 ∨ 32 ≤ k) := by omega
  rw [levels,sendingBit first last polite sampled,sendingSclk _ _ _ (by omega),sendingSclk _ _ _ (by omega)]
  simp [inside,outside]

theorem sendingSeen {w sd : BitVec 24} {a : Acks} {k : Nat} (part : k < 33) {x : Period}
    (polite : Polite (sending w sd a (k+1)) x) (sampled : a.at (k+1) x.low = a) (ended : List (List Bool)) :
    watchAll (seen w a k ended) (levels (sending w sd a (k+1)) x) = seen w a (k+1) ended := by
  have size : (frame w a).length = 27 := rfl
  rcases Nat.lt_or_ge k 3 with early | later
  · obtain rfl := politeElsewhere (by omega) (by omega) polite
    have each : k = 0 ∨ k = 1 ∨ k = 2 := by omega
    rcases each with rfl | rfl | rfl
    · change watch (watch (quiet ended) ⟨true,true⟩) ⟨true,true⟩ = quiet ended
      rw [watchQuiet,watchQuiet]
    · change watch (watch (quiet ended) ⟨true,false⟩) ⟨true,false⟩ = begun ended
      rw [watchStart,watchBegun]
    · change watch (watch (begun ended) ⟨false,false⟩) ⟨false,false⟩ = between false [] ended
      rw [watchLow,watchBetween]
  · rcases Nat.lt_or_ge k 30 with bit | late
    · rw [bitLevels (by omega) (by omega) polite sampled,bitSeen (k := k+1) (by omega) (by omega)]
      rcases Nat.lt_or_ge 3 k with next | first
      · have more : (frame w a).take (k-4) ++ [(frame w a).getD (k-4) true] = (frame w a).take (k+1-4) := by
          have step : k+1-4 = (k-4)+1 := by omega
          have inside : k-4 < (frame w a).length := by omega
          rw [step,List.take_add_one,List.getD_eq_getElem?_getD,List.getElem?_eq_getElem inside]
          rfl
        rw [bitSeen (by omega) (by omega),← more]
        change watch (watch (shows _ _ ended) ⟨false,_⟩) ⟨true,_⟩ = _
        rw [watchFall,watchRise]
      · obtain rfl : k = 3 := by omega
        change watch (watch (between false [] ended) ⟨false,_⟩) ⟨true,_⟩ = shows [] _ ended
        rw [watchBetween,watchRise]
    · obtain rfl := politeElsewhere (by omega) (by omega) polite
      have each : k = 30 ∨ k = 31 ∨ k = 32 := by omega
      rcases each with rfl | rfl | rfl
      · change watch (watch (shows ((frame w a).take 26) a.third ended) ⟨false,false⟩) ⟨false,false⟩ =
          between false (frame w a) ended
        rw [watchFall,watchBetween]
        rfl
      · change watch (watch (between false (frame w a) ended) ⟨true,false⟩) ⟨true,false⟩ =
          shows (frame w a) false ended
        rw [watchRise,watchHeld]
      · change watch (watch (shows (frame w a) false ended) ⟨true,true⟩) ⟨true,true⟩ =
          quiet (ended ++ [frame w a])
        rw [watchStop,watchQuiet]

end FpgaSynthesizer.I2cController
