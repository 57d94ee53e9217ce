import FpgaSynthesizer.RegisterBits

/-! The PS/2 receiver, one rising edge of clk2 at a time: two synchronizer
stages for each line, and the serial process on the falling edges of ps2_clk_in.
The serial process sees ps2_dat_in as the same edge of clk2 leaves it; the line is
constant around a clock fall, so its earlier value is the same. -/
namespace FpgaSynthesizer.Ps2
open RegisterBits

abbrev Byte := BitVec 8

structure Serial where
  cnt : BitVec 4
  keycodeIn : Byte
  keycode : Byte
  deriving DecidableEq, Repr

structure Regs where
  ps2ClkSyn1 : Bool
  ps2ClkIn : Bool
  ps2DatSyn1 : Bool
  ps2DatIn : Bool
  serial : Serial
  deriving DecidableEq, Repr

structure Sample where
  ps2Clk : Bool
  ps2Dat : Bool
  deriving DecidableEq, Repr

/- The last assignment to cnt counts: past 9 it is cleared. -/
def onFall (s : Serial) (ps2DatIn : Bool) : Serial :=
  if s.cnt = 9 then {s with cnt := s.cnt + 1, keycode := s.keycodeIn}
  else if s.cnt > 9 then {s with cnt := 0}
  else
    {s with
      cnt := s.cnt + 1
      keycodeIn :=
        match s.cnt.toNat with
        | 1 => writeBit s.keycodeIn 0 ps2DatIn
        | 2 => writeBit s.keycodeIn 1 ps2DatIn
        | 3 => writeBit s.keycodeIn 2 ps2DatIn
        | 4 => writeBit s.keycodeIn 3 ps2DatIn
        | 5 => writeBit s.keycodeIn 4 ps2DatIn
        | 6 => writeBit s.keycodeIn 5 ps2DatIn
        | 7 => writeBit s.keycodeIn 6 ps2DatIn
        | 8 => writeBit s.keycodeIn 7 ps2DatIn
        | _ => s.keycodeIn}

def clock (r : Regs) (x : Sample) : Regs :=
  {ps2ClkSyn1 := x.ps2Clk
   ps2ClkIn := r.ps2ClkSyn1
   ps2DatSyn1 := x.ps2Dat
   ps2DatIn := r.ps2DatSyn1
   serial := if r.ps2ClkIn && !r.ps2ClkSyn1 then onFall r.serial r.ps2DatSyn1 else r.serial}

def working (r : Regs) : Bool := r.serial.cnt ≠ 0

def powerUp : Regs := ⟨false,false,false,false,⟨0,0,0⟩⟩

def run (r : Regs) (samples : List Sample) : Regs := samples.foldl clock r

def states (r : Regs) : List Sample → List Regs
  | [] => []
  | x :: rest => clock r x :: states (clock r x) rest

def workingFalls (before : Bool) : List Regs → List Byte
  | [] => []
  | r :: rest =>
    if before && !working r then r.serial.keycode :: workingFalls (working r) rest
    else workingFalls (working r) rest

def clockFalls (before : Bool) : List Sample → List Bool
  | [] => []
  | x :: rest =>
    if before && !x.ps2Clk then x.ps2Dat :: clockFalls x.ps2Clk rest else clockFalls x.ps2Clk rest

theorem workingFallsSnoc (r : Regs) (samples : List Sample) (x : Sample) :
    workingFalls (working r) (states r (samples ++ [x])) =
      workingFalls (working r) (states r samples) ++
        (if working (run r samples) && !working (run r (samples ++ [x])) then
          [(run r (samples ++ [x])).serial.keycode] else []) := by
  induction samples generalizing r with
  | nil =>
    simp only [List.nil_append,states,workingFalls,run,List.foldl_cons,List.foldl_nil]
    rfl
  | cons y rest ih =>
    have tail := ih (clock r y)
    simp only [List.cons_append,states,workingFalls]
    rw [tail]
    split
    · rfl
    · rfl

theorem clockFallsPrefix (before : Bool) {p samples : List Sample} (part : p <+: samples) :
    clockFalls before p <+: clockFalls before samples := by
  induction p generalizing before samples with
  | nil => exact List.nil_prefix
  | cons x rest ih =>
    obtain ⟨tail,rfl⟩ := part
    have later := ih x.ps2Clk (List.prefix_append rest tail)
    simp only [List.cons_append,clockFalls]
    split
    · exact List.cons_prefix_cons.mpr ⟨rfl,later⟩
    · exact later

theorem clockFallsSnoc (before : Bool) (samples : List Sample) (x : Sample) :
    (clockFalls before (samples ++ [x])).length ≤ (clockFalls before samples).length + 1 := by
  induction samples generalizing before with
  | nil =>
    simp only [List.nil_append,clockFalls]
    split <;> simp
  | cons y rest ih =>
    have tail := ih y.ps2Clk
    simp only [List.cons_append,clockFalls]
    split
    · simpa using tail
    · exact tail

theorem serialDelayed (r : Regs) (samples : List Sample) (x : Sample) :
    (run r (samples ++ [x])).serial =
      (clockFalls r.ps2ClkIn (⟨r.ps2ClkSyn1,r.ps2DatSyn1⟩ :: samples)).foldl onFall r.serial := by
  induction samples generalizing r with
  | nil =>
    simp only [List.nil_append,run,List.foldl_cons,List.foldl_nil,clock,clockFalls]
    split <;> rfl
  | cons y rest ih =>
    have tail := ih (clock r y)
    rw [List.cons_append,run,List.foldl_cons]
    rw [run] at tail
    rw [tail]
    simp only [clock]
    rw [clockFalls.eq_2 r.ps2ClkIn]
    split <;> rfl

end FpgaSynthesizer.Ps2
