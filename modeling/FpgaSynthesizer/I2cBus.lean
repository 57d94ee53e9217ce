import Mathlib.Data.List.Basic

/-! What an observer of an I2C bus sees. SDA carries a bit while SCL is high; a
change of SDA while SCL stays high is no bit but a START or a STOP. The observer
is given the levels of the two lines one after the other, at any rate at which no
level is missed. -/
namespace FpgaSynthesizer.I2cBus

structure Level where
  scl : Bool
  sda : Bool
  deriving DecidableEq, Repr

/- The bit is what SDA was when SCL rose, until SCL falls; the transfer holds the
bits since START; and each transfer is kept when START or STOP ends it. -/
structure Observer where
  line : Level
  bit : Option Bool
  transfer : Option (List Bool)
  ended : List (List Bool)
  deriving DecidableEq, Repr

def watch (o : Observer) (x : Level) : Observer :=
  if o.line.scl && x.scl then
    if o.line.sda && !x.sda then ⟨x,none,some [],o.ended ++ o.transfer.toList⟩
    else if !o.line.sda && x.sda then ⟨x,none,none,o.ended ++ o.transfer.toList⟩
    else {o with line := x}
  else if x.scl then {o with line := x, bit := some x.sda}
  else if o.line.scl then
    {o with line := x, bit := none, transfer := o.transfer.map (· ++ o.bit.toList)}
  else {o with line := x}

def watchAll (o : Observer) (levels : List Level) : Observer := levels.foldl watch o

/- A START and a STOP without bits between them are left out. -/
def messages (o : Observer) : List (List Bool) := o.ended.filter (· ≠ [])

def quiet (ended : List (List Bool)) : Observer := ⟨⟨true,true⟩,none,none,ended⟩

def begun (ended : List (List Bool)) : Observer := ⟨⟨true,false⟩,none,some [],ended⟩

def between (sda : Bool) (bits : List Bool) (ended : List (List Bool)) : Observer :=
  ⟨⟨false,sda⟩,none,some bits,ended⟩

def shows (bits : List Bool) (b : Bool) (ended : List (List Bool)) : Observer :=
  ⟨⟨true,b⟩,some b,some bits,ended⟩

variable {ended : List (List Bool)}

theorem watchQuiet : watch (quiet ended) ⟨true,true⟩ = quiet ended := rfl

theorem watchStart : watch (quiet ended) ⟨true,false⟩ = begun ended := by
  simp [watch,quiet,begun]

theorem watchBegun : watch (begun ended) ⟨true,false⟩ = begun ended := rfl

theorem watchLow (sda : Bool) : watch (begun ended) ⟨false,sda⟩ = between sda [] ended := by
  simp [watch,begun,between]

theorem watchBetween (before after : Bool) (bits : List Bool) :
    watch (between before bits ended) ⟨false,after⟩ = between after bits ended := by
  simp [watch,between]

theorem watchRise (sda b : Bool) (bits : List Bool) :
    watch (between sda bits ended) ⟨true,b⟩ = shows bits b ended := by
  simp [watch,between,shows]

theorem watchFall (bits : List Bool) (b sda : Bool) :
    watch (shows bits b ended) ⟨false,sda⟩ = between sda (bits ++ [b]) ended := by
  simp [watch,between,shows]

theorem watchHeld (bits : List Bool) (b : Bool) : watch (shows bits b ended) ⟨true,b⟩ = shows bits b ended := by
  cases b <;> rfl

/- A STOP drops the bit that it interrupts. -/
theorem watchStop (bits : List Bool) : watch (shows bits false ended) ⟨true,true⟩ = quiet (ended ++ [bits]) := by
  simp [watch,quiet,shows]

theorem watchEmptyStop : watch (begun ended) ⟨true,true⟩ = quiet (ended ++ [[]]) := by
  simp [watch,quiet,begun]

theorem messagesQuiet (ended : List (List Bool)) (bits : List Bool) :
    messages (quiet (ended ++ [bits])) = messages (quiet ended) ++ (if bits = [] then [] else [bits]) := by
  by_cases empty : bits = []
  · simp [messages,quiet,empty]
  · simp [messages,quiet,empty]

end FpgaSynthesizer.I2cBus
