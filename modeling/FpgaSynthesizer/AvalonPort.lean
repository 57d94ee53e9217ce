import Mathlib.Data.BitVec

/-! A slave of the bus behind its translator, with one wait for a read and none for a
write, and a master that holds each request while waitrequest is high. A slave that
is a register takes the master's accesses one after the other, each as one step,
however long the master waits between them. -/
namespace FpgaSynthesizer.AvalonPort

abbrev Word := BitVec 32
abbrev Address := BitVec 20

/- uav_address, uav_read, uav_write and uav_writedata. -/
structure Request where
  address : Address
  read : Bool
  write : Bool
  writedata : Word
  deriving DecidableEq, Repr

/-! ### The translator -/

structure Translator where
  waitLatencyCounter : BitVec 2
  waitrequestResetOverride : Bool
  avReaddataPre : Word
  readLatencyShiftReg : Bool
  deriving DecidableEq, Repr

def avReadWaitIndexed : BitVec 2 := 1
def avWriteWaitIndexed : BitVec 2 := 0
def avDataHoldIndexed : BitVec 2 := 0

def uavWaitrequest (t : Translator) (r : Request) : Bool :=
  (if r.write then t.waitLatencyCounter ≠ avDataHoldIndexed else t.waitLatencyCounter ≠ avReadWaitIndexed) ||
    t.waitrequestResetOverride

structure Avalon where
  address : BitVec 2
  chipselect : Bool
  write : Bool
  writedata : Word
  deriving DecidableEq, Repr

def avalon (t : Translator) (r : Request) : Avalon :=
  {address := r.address.extractLsb' 2 2
   chipselect := r.read || r.write
   write := r.write && decide (t.waitLatencyCounter ≤ avWriteWaitIndexed)
   writedata := r.writedata}

def Translator.clock (t : Translator) (r : Request) (avReaddata : Word) : Translator :=
  {waitLatencyCounter :=
    if !uavWaitrequest t r || t.waitrequestResetOverride then 0
    else if r.read || r.write then t.waitLatencyCounter + 1
    else 0
   waitrequestResetOverride := false
   avReaddataPre := avReaddata
   readLatencyShiftReg := r.read && !uavWaitrequest t r && !t.waitrequestResetOverride}

def Translator.reset : Translator := ⟨0,true,0,false⟩

/-! ### The slave and the master -/

/- A slave with registers of a type, and what else its process reads. -/
structure Core (Regs Pins : Type) where
  readdata : Regs → Avalon → Word
  clock : Regs → Avalon → Pins → Regs

inductive Io where
  | done
  | read (address : Address) (next : Word → Io)
  | write (address : Address) (data : Word) (next : Io)

inductive Stage where
  | resting
  | asking
  | awaiting
  deriving DecidableEq, Repr

/- Whether the master begins its next access if it can, and what is on the wires of
no request. -/
structure Inputs (Pins : Type) where
  go : Bool
  address : Address
  writedata : Word
  pins : Pins

structure Port (Regs : Type) where
  io : Io
  stage : Stage
  translator : Translator
  regs : Regs

variable {Regs Pins : Type}

def asks (stage : Stage) (go : Bool) : Bool :=
  match stage with
  | .resting => go
  | .asking => true
  | .awaiting => false

def request (p : Port Regs) (i : Inputs Pins) : Request :=
  match p.io, asks p.stage i.go with
  | .read address _, true => ⟨address,true,false,i.writedata⟩
  | .write address data _, true => ⟨address,false,true,data⟩
  | _, _ => ⟨i.address,false,false,i.writedata⟩

def proceed (p : Port Regs) (i : Inputs Pins) : Io × Stage :=
  match p.io, p.stage, asks p.stage i.go with
  | .read address next, .awaiting, _ =>
    if p.translator.readLatencyShiftReg then (next p.translator.avReaddataPre,.resting)
    else (.read address next,.awaiting)
  | .read address next, _, true =>
    if uavWaitrequest p.translator (request p i) then (.read address next,.asking) else (.read address next,.awaiting)
  | .write address data next, _, true =>
    if uavWaitrequest p.translator (request p i) then (.write address data next,.asking) else (next,.resting)
  | io, stage, _ => (io,stage)

def clock (core : Core Regs Pins) (p : Port Regs) (i : Inputs Pins) : Port Regs :=
  let av := avalon p.translator (request p i)
  {io := (proceed p i).1
   stage := (proceed p i).2
   translator := p.translator.clock (request p i) (core.readdata p.regs av)
   regs := core.clock p.regs av i.pins}

def run (core : Core Regs Pins) (p : Port Regs) (inputs : List (Inputs Pins)) : Port Regs := inputs.foldl (clock core) p

def trace (core : Core Regs Pins) : Port Regs → List (Inputs Pins) → List Regs
  | _, [] => []
  | p, i :: rest => (clock core p i).regs :: trace core (clock core p i) rest

def start (io : Io) (regs : Regs) : Port Regs := ⟨io,.resting,.reset,regs⟩

/-! ### What one clock can do -/

inductive Place : Port Regs → Prop where
  | resting {io : Io} {reset late : Bool} {pre : Word} {regs : Regs} : Place ⟨io,.resting,⟨0,reset,pre,late⟩,regs⟩
  -- nothing is accepted in the first clock after reset
  | readHeld {address : Address} {next : Word → Io} {late : Bool} {pre : Word} {regs : Regs} :
      Place ⟨.read address next,.asking,⟨0,false,pre,late⟩,regs⟩
  | writeHeld {address : Address} {data : Word} {next : Io} {late : Bool} {pre : Word} {regs : Regs} :
      Place ⟨.write address data next,.asking,⟨0,false,pre,late⟩,regs⟩
  | waited {address : Address} {next : Word → Io} {late : Bool} {pre : Word} {regs : Regs} :
      Place ⟨.read address next,.asking,⟨1,false,pre,late⟩,regs⟩
  | awaiting {address : Address} {next : Word → Io} {pre : Word} {regs : Regs} :
      Place ⟨.read address next,.awaiting,⟨0,false,pre,true⟩,regs⟩

def quiet (i : Inputs Pins) : Avalon := ⟨i.address.extractLsb' 2 2,false,false,i.writedata⟩
def reading (address : Address) (i : Inputs Pins) : Avalon := ⟨address.extractLsb' 2 2,true,false,i.writedata⟩
def writing (address : Address) (data : Word) : Avalon := ⟨address.extractLsb' 2 2,true,true,data⟩

def after (core : Core Regs Pins) (regs : Regs) (i : Inputs Pins) (av : Avalon) (io : Io) (stage : Stage)
    (counter : BitVec 2) (valid : Bool) : Port Regs :=
  ⟨io,stage,⟨counter,false,core.readdata regs av,valid⟩,core.clock regs av i.pins⟩

inductive Clock (core : Core Regs Pins) (i : Inputs Pins) (p : Port Regs) : Port Regs → Prop where
  | rests (stage : p.stage = .resting) (none : p.io = .done ∨ i.go = false) :
      Clock core i p (after core p.regs i (quiet i) p.io .resting 0 false)
  | readReset {address : Address} {next : Word → Io} (head : p.io = .read address next) (stage : p.stage = .resting)
      (reset : p.translator.waitrequestResetOverride = true) :
      Clock core i p (after core p.regs i (reading address i) (.read address next) .asking 0 false)
  | readAsks {address : Address} {next : Word → Io} (head : p.io = .read address next)
      (asked : asks p.stage i.go = true) (counter : p.translator.waitLatencyCounter = 0) :
      Clock core i p (after core p.regs i (reading address i) (.read address next) .asking 1 false)
  | readTaken {address : Address} {next : Word → Io} (head : p.io = .read address next) (stage : p.stage = .asking)
      (counter : p.translator.waitLatencyCounter = 1) :
      Clock core i p (after core p.regs i (reading address i) (.read address next) .awaiting 0 true)
  | readEnds {address : Address} {next : Word → Io} (head : p.io = .read address next) (stage : p.stage = .awaiting) :
      Clock core i p (after core p.regs i (quiet i) (next p.translator.avReaddataPre) .resting 0 false)
  | writeReset {address : Address} {data : Word} {next : Io} (head : p.io = .write address data next)
      (stage : p.stage = .resting) (reset : p.translator.waitrequestResetOverride = true) :
      Clock core i p (after core p.regs i (writing address data) (.write address data next) .asking 0 false)
  | writeEnds {address : Address} {data : Word} {next : Io} (head : p.io = .write address data next)
      (asked : asks p.stage i.go = true) (counter : p.translator.waitLatencyCounter = 0) :
      Clock core i p (after core p.regs i (writing address data) next .resting 0 false)

theorem clockCases (core : Core Regs Pins) (i : Inputs Pins) {p : Port Regs} (place : Place p) :
    Clock core i p (clock core p i) := by
  obtain ⟨go,address,writedata,pins⟩ := i
  cases place with
  | @resting io reset late pre regs =>
    by_cases none : io = .done ∨ go = false
    · have still : clock core ⟨io,.resting,⟨0,reset,pre,late⟩,regs⟩ ⟨go,address,writedata,pins⟩ =
          after core regs ⟨go,address,writedata,pins⟩ (quiet ⟨go,address,writedata,pins⟩) io .resting 0 false := by
        rcases none with rfl | rfl
        · cases go <;> cases reset <;> rfl
        · cases io <;> cases reset <;> rfl
      rw [still]
      exact .rests rfl none
    · obtain ⟨some,goes⟩ := not_or.mp none
      obtain rfl : go = true := Bool.eq_true_of_not_eq_false goes
      cases io with
      | done => exact absurd rfl some
      | read address next =>
        cases reset with
        | true => exact .readReset rfl rfl rfl
        | false => exact .readAsks rfl rfl rfl
      | write address data next =>
        cases reset with
        | true => exact .writeReset rfl rfl rfl
        | false => exact .writeEnds rfl rfl rfl
  | readHeld => exact .readAsks rfl rfl rfl
  | writeHeld => exact .writeEnds rfl rfl rfl
  | waited => exact .readTaken rfl rfl rfl
  | awaiting => exact .readEnds rfl rfl

theorem clockPlace {core : Core Regs Pins} {i : Inputs Pins} {p q : Port Regs} (moves : Clock core i p q) :
    Place q := by
  cases moves with
  | rests stage none => exact .resting
  | readReset head stage reset => exact .readHeld
  | readAsks head asked counter => exact .waited
  | readTaken head stage counter => exact .awaiting
  | readEnds head stage => exact .resting
  | writeReset head stage reset => exact .writeHeld
  | writeEnds head asked counter => exact .resting

theorem runPlace (core : Core Regs Pins) {p : Port Regs} (place : Place p) (inputs : List (Inputs Pins)) :
    Place (run core p inputs) := by
  induction inputs generalizing p with
  | nil => exact place
  | cons i rest ih => exact ih (clockPlace (clockCases core i place))

/-! ### A slave that is a register -/

/- The slave gives a value at each read, and keeps what is written, once or again. -/
structure Register (core : Core Regs Pins) (value : Regs → Address → Word)
    (effect : Regs → Address → Word → Regs) : Prop where
  reads : ∀ regs address (i : Inputs Pins), core.readdata regs (reading address i) = value regs address
  quiets : ∀ regs (i : Inputs Pins), core.clock regs (quiet i) i.pins = regs
  keeps : ∀ regs address (i : Inputs Pins), core.clock regs (reading address i) i.pins = regs
  stores : ∀ regs address data (i : Inputs Pins),
    core.clock regs (writing address data) i.pins = effect regs address data
  again : ∀ regs address data, effect (effect regs address data) address data = effect regs address data

section
variable (value : Regs → Address → Word) (effect : Regs → Address → Word → Regs)

inductive Reaches : Io → Regs → Io → Regs → Prop where
  | refl (io : Io) (regs : Regs) : Reaches io regs io regs
  | read {address : Address} {next : Word → Io} {regs last : Regs} {io : Io}
      (rest : Reaches (next (value regs address)) regs io last) : Reaches (.read address next) regs io last
  | write {address : Address} {data : Word} {next io : Io} {regs last : Regs}
      (rest : Reaches next (effect regs address data) io last) : Reaches (.write address data next) regs io last

variable {value effect}

theorem reachesRead {io : Io} {regs last : Regs} {address : Address} {next : Word → Io}
    (reached : Reaches value effect io regs (.read address next) last) :
    Reaches value effect io regs (next (value last address)) last := by
  generalize head : Io.read address next = now at reached
  induction reached with
  | refl io regs =>
    subst head
    exact .read (.refl _ _)
  | read rest ih => exact .read (ih head)
  | write rest ih => exact .write (ih head)

theorem reachesWrite {io next : Io} {regs last : Regs} {address : Address} {data : Word}
    (reached : Reaches value effect io regs (.write address data next) last) :
    Reaches value effect io regs next (effect last address data) := by
  generalize head : Io.write address data next = now at reached
  induction reached with
  | refl io regs =>
    subst head
    exact .write (.refl _ _)
  | read rest ih => exact .read (ih head)
  | write rest ih => exact .write (ih head)

/- What the master still has to make; a write that is held is already stored. -/
def owed (p : Port Regs) : Io :=
  match p.stage, p.io with
  | .asking, .write _ _ next => next
  | _, io => io

theorem owedResting {p : Port Regs} (stage : p.stage = .resting) : owed p = p.io := by
  rw [owed,stage]

theorem owedRead {p : Port Regs} {address : Address} {next : Word → Io} (head : p.io = .read address next) :
    owed p = .read address next := by
  rw [owed,head]
  cases p.stage <;> rfl

theorem owedDone {p : Port Regs} (done : p.io = .done) : owed p = .done := by
  rw [owed,done]
  cases p.stage <;> rfl

structure Follows (value : Regs → Address → Word) (effect : Regs → Address → Word → Regs) (io : Io) (regs : Regs)
    (p : Port Regs) : Prop where
  reached : Reaches value effect io regs (owed p) p.regs
  stored : ∀ address data next, p.io = .write address data next → p.stage = .asking →
    effect p.regs address data = p.regs
  data : ∀ address next, p.io = .read address next → p.stage = .awaiting →
    p.translator.avReaddataPre = value p.regs address

theorem startFollows (io : Io) (regs : Regs) : Follows value effect io regs (start io regs) :=
  ⟨.refl io regs,fun _ _ _ _ asking => (nomatch asking),fun _ _ _ awaiting => (nomatch awaiting)⟩

variable {core : Core Regs Pins} {i : Inputs Pins} {p q : Port Regs} {io : Io} {regs : Regs}

theorem followsRead (follows : Follows value effect io regs p) {address : Address} {next : Word → Io}
    (head : p.io = .read address next) : Reaches value effect io regs (.read address next) p.regs := by
  rw [← owedRead head]
  exact follows.reached

theorem followsWrite (follows : Follows value effect io regs p) {address : Address} {data : Word} {next : Io}
    (head : p.io = .write address data next) : Reaches value effect io regs next (effect p.regs address data) := by
  have reached := follows.reached
  cases stage : p.stage with
  | resting | awaiting =>
    rw [owed,stage,head] at reached
    exact reachesWrite reached
  | asking =>
    rw [owed,stage,head] at reached
    rw [follows.stored _ _ _ head stage]
    exact reached

theorem atRest {now : Io} {last : Regs} {counter : BitVec 2} {valid : Bool} {av : Avalon}
    (reached : Reaches value effect io regs now (core.clock last av i.pins)) :
    Follows value effect io regs (after core last i av now .resting counter valid) :=
  ⟨reached,fun _ _ _ _ asking => (nomatch asking),fun _ _ _ awaiting => (nomatch awaiting)⟩

theorem atRead {address : Address} {next : Word → Io} {last : Regs} {counter : BitVec 2} {valid : Bool}
    (register : Register core value effect) (reached : Reaches value effect io regs (.read address next) last)
    (stage : Stage) :
    Follows value effect io regs (after core last i (reading address i) (.read address next) stage counter valid) := by
  have kept : core.clock last (reading address i) i.pins = last := register.keeps last address i
  refine ⟨?_,fun _ _ _ same => (nomatch same),?_⟩
  · rw [owedRead rfl]
    change Reaches value effect io regs _ (core.clock last (reading address i) i.pins)
    rw [kept]
    exact reached
  · intro _ _ same _
    cases same
    change core.readdata last (reading address i) = value (core.clock last (reading address i) i.pins) address
    rw [kept]
    exact register.reads last address i

theorem clockFollows (register : Register core value effect) (follows : Follows value effect io regs p)
    (moves : Clock core i p q) : Follows value effect io regs q := by
  cases moves with
  | rests stage none =>
    refine atRest ?_
    rw [register.quiets,← owedResting stage]
    exact follows.reached
  | readReset head stage reset => exact atRead register (followsRead follows head) .asking
  | readAsks head asked counter => exact atRead register (followsRead follows head) .asking
  | readTaken head stage counter => exact atRead register (followsRead follows head) .awaiting
  | readEnds head stage =>
    refine atRest ?_
    rw [register.quiets,follows.data _ _ head stage]
    exact reachesRead (followsRead follows head)
  | @writeReset address data next head stage reset =>
    have stored : core.clock p.regs (writing address data) i.pins = effect p.regs address data :=
      register.stores p.regs address data i
    refine ⟨?_,?_,fun _ _ same => (nomatch same)⟩
    · change Reaches value effect io regs next (core.clock p.regs (writing address data) i.pins)
      rw [stored]
      exact followsWrite follows head
    · intro _ _ _ same _
      cases same
      change effect (core.clock p.regs (writing address data) i.pins) address data = _
      rw [stored,register.again]
      exact stored.symm
  | writeEnds head asked counter =>
    refine atRest ?_
    rw [register.stores]
    exact followsWrite follows head

theorem runFollows (register : Register core value effect) (place : Place p) (follows : Follows value effect io regs p)
    (inputs : List (Inputs Pins)) : Follows value effect io regs (run core p inputs) := by
  induction inputs generalizing p with
  | nil => exact follows
  | cons i rest ih =>
    have moves := clockCases core i place
    exact ih (clockPlace moves) (clockFollows register follows moves)

end

/-! ### The accesses come to an end -/

inductive Within : Nat → Io → Prop where
  | done {n : Nat} : Within n .done
  | read {n : Nat} {address : Address} {next : Word → Io} (rest : ∀ data, Within n (next data)) :
      Within (n+3) (.read address next)
  | write {n : Nat} {address : Address} {data : Word} {next : Io} (rest : Within n next) :
      Within (n+1) (.write address data next)

theorem withinMore {n m : Nat} {io : Io} (within : Within n io) (more : n ≤ m) : Within m io := by
  induction within generalizing m with
  | done => exact .done
  | @read n address next rest ih =>
    obtain ⟨k,rfl⟩ := Nat.exists_eq_add_of_le' more
    exact .read fun data => ih data (Nat.le_add_left n k)
  | @write n address data next rest ih =>
    obtain ⟨k,rfl⟩ := Nat.exists_eq_add_of_le' more
    exact .write (ih (Nat.le_add_left n k))

/- The clocks that the access in progress has had, and the one that reset takes. -/
def ahead (p : Port Regs) : Nat :=
  match p.stage with
  | .resting => 0
  | .asking => p.translator.waitLatencyCounter.toNat
  | .awaiting => 2

def behind (p : Port Regs) : Nat := if p.translator.waitrequestResetOverride then 1 else 0

def Left (n : Nat) (p : Port Regs) : Prop := ∃ total, Within total p.io ∧ total + behind p ≤ n + ahead p

theorem startLeft (io : Io) {n : Nat} (within : Within n io) (regs : Regs) : Left (n+1) (start io regs) :=
  ⟨n,within,Nat.le_refl _⟩

section
variable {core : Core Regs Pins} {i : Inputs Pins} {p q : Port Regs}

theorem aheadResting (stage : p.stage = .resting) : ahead p = 0 := by rw [ahead,stage]

theorem aheadNone (asked : asks p.stage i.go = true) (counter : p.translator.waitLatencyCounter = 0) : ahead p = 0 := by
  unfold ahead
  cases stage : p.stage with
  | resting => rfl
  | asking => exact congrArg BitVec.toNat counter
  | awaiting =>
    rw [stage] at asked
    cases asked

theorem aheadTaken (stage : p.stage = .asking) (counter : p.translator.waitLatencyCounter = 1) : ahead p = 1 := by
  rw [ahead,stage]
  exact congrArg BitVec.toNat counter

theorem behindReset (reset : p.translator.waitrequestResetOverride = true) : behind p = 1 := by
  rw [behind,reset,if_pos rfl]

theorem readLong {n : Nat} {address : Address} {next : Word → Io} (within : Within n (.read address next)) : 3 ≤ n := by
  cases within
  omega

theorem clockLeft {n : Nat} (moves : Clock core i p q) (left : Left n p) :
    ∃ less, less ≤ n ∧ Left less q ∧ (i.go = true → p.io ≠ .done → less < n) := by
  obtain ⟨total,within,bound⟩ := left
  cases moves with
  | rests stage none =>
    have ready := aheadResting stage
    refine ⟨n,Nat.le_refl n,⟨total,within,?_⟩,?_⟩
    · change total + 0 ≤ n + 0
      omega
    · intro go some
      rcases none with done | still
      · exact absurd done some
      · rw [go] at still
        cases still
  | readReset head stage reset | writeReset head stage reset =>
    have ready := aheadResting stage
    have first := behindReset reset
    rw [head] at within
    refine ⟨n-1,Nat.sub_le n 1,⟨total,within,?_⟩,fun _ _ => by omega⟩
    change total + 0 ≤ n - 1 + 0
    omega
  | readAsks head asked counter =>
    have ready := aheadNone asked counter
    rw [head] at within
    have long := readLong within
    refine ⟨n-1,Nat.sub_le n 1,⟨total,within,?_⟩,fun _ _ => by omega⟩
    change total + 0 ≤ n - 1 + 1
    omega
  | readTaken head stage counter =>
    have ready := aheadTaken stage counter
    rw [head] at within
    have long := readLong within
    refine ⟨n-1,Nat.sub_le n 1,⟨total,within,?_⟩,fun _ _ => by omega⟩
    change total + 0 ≤ n - 1 + 2
    omega
  | readEnds head stage =>
    have ready : ahead p = 2 := by rw [ahead,stage]
    rw [head] at within
    cases within with
    | @read rest _ _ each =>
      refine ⟨n-1,Nat.sub_le n 1,⟨rest,each _,?_⟩,fun _ _ => by omega⟩
      change rest + 0 ≤ n - 1 + 0
      omega
  | writeEnds head asked counter =>
    have ready := aheadNone asked counter
    rw [head] at within
    cases within with
    | @write rest _ _ _ each =>
      refine ⟨n-1,Nat.sub_le n 1,⟨rest,each,?_⟩,fun _ _ => by omega⟩
      change rest + 0 ≤ n - 1 + 0
      omega

theorem leftNone (place : Place p) (left : Left 0 p) : p.io = .done := by
  obtain ⟨total,within,bound⟩ := left
  cases place with
  | @resting io reset late pre regs =>
    change total + _ ≤ 0 + 0 at bound
    obtain rfl : total = 0 := by omega
    cases within
    rfl
  | readHeld =>
    change total + 0 ≤ 0 + 0 at bound
    cases within
    omega
  | writeHeld =>
    change total + 0 ≤ 0 + 0 at bound
    cases within
    omega
  | waited =>
    change total + 0 ≤ 0 + 1 at bound
    cases within
    omega
  | awaiting =>
    change total + 0 ≤ 0 + 2 at bound
    cases within
    omega

theorem clockDone (moves : Clock core i p q) (done : p.io = .done) : q.io = .done := by
  cases moves with
  | rests stage none => exact done
  | readReset head | readAsks head | readTaken head | readEnds head | writeReset head | writeEnds head =>
    cases done.symm.trans head

theorem doneStays (place : Place p) (done : p.io = .done) (inputs : List (Inputs Pins)) :
    (run core p inputs).io = .done := by
  induction inputs generalizing p with
  | nil => exact done
  | cons i rest ih =>
    have moves := clockCases core i place
    exact ih (clockPlace moves) (clockDone moves done)

theorem runDone {n : Nat} (place : Place p) (left : Left n p) (inputs : List (Inputs Pins))
    (enough : n ≤ inputs.countP Inputs.go) : (run core p inputs).io = .done := by
  induction inputs generalizing n p with
  | nil =>
    obtain rfl := Nat.le_zero.mp enough
    exact leftNone place left
  | cons i rest ih =>
    by_cases done : p.io = .done
    · exact doneStays place done (i :: rest)
    · have moves := clockCases core i place
      obtain ⟨less,bound,after,fewer⟩ := clockLeft moves left
      refine ih (clockPlace moves) after ?_
      rw [List.countP_cons] at enough
      cases go : i.go with
      | false =>
        rw [go,if_neg Bool.false_ne_true] at enough
        omega
      | true =>
        have step := fewer go done
        rw [go,if_pos rfl] at enough
        omega

/-! ### What a read is given -/

theorem readStep {address : Address} {next : Word → Io} (moves : Clock core i p q)
    (head : p.io = .read address next) (some : p.stage ≠ .awaiting) :
    q.io = .read address next ∧ behind q = 0 ∧ ahead p + i.go.toNat ≤ ahead q + behind p := by
  cases moves with
  | rests stage none =>
    have still : i.go = false := none.resolve_left fun done => (nomatch head.symm.trans done)
    refine ⟨head,rfl,?_⟩
    rw [aheadResting stage,still]
    exact Nat.zero_le _
  | readReset same stage reset =>
    refine ⟨same.symm.trans head,rfl,?_⟩
    rw [aheadResting stage,behindReset reset]
    exact Nat.add_le_add_left i.go.toNat_le 0
  | readAsks same asked counter =>
    refine ⟨same.symm.trans head,rfl,?_⟩
    rw [aheadNone asked counter]
    change 0 + i.go.toNat ≤ 1 + behind p
    have one := i.go.toNat_le
    omega
  | readTaken same stage counter =>
    refine ⟨same.symm.trans head,rfl,?_⟩
    have ready := aheadTaken stage counter
    change ahead p + i.go.toNat ≤ 2 + behind p
    have one := i.go.toNat_le
    omega
  | readEnds same stage => exact absurd stage some
  | writeReset same stage reset => cases head.symm.trans same
  | writeEnds same asked counter => cases head.symm.trans same

theorem aheadTwo (place : Place p) : ahead p ≤ 2 := by
  cases place with
  | resting | readHeld | writeHeld => exact Nat.zero_le 2
  | waited => exact Nat.le_succ 1
  | awaiting => exact Nat.le_refl 2

theorem readComes {n : Nat} {address : Address} {next : Word → Io} (place : Place p) (head : p.io = .read address next)
    (left : 3 + behind p ≤ n + ahead p) (inputs : List (Inputs Pins)) (enough : n ≤ inputs.countP Inputs.go) :
    ∃ before ended rest, inputs = before ++ ended :: rest ∧ (run core p before).io = .read address next ∧
      (run core p before).stage = .awaiting := by
  induction inputs generalizing n p with
  | nil =>
    obtain rfl := Nat.le_zero.mp enough
    have two := aheadTwo place
    omega
  | cons i rest ih =>
    by_cases awaiting : p.stage = .awaiting
    · exact ⟨[],i,rest,rfl,head,awaiting⟩
    · have moves := clockCases core i place
      obtain ⟨same,ready,fewer⟩ := readStep moves head awaiting
      have count : (i :: rest).countP Inputs.go = rest.countP Inputs.go + i.go.toNat := by
        rw [List.countP_cons]
        cases i.go <;> rfl
      obtain ⟨before,ended,later,split,now,stage⟩ :=
        ih (n := n - i.go.toNat) (clockPlace moves) same (by omega) (by omega)
      exact ⟨i :: before,ended,later,congrArg (i :: ·) split,now,stage⟩

theorem askedFrom (moves : Clock core i p q) (asking : q.stage = .asking)
    (counter : q.translator.waitLatencyCounter = 1) :
    ∃ address next, q.io = .read address next ∧ request p i = ⟨address,true,false,i.writedata⟩ ∧
      q.regs = core.clock p.regs (reading address i) i.pins := by
  cases moves with
  | rests | readTaken | readEnds | writeEnds => cases asking
  | readReset | writeReset => cases counter
  | readAsks head asked ready =>
    refine ⟨_,_,rfl,?_,rfl⟩
    rw [request,head,asked]

theorem awaitedFrom (moves : Clock core i p q) (awaiting : q.stage = .awaiting) :
    ∃ address next, p.io = .read address next ∧ q.io = .read address next ∧ p.stage = .asking ∧
      p.translator.waitLatencyCounter = 1 ∧ q.translator.avReaddataPre = core.readdata p.regs (reading address i) := by
  cases moves with
  | rests | readReset | readAsks | readEnds | writeReset | writeEnds => cases awaiting
  | readTaken head stage counter => exact ⟨_,_,head,rfl,stage,counter,rfl⟩

theorem endedFrom {address : Address} {next : Word → Io} (moves : Clock core i p q) (head : p.io = .read address next)
    (awaiting : p.stage = .awaiting) : q.io = next p.translator.avReaddataPre ∧ q.stage = .resting := by
  cases moves with
  | rests stage | readReset _ stage | writeReset _ stage => cases awaiting.symm.trans stage
  | readAsks _ asked | writeEnds _ asked =>
    rw [awaiting] at asked
    cases asked
  | readTaken _ stage => cases awaiting.symm.trans stage
  | readEnds same stage =>
    cases head.symm.trans same
    exact ⟨rfl,rfl⟩

theorem runSnoc (core : Core Regs Pins) (p : Port Regs) (before : List (Inputs Pins)) (i : Inputs Pins) :
    run core p (before ++ [i]) = clock core (run core p before) i := List.foldl_append

theorem readAwaited (place : Place p) (resting : p.stage = .resting) {inputs : List (Inputs Pins)}
    (awaiting : (run core p inputs).stage = .awaiting) :
    ∃ before asked taken address next, inputs = before ++ [asked,taken] ∧
      (run core p inputs).io = .read address next ∧
      request (run core p before) asked = ⟨address,true,false,asked.writedata⟩ ∧
      (run core p inputs).translator.avReaddataPre =
        core.readdata (core.clock (run core p before).regs (reading address asked) asked.pins)
          (reading address taken) := by
  rcases inputs.eq_nil_or_concat' with rfl | ⟨first,taken,rfl⟩
  · cases resting.symm.trans awaiting
  · rw [runSnoc] at awaiting ⊢
    have last := clockCases core taken (runPlace core place first)
    obtain ⟨address,next,head,now,asking,counter,data⟩ := awaitedFrom last awaiting
    rcases first.eq_nil_or_concat' with rfl | ⟨before,asked,rfl⟩
    · cases resting.symm.trans asking
    · rw [runSnoc] at head asking counter
      have second := clockCases core asked (runPlace core place before)
      obtain ⟨other,rest,same,stands,regs⟩ := askedFrom second asking counter
      cases same.symm.trans head
      refine ⟨before,asked,taken,address,next,List.append_assoc ..,now,stands,?_⟩
      rw [data,runSnoc,regs]

theorem readAnswered (core : Core Regs Pins) (address : Address) (next : Word → Io) (regs : Regs)
    (inputs : List (Inputs Pins)) (enough : 4 ≤ inputs.countP Inputs.go) :
    ∃ before asked taken ended after, inputs = before ++ [asked,taken,ended] ++ after ∧
      request (run core (start (.read address next) regs) before) asked = ⟨address,true,false,asked.writedata⟩ ∧
      (run core (start (.read address next) regs) (before ++ [asked,taken])).io = .read address next ∧
      (run core (start (.read address next) regs) (before ++ [asked,taken,ended])).io =
        next (core.readdata
          (core.clock (run core (start (.read address next) regs) before).regs (reading address asked) asked.pins)
          (reading address taken)) ∧
      (run core (start (.read address next) regs) (before ++ [asked,taken,ended])).stage = .resting := by
  have place : Place (start (.read address next) regs) := .resting
  have left : 3 + behind (start (.read address next) regs) ≤ 4 + ahead (start (.read address next) regs) :=
    Nat.le_refl 4
  obtain ⟨first,ended,after,split,head,awaiting⟩ : ∃ first ended after, inputs = first ++ ended :: after ∧
      (run core (start (.read address next) regs) first).io = .read address next ∧
      (run core (start (.read address next) regs) first).stage = .awaiting :=
    readComes place rfl left inputs enough
  obtain ⟨before,asked,taken,_,_,parts,now,stands,data⟩ := readAwaited place rfl awaiting
  cases head.symm.trans now
  have ends := clockCases core ended (runPlace core place first)
  obtain ⟨given,resting⟩ := endedFrom ends head awaiting
  have whole : before ++ [asked,taken,ended] = first ++ [ended] := by
    rw [parts,List.append_assoc]
    rfl
  refine ⟨before,asked,taken,ended,after,?_,stands,?_,?_⟩
  · rw [whole,split,List.append_assoc]
    rfl
  · rw [← parts]
    exact head
  · rw [whole,runSnoc]
    exact ⟨given.trans (congrArg next data),resting⟩

end

end FpgaSynthesizer.AvalonPort
