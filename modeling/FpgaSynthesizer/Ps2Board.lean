import FpgaSynthesizer.PolledMailbox
import FpgaSynthesizer.Ps2Slices
import FpgaSynthesizer.Sampling

/-! The keyboard's part of the board on CLOCK_50: clk_div, the receiver on the
rising edges of clk2, and ps2_ci. Every register takes the values before the clock
edge, for clk2 rises after the edge of clk that raises it. -/
namespace FpgaSynthesizer.Ps2Board
open Ps2 Ps2Frames Ps2Slices Sampling PolledMailbox

structure Regs where
  clkDiv : BitVec 16
  ps2 : Ps2.Regs
  ci : Ps2Ci.Regs
  deriving DecidableEq, Repr

structure Pins where
  ps2Clk : Bool
  ps2Dat : Bool
  start : Bool
  deriving DecidableEq, Repr

def Pins.sample (x : Pins) : Sample := ⟨x.ps2Clk,x.ps2Dat⟩

def clk2 (clkDiv : BitVec 16) : Bool := clkDiv.getLsbD 8

def ciInputs (r : Regs) (x : Pins) : Ps2Ci.Inputs := ⟨x.start,working r.ps2,r.ps2.serial.keycode⟩

def clock (r : Regs) (x : Pins) : Regs :=
  {clkDiv := r.clkDiv + 1
   ps2 := if !clk2 r.clkDiv && clk2 (r.clkDiv + 1) then Ps2.clock r.ps2 x.sample else r.ps2
   ci := Ps2Ci.clock r.ci (ciInputs r x)}

def run (r : Regs) (pins : List Pins) : Regs := pins.foldl clock r

def shows (r : Regs) : List Pins → List Ps2Ci.Inputs
  | [] => []
  | x :: rest => ciInputs r x :: shows (clock r x) rest

/-! ### The divided clock -/

/- Clocks since clk2 rose. -/
def phase (clkDiv : BitVec 16) : Nat := (clkDiv.toNat + 256) % 512

theorem phaseInside (clkDiv : BitVec 16) : phase clkDiv < 512 := Nat.mod_lt _ (by decide)

theorem phaseNext (clkDiv : BitVec 16) : phase (clkDiv + 1) = (phase clkDiv + 1) % 512 := by
  have sum : (clkDiv + 1).toNat = (clkDiv.toNat + 1) % 65536 := by simp [BitVec.toNat_add]
  rw [phase,phase,sum]
  omega

theorem clk2Level (clkDiv : BitVec 16) : clk2 clkDiv = decide (phase clkDiv < 256) := by
  have bit : clkDiv.getLsbD 8 = decide (clkDiv.toNat/256 % 2 = 1) := by
    rw [BitVec.getLsbD,Nat.testBit_eq_decide_div_mod_eq]
  rw [clk2,bit,phase,decide_eq_decide]
  omega

theorem clk2Rises (clkDiv : BitVec 16) :
    (!clk2 clkDiv && clk2 (clkDiv + 1)) = decide (phase clkDiv + 1 = 512) := by
  have inside := phaseInside clkDiv
  rw [clk2Level,clk2Level,phaseNext,← decide_not,← Bool.decide_and,decide_eq_decide]
  omega

theorem clockPs2 (r : Regs) (x : Pins) :
    (clock r x).ps2 = if phase r.clkDiv + 1 = 512 then Ps2.clock r.ps2 x.sample else r.ps2 := by
  simp only [clock,clk2Rises,decide_eq_true_eq]

theorem runPhase (r : Regs) (pins : List Pins) :
    phase (run r pins).clkDiv = (phase r.clkDiv + pins.length) % 512 := by
  induction pins generalizing r with
  | nil => exact (Nat.mod_eq_of_lt (phaseInside r.clkDiv)).symm
  | cons x rest ih =>
    have tail := ih (clock r x)
    have next : phase (clock r x).clkDiv = (phase r.clkDiv + 1) % 512 := phaseNext r.clkDiv
    rw [next] at tail
    rw [run,List.foldl_cons,List.length_cons,← run,tail]
    omega

/-! ### The edge detector of ps2_ci on the faster clock -/

/- working changes in phase 0 only, and new_byte is seen in phase 1. -/
structure Follows (r : Regs) : Prop where
  silent : phase r.clkDiv ≠ 1 → r.ci.newByte = false
  settled : phase r.clkDiv ≠ 0 → r.ci.dWorking = working r.ps2

theorem clockFollows {r : Regs} (follows : Follows r) (x : Pins) : Follows (clock r x) := by
  have inside := phaseInside r.clkDiv
  have next : phase (clock r x).clkDiv = (phase r.clkDiv + 1) % 512 := phaseNext r.clkDiv
  obtain ⟨level,fell⟩ := Ps2Delivery.clockEdge r.ci (ciInputs r x)
  have dWorking : (clock r x).ci.dWorking = working r.ps2 := level
  have newByte : (clock r x).ci.newByte = (!working r.ps2 && r.ci.dWorking) := fell
  refine ⟨?_,?_⟩
  · intro other
    have settled := follows.settled (by omega)
    rw [newByte,settled,Bool.not_and_self]
  · intro other
    rw [dWorking,clockPs2,if_neg (by omega)]

theorem runFollows {r : Regs} (follows : Follows r) (pins : List Pins) : Follows (run r pins) := by
  induction pins generalizing r with
  | nil => exact follows
  | cons x rest ih => exact ih (clockFollows follows x)

/- A byte that the receiver has announced and ps2_ci has yet to see. -/
def owed (r : Regs) : List Byte :=
  if r.ci.newByte || (r.ci.dWorking && !working r.ps2) then [r.ps2.serial.keycode] else []

theorem clockOwed {r : Regs} (follows : Follows r) (x : Pins) :
    (if r.ci.newByte then [r.ps2.serial.keycode] else []) ++ owed (clock r x) =
      owed r ++ (if working r.ps2 && !working (clock r x).ps2 then [(clock r x).ps2.serial.keycode] else []) := by
  obtain ⟨level,fell⟩ := Ps2Delivery.clockEdge r.ci (ciInputs r x)
  have dWorking : (clock r x).ci.dWorking = working r.ps2 := level
  have newByte : (clock r x).ci.newByte = (!working r.ps2 && r.ci.dWorking) := fell
  by_cases last : phase r.clkDiv + 1 = 512
  · have silent := follows.silent (by omega)
    have settled := follows.settled (by omega)
    simp [owed,dWorking,newByte,silent,settled]
  · have same : (clock r x).ps2 = r.ps2 := by rw [clockPs2,if_neg last]
    by_cases one : phase r.clkDiv = 1
    · have settled := follows.settled (by omega)
      simp [owed,dWorking,newByte,same,settled]
    · have silent := follows.silent one
      simp [owed,dWorking,newByte,same,silent,Bool.and_comm]

theorem runOwed {r : Regs} (follows : Follows r) (pins : List Pins) :
    Ps2Ci.bytesOf r.ci (shows r pins) ++ owed (run r pins) =
      owed r ++ workingFalls (working r.ps2)
        (states r.ps2 (sampled 512 (phase r.clkDiv) (pins.map Pins.sample))) := by
  induction pins generalizing r with
  | nil => exact (List.append_nil _).symm
  | cons x rest ih =>
    have inside := phaseInside r.clkDiv
    have next : phase (clock r x).clkDiv = (phase r.clkDiv + 1) % 512 := phaseNext r.clkDiv
    have step := clockOwed follows x
    have tail := ih (clockFollows follows x)
    have ci : Ps2Ci.clock r.ci (ciInputs r x) = (clock r x).ci := rfl
    have keycode : (ciInputs r x).keycode = r.ps2.serial.keycode := rfl
    rw [shows,bytesCons,ci,keycode,List.append_assoc,run,List.foldl_cons,← run,tail,← List.append_assoc,step,
      List.append_assoc,next,List.map_cons,sampled]
    by_cases last : phase r.clkDiv + 1 = 512
    · have receiver : (clock r x).ps2 = Ps2.clock r.ps2 x.sample := by rw [clockPs2,if_pos last]
      rw [if_pos last,last,states,workingFalls,receiver,Nat.mod_self]
      split <;> rfl
    · have receiver : (clock r x).ps2 = r.ps2 := by rw [clockPs2,if_neg last]
      rw [if_neg last,receiver,Bool.and_not_self,if_neg Bool.false_ne_true,Nat.mod_eq_of_lt (by omega),
        List.nil_append]

/-! ### Frames at the rate of CLOCK_50 -/

def Slow (s : Stretch) : Prop := 512 ≤ s.high ∧ 512 ≤ s.low
instance (s) : Decidable (Slow s) := by unfold Slow; infer_instance

def SlowFrame (f : Frame) : Prop := ∀ s ∈ f.timing.toList, Slow s
instance (f) : Decidable (SlowFrame f) := by unfold SlowFrame; infer_instance

theorem sampledBit {p : Nat} (inside : p < 512) (level : Bool) {s : Stretch} (slow : Slow s) (rest : List Sample) :
    ∃ s' : Stretch, sampled 512 p (bitSamples level s ++ rest) =
      bitSamples level s' ++ sampled 512 ((p + (bitSamples level s).length) % 512) rest := by
  obtain ⟨high,low,rises,falls⟩ := s
  have half : (p+high) % 512 < 512 := Nat.mod_lt _ (by decide)
  have high' : 512 ≤ high := slow.1
  have low' : 512 ≤ low := slow.2
  refine ⟨⟨(p+high)/512,((p+high) % 512+low)/512,by omega,by omega⟩,?_⟩
  have total : (p + (high+low)) % 512 = ((p+high) % 512 + low) % 512 := by omega
  rw [bitSamples,bitSamples,List.length_append,List.length_replicate,List.length_replicate,total,
    List.append_assoc,sampledAppend inside,sampledReplicate inside,List.length_replicate,sampledAppend half,
    sampledReplicate half,List.length_replicate,List.append_assoc]

theorem sampledStream {bits : List (Bool × Stretch)} (slow : ∀ b ∈ bits, Slow b.2) {p : Nat} (inside : p < 512)
    (rest : List Sample) :
    ∃ bits' : List (Bool × Stretch), bits'.map Prod.fst = bits.map Prod.fst ∧
      sampled 512 p (stream bits ++ rest) =
        stream bits' ++ sampled 512 ((p + (stream bits).length) % 512) rest := by
  induction bits generalizing p with
  | nil =>
    refine ⟨[],rfl,?_⟩
    have none : (p + (stream []).length) % 512 = p := Nat.mod_eq_of_lt inside
    rw [none]
    rfl
  | cons b bits ih =>
    obtain ⟨s',first⟩ := sampledBit inside b.1 (slow b List.mem_cons_self) (stream bits ++ rest)
    have half : (p + (bitSamples b.1 b.2).length) % 512 < 512 := Nat.mod_lt _ (by decide)
    obtain ⟨bits',levels,later⟩ := ih (fun c member => slow c (List.mem_cons_of_mem b member)) half
    have cut : stream (b :: bits) = bitSamples b.1 b.2 ++ stream bits := List.flatMap_cons
    have total : (p + (stream (b :: bits)).length) % 512 =
        ((p + (bitSamples b.1 b.2).length) % 512 + (stream bits).length) % 512 := by
      rw [cut,List.length_append]
      omega
    refine ⟨(b.1,s') :: bits',?_,?_⟩
    · rw [List.map_cons,List.map_cons,levels]
    · rw [cut,List.append_assoc,first,later,← cut,total,← List.append_assoc]
      rfl

/- Cleared, and no fall of the clock on its way. -/
structure Idle (r : Regs) : Prop where
  cnt : r.ps2.serial.cnt = 0
  clk : r.ps2.ps2ClkIn = true → r.ps2.ps2ClkSyn1 = true
  silent : r.ci.newByte = false
  low : r.ci.dWorking = false

theorem idleWorking {r : Regs} (idle : Idle r) : working r.ps2 = false := by
  rw [working,idle.cnt]
  rfl

def powerUp : Regs := ⟨0,Ps2.powerUp,⟨false,false,Ps2Ci.State.zero,0,false,0⟩⟩

theorem powerUpIdle : Idle powerUp := ⟨rfl,fun high => absurd high Bool.false_ne_true,rfl,rfl⟩

theorem idleFollows {r : Regs} (idle : Idle r) : Follows r :=
  ⟨fun _ => idle.silent,fun _ => idle.low.trans (idleWorking idle).symm⟩

theorem idleOwed {r : Regs} (idle : Idle r) : owed r = [] := by
  rw [owed,idle.silent,idle.low]
  rfl

def framesTime (frames : List Frame) : Nat := (stream (frames.flatMap Frame.bits)).length

theorem linesTime {frames : List Frame} {rest : List Bool} {pins : List Pins}
    (lines : pins.map Pins.sample = transmission frames rest) : pins.length = framesTime frames + rest.length := by
  have lengths := congrArg List.length lines
  rw [List.length_map,transmission,List.length_append,List.length_map] at lengths
  exact lengths

theorem linesCut {frames : List Frame} {rest : List Bool} {pins : List Pins}
    (lines : pins.map Pins.sample = transmission frames rest) (n : Nat) :
    (pins.take (framesTime frames + n)).map Pins.sample = transmission frames (rest.take n) := by
  rw [List.map_take,lines,transmission,transmission,framesTime,List.take_length_add_append,List.map_take]

theorem sampledFrames {frames : List Frame} (slow : ∀ f ∈ frames, SlowFrame f) {p : Nat} (inside : p < 512)
    (rest : List Bool) :
    ∃ bits : List (Bool × Stretch), ∃ later : List Bool, bits.map Prod.fst = frames.flatMap Frame.levels ∧
      later.length = ((p + framesTime frames) % 512 + rest.length)/512 ∧
      sampled 512 p (transmission frames rest) = stream bits ++ later.map (fun dat => ⟨true,dat⟩) := by
  have slowBits : ∀ b ∈ frames.flatMap Frame.bits, Slow b.2 := by
    intro b member
    obtain ⟨f,sent,own⟩ := List.mem_flatMap.mp member
    exact slow f sent b.2 (List.of_mem_zip own).2
  have half : (p + framesTime frames) % 512 < 512 := Nat.mod_lt _ (by decide)
  obtain ⟨bits,levels,samples⟩ := sampledStream slowBits inside (rest.map (fun dat => ⟨true,dat⟩))
  have flat : (frames.flatMap Frame.bits).map Prod.fst = frames.flatMap Frame.levels := by
    rw [List.map_flatMap]
    exact List.flatMap_congr fun f _ => frameLevels f
  refine ⟨bits,_,levels.trans flat,sampledLength half rest,?_⟩
  rw [transmission,samples,sampledMap]
  rfl

theorem takenFrames {r : Ps2.Regs} (clk : r.ps2ClkIn = true → r.ps2ClkSyn1 = true) (bits : List (Bool × Stretch))
    {later : List Bool} (high : 2 ≤ later.length) :
    taken r (stream bits ++ later.map (fun dat => ⟨true,dat⟩)) = bits.map Prod.fst := by
  obtain ⟨start,last,rfl⟩ := (List.eq_nil_or_concat later).resolve_left (List.ne_nil_of_length_pos (by omega))
  have cut : (⟨r.ps2ClkSyn1,r.ps2DatSyn1⟩ ::
      (stream bits ++ (start.concat last).map (fun dat => (⟨true,dat⟩ : Sample)))).dropLast =
        ⟨r.ps2ClkSyn1,r.ps2DatSyn1⟩ :: (stream bits ++ start.map (fun dat => ⟨true,dat⟩)) := by
    rw [List.concat_eq_append,List.map_append,← List.append_assoc,← List.cons_append]
    exact List.dropLast_concat
  have first : (r.ps2ClkIn && !r.ps2ClkSyn1) = false := by
    cases level : r.ps2ClkIn with
    | false => rfl
    | true => rw [clk level]; rfl
  rw [taken,cut,clockFalls,first,if_neg Bool.false_ne_true,fallsStream,fallsRest,List.append_nil]

theorem framesOwed {frames : List Frame} (slow : ∀ f ∈ frames, SlowFrame f) {rest : List Bool} {r : Regs}
    (ended : 1024 ≤ (phase r.clkDiv + framesTime frames) % 512 + rest.length)
    (idle : Idle r) {pins : List Pins}
    (lines : pins.map Pins.sample = transmission frames rest) :
    Ps2Ci.bytesOf r.ci (shows r pins) ++ owed (run r pins) = frames.map Frame.byte := by
  obtain ⟨bits,later,levels,high,samples⟩ := sampledFrames slow (phaseInside r.clkDiv) rest
  have two : 2 ≤ later.length := by omega
  rw [runOwed (idleFollows idle),idleOwed idle,lines,samples,fallsAnnounced,takenFrames idle.clk bits two,levels,
    announcedSlices idle.cnt rfl,slicesFrames]
  rfl

theorem showsAppend (r : Regs) (first last : List Pins) :
    shows r (first ++ last) = shows r first ++ shows (run r first) last := by
  induction first generalizing r with
  | nil => rfl
  | cons x rest ih => rw [List.cons_append,shows,ih,shows,List.cons_append,run,run,List.foldl_cons]

theorem laterOwed {r : Regs} (follows : Follows r) (later : 2 ≤ phase r.clkDiv) : owed r = [] := by
  rw [owed,follows.silent (by omega),follows.settled (by omega),Bool.and_not_self]
  rfl

theorem framesReach {frames : List Frame} (slow : ∀ f ∈ frames, SlowFrame f) {rest : List Bool}
    (ended : 1026 ≤ rest.length) {r : Regs} (idle : Idle r) {pins : List Pins}
    (lines : pins.map Pins.sample = transmission frames rest) :
    Ps2Ci.bytesOf r.ci (shows r pins) = frames.map Frame.byte := by
  obtain ⟨q,hq⟩ : ∃ q, q = (phase r.clkDiv + framesTime frames) % 512 := ⟨_,rfl⟩
  have all := framesOwed slow (by omega) idle lines
  -- cut the run two clocks after the second sample of the rest
  have size := linesTime lines
  obtain ⟨first,hfirst⟩ : ∃ first, first = pins.take (framesTime frames + (1026-q)) := ⟨_,rfl⟩
  have cut : first.map Pins.sample = transmission frames (rest.take (1026-q)) := by
    rw [hfirst]
    exact linesCut lines (1026-q)
  have part : first.length = framesTime frames + (1026-q) := by
    rw [hfirst,List.length_take]
    omega
  have two : 1024 ≤ (phase r.clkDiv + framesTime frames) % 512 + (rest.take (1026-q)).length := by
    rw [← hq,List.length_take]
    omega
  have early := framesOwed slow two idle cut
  have place := runPhase r first
  rw [part] at place
  rw [laterOwed (runFollows (idleFollows idle) _) (by omega),List.append_nil] at early
  -- what was seen by then is all there is
  have whole := showsAppend r first (pins.drop (framesTime frames + (1026-q)))
  rw [hfirst,List.take_append_drop,← hfirst] at whole
  rw [whole,Ps2Ci.bytesAppend,early] at all ⊢
  rw [List.append_assoc] at all
  rw [(List.append_eq_nil_iff.mp (List.append_right_eq_self.mp all)).1,List.append_nil]

/- The clock is the fastest that is followed. -/
def shortest : Frame :=
  ⟨false,0x1c,false,true,Vector.replicate 11 ⟨512,512,by decide,by decide⟩⟩

def pinsOf (start : Bool) (samples : List Sample) : List Pins := samples.map (fun x => ⟨x.ps2Clk,x.ps2Dat,start⟩)

theorem pinsSample (start : Bool) (samples : List Sample) : (pinsOf start samples).map Pins.sample = samples := by
  rw [pinsOf,List.map_map]
  exact List.map_id samples

theorem shortestReaches :
    Ps2Ci.bytesOf powerUp.ci (shows powerUp (pinsOf false (transmission [shortest] (List.replicate 1026 true)))) =
      [0x1c] := by
  have slow : ∀ f ∈ [shortest], SlowFrame f := by decide
  have ended : 1026 ≤ (List.replicate 1026 true).length := Nat.le_of_eq List.length_replicate.symm
  exact framesReach slow ended powerUpIdle (pinsSample false _)

/-! ### No two bytes close together -/

/- Two samples for each bit taken since cnt was clear. -/
def spent (r : Ps2.Regs) : Nat := 2*r.serial.cnt.toNat + (if r.ps2ClkIn then 1 else 0)

theorem sampleSpent (r : Ps2.Regs) (x : Sample) :
    (spent (Ps2.clock r x) = 0 ∧ (Ps2.clock r x).ps2ClkIn = false ∧ 21 ≤ spent r) ∨
    (spent (Ps2.clock r x) ≤ spent r + 1 ∧ (working (Ps2.clock r x) = false → working r = false)) := by
  have clk : (Ps2.clock r x).ps2ClkIn = r.ps2ClkSyn1 := rfl
  by_cases fell : (r.ps2ClkIn && !r.ps2ClkSyn1) = true
  · have serial : (Ps2.clock r x).serial = onFall r.serial r.ps2DatSyn1 := if_pos fell
    have count := fallCount r.serial r.ps2DatSyn1
    obtain ⟨high,low⟩ : r.ps2ClkIn = true ∧ r.ps2ClkSyn1 = false := by simpa using fell
    by_cases last : r.serial.cnt > 9
    · have ten : 9 < r.serial.cnt.toNat := last
      rw [if_pos last] at count
      refine .inl ⟨?_,clk.trans low,?_⟩
      · rw [spent,clk,low,serial,count]
        rfl
      · rw [spent,high,if_pos rfl]
        omega
    · have nine : ¬ 9 < r.serial.cnt.toNat := last
      rw [if_neg last] at count
      have next : (onFall r.serial r.ps2DatSyn1).cnt.toNat = r.serial.cnt.toNat + 1 := by
        rw [count,BitVec.toNat_add]
        change (r.serial.cnt.toNat + 1) % 16 = _
        omega
      refine .inr ⟨?_,?_⟩
      · rw [spent,spent,clk,low,high,serial,next,if_neg Bool.false_ne_true,if_pos rfl]
        omega
      · intro idle
        have clear : (onFall r.serial r.ps2DatSyn1).cnt = 0 := by simpa [working,serial] using idle
        rw [clear] at next
        exact absurd next (Nat.succ_ne_zero _).symm
  · have serial : (Ps2.clock r x).serial = r.serial := if_neg fell
    refine .inr ⟨?_,?_⟩
    · rw [spent,spent,serial]
      split <;> omega
    · rw [working,working,serial]
      exact id

structure Since (r : Regs) (a : Nat) : Prop where
  follows : Follows r
  bits : 512*spent r.ps2 + phase r.clkDiv ≤ a + 1
  fell : r.ci.dWorking = true → working r.ps2 = false → r.ps2.ps2ClkIn = false ∧ 11263 ≤ a
  byte : r.ci.newByte = true → working r.ps2 = false ∧ r.ps2.ps2ClkIn = false ∧ 11264 ≤ a

theorem clockSince {r : Regs} {a : Nat} (since : Since r a) (x : Pins) :
    Since (clock r x) (if r.ci.newByte then 1 else a + 1) := by
  have inside := phaseInside r.clkDiv
  have next : phase (clock r x).clkDiv = (phase r.clkDiv + 1) % 512 := phaseNext r.clkDiv
  obtain ⟨level,edge⟩ := Ps2Delivery.clockEdge r.ci (ciInputs r x)
  have dWorking : (clock r x).ci.dWorking = working r.ps2 := level
  have newByte : (clock r x).ci.newByte = (!working r.ps2 && r.ci.dWorking) := edge
  have follows := clockFollows since.follows x
  have bits := since.bits
  cases seen : r.ci.newByte with
  | true =>
    obtain ⟨idle,low,_⟩ := since.byte seen
    have one : phase r.clkDiv = 1 := by
      by_contra other
      rw [since.follows.silent other] at seen
      cases seen
    have settled := since.follows.settled (by omega)
    have same : (clock r x).ps2 = r.ps2 := by rw [clockPs2,if_neg (by omega)]
    have clear : r.ps2.serial.cnt = 0 := by simpa [working] using idle
    refine ⟨follows,?_,?_,?_⟩
    · rw [same,next,one,spent,low,clear,if_pos rfl]
      decide
    · intro high
      rw [dWorking,idle] at high
      cases high
    · intro again
      rw [newByte,settled,Bool.not_and_self] at again
      cases again
  | false =>
    rw [if_neg Bool.false_ne_true]
    by_cases last : phase r.clkDiv + 1 = 512
    · have settled := since.follows.settled (by omega)
      have sampled' : (clock r x).ps2 = Ps2.clock r.ps2 x.sample := by rw [clockPs2,if_pos last]
      have silent : (clock r x).ci.newByte = false := by rw [newByte,settled,Bool.not_and_self]
      have byte : (clock r x).ci.newByte = true → working (clock r x).ps2 = false ∧
          (clock r x).ps2.ps2ClkIn = false ∧ 11264 ≤ a + 1 := by
        rw [silent]
        intro high
        cases high
      rcases sampleSpent r.ps2 x.sample with ⟨none,low,all⟩ | ⟨one,still⟩
      · refine ⟨follows,?_,?_,byte⟩
        · rw [sampled',none]
          omega
        · intro _ _
          rw [sampled']
          exact ⟨low,by omega⟩
      · refine ⟨follows,?_,?_,byte⟩
        · rw [sampled']
          omega
        · intro high idle
          rw [sampled'] at idle
          rw [dWorking,still idle] at high
          cases high
    · have same : (clock r x).ps2 = r.ps2 := by rw [clockPs2,if_neg last]
      refine ⟨follows,?_,?_,?_⟩
      · rw [same]
        omega
      · intro high idle
        rw [same] at idle
        rw [dWorking,idle] at high
        cases high
      · intro fell
        rw [newByte] at fell
        obtain ⟨idle,high⟩ : working r.ps2 = false ∧ r.ci.dWorking = true := by simpa using fell
        obtain ⟨low,far⟩ := since.fell high idle
        rw [same]
        exact ⟨idle,low,by omega⟩

def cycles (r : Regs) (pins : List Pins) : List (Mailbox.ClockCycle Byte) := Ps2Ci.cyclesOf r.ci (shows r pins)

theorem byteNow {r : Regs} {x : Pins} {rest : List Pins} (byte : ByteAt (cycles r (x :: rest)) 0) :
    r.ci.newByte = true := by
  obtain ⟨y,place,some⟩ := byte
  obtain rfl := Option.some.inj place
  cases seen : r.ci.newByte with
  | true => rfl
  | false => simp [Ps2Ci.byteOf,seen] at some

theorem byteLater {r : Regs} {x : Pins} {rest : List Pins} {j : Nat} (byte : ByteAt (cycles r (x :: rest)) (j+1)) :
    ByteAt (cycles (clock r x) rest) j := byte

theorem bytesFar {r : Regs} {a : Nat} (since : Since r a) {pins : List Pins} {j : Nat}
    (byte : ByteAt (cycles r pins) j) : 11264 ≤ a + j := by
  induction pins generalizing r a j with
  | nil =>
    obtain ⟨y,place,_⟩ := byte
    cases place
  | cons x rest ih =>
    cases j with
    | zero => exact (since.byte (byteNow byte)).2.2
    | succ j =>
      have later := ih (clockSince since x) (byteLater byte)
      split at later <;> omega

theorem sinceApart {r : Regs} {a : Nat} (since : Since r a) (pins : List Pins) : Apart 11264 (cycles r pins) := by
  induction pins generalizing r a with
  | nil =>
    rintro i j _ ⟨y,place,_⟩
    cases place
  | cons x rest ih =>
    have after := clockSince since x
    intro i j before first second
    cases j with
    | zero => omega
    | succ j =>
      cases i with
      | zero =>
        rw [byteNow first,if_pos rfl] at after
        have far := bytesFar after (byteLater second)
        omega
      | succ i =>
        have far := ih after i j (by omega) (byteLater first) (byteLater second)
        omega

theorem bytesApart {r : Regs} (idle : Idle r) (pins : List Pins) : Apart 11264 (cycles r pins) := by
  refine sinceApart (a := 512*spent r.ps2 + phase r.clkDiv) ⟨idleFollows idle,Nat.le_succ _,?_,?_⟩ pins
  · intro high
    rw [idle.low] at high
    cases high
  · intro fell
    rw [idle.silent] at fell
    cases fell

theorem byteAt {first last : List (Mailbox.ClockCycle Byte)} {x : Mailbox.ClockCycle Byte} {a : Byte}
    (own : x.byte = .some a) : ByteAt (first ++ x :: last) first.length := by
  refine ⟨x,?_,congrArg Option.isSome own⟩
  rw [List.getElem?_append_right (Nat.le_refl _),Nat.sub_self]
  rfl

def pressedTwice : List Pins := pinsOf false (transmission [shortest,shortest] (List.replicate 1026 true))

theorem pressedTwiceSeen : (cycles powerUp pressedTwice).filterMap Mailbox.ClockCycle.byte = [0x1c,0x1c] := by
  have slow : ∀ f ∈ [shortest,shortest], SlowFrame f := by decide
  have ended : 1026 ≤ (List.replicate 1026 true).length := Nat.le_of_eq List.length_replicate.symm
  exact framesReach slow ended powerUpIdle (pinsSample false _)

theorem shortestApart : ∃ i j, ByteAt (cycles powerUp pressedTwice) i ∧ ByteAt (cycles powerUp pressedTwice) j ∧
    i < j ∧ i + 11264 ≤ j := by
  obtain ⟨first,x,later,whole,_,own,rest⟩ := List.filterMap_eq_cons_iff.mp pressedTwiceSeen
  obtain ⟨second,y,last,tail,_,other,_⟩ := List.filterMap_eq_cons_iff.mp rest
  have one : ByteAt (cycles powerUp pressedTwice) first.length := by
    rw [whole]
    exact byteAt own
  have two : ByteAt (cycles powerUp pressedTwice) (first ++ x :: second).length := by
    have cut : cycles powerUp pressedTwice = (first ++ x :: second) ++ y :: last := by
      rw [whole,tail,List.append_assoc,List.cons_append]
    rw [cut]
    exact byteAt other
  have order : first.length < (first ++ x :: second).length := by
    rw [List.length_append,List.length_cons]
    omega
  exact ⟨_,_,one,two,order,bytesApart powerUpIdle pressedTwice _ _ order one two⟩

end FpgaSynthesizer.Ps2Board
