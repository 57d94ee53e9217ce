import FpgaSynthesizer.ClockDivider
import FpgaSynthesizer.I2cSampling
import FpgaSynthesizer.I2cTransfers

/-! I2C_AV_Config on CLOCK_50. Its divider makes the control clock of the two
processes; the devices move SDA at any clock at which SCL is low, and hold it while
SCL is high. The bus shows what the control clock's runs show, 5002 clocks for each
of theirs. -/
namespace FpgaSynthesizer.I2cClocked
open ClockDivider I2cBus I2cConfig I2cSampling
open I2cController (Period i2cSclk i2cSdat Acknowledges controllerTaken)
open I2cTransfers (Answered)

def clkFreq : Nat := 50000000
def i2cFreq : Nat := 20000

def ctrlLimit : Nat := clkFreq/i2cFreq

/- mI2C_CLK_DIV and mI2C_CTRL_CLK, the two processes, and what the devices leave on
SDA. -/
structure Board where
  ctrl : Divider 16
  config : I2cConfig.Regs
  controller : I2cController.Regs
  released : Bool
  deriving DecidableEq, Repr

def clock (b : Board) (released : Bool) : Board :=
  let ctrl := tick ctrlLimit b.ctrl
  if !b.ctrl.level && ctrl.level then
    {ctrl := ctrl
     config := I2cConfig.clock b.config b.controller.endReg (I2cController.ack b.controller)
     controller := I2cController.clock b.controller
       ⟨b.config.mI2cGo,b.config.mI2cData,i2cSdat b.controller b.released⟩
     released := released}
  else {b with ctrl := ctrl, released := released}

def reset (b : Board) : Board := ⟨cleared,I2cConfig.reset b.config,I2cController.reset b.controller,true⟩

def run (b : Board) (sda : List Bool) : Board := sda.foldl clock b

def lines (b : Board) : Level := ⟨i2cSclk b.controller b.ctrl.level,i2cSdat b.controller b.released⟩

def watched (o : Observer) (b : Board) : List Bool → Observer
  | [] => o
  | x :: rest => watched (watch o (lines (clock b x))) (clock b x) rest

/- While SCL is high no device moves SDA, and one pulls it low over the acknowledge
bits only. -/
def Holds (b : Board) (released : Bool) : Prop :=
  (lines (clock b released)).scl = true →
    (released = true ∨ Acknowledges (clock b released).controller) ∧ ((lines b).scl = true → released = b.released)
instance (b released) : Decidable (Holds b released) := by unfold Holds; infer_instance

def Polite (b : Board) : List Bool → Prop
  | [] => True
  | x :: rest => Holds b x ∧ Polite (clock b x) rest

def Answers (b : Board) : List Bool → Prop
  | [] => True
  | x :: rest => (Acknowledges (clock b x).controller → x = false) ∧ Answers (clock b x) rest

/-! ### What the processes take from SDA -/

theorem clockElsewhere {r : I2cController.Regs} (elsewhere : ¬ Acknowledges r) (go : Bool) (data : BitVec 24)
    (first second : Bool) : I2cController.clock r ⟨go,data,first⟩ = I2cController.clock r ⟨go,data,second⟩ := by
  have none : r.sdCounter.toNat ≠ 12 ∧ r.sdCounter.toNat ≠ 21 ∧ r.sdCounter.toNat ≠ 30 := by
    refine ⟨?_,?_,?_⟩
    · exact fun same => elsewhere (.inl (BitVec.eq_of_toNat_eq same))
    · exact fun same => elsewhere (.inr (.inl (BitVec.eq_of_toNat_eq same)))
    · exact fun same => elsewhere (.inr (.inr (BitVec.eq_of_toNat_eq same)))
  have own : I2cController.onCounter r ⟨go,data,first⟩ = I2cController.onCounter r ⟨go,data,second⟩ := by
    unfold I2cController.onCounter
    split <;> first | rfl | omega
  rw [I2cController.clock,I2cController.clock,own]
  rfl

theorem acknowledgesHigh {r : I2cController.Regs} (acknowledges : Acknowledges r) : i2cSclk r false = true := by
  have bit : (4 : BitVec 6) ≤ r.sdCounter ∧ r.sdCounter ≤ 30 := by
    rcases acknowledges with count | count | count <;> rw [count] <;> decide
  rw [i2cSclk,if_pos bit]
  exact Bool.or_true _

theorem stepAlike {s : System} {b : Board} (config : b.config = s.config) (controller : b.controller = s.controller)
    (held : i2cSclk b.controller false = true → b.released = s.released) (x : Period) :
    I2cConfig.clock b.config b.controller.endReg (I2cController.ack b.controller) = (step s x).config ∧
      I2cController.clock b.controller ⟨b.config.mI2cGo,b.config.mI2cData,i2cSdat b.controller b.released⟩ =
        (step s x).controller := by
  obtain ⟨own,other,released⟩ := s
  obtain rfl : b.config = own := config
  obtain rfl : b.controller = other := controller
  refine ⟨rfl,?_⟩
  by_cases acknowledges : Acknowledges b.controller
  · have same : b.released = released := held (acknowledgesHigh acknowledges)
    rw [same]
    rfl
  · exact clockElsewhere acknowledges _ _ _ _

/- What stands for the devices' levels in a half of the control clock. -/
def stands (r : I2cController.Regs) (released : Bool) : Bool := if Acknowledges r then released else true

theorem standsPolite (r : I2cController.Regs) (first second : Bool) :
    I2cController.Polite r ⟨stands r first,stands r second⟩ := by
  unfold stands
  by_cases acknowledges : Acknowledges r
  · rcases acknowledges with count | count | count
    · exact .inl count
    · exact .inr (.inl count)
    · exact .inr (.inr (.inl count))
  · rw [if_neg acknowledges,if_neg acknowledges]
    exact .inr (.inr (.inr rfl))

theorem standsOnce (r : I2cController.Regs) (released : Bool) : stands r released = stands r (stands r released) := by
  unfold stands
  split <;> rfl

theorem standsHeld {r : I2cController.Regs} {released : Bool} (held : released = true ∨ Acknowledges r) :
    released = stands r released := by
  unfold stands
  by_cases acknowledges : Acknowledges r
  · rw [if_pos acknowledges]
  · rw [if_neg acknowledges]
    exact held.resolve_right acknowledges

/-! ### The run of the control clock -/

theorem configRunSnoc (s : System) (periods : List Period) (x : Period) :
    I2cConfig.run s (periods ++ [x]) = step (I2cConfig.run s periods) x := by
  rw [I2cConfig.run,List.foldl_append]
  rfl

theorem configWatchedSnoc (o : Observer) (s : System) (periods : List Period) (x : Period) :
    I2cConfig.watched o s (periods ++ [x]) = watchAll (I2cConfig.watched o s periods)
      (I2cController.levels (step (I2cConfig.run s periods) x).controller x) := by
  induction periods generalizing o s with
  | nil => rfl
  | cons y rest ih => exact ih _ (step s y)

theorem configPoliteSnoc (s : System) (periods : List Period) (x : Period) :
    I2cConfig.Polite s (periods ++ [x]) ↔
      I2cConfig.Polite s periods ∧ I2cController.Polite (step (I2cConfig.run s periods) x).controller x := by
  induction periods generalizing s with
  | nil => exact and_comm
  | cons y rest ih =>
    have tail := ih (step s y)
    rw [List.cons_append]
    exact (and_congr_right fun _ => tail).trans and_assoc.symm

theorem answeredSnoc (s : System) (periods : List Period) (x : Period) :
    Answered s (periods ++ [x]) ↔
      Answered s periods ∧ I2cController.ack (step (I2cConfig.run s periods) x).controller = false := by
  induction periods generalizing s with
  | nil => exact and_comm
  | cons y rest ih =>
    have tail := ih (step s y)
    rw [List.cons_append]
    exact (and_congr_right fun _ => tail).trans and_assoc.symm

/- The control clock is low, and its run has gone through these periods. -/
structure Low (s : System) (periods : List Period) (b : Board) (o : Observer) : Prop where
  polite : I2cConfig.Polite s periods
  config : b.config = (I2cConfig.run s periods).config
  controller : b.controller = (I2cConfig.run s periods).controller
  level : b.ctrl.level = false
  held : i2cSclk b.controller false = true → b.released = (I2cConfig.run s periods).released
  seen : Alike o (I2cConfig.watched (quiet []) s periods)

/- It has risen after these periods, and the second half of the next one is still to
come. -/
structure High (s : System) (periods : List Period) (first : Bool) (b : Board) (o : Observer) : Prop where
  polite : I2cConfig.Polite s periods
  config : b.config = (step (I2cConfig.run s periods) ⟨first,first⟩).config
  controller : b.controller = (step (I2cConfig.run s periods) ⟨first,first⟩).controller
  level : b.ctrl.level = true
  own : first = stands b.controller first
  held : i2cSclk b.controller true = true → b.released = first
  seen : Alike o (watch (I2cConfig.watched (quiet []) s periods) ⟨i2cSclk b.controller true,i2cSdat b.controller first⟩)

inductive Stands (s : System) : List Period → Board → Observer → Prop where
  | low {periods : List Period} {b : Board} {o : Observer} (low : Low s periods b o) : Stands s periods b o
  | high {periods : List Period} {first : Bool} {b : Board} {o : Observer} (high : High s periods first b o) :
      Stands s (periods ++ [⟨first,first⟩]) b o

theorem clockLevel (b : Board) (x : Bool) : (clock b x).ctrl = tick ctrlLimit b.ctrl := by
  unfold clock
  dsimp only
  split <;> rfl

theorem clockStays {b : Board} (still : (!b.ctrl.level && (tick ctrlLimit b.ctrl).level) = false) (x : Bool) :
    clock b x = {b with ctrl := tick ctrlLimit b.ctrl, released := x} := by
  unfold clock
  dsimp only
  rw [still,if_neg Bool.false_ne_true]

theorem clockRises {b : Board} (rises : (!b.ctrl.level && (tick ctrlLimit b.ctrl).level) = true) (x : Bool) :
    clock b x = ⟨tick ctrlLimit b.ctrl,I2cConfig.clock b.config b.controller.endReg (I2cController.ack b.controller),
      I2cController.clock b.controller ⟨b.config.mI2cGo,b.config.mI2cData,i2cSdat b.controller b.released⟩,x⟩ := by
  unfold clock
  dsimp only
  rw [rises,if_pos rfl]

theorem levelStill {b : Board} (level : (tick ctrlLimit b.ctrl).level = b.ctrl.level) :
    (!b.ctrl.level && (tick ctrlLimit b.ctrl).level) = false := by
  rw [level]
  exact Bool.not_and_self _

theorem staysSame {b : Board} {x : Bool} (level : (tick ctrlLimit b.ctrl).level = b.ctrl.level) (holds : Holds b x) :
    SameLevel (lines b) (lines (clock b x)) := by
  unfold Holds at holds
  rw [clockStays (levelStill level)] at holds ⊢
  have scl : (lines {b with ctrl := tick ctrlLimit b.ctrl, released := x}).scl = (lines b).scl := by
    rw [lines,lines,level]
  refine ⟨scl.symm,?_⟩
  intro high
  have same : x = b.released := (holds (scl.trans high)).2 high
  rw [lines,lines,same]

theorem heldStill {b : Board} {x : Bool} (level : (tick ctrlLimit b.ctrl).level = b.ctrl.level) (holds : Holds b x)
    (high : (lines b).scl = true) : x = b.released :=
  (holds ((staysSame level holds).scl.symm.trans high)).2 high

section
variable {s : System} {periods : List Period} {first : Bool} {b : Board} {o : Observer} {x : Bool}

theorem lowStays (low : Low s periods b o) (line : o.line = lines b) (holds : Holds b x)
    (next : (tick ctrlLimit b.ctrl).level = false) : Low s periods (clock b x) (watch o (lines (clock b x))) := by
  have level : (tick ctrlLimit b.ctrl).level = b.ctrl.level := next.trans low.level.symm
  have same : SameLevel o.line (lines (clock b x)) := by
    rw [line]
    exact staysSame level holds
  have again := alikeTrans (watchAgain same) low.seen
  have scl : (lines b).scl = i2cSclk b.controller false := by rw [lines,low.level]
  have own := heldStill level holds
  rw [clockStays (levelStill level)] at again ⊢
  refine ⟨low.polite,low.config,low.controller,next,?_,again⟩
  intro high
  exact (own (scl.trans high)).trans (low.held high)

theorem highStays (high : High s periods first b o) (line : o.line = lines b) (holds : Holds b x)
    (next : (tick ctrlLimit b.ctrl).level = true) : High s periods first (clock b x) (watch o (lines (clock b x))) := by
  have level : (tick ctrlLimit b.ctrl).level = b.ctrl.level := next.trans high.level.symm
  have same : SameLevel o.line (lines (clock b x)) := by
    rw [line]
    exact staysSame level holds
  have again := alikeTrans (watchAgain same) high.seen
  have scl : (lines b).scl = i2cSclk b.controller true := by rw [lines,high.level]
  have own := heldStill level holds
  rw [clockStays (levelStill level)] at again ⊢
  refine ⟨high.polite,high.config,high.controller,next,high.own,?_,again⟩
  intro up
  exact (own (scl.trans up)).trans (high.held up)

theorem highFalls (high : High s periods first b o) (holds : Holds b x)
    (next : (tick ctrlLimit b.ctrl).level = false) :
    Low s (periods ++ [⟨first,stands b.controller x⟩]) (clock b x) (watch o (lines (clock b x))) := by
  have still : (!b.ctrl.level && (tick ctrlLimit b.ctrl).level) = false := by
    rw [next]
    exact Bool.and_false _
  rw [Holds] at holds
  rw [clockStays still] at holds ⊢
  have controller : b.controller = (step (I2cConfig.run s periods) ⟨first,stands b.controller x⟩).controller :=
    high.controller
  have free : i2cSclk b.controller false = true → x = stands b.controller x := by
    intro up
    have now : (lines {b with ctrl := tick ctrlLimit b.ctrl, released := x}).scl = true := by
      rw [lines,next]
      exact up
    exact standsHeld (holds now).1
  refine ⟨?_,?_,?_,next,?_,?_⟩
  · refine (configPoliteSnoc _ _ _).mpr ⟨high.polite,?_⟩
    rw [← controller]
    have polite := standsPolite b.controller first x
    rwa [← high.own] at polite
  · rw [configRunSnoc]
    exact high.config
  · rw [configRunSnoc]
    exact controller
  · rw [configRunSnoc]
    exact free
  · rw [configWatchedSnoc,← controller]
    refine watchAlike high.seen ⟨?_,?_⟩
    · rw [lines,next]
    · intro up
      rw [lines,next] at up
      exact congrArg (i2cSdat b.controller) (free up)

theorem lowRises (low : Low s periods b o) (holds : Holds b x) (next : (tick ctrlLimit b.ctrl).level = true) :
    High s periods (stands (clock b x).controller x) (clock b x) (watch o (lines (clock b x))) := by
  have rises : (!b.ctrl.level && (tick ctrlLimit b.ctrl).level) = true := by
    rw [next,low.level]
    rfl
  have level : (clock b x).ctrl.level = true := by rw [clockLevel,next]
  have released : (clock b x).released = x := by rw [clockRises rises]
  have steps := stepAlike low.config low.controller low.held
    ⟨stands (clock b x).controller x,stands (clock b x).controller x⟩
  have config : (clock b x).config = _ := (congrArg Board.config (clockRises rises x)).trans steps.1
  have controller : (clock b x).controller = _ := (congrArg Board.controller (clockRises rises x)).trans steps.2
  have scl : (lines (clock b x)).scl = i2cSclk (clock b x).controller true := by rw [lines,level]
  have free : i2cSclk (clock b x).controller true = true → x = stands (clock b x).controller x :=
    fun up => standsHeld (holds (scl.trans up)).1
  refine ⟨low.polite,config,controller,level,standsOnce _ x,?_,watchAlike low.seen ⟨scl,?_⟩⟩
  · intro up
    rw [released]
    exact free up
  · intro up
    rw [lines,released]
    exact congrArg (i2cSdat (clock b x).controller) (free (scl.symm.trans up))

theorem clockStands (here : Stands s periods b o) (line : o.line = lines b) (holds : Holds b x) :
    ∃ later, later.length = periods.length + (if !b.ctrl.level && (tick ctrlLimit b.ctrl).level then 1 else 0) ∧
      (Answered s periods → I2cController.ack (clock b x).controller = false → Answered s later) ∧
      Stands s later (clock b x) (watch o (lines (clock b x))) := by
  cases here with
  | low low =>
    rw [low.level]
    cases next : (tick ctrlLimit b.ctrl).level with
    | false => exact ⟨periods,rfl,fun before _ => before,.low (lowStays low line holds next)⟩
    | true =>
      have high := lowRises low holds next
      refine ⟨_,List.length_append,?_,.high high⟩
      intro before now
      rw [high.controller] at now
      exact (answeredSnoc _ _ _).mpr ⟨before,now⟩
  | @high periods first b o high =>
    rw [high.level]
    cases next : (tick ctrlLimit b.ctrl).level with
    | true => exact ⟨_,rfl,fun before _ => before,.high (highStays high line holds next)⟩
    | false =>
      refine ⟨_,?_,?_,.low (highFalls high holds next)⟩
      · rw [List.length_append,List.length_append]
        rfl
      · intro before _
        have both := (answeredSnoc s periods ⟨first,first⟩).mp before
        exact (answeredSnoc _ _ _).mpr ⟨both.1,both.2⟩

end

/-! ### Runs -/

def edges (clocks : Nat) : Nat := (clocks + ctrlLimit + 1)/(2*(ctrlLimit + 1))

theorem edgesNext {n : Nat} {d : Divider 16} (now : At ctrlLimit n d) :
    edges (n+1) = edges n + (if !d.level && (tick ctrlLimit d).level then 1 else 0) := by
  have next : At ctrlLimit (n+1) (tick ctrlLimit d) := tickAt (by decide) now
  rw [now.level,next.level,levelAt,levelAt,edges,edges]
  have limit : ctrlLimit = 2500 := rfl
  rw [limit,← decide_not,← Bool.decide_and]
  split
  · rename_i rises
    have rises := of_decide_eq_true rises
    omega
  · rename_i still
    have still := of_decide_eq_false (Bool.eq_false_iff.mpr still)
    omega

structure Taken (b : Board) : Prop where
  clear : I2cController.ack b.controller = false
  pulled : Acknowledges b.controller → b.released = false

theorem clockTaken {b : Board} (taken : Taken b) {x : Bool}
    (answers : Acknowledges (clock b x).controller → x = false) : Taken (clock b x) := by
  cases rises : !b.ctrl.level && (tick ctrlLimit b.ctrl).level with
  | false =>
    rw [clockStays rises] at answers ⊢
    exact ⟨taken.clear,answers⟩
  | true =>
    rw [clockRises rises] at answers ⊢
    refine ⟨controllerTaken taken.clear ?_,answers⟩
    intro acknowledges
    have low : b.released = false := taken.pulled acknowledges
    rw [i2cSdat,low]
    exact ite_self _

theorem runStands {s : System} {n : Nat} {periods : List Period} {b : Board} {o : Observer}
    (here : Stands s periods b o) (line : o.line = lines b) (now : At ctrlLimit n b.ctrl)
    (edged : periods.length = edges n) (sda : List Bool) (polite : Polite b sda) :
    ∃ later, later.length = edges (n + sda.length) ∧
      (Answered s periods → Taken b → Answers b sda → Answered s later) ∧
      Stands s later (run b sda) (watched o b sda) := by
  induction sda generalizing n periods b o with
  | nil => exact ⟨periods,edged,fun before _ _ => before,here⟩
  | cons x rest ih =>
    obtain ⟨next,longer,answered,after⟩ := clockStands here line polite.1
    have ctrl : At ctrlLimit (n+1) (clock b x).ctrl := by
      rw [clockLevel]
      exact tickAt (by decide) now
    have count : next.length = edges (n+1) := by rw [longer,edged,edgesNext now]
    obtain ⟨later,all,thence,last⟩ := ih after (watchLine _ _) ctrl count polite.2
    refine ⟨later,?_,?_,last⟩
    · rw [all,List.length_cons]
      congr 1
      omega
    · intro before taken answers
      have now := clockTaken taken answers.1
      exact thence (answered before now.clear) now answers.2

theorem standsShown {s : System} {periods : List Period} {b : Board} {o : Observer} (here : Stands s periods b o) :
    I2cConfig.Polite s periods ∧ b.config = (I2cConfig.run s periods).config ∧
      messages o = messages (I2cConfig.watched (quiet []) s periods) := by
  cases here with
  | low low => exact ⟨low.polite,low.config,congrArg (List.filter _) low.seen.ended⟩
  | @high periods first b o high =>
    have polite := standsPolite b.controller first first
    rw [← high.own,high.controller] at polite
    refine ⟨(configPoliteSnoc _ _ _).mpr ⟨high.polite,polite⟩,?_,congrArg (List.filter _) ?_⟩
    · rw [configRunSnoc]
      exact high.config
    · rw [configWatchedSnoc,← high.controller]
      -- SDA stays in the second half, so no transfer ends in it
      have steady := watchEnded (o := watch (I2cConfig.watched (quiet []) s periods)
        ⟨i2cSclk b.controller true,i2cSdat b.controller first⟩)
        (x := ⟨i2cSclk b.controller false,i2cSdat b.controller first⟩) (by rw [watchLine]; exact fun _ _ => rfl)
      exact high.seen.ended.trans steady.symm

def resetOf (b : Board) : System := resetSystem ⟨b.config,b.controller,b.released⟩

theorem resetStands (b : Board) : Stands (resetOf b) [] (reset b) (quiet []) :=
  .low ⟨trivial,rfl,rfl,rfl,fun _ => rfl,alikeSelf _⟩

theorem clockedPhase (b : Board) (sda : List Bool) (polite : Polite (reset b) sda) :
    ∃ log s o, I2cTransfers.Phase (edges sda.length) log s o ∧ (run (reset b) sda).config = s.config ∧
      messages (watched (quiet []) (reset b) sda) = messages o := by
  obtain ⟨periods,count,_,here⟩ := runStands (resetStands b) rfl (clearedAt ctrlLimit) rfl sda polite
  obtain ⟨own,config,seen⟩ := standsShown here
  obtain ⟨log,_,phase⟩ := I2cTransfers.runAdvances (I2cTransfers.resetPhase _) own
  rw [Nat.zero_add,count,Nat.zero_add] at phase
  exact ⟨log,_,_,phase,config,seen⟩

theorem begunEdges {n : Nat} (begun : 2501 ≤ n) : 0 < edges n := by
  have limit : ctrlLimit = 2500 := rfl
  rw [edges,limit]
  omega

theorem clockedEnd (b : Board) {sda : List Bool} (polite : Polite (reset b) sda) (begun : 2501 ≤ sda.length) :
    (run (reset b) sda).config.oI2cEnd = true ↔
      8841035 + 185074 * (messages (watched (quiet []) (reset b) sda)).countP I2cTransfers.refusal ≤ sda.length := by
  obtain ⟨log,s,o,phase,config,seen⟩ := clockedPhase b sda polite
  have limit : ctrlLimit = 2500 := rfl
  rw [config,seen,(I2cTransfers.phaseSends phase).1,I2cTransfers.refusalCount,
    I2cTransfers.phaseEnd phase (begunEdges begun),edges,limit]
  omega

theorem clockedTaken (b : Board) (sda : List Bool) (polite : Polite (reset b) sda) (answers : Answers (reset b) sda) :
    (messages (watched (quiet []) (reset b) sda)).countP I2cTransfers.refusal = 0 := by
  obtain ⟨periods,_,answered,here⟩ := runStands (resetStands b) rfl (clearedAt ctrlLimit) rfl sda polite
  obtain ⟨own,_,seen⟩ := standsShown here
  have none : ¬ Acknowledges (reset b).controller := by
    unfold Acknowledges
    exact of_decide_eq_false rfl
  have taken := answered trivial ⟨rfl,fun acknowledges => absurd acknowledges none⟩ answers
  obtain ⟨log,clean,phase⟩ := I2cTransfers.runTaken (I2cTransfers.resetPhase _) own taken rfl
  have record : messages (I2cConfig.watched (quiet []) (resetOf b) periods) = log.map I2cTransfers.Transfer.bits :=
    (I2cTransfers.phaseSends phase).1
  rw [seen,record,I2cTransfers.refusalCount]
  exact clean

def configured : List (List Bool) :=
  I2cTransfers.configWords.map (fun w => I2cController.frame w ⟨false,false,false⟩)

def acknowledged (o : Observer) : List (List Bool) := (messages o).filter (fun bits => !I2cTransfers.refusal bits)

theorem clockedTable (b : Board) {sda : List Bool} (polite : Polite (reset b) sda) :
    ∃ words, acknowledged (watched (quiet []) (reset b) sda) = configured.take words ∧
      (2501 ≤ sda.length → (run (reset b) sda).config.oI2cEnd = true → words = configured.length) := by
  obtain ⟨log,s,o,phase,config,seen⟩ := clockedPhase b sda polite
  obtain ⟨record,order⟩ := I2cTransfers.phaseSends phase
  refine ⟨(I2cTransfers.answers log).count true,?_,?_⟩
  · rw [acknowledged,seen,record,I2cTransfers.acknowledgedBits,order,StopAndWait.acknowledgedOnce,List.map_take]
    rfl
  · intro begun done
    rw [config] at done
    rw [I2cTransfers.phaseDone phase (begunEdges begun) done,configured,List.length_map]

theorem clockedDone (b : Board) {sda : List Bool} (polite : Polite (reset b) sda) (begun : 2501 ≤ sda.length)
    (done : (run (reset b) sda).config.oI2cEnd = true) :
    acknowledged (watched (quiet []) (reset b) sda) = configured := by
  obtain ⟨words,table,all⟩ := clockedTable b polite
  rw [table,all begun done,List.take_length]

theorem configuredOnClock50 (b : Board) (sda : List Bool) (polite : Polite (reset b) sda) :
    (∃ log : List I2cTransfers.Transfer,
      messages (watched (quiet []) (reset b) sda) = log.map I2cTransfers.Transfer.bits ∧
      log.map I2cTransfers.Transfer.word = StopAndWait.sent I2cTransfers.configWords (I2cTransfers.answers log)) ∧
    (2501 ≤ sda.length → ((run (reset b) sda).config.oI2cEnd = true ↔
      8841035 + 185074 * (messages (watched (quiet []) (reset b) sda)).countP I2cTransfers.refusal ≤ sda.length)) ∧
    (2501 ≤ sda.length → (run (reset b) sda).config.oI2cEnd = true →
      acknowledged (watched (quiet []) (reset b) sda) = configured) := by
  obtain ⟨log,s,o,phase,config,seen⟩ := clockedPhase b sda polite
  obtain ⟨record,order⟩ := I2cTransfers.phaseSends phase
  exact ⟨⟨log,seen.trans record,order⟩,clockedEnd b polite,clockedDone b polite⟩

def powerUp : Board := ⟨cleared,I2cTransfers.powerUp.config,I2cTransfers.powerUp.controller,true⟩

/-! ### Devices that acknowledge each byte -/

theorem answeredTable (b : Board) {sda : List Bool} (polite : Polite (reset b) sda) (answers : Answers (reset b) sda) :
    acknowledged (watched (quiet []) (reset b) sda) = messages (watched (quiet []) (reset b) sda) := by
  refine List.filter_eq_self.mpr ?_
  intro bits member
  have none := List.countP_eq_zero.mp (clockedTaken b sda polite answers) bits member
  rw [Bool.eq_false_iff.mpr none]
  rfl

theorem answeredEnd (b : Board) {sda : List Bool} (polite : Polite (reset b) sda) (answers : Answers (reset b) sda)
    (begun : 2501 ≤ sda.length) : (run (reset b) sda).config.oI2cEnd = true ↔ 8841035 ≤ sda.length := by
  rw [clockedEnd b polite begun,clockedTaken b sda polite answers]

theorem answeredOnClock50 (b : Board) (sda : List Bool) (polite : Polite (reset b) sda)
    (answers : Answers (reset b) sda) :
    (∃ words, messages (watched (quiet []) (reset b) sda) = configured.take words) ∧
    (2501 ≤ sda.length → ((run (reset b) sda).config.oI2cEnd = true ↔ 8841035 ≤ sda.length)) ∧
    (8841035 ≤ sda.length → messages (watched (quiet []) (reset b) sda) = configured) := by
  have same := answeredTable b polite answers
  refine ⟨?_,answeredEnd b polite answers,?_⟩
  · obtain ⟨words,table,_⟩ := clockedTable b polite
    exact ⟨words,same.symm.trans table⟩
  · intro late
    have begun : 2501 ≤ sda.length := by omega
    exact same.symm.trans (clockedDone b polite begun ((answeredEnd b polite answers begun).mpr late))

def answer (b : Board) : Bool := !decide (Acknowledges (clock b true).controller)

def answering (b : Board) : Nat → List Bool
  | 0 => []
  | n+1 => answer b :: answering (clock b (answer b)) n

theorem answeringLength (b : Board) (n : Nat) : (answering b n).length = n := by
  induction n generalizing b with
  | zero => rfl
  | succ n ih => exact congrArg Nat.succ (ih _)

def BitsLow (r : I2cController.Regs) : Prop := 3 ≤ r.sdCounter.toNat → r.sdCounter.toNat ≤ 31 → r.sclk = false

theorem counterNext (r : I2cController.Regs) (i : I2cController.Inputs) :
    (I2cController.counter r i).toNat = 0 ∨ (I2cController.counter r i).toNat = r.sdCounter.toNat + 1 ∨
      (I2cController.counter r i).toNat = 63 := by
  unfold I2cController.counter
  split
  · exact .inl rfl
  · split
    · rename_i below
      have small : r.sdCounter.toNat < 63 := below
      refine .inr (.inl ?_)
      rw [BitVec.toNat_add]
      exact Nat.mod_eq_of_lt (Nat.lt_of_le_of_lt small (by decide))
    · rename_i above
      have large : ¬ r.sdCounter.toNat < 63 := above
      omega

theorem counterSclk (r : I2cController.Regs) (i : I2cController.Inputs) :
    (I2cController.onCounter r i).sclk =
      if r.sdCounter.toNat = 0 ∨ r.sdCounter.toNat = 31 then true
      else if r.sdCounter.toNat = 2 ∨ r.sdCounter.toNat = 30 then false
      else r.sclk := by
  unfold I2cController.onCounter
  split
  all_goals simp_all

theorem bitsLowNext {r : I2cController.Regs} (low : BitsLow r) (i : I2cController.Inputs) :
    BitsLow (I2cController.clock r i) := by
  have sclk : (I2cController.clock r i).sclk = (I2cController.onCounter r i).sclk := rfl
  have count : (I2cController.clock r i).sdCounter = I2cController.counter r i := rfl
  unfold BitsLow
  rw [sclk,count,counterSclk]
  intro after before
  rcases counterNext r i with zero | next | last
  · omega
  · rw [if_neg (by omega)]
    split
    · rfl
    · exact low (by omega) (by omega)
  · omega

structure Follows (b : Board) : Prop where
  low : BitsLow b.controller
  released : b.released = !decide (Acknowledges b.controller)

theorem acknowledgesCount {r : I2cController.Regs} (acknowledges : Acknowledges r) :
    r.sdCounter.toNat = 12 ∨ r.sdCounter.toNat = 21 ∨ r.sdCounter.toNat = 30 := by
  rcases acknowledges with count | count | count <;> rw [count] <;> decide

theorem acknowledgesLow {r : I2cController.Regs} (low : BitsLow r) (acknowledges : Acknowledges r) :
    r.sclk = false := by
  have count := acknowledgesCount acknowledges
  exact low (by omega) (by omega)

theorem edgeElsewhere {r : I2cController.Regs} (low : BitsLow r) {i : I2cController.Inputs}
    (high : (I2cController.clock r i).sclk = true) :
    ¬ Acknowledges r ∧ ¬ Acknowledges (I2cController.clock r i) := by
  constructor
  · intro acknowledges
    have count := acknowledgesCount acknowledges
    have sclk : (I2cController.onCounter r i).sclk = true := high
    rw [counterSclk,if_neg (by omega),acknowledgesLow low acknowledges,ite_self] at sclk
    exact Bool.false_ne_true sclk
  · intro acknowledges
    rw [acknowledgesLow (bitsLowNext low i) acknowledges] at high
    exact Bool.false_ne_true high

theorem clockController (b : Board) (x y : Bool) : (clock b x).controller = (clock b y).controller := by
  unfold clock
  dsimp only
  split <;> rfl

theorem answerPulls (b : Board) (x : Bool) : answer b = !decide (Acknowledges (clock b x).controller) := by
  rw [answer,clockController b true x]

theorem answerHolds {b : Board} (follows : Follows b) : Holds b (answer b) := by
  intro high
  have level := answerPulls b (answer b)
  refine ⟨?_,?_⟩
  · by_cases acknowledges : Acknowledges (clock b (answer b)).controller
    · exact .inr acknowledges
    · rw [decide_eq_false acknowledges] at level
      exact .inl level
  · intro before
    rw [follows.released]
    cases rises : !b.ctrl.level && (tick ctrlLimit b.ctrl).level with
    | false =>
      rw [clockStays rises] at level
      exact level
    | true =>
      rw [clockRises rises] at level high
      rw [Bool.and_eq_true] at rises
      have sclk : i2cSclk _ (tick ctrlLimit b.ctrl).level = true := high
      rw [rises.2,i2cSclk,Bool.not_true,ite_self,Bool.or_false] at sclk
      have elsewhere := edgeElsewhere follows.low sclk
      rw [decide_eq_false elsewhere.1]
      rw [decide_eq_false elsewhere.2] at level
      exact level

theorem answerFollows {b : Board} (follows : Follows b) : Follows (clock b (answer b)) := by
  have released := answerPulls b (answer b)
  cases rises : !b.ctrl.level && (tick ctrlLimit b.ctrl).level with
  | false =>
    rw [clockStays rises] at released ⊢
    exact ⟨follows.low,released⟩
  | true =>
    rw [clockRises rises] at released ⊢
    exact ⟨bitsLowNext follows.low _,released⟩

theorem answeringPolite {b : Board} (follows : Follows b) (n : Nat) :
    Polite b (answering b n) ∧ Answers b (answering b n) := by
  induction n generalizing b with
  | zero => exact ⟨trivial,trivial⟩
  | succ n ih =>
    obtain ⟨polite,answers⟩ := ih (answerFollows follows)
    refine ⟨⟨answerHolds follows,polite⟩,⟨?_,answers⟩⟩
    intro acknowledges
    rw [answerPulls b (answer b),decide_eq_true acknowledges]
    rfl

theorem resetFollows (b : Board) : Follows (reset b) := by
  refine ⟨?_,rfl⟩
  intro after before
  have count : (reset b).controller.sdCounter.toNat = 63 := rfl
  omega

theorem answeringEnds :
    (run (reset powerUp) (answering (reset powerUp) 8841035)).config.oI2cEnd = true ∧
    acknowledged (watched (quiet []) (reset powerUp) (answering (reset powerUp) 8841035)) = configured := by
  have devices := answeringPolite (resetFollows powerUp) 8841035
  have runs := configuredOnClock50 powerUp _ devices.1
  have length := answeringLength (reset powerUp) 8841035
  have begun : 2501 ≤ (answering (reset powerUp) 8841035).length := by
    rw [length]
    decide
  have done : (run (reset powerUp) (answering (reset powerUp) 8841035)).config.oI2cEnd = true := by
    rw [runs.2.1 begun,clockedTaken powerUp _ devices.1 devices.2,length]
  exact ⟨done,runs.2.2 begun done⟩

theorem answeringConfigures :
    messages (watched (quiet []) (reset powerUp) (answering (reset powerUp) 8841035)) = configured := by
  have devices := answeringPolite (resetFollows powerUp) 8841035
  have late : 8841035 ≤ (answering (reset powerUp) 8841035).length := Nat.le_of_eq (answeringLength _ _).symm
  exact (answeredOnClock50 powerUp _ devices.1 devices.2).2.2 late

/-! ### END from reset on -/

/- Reset leaves o_I2C_END as it was, until the first edge of the control clock. -/
theorem earlyEnd (b : Board) {sda : List Bool} (polite : Polite (reset b) sda) (early : sda.length < 2501) :
    (run (reset b) sda).config.oI2cEnd = b.config.oI2cEnd := by
  obtain ⟨periods,count,_,here⟩ := runStands (resetStands b) rfl (clearedAt ctrlLimit) rfl sda polite
  have limit : ctrlLimit = 2500 := rfl
  have none : periods.length = 0 := by
    rw [count,Nat.zero_add,edges,limit]
    omega
  obtain rfl := List.length_eq_zero_iff.mp none
  rw [(standsShown here).2.1]
  rfl

theorem politePart {b : Board} {first last : List Bool} (polite : Polite b (first ++ last)) : Polite b first := by
  induction first generalizing b with
  | nil => exact trivial
  | cons x rest ih => exact ⟨polite.1,ih polite.2⟩

end FpgaSynthesizer.I2cClocked
