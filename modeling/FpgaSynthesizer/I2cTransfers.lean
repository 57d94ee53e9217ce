import FpgaSynthesizer.I2cConfig
import FpgaSynthesizer.StopAndWait

/-! The configuration as it appears on the bus. END is still high from the reset
when the first word is handed over, so that word is dropped; from then on the two
processes send each word of the table until it is acknowledged. A refused word
leaves END high as well, and costs an empty transfer before it is repeated. -/
namespace FpgaSynthesizer.I2cTransfers
open I2cBus StopAndWait I2cConfig
open I2cController (Period Acks sending seen frame levels i2cSdat)

structure Transfer where
  word : BitVec 24
  acks : Acks
  deriving DecidableEq, Repr

def Transfer.bits (x : Transfer) : List Bool := frame x.word x.acks

def Transfer.acknowledged (x : Transfer) : Bool := !x.acks.refused

def answers (log : List Transfer) : List Bool := log.map Transfer.acknowledged

def wordAt (i : Nat) : BitVec 24 := word (BitVec.ofNat 6 i)

def configWords : List (BitVec 24) := (List.range' 1 49).map wordAt

def elapsed (log : List Transfer) : Nat := (log.map (fun x => if x.acknowledged then 36 else 37)).sum

structure Ready (log : List Transfer) (i : Nat) (ended : List (List Bool)) : Prop where
  index : i = 1 + (answers log).count true
  record : messages (quiet ended) = log.map Transfer.bits
  order : log.map Transfer.word = sent configWords (answers log)

theorem answersSnoc (log : List Transfer) (x : Transfer) : answers (log ++ [x]) = answers log ++ [x.acknowledged] := by
  simp [answers]

theorem elapsedSnoc (log : List Transfer) (w : BitVec 24) (a : Acks) :
    elapsed (log ++ [⟨w,a⟩]) = elapsed log + (if a.refused then 37 else 36) := by
  cases outcome : a.refused <;> simp [elapsed,Transfer.acknowledged,outcome]

theorem emptyReady : Ready [] 1 [[]] := ⟨rfl,rfl,rfl⟩

theorem wordPending {i : Nat} (first : 1 ≤ i) (inside : i < lutSize) :
    (configWords.drop (i-1)).head? = some (wordAt i) := by
  have limit : i < 50 := inside
  have place : i - 1 < 49 := by omega
  rw [configWords,List.head?_drop,List.getElem?_map,List.getElem?_range' place]
  have index : 1 + 1*(i-1) = i := by omega
  rw [index]
  rfl

theorem readyEmpty {log : List Transfer} {i : Nat} {ended : List (List Bool)} (ready : Ready log i ended) :
    Ready log i (ended ++ [[]]) := by
  refine ⟨ready.index,?_,ready.order⟩
  rw [messagesQuiet,if_pos rfl,List.append_nil]
  exact ready.record

theorem readyNext {log : List Transfer} {i : Nat} {ended : List (List Bool)} (ready : Ready log i ended)
    (inside : i < lutSize) (a : Acks) :
    Ready (log ++ [⟨wordAt i,a⟩]) (if a.refused then i else i+1) (ended ++ [frame (wordAt i) a]) := by
  have index := ready.index
  refine ⟨?_,?_,?_⟩
  · rw [answersSnoc,List.count_append,index]
    cases refused : a.refused with
    | false =>
      simp [Transfer.acknowledged,refused]
      omega
    | true => simp [Transfer.acknowledged,refused]
  · rw [messagesQuiet,if_neg (by simp [frame]),ready.record,List.map_append]
    rfl
  · rw [answersSnoc,sentSnoc,List.map_append,ready.order]
    have place : (answers log).count true = i-1 := by omega
    rw [pending,place,wordPending (by omega) inside]
    simp

/-! ### Where a run stands -/

def setup (i : Nat) (mSetupST : BitVec 4) (mI2cGo : Bool) (mI2cData : BitVec 24) : I2cConfig.Regs :=
  ⟨BitVec.ofNat 6 i,mSetupST,mI2cGo,mI2cData,false⟩

def clear (sdo endReg : Bool) (sd : BitVec 24) (sdCounter : BitVec 6) : I2cController.Regs :=
  ⟨sdo,true,endReg,sd,sdCounter,false,false,false⟩

def ended (w : BitVec 24) (a : Acks) (sdCounter : BitVec 6) : I2cController.Regs :=
  ⟨true,true,true,w,sdCounter,a.first,a.second,a.third⟩

/- The registers and the observer after a number of clocks and of transfers. -/
inductive Phase : Nat → List Transfer → System → Observer → Prop where
  | reset (data sd : BitVec 24) (o : Bool) :
      Phase 0 [] ⟨⟨0,0,false,data,o⟩,clear true true sd 63,true⟩ (quiet [])
  -- the first word: END is high when its GO is answered, and a START is cut short
  | offered (sd : BitVec 24) : Phase 1 [] ⟨setup 0 1 true (wordAt 0),clear true true sd 0,true⟩ (quiet [])
  | dropped (sd : BitVec 24) : Phase 2 [] ⟨setup 0 2 false (wordAt 0),clear true false sd 1,true⟩ (quiet [])
  | cut : Phase 3 [] ⟨setup 1 0 false (wordAt 0),clear false false (wordAt 0) 0,true⟩ (begun [])
  | sending {log i shown} (ready : Ready log i shown) (inside : i < lutSize) {k : Nat} (part : k < 33)
      {a : Acks} (sd : BitVec 24) {released : Bool} (sampled : a.at k released = a) :
      Phase (4 + elapsed log + k) log ⟨setup i 1 true (wordAt i),sending (wordAt i) sd a k,released⟩
        (seen (wordAt i) a k shown)
  | answered {log i shown} (ready : Ready log i shown) (inside : i < lutSize) (a : Acks) :
      Phase (4 + elapsed log + 33) (log ++ [⟨wordAt i,a⟩])
        ⟨setup i 1 true (wordAt i),ended (wordAt i) a 33,true⟩ (quiet (shown ++ [frame (wordAt i) a]))
  | accepted {log i shown} (ready : Ready log i shown) (inside : i < lutSize) {a : Acks}
      (taken : a.refused = false) :
      Phase (4 + elapsed log + 34) (log ++ [⟨wordAt i,a⟩])
        ⟨setup i 2 false (wordAt i),ended (wordAt i) a 34,true⟩ (quiet (shown ++ [frame (wordAt i) a]))
  | next {log i shown} (ready : Ready log i shown) (last : i ≤ lutSize) (data sd : BitVec 24) :
      Phase (3 + elapsed log) log ⟨setup i 0 false data,clear true true sd 0,true⟩ (quiet shown)
  -- a refused word: END is still high, and one more START is cut short
  | refused {log i shown} (ready : Ready log i shown) (inside : i < lutSize) {a : Acks} (none : a.refused = true) :
      Phase (4 + elapsed log + 34) (log ++ [⟨wordAt i,a⟩])
        ⟨setup i 0 false (wordAt i),ended (wordAt i) a 34,true⟩ (quiet (shown ++ [frame (wordAt i) a]))
  | again {log i shown} (ready : Ready log i shown) (inside : i < lutSize) {a : Acks} (none : a.refused = true) :
      Phase (4 + elapsed log + 35) (log ++ [⟨wordAt i,a⟩])
        ⟨setup i 1 true (wordAt i),ended (wordAt i) a 0,true⟩ (quiet (shown ++ [frame (wordAt i) a]))
  | stale {log i shown} (ready : Ready log i shown) (inside : i < lutSize) :
      Phase (3 + elapsed log) log ⟨setup i 0 false (wordAt i),clear true false (wordAt i) 1,true⟩ (quiet shown)
  | repeated {log i shown} (ready : Ready log i shown) (inside : i < lutSize) :
      Phase (4 + elapsed log) log ⟨setup i 1 true (wordAt i),clear false false (wordAt i) 0,true⟩ (begun shown)
  | finished {log shown} (ready : Ready log lutSize shown) (data sd : BitVec 24) {t : Nat}
      (late : 4 + elapsed log ≤ t) :
      Phase t log ⟨⟨50,0,false,data,true⟩,clear true false sd 0,true⟩ (quiet shown)

/-! ### One clock -/

theorem indexInside {i : Nat} (inside : i < lutSize) : (BitVec.ofNat 6 i).toNat < lutSize := by
  have limit : i < 50 := inside
  rw [BitVec.toNat_ofNat,Nat.mod_eq_of_lt (by omega)]
  exact inside

theorem clockOffer {i : Nat} (inside : i < lutSize) (go o endOf ack : Bool) (data : BitVec 24) :
    I2cConfig.clock ⟨BitVec.ofNat 6 i,0,go,data,o⟩ endOf ack = setup i 1 true (wordAt i) := by
  rw [I2cConfig.clock,if_pos (indexInside inside)]
  rfl

theorem clockWait {i : Nat} (inside : i < lutSize) (ack : Bool) (data : BitVec 24) :
    I2cConfig.clock (setup i 1 true data) false ack = setup i 1 true data := by
  rw [I2cConfig.clock,setup,if_pos (indexInside inside)]
  rfl

theorem clockAnswer {i : Nat} (inside : i < lutSize) (ack : Bool) (data : BitVec 24) :
    I2cConfig.clock (setup i 1 true data) true ack = setup i (if ack then 0 else 2) false data := by
  rw [I2cConfig.clock,setup,if_pos (indexInside inside)]
  cases ack <;> rfl

theorem clockEnded {i : Nat} (inside : i < lutSize) (a : Acks) (count : BitVec 6) :
    I2cConfig.clock (setup i 1 true (wordAt i)) true (I2cController.ack (ended (wordAt i) a count)) =
      setup i (if a.refused then 0 else 2) false (wordAt i) :=
  clockAnswer inside a.refused (wordAt i)

theorem clockNext {i : Nat} (inside : i < lutSize) (endOf ack : Bool) (data : BitVec 24) :
    I2cConfig.clock (setup i 2 false data) endOf ack = setup (i+1) 0 false data := by
  have index : BitVec.ofNat 6 i + 1 = BitVec.ofNat 6 (i+1) := (BitVec.ofNat_add i 1).symm
  rw [I2cConfig.clock,setup,if_pos (indexInside inside),setup,← index]
  rfl

theorem freePeriod {r : I2cController.Regs} {x : Period} (polite : I2cController.Polite r x)
    (elsewhere : r.sdCounter ≠ 12 ∧ r.sdCounter ≠ 21 ∧ r.sdCounter ≠ 30) : x = ⟨true,true⟩ := by
  rcases polite with first | second | third | free
  · exact absurd first elsewhere.1
  · exact absurd second elsewhere.2.1
  · exact absurd third elsewhere.2.2
  · exact free

theorem stepTo {s : System} {x : Period} {config : I2cConfig.Regs} {controller : I2cController.Regs}
    (first : (step s x).config = config) (second : (step s x).controller = controller) :
    step s x = ⟨config,controller,x.low⟩ := by
  rw [← first,← second]
  rfl

/- A transfer more, which the controller took as refused or not, or none. -/
inductive Extends (log : List Transfer) (r : I2cController.Regs) : List Transfer → Prop where
  | same : Extends log r log
  | more (x : Transfer) (own : x.acks.refused = I2cController.ack r) : Extends log r (log ++ [x])

def Advances (t : Nat) (log : List Transfer) (s : System) (o : Observer) (x : Period) : Prop :=
  ∃ later, Extends log (step s x).controller later ∧
    Phase (t+1) later (step s x) (watchAll o (levels (step s x).controller x))

theorem sendingAdvances {log : List Transfer} {i : Nat} {shown : List (List Bool)} (ready : Ready log i shown)
    (inside : i < lutSize) {k : Nat} (part : k < 33) {a : Acks} (sd : BitVec 24) {released : Bool}
    (sampled : a.at k released = a) {x : Period}
    (polite : I2cController.Polite
      (step ⟨setup i 1 true (wordAt i),sending (wordAt i) sd a k,released⟩ x).controller x) :
    Advances (4 + elapsed log + k) log ⟨setup i 1 true (wordAt i),sending (wordAt i) sd a k,released⟩
      (seen (wordAt i) a k shown) x := by
  have config : (step ⟨setup i 1 true (wordAt i),sending (wordAt i) sd a k,released⟩ x).config =
      setup i 1 true (wordAt i) := by
    have open' : (sending (wordAt i) sd a k).endReg = false := decide_eq_false (by omega)
    rw [step,open']
    exact clockWait inside _ _
  have controller : (step ⟨setup i 1 true (wordAt i),sending (wordAt i) sd a k,released⟩ x).controller =
      sending (wordAt i) sd (a.at (k+1) x.low) (k+1) := by
    have line : a.at k (i2cSdat (sending (wordAt i) sd a k) released) = a := I2cController.lineSampled sampled
    have ahead : sending (wordAt i) sd (a.at (k+1) x.low) k = sending (wordAt i) sd a k :=
      I2cController.sendingAhead part x.low
    rw [step,← ahead]
    exact I2cController.sendingClock part (I2cController.atSampled line x.low)
  rw [controller] at polite
  have again : (a.at (k+1) x.low).at (k+1) x.low = a.at (k+1) x.low := I2cController.atAgain a (k+1) x.low
  have observed : watchAll (seen (wordAt i) a k shown)
      (levels (sending (wordAt i) sd (a.at (k+1) x.low) (k+1)) x) =
        seen (wordAt i) (a.at (k+1) x.low) (k+1) shown := by
    rw [← I2cController.seenAhead part x.low shown]
    exact I2cController.sendingSeen part polite again shown
  have moved : step ⟨setup i 1 true (wordAt i),sending (wordAt i) sd a k,released⟩ x =
      ⟨setup i 1 true (wordAt i),sending (wordAt i) sd (a.at (k+1) x.low) (k+1),x.low⟩ := stepTo config controller
  unfold Advances
  rw [moved,observed]
  rcases Nat.lt_or_ge (k+1) 33 with more | last
  · exact ⟨log,.same,.sending ready inside more sd again⟩
  · obtain rfl : k = 32 := by omega
    obtain rfl := I2cController.politeElsewhere (by omega) (by omega) polite
    exact ⟨log ++ [⟨wordAt i,a.at 33 true⟩],.more ⟨wordAt i,a.at 33 true⟩ rfl,.answered ready inside (a.at 33 true)⟩

theorem freeAdvances {t : Nat} {log later : List Transfer} {s : System} {o after : Observer} {x : Period}
    {config : I2cConfig.Regs} {controller : I2cController.Regs} (count : BitVec 6)
    (first : (step s x).config = config) (second : (step s x).controller = controller)
    (polite : I2cController.Polite (step s x).controller x)
    (place : controller.sdCounter = count) (elsewhere : count ≠ 12 ∧ count ≠ 21 ∧ count ≠ 30)
    (observed : watchAll o (levels controller ⟨true,true⟩) = after) (longer : Extends log controller later)
    (phase : Phase (t+1) later ⟨config,controller,true⟩ after) : Advances t log s o x := by
  rw [second] at polite
  rw [← place] at elsewhere
  obtain rfl := freePeriod polite elsewhere
  have moved := stepTo first second
  unfold Advances
  rw [moved,observed]
  exact ⟨later,longer,phase⟩

theorem refusedClear {a : Acks} (taken : a.refused = false) : a = ⟨false,false,false⟩ := by
  obtain ⟨first,second,third⟩ := a
  simp only [Acks.refused,Bool.or_eq_false_iff] at taken
  rw [taken.1.1,taken.1.2,taken.2]

theorem stepAdvances {t : Nat} {log : List Transfer} {s : System} {o : Observer} {x : Period}
    (phase : Phase t log s o) (polite : I2cController.Polite (step s x).controller x) : Advances t log s o x := by
  have first : 0 < lutSize := by decide
  have second : 1 < lutSize := by decide
  cases phase with
  | reset data sd o =>
    exact freeAdvances 0 (clockOffer first false o true false data) rfl polite rfl (by decide) rfl .same (.offered sd)
  | offered sd =>
    exact freeAdvances 1 (clockAnswer first false (wordAt 0)) rfl polite rfl (by decide) rfl .same (.dropped sd)
  | dropped sd =>
    exact freeAdvances 0 (clockNext first false false (wordAt 0)) rfl polite rfl (by decide) watchStart .same .cut
  | cut =>
    exact freeAdvances 0 (clockOffer second false false false false (wordAt 0)) rfl polite rfl (by decide)
      watchEmptyStop .same
      (.sending emptyReady second (k := 0) (by decide) (a := ⟨true,true,true⟩) (wordAt 0) rfl)
  | sending ready inside part sd sampled => exact sendingAdvances ready inside part sd sampled polite
  | @answered log i shown ready inside a =>
    have config := clockEnded inside a 33
    cases outcome : a.refused with
    | false =>
      rw [outcome] at config
      exact freeAdvances 34 config rfl polite rfl (by decide) rfl .same (.accepted ready inside outcome)
    | true =>
      rw [outcome] at config
      exact freeAdvances 34 config rfl polite rfl (by decide) rfl .same (.refused ready inside outcome)
  | @accepted log i shown ready inside a taken =>
    have clocks : 4 + elapsed log + 34 + 1 = 3 + elapsed (log ++ [⟨wordAt i,a⟩]) := by
      rw [elapsedSnoc,taken,if_neg (by decide)]
      omega
    have place := readyNext ready inside a
    rw [taken] at place
    obtain rfl := refusedClear taken
    refine freeAdvances 0 (clockNext inside true false (wordAt i)) rfl polite rfl (by decide) rfl .same ?_
    rw [clocks]
    exact .next place inside (wordAt i) (wordAt i)
  | @next log i shown ready last data sd =>
    have clocks : 3 + elapsed log + 1 = 4 + elapsed log := by omega
    rcases Nat.lt_or_eq_of_le last with inside | rfl
    · refine freeAdvances 0 (clockOffer inside false false true false data) rfl polite rfl (by decide) rfl .same ?_
      rw [clocks]
      exact .sending ready inside (k := 0) (by decide) (a := ⟨true,true,true⟩) sd rfl
    · exact freeAdvances 0 rfl rfl polite rfl (by decide) rfl .same
        (.finished ready data sd (Nat.le_of_eq clocks.symm))
  | @refused log i shown ready inside a none =>
    exact freeAdvances 0 (clockOffer inside false false true true (wordAt i)) rfl polite rfl (by decide) rfl
      .same (.again ready inside none)
  | @again log i shown ready inside a none =>
    have clocks : 4 + elapsed log + 35 + 1 = 3 + elapsed (log ++ [⟨wordAt i,a⟩]) := by
      rw [elapsedSnoc,none,if_pos rfl]
      omega
    have place := readyNext ready inside a
    rw [none] at place
    have repeats := clockEnded inside a 0
    rw [none] at repeats
    refine freeAdvances 1 repeats rfl polite rfl (by decide) rfl .same ?_
    rw [clocks]
    exact .stale place inside
  | @stale log i shown ready inside =>
    have clocks : 3 + elapsed log + 1 = 4 + elapsed log := by omega
    refine freeAdvances 0 (clockOffer inside false false false false (wordAt i)) rfl polite rfl (by decide) watchStart
      .same ?_
    rw [clocks]
    exact .repeated ready inside
  | @repeated log i shown ready inside =>
    exact freeAdvances 1 (clockWait inside false (wordAt i)) rfl polite rfl (by decide) watchEmptyStop .same
      (.sending (readyEmpty ready) inside (k := 1) (by decide) (a := ⟨true,true,true⟩) (wordAt i) rfl)
  | finished ready data sd late =>
    exact freeAdvances 0 rfl rfl polite rfl (by decide) rfl .same
      (.finished ready data sd (Nat.le_succ_of_le late))

/-! ### Runs -/

theorem extendsPrefix {log later : List Transfer} {r : I2cController.Regs} (longer : Extends log r later) :
    log <+: later := by
  cases longer with
  | same => exact List.prefix_rfl
  | more x own => exact List.prefix_append log [x]

theorem runAdvances {t : Nat} {log : List Transfer} {s : System} {o : Observer} {periods : List Period}
    (phase : Phase t log s o) (polite : Polite s periods) :
    ∃ later, log <+: later ∧ Phase (t + periods.length) later (run s periods) (watched o s periods) := by
  induction periods generalizing t log s o with
  | nil => exact ⟨log,List.prefix_rfl,phase⟩
  | cons x rest ih =>
    obtain ⟨next,longer,after⟩ := stepAdvances phase polite.1
    obtain ⟨later,further,last⟩ := ih after polite.2
    refine ⟨later,(extendsPrefix longer).trans further,?_⟩
    have clocks : t + (x :: rest).length = t + 1 + rest.length := by
      rw [List.length_cons]
      omega
    rw [clocks]
    exact last

def Answered (s : System) : List Period → Prop
  | [] => True
  | x :: rest => I2cController.ack (step s x).controller = false ∧ Answered (step s x) rest

theorem extendsTaken {log later : List Transfer} {r : I2cController.Regs} (longer : Extends log r later)
    (answered : I2cController.ack r = false) (taken : (answers log).count false = 0) :
    (answers later).count false = 0 := by
  cases longer with
  | same => exact taken
  | more x own =>
    have accepted : x.acknowledged = true := by
      rw [Transfer.acknowledged,own,answered]
      rfl
    rw [answersSnoc,List.count_append,taken,accepted]
    rfl

theorem runTaken {t : Nat} {log : List Transfer} {s : System} {o : Observer} {periods : List Period}
    (phase : Phase t log s o) (polite : Polite s periods) (answered : Answered s periods)
    (taken : (answers log).count false = 0) :
    ∃ later, (answers later).count false = 0 ∧
      Phase (t + periods.length) later (run s periods) (watched o s periods) := by
  induction periods generalizing t log s o with
  | nil => exact ⟨log,taken,phase⟩
  | cons x rest ih =>
    obtain ⟨next,longer,after⟩ := stepAdvances phase polite.1
    obtain ⟨later,none,last⟩ := ih after polite.2 answered.2 (extendsTaken longer answered.1 taken)
    refine ⟨later,none,?_⟩
    have clocks : t + (x :: rest).length = t + 1 + rest.length := by
      rw [List.length_cons]
      omega
    rw [clocks]
    exact last

theorem messagesSeen (w : BitVec 24) (a : Acks) {k : Nat} (part : k < 33) (shown : List (List Bool)) :
    messages (seen w a k shown) = messages (quiet shown) := by
  interval_cases k <;> rfl

theorem phaseSends {t : Nat} {log : List Transfer} {s : System} {o : Observer} (phase : Phase t log s o) :
    messages o = log.map Transfer.bits ∧ log.map Transfer.word = sent configWords (answers log) := by
  cases phase with
  | reset data sd o => exact ⟨rfl,rfl⟩
  | offered sd => exact ⟨rfl,rfl⟩
  | dropped sd => exact ⟨rfl,rfl⟩
  | cut => exact ⟨rfl,rfl⟩
  | sending ready inside part sd sampled => exact ⟨(messagesSeen _ _ part _).trans ready.record,ready.order⟩
  | answered ready inside a => exact ⟨(readyNext ready inside a).record,(readyNext ready inside a).order⟩
  | accepted ready inside taken => exact ⟨(readyNext ready inside _).record,(readyNext ready inside _).order⟩
  | next ready last data sd => exact ⟨ready.record,ready.order⟩
  | refused ready inside none => exact ⟨(readyNext ready inside _).record,(readyNext ready inside _).order⟩
  | again ready inside none => exact ⟨(readyNext ready inside _).record,(readyNext ready inside _).order⟩
  | stale ready inside => exact ⟨ready.record,ready.order⟩
  | repeated ready inside => exact ⟨ready.record,ready.order⟩
  | finished ready data sd late => exact ⟨ready.record,ready.order⟩

theorem elapsedCount (log : List Transfer) :
    elapsed log = 36 * (answers log).count true + 37 * (answers log).count false := by
  induction log with
  | nil => rfl
  | cons x log ih =>
    have more : elapsed (x :: log) = (if x.acknowledged then 36 else 37) + elapsed log := by
      simp [elapsed]
    rw [more,ih]
    cases outcome : x.acknowledged with
    | false =>
      simp [outcome,answers]
      omega
    | true =>
      simp [outcome,answers]
      omega

theorem busy {log : List Transfer} {i : Nat} {shown : List (List Bool)} (ready : Ready log i shown)
    (inside : i < lutSize) {j : Nat} (part : j ≤ 35) : 4 + elapsed log + j < 1768 + 37 * (answers log).count false := by
  have index := ready.index
  have limit : i < 50 := inside
  rw [elapsedCount]
  omega

theorem busyAfter {log : List Transfer} {i : Nat} {shown : List (List Bool)} (ready : Ready log i shown)
    (inside : i < lutSize) {j : Nat} (part : j ≤ 35) (x : Transfer) :
    4 + elapsed log + j < 1768 + 37 * (answers (log ++ [x])).count false := by
  have before := busy ready inside part
  rw [answersSnoc,List.count_append]
  omega

theorem phaseEnd {t : Nat} {log : List Transfer} {s : System} {o : Observer} (phase : Phase t log s o)
    (clocked : 0 < t) : s.config.oI2cEnd = true ↔ 1768 + 37 * (answers log).count false ≤ t := by
  have open' {b : Bool} {bound : Nat} (low : b = false) (early : t < bound) : b = true ↔ bound ≤ t := by
    rw [low]
    exact ⟨fun high => absurd high (by decide),fun late => absurd late (Nat.not_le_of_lt early)⟩
  cases phase with
  | reset data sd o => omega
  | offered sd => exact open' rfl (by decide)
  | dropped sd => exact open' rfl (by decide)
  | cut => exact open' rfl (by decide)
  | sending ready inside part sd sampled => exact open' rfl (busy ready inside (by omega))
  | answered ready inside a => exact open' rfl (busyAfter ready inside (by decide) _)
  | accepted ready inside taken => exact open' rfl (busyAfter ready inside (by decide) _)
  | @next log i shown ready last data sd =>
    have index := ready.index
    have limit : i ≤ 50 := last
    have total := elapsedCount log
    exact open' rfl (by omega)
  | refused ready inside none => exact open' rfl (busyAfter ready inside (by decide) _)
  | again ready inside none => exact open' rfl (busyAfter ready inside (by decide) _)
  | @stale log i shown ready inside =>
    have early := busy ready inside (j := 0) (by decide)
    exact open' rfl (by omega)
  | repeated ready inside => exact open' rfl (busy ready inside (j := 0) (by decide))
  | @finished log shown ready data sd t late =>
    have index := ready.index
    have total := elapsedCount log
    have limit : lutSize = 50 := rfl
    exact ⟨fun _ => by omega,fun _ => rfl⟩

theorem phaseDone {t : Nat} {log : List Transfer} {s : System} {o : Observer} (phase : Phase t log s o)
    (clocked : 0 < t) (done : s.config.oI2cEnd = true) : (answers log).count true = configWords.length := by
  cases phase with
  | reset data sd o => omega
  | finished ready data sd late =>
    have index := ready.index
    have limit : lutSize = 50 := rfl
    have size : configWords.length = 49 := rfl
    omega
  | _ => exact absurd done Bool.false_ne_true

/-! ### The configuration from reset on -/

theorem resetPhase (s : System) : Phase 0 [] (resetSystem s) (quiet []) :=
  .reset s.config.mI2cData s.controller.sd s.config.oI2cEnd

theorem configurationSent (s : System) (periods : List Period) (polite : Polite (resetSystem s) periods) :
    ∃ log : List Transfer,
      messages (watched (quiet []) (resetSystem s) periods) = log.map Transfer.bits ∧
      log.map Transfer.word = sent configWords (answers log) ∧
      ∀ x ∈ log, x.word ≠ wordAt 0 := by
  obtain ⟨log,_,phase⟩ := runAdvances (resetPhase s) polite
  obtain ⟨record,order⟩ := phaseSends phase
  refine ⟨log,record,order,?_⟩
  intro x member first
  have dropped : wordAt 0 ∉ configWords := by decide
  have word : x.word ∈ log.map Transfer.word := List.mem_map_of_mem member
  rw [order,first] at word
  exact dropped (sentMember word)

def powerUp : System := ⟨⟨0,0,false,0,false⟩,⟨true,true,true,0,0,false,false,false⟩,true⟩

/- A device that pulls every acknowledge bit low: it follows the controller's count. -/
def pulls (s : System) : Period :=
  if I2cController.Acknowledges (step s ⟨true,true⟩).controller then ⟨false,false⟩ else ⟨true,true⟩

def obliging (s : System) : Nat → List Period
  | 0 => []
  | n+1 => pulls s :: obliging (step s (pulls s)) n

theorem obligingLength (s : System) (n : Nat) : (obliging s n).length = n := by
  induction n generalizing s with
  | zero => rfl
  | succ n ih => exact congrArg Nat.succ (ih _)

theorem obligingPolite (s : System) (n : Nat) : Polite s (obliging s n) := by
  induction n generalizing s with
  | zero => exact trivial
  | succ n ih =>
    refine ⟨?_,ih _⟩
    by_cases acknowledges : I2cController.Acknowledges (step s ⟨true,true⟩).controller
    · rcases acknowledges with first | second | third
      · exact .inl first
      · exact .inr (.inl second)
      · exact .inr (.inr (.inl third))
    · exact .inr (.inr (.inr (if_neg acknowledges)))

structure Taken (s : System) : Prop where
  clear : I2cController.ack s.controller = false
  pulled : I2cController.Acknowledges s.controller → s.released = false

theorem pullsTaken {s : System} (taken : Taken s) : Taken (step s (pulls s)) := by
  constructor
  · refine I2cController.controllerTaken taken.clear ?_
    intro acknowledges
    have low : s.released = false := taken.pulled acknowledges
    rw [I2cController.i2cSdat,low]
    exact ite_self _
  · intro acknowledges
    exact congrArg Period.low (if_pos acknowledges)

theorem obligingAnswered {s : System} (taken : Taken s) (n : Nat) : Answered s (obliging s n) := by
  induction n generalizing s with
  | zero => exact trivial
  | succ n ih => exact ⟨(pullsTaken taken).clear,ih (pullsTaken taken)⟩

theorem resetTaken (s : System) : Taken (resetSystem s) := by
  refine ⟨rfl,?_⟩
  intro acknowledges
  have none : ¬ I2cController.Acknowledges (resetSystem s).controller := of_decide_eq_false rfl
  exact absurd acknowledges none

theorem obligingSent : ∃ log : List Transfer,
    messages (watched (quiet []) (resetSystem powerUp) (obliging (resetSystem powerUp) 1768)) =
      log.map Transfer.bits ∧
    log.map Transfer.word = sent configWords (answers log) ∧ ∀ x ∈ log, x.word ≠ wordAt 0 :=
  configurationSent powerUp _ (obligingPolite _ 1768)

/- A transfer in which a device did not pull some acknowledge bit low. -/
def refusal (bits : List Bool) : Bool := bits.getD 8 true || bits.getD 17 true || bits.getD 26 true

theorem refusalBits (x : Transfer) : refusal x.bits = !x.acknowledged := by
  have bits : refusal x.bits = x.acks.refused := rfl
  rw [bits,Transfer.acknowledged,Bool.not_not]

theorem refusalCount (log : List Transfer) : (log.map Transfer.bits).countP refusal = (answers log).count false := by
  rw [answers,List.countP_map,List.count_eq_countP,List.countP_map]
  refine List.countP_congr fun x _ => ?_
  rw [Function.comp_apply,Function.comp_apply,refusalBits]
  cases x.acknowledged <;> decide

theorem acknowledgedBits (log : List Transfer) :
    (log.map Transfer.bits).filter (fun bits => !refusal bits) =
      ((((log.map Transfer.word).zip (answers log)).filter Prod.snd).map Prod.fst).map
        (fun w => frame w ⟨false,false,false⟩) := by
  induction log with
  | nil => rfl
  | cons x log ih =>
    rw [List.map_cons,List.filter_cons,refusalBits,Bool.not_not,ih]
    cases outcome : x.acknowledged with
    | false => simp [answers,outcome]
    | true =>
      have accepted : x.acks.refused = false := by simpa [Transfer.acknowledged] using outcome
      have taken := refusedClear accepted
      simp [answers,outcome,Transfer.bits,taken]

theorem configurationEnds (s : System) (periods : List Period) (clocked : periods ≠ [])
    (polite : Polite (resetSystem s) periods) :
    ((run (resetSystem s) periods).config.oI2cEnd = true ↔
      1768 + 37 * (messages (watched (quiet []) (resetSystem s) periods)).countP refusal ≤ periods.length) ∧
    ((run (resetSystem s) periods).config.oI2cEnd = true →
      (messages (watched (quiet []) (resetSystem s) periods)).filter (fun bits => !refusal bits) =
        configWords.map (fun w => frame w ⟨false,false,false⟩)) := by
  obtain ⟨log,_,phase⟩ := runAdvances (resetPhase s) polite
  rw [Nat.zero_add] at phase
  have time : 0 < periods.length := List.length_pos_of_ne_nil clocked
  obtain ⟨record,order⟩ := phaseSends phase
  rw [record]
  constructor
  · rw [refusalCount]
    exact phaseEnd phase time
  · intro done
    rw [acknowledgedBits,order,acknowledgedOnce,phaseDone phase time done,List.take_length]

theorem obligingEnds :
    (run (resetSystem powerUp) (obliging (resetSystem powerUp) 1768)).config.oI2cEnd = true ∧
    (messages (watched (quiet []) (resetSystem powerUp) (obliging (resetSystem powerUp) 1768))).filter
        (fun bits => !refusal bits) =
      configWords.map (fun w => frame w ⟨false,false,false⟩) := by
  have polite := obligingPolite (resetSystem powerUp) 1768
  have answered := obligingAnswered (resetTaken powerUp) 1768
  obtain ⟨log,none,phase⟩ := runTaken (resetPhase powerUp) polite answered rfl
  have length := obligingLength (resetSystem powerUp) 1768
  have clocked : obliging (resetSystem powerUp) 1768 ≠ [] := by
    rw [← List.length_pos_iff_ne_nil,length]
    decide
  have ends := configurationEnds powerUp _ clocked polite
  have done : (run (resetSystem powerUp) (obliging (resetSystem powerUp) 1768)).config.oI2cEnd = true := by
    rw [ends.1,(phaseSends phase).1,refusalCount,none,length]
  exact ⟨done,ends.2 done⟩

end FpgaSynthesizer.I2cTransfers
