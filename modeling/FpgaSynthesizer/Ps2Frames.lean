import FpgaSynthesizer.Ps2
import FpgaSynthesizer.Ps2Delivery

/-! Frames on the PS/2 lines. The receiver after any prefix of the samples is
the serial process after some prefix of the bits; how many bits tells cnt, keycode
and the bytes announced so far. -/
namespace FpgaSynthesizer.Ps2Frames
open RegisterBits Ps2

/- How long the clock stays high and then low during one bit. -/
structure Stretch where
  high : Nat
  low : Nat
  rises : 0 < high
  falls : 0 < low
  deriving DecidableEq, Repr

structure Frame where
  start : Bool
  byte : Byte
  parity : Bool
  stop : Bool
  timing : Vector Stretch 11
  deriving DecidableEq, Repr

def dataBits (b : Byte) : List Bool := [b[0],b[1],b[2],b[3],b[4],b[5],b[6],b[7]]

def Frame.levels (f : Frame) : List Bool := f.start :: dataBits f.byte ++ [f.parity,f.stop]

def bitSamples (level : Bool) (s : Stretch) : List Sample :=
  List.replicate s.high ⟨true,level⟩ ++ List.replicate s.low ⟨false,level⟩

def Frame.bits (f : Frame) : List (Bool × Stretch) := f.levels.zip f.timing.toList

def stream (bits : List (Bool × Stretch)) : List Sample := bits.flatMap (fun b => bitSamples b.1 b.2)

def transmission (frames : List Frame) (rest : List Bool) : List Sample :=
  stream (frames.flatMap Frame.bits) ++ rest.map (fun dat => ⟨true,dat⟩)

theorem frameLevels (f : Frame) : f.bits.map Prod.fst = f.levels := by
  apply List.map_fst_zip
  simp [Frame.levels,dataBits]

/-! ### One fall a bit -/

theorem fallsHigh (before : Bool) {n : Nat} (some : 0 < n) (level : Bool) (rest : List Sample) :
    clockFalls before (List.replicate n ⟨true,level⟩ ++ rest) = clockFalls true rest := by
  induction n generalizing before with
  | zero => contradiction
  | succ n ih =>
    rw [List.replicate_succ,List.cons_append,clockFalls,Bool.not_true,Bool.and_false]
    cases n with
    | zero => rfl
    | succ m => exact ih true (Nat.succ_pos m)

theorem fallsLow (n : Nat) (level : Bool) (rest : List Sample) :
    clockFalls false (List.replicate n ⟨false,level⟩ ++ rest) = clockFalls false rest := by
  induction n with
  | zero => rfl
  | succ n ih => exact ih

theorem fallsBit (before : Bool) (level : Bool) (s : Stretch) (rest : List Sample) :
    clockFalls before (bitSamples level s ++ rest) = level :: clockFalls false rest := by
  obtain ⟨high,low,rises,falls⟩ := s
  rw [bitSamples,List.append_assoc,fallsHigh before rises]
  cases low with
  | zero => contradiction
  | succ n => exact congrArg (List.cons level) (fallsLow n level rest)

theorem fallsStream (before : Bool) (bits : List (Bool × Stretch)) (rest : List Sample) :
    clockFalls before (stream bits ++ rest) =
      bits.map Prod.fst ++ clockFalls (if bits = [] then before else false) rest := by
  induction bits generalizing before with
  | nil => rfl
  | cons b bits ih =>
    have tail := ih false
    rw [stream,List.flatMap_cons,List.append_assoc,fallsBit,List.map_cons,List.cons_append]
    rw [stream] at tail
    rw [tail]
    simp

theorem fallsRest (before : Bool) (rest : List Bool) :
    clockFalls before (rest.map (fun dat => ⟨true,dat⟩)) = [] := by
  induction rest generalizing before with
  | nil => rfl
  | cons dat rest ih =>
    rw [List.map_cons,clockFalls,Bool.not_true,Bool.and_false]
    exact ih true

theorem fallsTransmission (frames : List Frame) (rest : List Bool) :
    clockFalls false (transmission frames rest) = frames.flatMap Frame.levels := by
  rw [transmission,fallsStream,fallsRest,List.append_nil,List.map_flatMap]
  exact congrArg (fun f => frames.flatMap f) (funext frameLevels)

/-! ### One byte a frame -/

def dataWrites (j : Nat) : List Bool → List Write
  | [] => []
  | d :: rest => ⟨j,d⟩ :: dataWrites (j+1) rest

theorem byteReceived (k b : Byte) : writeAll k (dataWrites 0 (dataBits b)) = b := by
  have own : ∀ x ∈ dataWrites 0 (dataBits b), x.bit = b.getLsbD x.index := by
    intro x member
    simp only [dataBits,dataWrites,List.mem_cons,List.not_mem_nil,or_false] at member
    rcases member with rfl | rfl | rfl | rfl | rfl | rfl | rfl | rfl <;> rfl
  have indices : (dataWrites 0 (dataBits b)).map Write.index = [0,1,2,3,4,5,6,7] := rfl
  apply BitVec.eq_of_getLsbD_eq
  intro j inside
  rw [writeAllGet k _ (fun x member index => index ▸ own x member) inside,indices,if_pos]
  simp only [List.mem_cons,List.not_mem_nil,or_false]
  omega

theorem onDataFall {j : Nat} (inside : j < 8) (k keycode : Byte) (d : Bool) :
    onFall ⟨BitVec.ofNat 4 (j+1),k,keycode⟩ d = ⟨BitVec.ofNat 4 (j+1+1),writeBit k j d,keycode⟩ := by
  have each : j = 0 ∨ j = 1 ∨ j = 2 ∨ j = 3 ∨ j = 4 ∨ j = 5 ∨ j = 6 ∨ j = 7 := by omega
  rcases each with rfl | rfl | rfl | rfl | rfl | rfl | rfl | rfl <;> rfl

theorem dataFalls (data : List Bool) {j : Nat} (fits : j + data.length ≤ 8) (k keycode : Byte) :
    data.foldl onFall ⟨BitVec.ofNat 4 (j+1),k,keycode⟩ =
      ⟨BitVec.ofNat 4 (j+1+data.length),writeAll k (dataWrites j data),keycode⟩ := by
  induction data generalizing j k with
  | nil => rfl
  | cons d rest ih =>
    rw [List.length_cons] at fits
    have tail := ih (j := j+1) (by omega) (writeBit k j d)
    rw [List.foldl_cons,onDataFall (by omega),tail,List.length_cons]
    have count : j+1+1+rest.length = j+1+(rest.length+1) := by omega
    rw [count]
    rfl

theorem startFall (k keycode : Byte) (d : Bool) : onFall ⟨0,k,keycode⟩ d = ⟨BitVec.ofNat 4 (0+1),k,keycode⟩ :=
  rfl

theorem parityFall (k keycode : Byte) (d : Bool) :
    onFall ⟨BitVec.ofNat 4 (0+1+8),k,keycode⟩ d = ⟨10,k,k⟩ := rfl

theorem stopFall (k keycode : Byte) (d : Bool) : onFall ⟨10,k,keycode⟩ d = ⟨0,k,keycode⟩ := rfl

theorem framePart (f : Frame) (k keycode : Byte) {n : Nat} (part : n < 11) :
    ((f.levels.take n).foldl onFall ⟨0,k,keycode⟩).cnt.toNat = n ∧
    ((f.levels.take n).foldl onFall ⟨0,k,keycode⟩).keycode = if n < 10 then keycode else f.byte := by
  cases n with
  | zero => exact ⟨rfl,rfl⟩
  | succ n =>
    rw [Frame.levels,List.cons_append,List.take_succ_cons,List.foldl_cons,startFall]
    have size : (dataBits f.byte).length = 8 := rfl
    rcases Nat.lt_or_ge n 9 with early | late
    · rw [List.take_append_of_le_length (by omega),dataFalls _ (by rw [List.length_take]; omega),
        List.length_take]
      have count : 0+1+min n (dataBits f.byte).length = n+1 := by omega
      rw [count,if_pos (by omega)]
      refine ⟨?_,rfl⟩
      rw [BitVec.toNat_ofNat]
      omega
    · have nine : n = 9 := by omega
      subst nine
      have whole : (dataBits f.byte ++ [f.parity,f.stop]).take 9 = dataBits f.byte ++ [f.parity] := rfl
      rw [whole,List.foldl_append,dataFalls _ (by omega),byteReceived,List.foldl_cons,List.foldl_nil,size,
        parityFall]
      exact ⟨rfl,rfl⟩

theorem frameWhole (f : Frame) (k keycode : Byte) :
    f.levels.foldl onFall ⟨0,k,keycode⟩ = ⟨0,f.byte,f.byte⟩ := by
  have size : (dataBits f.byte).length = 8 := rfl
  rw [Frame.levels,List.cons_append,List.foldl_cons,startFall,List.foldl_append,dataFalls _ (by omega),
    byteReceived,size,List.foldl_cons,parityFall,List.foldl_cons,stopFall,List.foldl_nil]

def shownByte (keycode : Byte) (frames : List Frame) (n : Nat) : Byte :=
  (keycode :: frames.map Frame.byte).getD n 0

theorem levelsPart (frames : List Frame) (k keycode : Byte) {n : Nat} (part : n ≤ 11*frames.length) :
    (((frames.flatMap Frame.levels).take n).foldl onFall ⟨0,k,keycode⟩).cnt.toNat = n % 11 ∧
    (((frames.flatMap Frame.levels).take n).foldl onFall ⟨0,k,keycode⟩).keycode =
      shownByte keycode frames ((n+1)/11) := by
  induction frames generalizing n k keycode with
  | nil =>
    have none : n = 0 := by simpa using part
    subst none
    exact ⟨rfl,rfl⟩
  | cons f rest ih =>
    have size : f.levels.length = 11 := rfl
    rw [List.flatMap_cons]
    rcases Nat.lt_or_ge n 11 with within | beyond
    · rw [List.take_append_of_le_length (by omega)]
      obtain ⟨count,shown⟩ := framePart f k keycode within
      refine ⟨count.trans (Nat.mod_eq_of_lt within).symm,shown.trans ?_⟩
      split
      · have first : (n+1)/11 = 0 := by omega
        rw [first]
        rfl
      · have second : (n+1)/11 = 1 := by omega
        rw [second]
        rfl
    · obtain ⟨m,rfl⟩ := Nat.exists_eq_add_of_le beyond
      have fewer : m ≤ 11*rest.length := by
        rw [List.length_cons] at part
        omega
      have tail := ih f.byte f.byte fewer
      rw [List.take_append,size,List.take_of_length_le (by omega),Nat.add_sub_cancel_left,
        List.foldl_append,frameWhole]
      refine ⟨tail.1.trans (by omega),tail.2.trans ?_⟩
      have shifted : (11+m+1)/11 = (m+1)/11 + 1 := by omega
      rw [shifted]
      rfl

/-! ### Every prefix of a transmission -/

/- The bits that the serial process has seen: the clock falls, one sample late. -/
def seenBits (samples : List Sample) : List Bool := clockFalls false samples.dropLast

theorem runSeen (samples : List Sample) :
    (run powerUp samples).serial = (seenBits samples).foldl onFall ⟨0,0,0⟩ := by
  rcases List.eq_nil_or_concat samples with rfl | ⟨earlier,x,rfl⟩
  · rfl
  · rw [List.concat_eq_append,serialDelayed,seenBits,List.dropLast_concat]
    rfl

theorem seenPrefix {frames : List Frame} {rest : List Bool} {p : List Sample}
    (part : p <+: transmission frames rest) : seenBits p <+: frames.flatMap Frame.levels := by
  rw [← fallsTransmission frames rest]
  exact clockFallsPrefix false ((List.dropLast_prefix p).trans part)

theorem levelsLength (frames : List Frame) : (frames.flatMap Frame.levels).length = 11*frames.length := by
  induction frames with
  | nil => rfl
  | cons f rest ih =>
    have size : f.levels.length = 11 := rfl
    rw [List.flatMap_cons,List.length_append,ih,size,List.length_cons]
    omega

theorem prefixSerial {frames : List Frame} {rest : List Bool} {p : List Sample}
    (part : p <+: transmission frames rest) :
    (run powerUp p).serial.cnt.toNat = (seenBits p).length % 11 ∧
    (run powerUp p).serial.keycode = shownByte 0 frames (((seenBits p).length+1)/11) := by
  have seen := seenPrefix part
  have size : (seenBits p).length ≤ 11*frames.length := by
    rw [← levelsLength]
    exact seen.length_le
  rw [runSeen,List.prefix_iff_eq_take.mp seen,List.length_take,levelsLength,Nat.min_eq_left size]
  exact levelsPart frames 0 0 size

theorem workingSeen {frames : List Frame} {rest : List Bool} {p : List Sample}
    (part : p <+: transmission frames rest) :
    working (run powerUp p) = decide ((seenBits p).length % 11 ≠ 0) := by
  rw [working,decide_eq_decide,← (prefixSerial part).1,not_iff_not]
  exact ⟨fun h => by rw [h]; rfl,fun h => BitVec.eq_of_toNat_eq h⟩

theorem seenSnoc (p : List Sample) (x : Sample) :
    (seenBits p).length ≤ (seenBits (p ++ [x])).length ∧
    (seenBits (p ++ [x])).length ≤ (seenBits p).length + 1 := by
  rw [seenBits,seenBits,List.dropLast_concat]
  rcases List.eq_nil_or_concat p with rfl | ⟨earlier,y,rfl⟩
  · exact ⟨Nat.le_refl _,Nat.le_succ _⟩
  · rw [List.concat_eq_append,List.dropLast_concat]
    exact ⟨(clockFallsPrefix false (List.prefix_append earlier [y])).length_le,clockFallsSnoc false earlier y⟩

theorem prefixAnnounced {frames : List Frame} {rest : List Bool} {p : List Sample}
    (part : p <+: transmission frames rest) :
    workingFalls false (states powerUp p) = (frames.map Frame.byte).take ((seenBits p).length/11) := by
  induction p using List.reverseRecOn with
  | nil => rfl
  | append_singleton p x ih =>
    have earlier := ih ((List.prefix_append p [x]).trans part)
    have before := workingSeen ((List.prefix_append p [x]).trans part)
    have after := workingSeen part
    have seen := seenPrefix part
    have size : (seenBits (p ++ [x])).length ≤ 11*frames.length := by
      rw [← levelsLength]
      exact seen.length_le
    obtain ⟨grows,once⟩ := seenSnoc p x
    have snoc := workingFallsSnoc powerUp p x
    change workingFalls false _ = workingFalls false _ ++ _ at snoc
    rw [snoc,earlier,before,after,(prefixSerial part).2]
    rcases Nat.lt_or_ge (seenBits p).length (seenBits (p ++ [x])).length with one | none
    · have next : (seenBits (p ++ [x])).length = (seenBits p).length + 1 := by omega
      rw [next]
      by_cases full : ((seenBits p).length + 1) % 11 = 0
      · -- the eleventh bit clears cnt, and keycode is the byte of this frame
        have busy : (seenBits p).length % 11 ≠ 0 := by omega
        have count : ((seenBits p).length+1)/11 = (seenBits p).length/11 + 1 := by omega
        have shown : ((seenBits p).length+1+1)/11 = (seenBits p).length/11 + 1 := by omega
        have inside : (seenBits p).length/11 < (frames.map Frame.byte).length := by
          rw [List.length_map]
          omega
        rw [decide_eq_true busy,full,count,shown,List.take_add_one,shownByte,List.getD_cons_succ,
          List.getD_eq_getElem?_getD,List.getElem?_eq_getElem inside]
        rfl
      · have count : ((seenBits p).length+1)/11 = (seenBits p).length/11 := by omega
        rw [decide_eq_true full,Bool.not_true,Bool.and_false,count]
        exact List.append_nil _
    · have same : (seenBits (p ++ [x])).length = (seenBits p).length := by omega
      rw [same]
      simp

theorem seenAll (frames : List Frame) {rest : List Bool} (ended : rest ≠ []) :
    (seenBits (transmission frames rest)).length = 11*frames.length := by
  obtain ⟨start,last,rfl⟩ := (List.eq_nil_or_concat rest).resolve_left ended
  have cut : (transmission frames (start.concat last)).dropLast = transmission frames start := by
    rw [transmission,List.concat_eq_append,List.map_append,← List.append_assoc]
    exact List.dropLast_concat
  rw [seenBits,cut,fallsTransmission,levelsLength]

/-! ### The edge detector of ps2_ci -/

/- Inputs of ps2_ci that show every state of the receiver at least twice. -/
inductive Clocked : List Regs → List Ps2Ci.Inputs → Prop where
  | nil : Clocked [] []
  | cons {r rest block later} (twice : 2 ≤ block.length)
      (shows : ∀ i ∈ block, i.working = working r ∧ i.keycode = r.serial.keycode)
      (after : Clocked rest later) : Clocked (r :: rest) (block ++ later)

theorem bytesCons (c : Ps2Ci.Regs) (i : Ps2Ci.Inputs) (rest : List Ps2Ci.Inputs) :
    Ps2Ci.bytesOf c (i :: rest) =
      (if c.newByte then [i.keycode] else []) ++ Ps2Ci.bytesOf (Ps2Ci.clock c i) rest := by
  simp only [Ps2Ci.bytesOf,Ps2Ci.cyclesOf,List.filterMap_cons,Ps2Ci.byteOf]
  cases c.newByte <;> rfl

theorem blockSilent {c : Ps2Ci.Regs} {block : List Ps2Ci.Inputs} {level : Bool}
    (silent : c.newByte = false) (settled : c.dWorking = level) (same : ∀ i ∈ block, i.working = level) :
    Ps2Ci.bytesOf c block = [] ∧ (Ps2Ci.run c block).newByte = false ∧
      (Ps2Ci.run c block).dWorking = level := by
  induction block generalizing c with
  | nil => exact ⟨rfl,silent,settled⟩
  | cons i rest ih =>
    obtain ⟨working,newByte⟩ := Ps2Delivery.clockEdge c i
    rw [same i List.mem_cons_self] at working newByte
    rw [settled,Bool.not_and_self] at newByte
    have tail := ih newByte working (fun j hj => same j (List.mem_cons_of_mem i hj))
    rw [bytesCons,silent,tail.1]
    exact ⟨rfl,tail.2⟩

theorem blockEdge {c : Ps2Ci.Regs} {block : List Ps2Ci.Inputs} {r : Regs} (silent : c.newByte = false)
    (twice : 2 ≤ block.length) (shows : ∀ i ∈ block, i.working = working r ∧ i.keycode = r.serial.keycode) :
    Ps2Ci.bytesOf c block = (if c.dWorking && !working r then [r.serial.keycode] else []) ∧
    (Ps2Ci.run c block).newByte = false ∧ (Ps2Ci.run c block).dWorking = working r := by
  match block,twice with
  | i :: j :: rest,_ =>
    obtain ⟨working₁,newByte₁⟩ := Ps2Delivery.clockEdge c i
    obtain ⟨working₂,newByte₂⟩ := Ps2Delivery.clockEdge (Ps2Ci.clock c i) j
    have first := shows i List.mem_cons_self
    have second := shows j (List.mem_cons_of_mem i List.mem_cons_self)
    rw [first.1] at working₁ newByte₁
    rw [second.1] at working₂ newByte₂
    rw [working₁,Bool.not_and_self] at newByte₂
    have tail := blockSilent newByte₂ working₂
      (fun k hk => (shows k (List.mem_cons_of_mem i (List.mem_cons_of_mem j hk))).1)
    rw [bytesCons,bytesCons,silent,newByte₁,tail.1,second.2,Bool.and_comm]
    exact ⟨List.append_nil _,tail.2⟩

theorem edgeBytes {states : List Regs} {inputs : List Ps2Ci.Inputs} (clocked : Clocked states inputs)
    {c : Ps2Ci.Regs} (silent : c.newByte = false) :
    Ps2Ci.bytesOf c inputs = workingFalls c.dWorking states := by
  induction clocked generalizing c with
  | nil => rfl
  | cons twice shows after ih =>
    obtain ⟨bytes,silent',working'⟩ := blockEdge silent twice shows
    rw [Ps2Ci.bytesAppend,bytes,ih silent',working',workingFalls]
    split <;> rfl

theorem edgeSingle {c : Ps2Ci.Regs} (once : Ps2Delivery.EdgeOnce c) (inputs : List Ps2Ci.Inputs) :
    (Ps2Ci.cyclesOf c inputs).IsChain (fun x y => x.byte.isSome → y.byte = none) := by
  induction inputs generalizing c with
  | nil => exact .nil
  | cons i rest ih =>
    have tail := ih (Ps2Delivery.clockEdgeOnce c i)
    cases rest with
    | nil => exact .singleton _
    | cons j rest =>
      refine .cons_cons ?_ tail
      intro fell
      cases h : c.newByte with
      | false => simp [Ps2Ci.byteOf,h] at fell
      | true => simp [Ps2Ci.byteOf,Ps2Delivery.noSecondByte once i h]

theorem shownUntilNext {frames : List Frame} {rest : List Bool} {p : List Sample}
    (part : p <+: transmission frames rest) {k : Nat}
    (announced : (workingFalls false (states powerUp p)).length = k)
    (early : (clockFalls false p).length < 11*k + 10) :
    (run powerUp p).serial.keycode = shownByte 0 frames k := by
  have size : (seenBits p).length ≤ 11*frames.length := by
    rw [← levelsLength]
    exact (seenPrefix part).length_le
  have late : (seenBits p).length ≤ (clockFalls false p).length :=
    (clockFallsPrefix false (List.dropLast_prefix p)).length_le
  rw [prefixAnnounced part,List.length_take,List.length_map] at announced
  have count : ((seenBits p).length+1)/11 = k := by omega
  rw [(prefixSerial part).2,count]

theorem framesDecoded (frames : List Frame) (rest : List Bool) (ended : 2 ≤ rest.length) :
    workingFalls false (states powerUp (transmission frames rest)) = frames.map Frame.byte ∧
    (∀ p k, p <+: transmission frames rest → (workingFalls false (states powerUp p)).length = k →
      (clockFalls false p).length < 11*k + 10 → (run powerUp p).serial.keycode = shownByte 0 frames k) ∧
    (run powerUp (transmission frames rest)).serial.cnt = 0 ∧
    (∀ c inputs, c.newByte = false → c.dWorking = false →
      Clocked (states powerUp (transmission frames rest)) inputs →
      Ps2Ci.bytesOf c inputs = frames.map Frame.byte ∧
      (Ps2Ci.cyclesOf c inputs).IsChain (fun x y => x.byte.isSome → y.byte = none)) := by
  have high : rest ≠ [] := List.ne_nil_of_length_pos (by omega)
  have whole := seenAll frames high
  have all : transmission frames rest <+: transmission frames rest := List.prefix_refl _
  have announced : workingFalls false (states powerUp (transmission frames rest)) =
      frames.map Frame.byte := by
    rw [prefixAnnounced all,whole,Nat.mul_div_cancel_left _ (by decide)]
    exact List.take_of_length_le (by rw [List.length_map])
  have idle : (run powerUp (transmission frames rest)).serial.cnt = 0 := by
    apply BitVec.eq_of_toNat_eq
    rw [(prefixSerial all).1,whole,Nat.mul_mod_right]
    rfl
  refine ⟨announced,fun p k part => shownUntilNext part,idle,?_⟩
  intro c inputs silent low clocked
  refine ⟨?_,edgeSingle (fun fell => by rw [silent] at fell; contradiction) inputs⟩
  rw [edgeBytes clocked silent,low,announced]

theorem releaseDecoded :
    let timing := Vector.replicate 11 (⟨2,3,by decide,by decide⟩ : Stretch)
    workingFalls false (states powerUp
      (transmission [⟨false,0xf0,true,true,timing⟩,⟨false,0x1c,false,true,timing⟩] [true,true])) =
      [0xf0,0x1c] :=
  (framesDecoded _ _ (by decide)).1

end FpgaSynthesizer.Ps2Frames
