import FpgaSynthesizer.Ps2Frames

/-! The receiver on lines that show anything at all. It counts the falls of the
clock by elevens and never looks at a start, parity or stop bit, so what it
announces are bits 1 to 8 of every eleven, and one fall too many or too few moves
all bytes that follow. -/
namespace FpgaSynthesizer.Ps2Slices
open RegisterBits Ps2 Ps2Frames

def byteOf (bits : List Bool) : Byte := writeAll 0 (dataWrites 0 bits)

def slices (bits : List Bool) : List Byte :=
  (List.range (bits.length/11)).map (fun n => byteOf ((bits.drop (11*n+1)).take 8))

def announced (s : Serial) : List Bool → List Byte
  | [] => []
  | d :: rest =>
    (if s.cnt ≠ 0 ∧ (onFall s d).cnt = 0 then [(onFall s d).keycode] else []) ++ announced (onFall s d) rest

def taken (r : Regs) (samples : List Sample) : List Bool :=
  clockFalls r.ps2ClkIn ((⟨r.ps2ClkSyn1,r.ps2DatSyn1⟩ :: samples).dropLast)

def untilGroup (s : Serial) : Nat := if s.cnt = 0 then 0 else if s.cnt > 10 then 1 else 11 - s.cnt.toNat

theorem slicesShort {bits : List Bool} (short : bits.length < 11) : slices bits = [] := by
  rw [slices,Nat.div_eq_of_lt short]
  rfl

theorem slicesGroup {group rest : List Bool} (size : group.length = 11) :
    slices (group ++ rest) = byteOf ((group.drop 1).take 8) :: slices rest := by
  have count : (group ++ rest).length/11 = rest.length/11 + 1 := by
    rw [List.length_append,size]
    omega
  have first : ((group ++ rest).drop (11*0+1)).take 8 = (group.drop 1).take 8 := by
    have inside : 8 ≤ (group.drop 1).length := by
      rw [List.length_drop,size]
      decide
    rw [List.drop_append_of_le_length (by omega),List.take_append_of_le_length inside]
  have later : ∀ n, (group ++ rest).drop (11*(n+1)+1) = rest.drop (11*n+1) := by
    intro n
    have place : 11*(n+1)+1 = group.length + (11*n+1) := by omega
    rw [place,← List.drop_drop,List.drop_left]
  rw [slices,count,List.range_succ_eq_map,List.map_cons,List.map_map,first,slices]
  refine congrArg _ (List.map_congr_left fun n _ => ?_)
  rw [Function.comp_apply,later]

theorem announcedAppend (s : Serial) (xs ys : List Bool) :
    announced s (xs ++ ys) = announced s xs ++ announced (xs.foldl onFall s) ys := by
  induction xs generalizing s with
  | nil => rfl
  | cons d rest ih => rw [List.cons_append,announced,ih,announced,List.append_assoc,List.foldl_cons]

theorem fallCount (s : Serial) (d : Bool) : (onFall s d).cnt = if s.cnt > 9 then 0 else s.cnt + 1 := by
  unfold onFall
  by_cases nine : s.cnt = 9
  · rw [if_pos nine,nine,if_neg (by decide)]
  · rw [if_neg nine]
    split <;> rfl

/-! ### Part of a group, and a whole group -/

theorem announcedPart {s : Serial} {bits : List Bool} (within : s.cnt.toNat + bits.length ≤ 10) :
    announced s bits = [] ∧ (bits.foldl onFall s).cnt.toNat = s.cnt.toNat + bits.length := by
  induction bits generalizing s with
  | nil => exact ⟨rfl,rfl⟩
  | cons d rest ih =>
    rw [List.length_cons] at within
    have small : ¬ s.cnt > 9 := by
      rw [gt_iff_lt,BitVec.lt_def]
      change ¬ 9 < s.cnt.toNat
      omega
    have next : (onFall s d).cnt.toNat = s.cnt.toNat + 1 := by
      rw [fallCount,if_neg small,BitVec.toNat_add]
      change (s.cnt.toNat + 1) % 16 = _
      omega
    have busy : (onFall s d).cnt ≠ 0 := by
      intro zero
      rw [zero] at next
      exact absurd next (Nat.succ_ne_zero _).symm
    obtain ⟨silent,count⟩ := ih (s := onFall s d) (by omega)
    rw [announced,silent,if_neg (fun h => busy h.2),List.foldl_cons,count,next,List.length_cons]
    exact ⟨rfl,by omega⟩

theorem announcedEnd {s : Serial} {bits : List Bool} (some : bits ≠ [])
    (ends : s.cnt.toNat + bits.length = 11) :
    announced s bits = [(bits.foldl onFall s).keycode] ∧ (bits.foldl onFall s).cnt = 0 := by
  obtain ⟨part,d,rfl⟩ := (List.eq_nil_or_concat bits).resolve_left some
  rw [List.concat_eq_append] at ends ⊢
  rw [List.length_append,List.length_singleton] at ends
  obtain ⟨silent,count⟩ := announcedPart (show s.cnt.toNat + part.length ≤ 10 by omega)
  have ten : (part.foldl onFall s).cnt = 10 := by
    apply BitVec.eq_of_toNat_eq
    change _ = 10
    omega
  have last : (onFall (part.foldl onFall s) d).cnt = 0 := by
    rw [fallCount,ten]
    rfl
  rw [announcedAppend,silent,List.foldl_append,List.nil_append]
  refine ⟨?_,last⟩
  rw [announced,if_pos ⟨by rw [ten]; decide,last⟩]
  rfl

theorem dataByteOf (b0 b1 b2 b3 b4 b5 b6 b7 : Bool) :
    dataBits (byteOf [b0,b1,b2,b3,b4,b5,b6,b7]) = [b0,b1,b2,b3,b4,b5,b6,b7] := by
  revert b0 b1 b2 b3 b4 b5 b6 b7
  decide

theorem groupLevels {group : List Bool} (size : group.length = 11) :
    ∃ f : Frame, f.levels = group ∧ f.byte = byteOf ((group.drop 1).take 8) := by
  match group,size with
  | [start,b0,b1,b2,b3,b4,b5,b6,b7,parity,stop],_ =>
    have timing : Stretch := ⟨1,1,Nat.one_pos,Nat.one_pos⟩
    refine ⟨⟨start,byteOf [b0,b1,b2,b3,b4,b5,b6,b7],parity,stop,Vector.replicate 11 timing⟩,?_,rfl⟩
    rw [Frame.levels,dataByteOf]
    rfl

theorem groupAnnounced {group : List Bool} (size : group.length = 11) (k keycode : Byte) :
    announced ⟨0,k,keycode⟩ group = [byteOf ((group.drop 1).take 8)] ∧
      (group.foldl onFall ⟨0,k,keycode⟩).cnt = 0 := by
  obtain ⟨f,rfl,byte⟩ := groupLevels size
  have some : f.levels ≠ [] := List.cons_ne_nil _ _
  obtain ⟨once,_⟩ := announcedEnd (s := ⟨0,k,keycode⟩) some size
  rw [frameWhole] at once ⊢
  rw [once,byte]
  exact ⟨rfl,rfl⟩

theorem announcedSlices {s : Serial} (idle : s.cnt = 0) {n : Nat} {bits : List Bool} (groups : bits.length/11 = n) :
    announced s bits = slices bits := by
  induction n generalizing s bits with
  | zero =>
    have count : s.cnt.toNat = 0 := by
      rw [idle]
      rfl
    rw [slicesShort (by omega),(announcedPart (by omega)).1]
  | succ n ih =>
    obtain ⟨cnt,k,keycode⟩ := s
    obtain rfl : cnt = 0 := idle
    have size : (bits.take 11).length = 11 := by
      rw [List.length_take]
      omega
    obtain ⟨once,again⟩ := groupAnnounced size k keycode
    have fewer : (bits.drop 11).length/11 = n := by
      rw [List.length_drop]
      omega
    rw [← List.take_append_drop 11 bits,announcedAppend,once,slicesGroup size,ih again fewer]
    rfl

theorem announcedFrom (s : Serial) (bits : List Bool) :
    ∃ first : List Byte, first.length ≤ 1 ∧ announced s bits = first ++ slices (bits.drop (untilGroup s)) := by
  rcases Nat.eq_zero_or_pos s.cnt.toNat with none | open'
  · have idle : s.cnt = 0 := BitVec.eq_of_toNat_eq none
    refine ⟨[],Nat.zero_le 1,?_⟩
    rw [untilGroup,if_pos idle,List.drop_zero,announcedSlices idle rfl]
    rfl
  · have busy : s.cnt ≠ 0 := by
      intro zero
      rw [zero] at open'
      exact Nat.lt_irrefl 0 open'
    rcases Nat.lt_or_ge 10 s.cnt.toNat with beyond | within
    · have past : s.cnt > 10 := beyond
      rw [untilGroup,if_neg busy,if_pos past]
      cases bits with
      | nil => exact ⟨[],Nat.zero_le 1,rfl⟩
      | cons d rest =>
        have nine : s.cnt > 9 := Nat.lt_trans (by decide) beyond
        have cleared : (onFall s d).cnt = 0 := by
          rw [fallCount,if_pos nine]
        refine ⟨[(onFall s d).keycode],Nat.le_refl 1,?_⟩
        rw [announced,if_pos ⟨busy,cleared⟩,announcedSlices cleared rfl]
        rfl
    · have past : ¬ s.cnt > 10 := Nat.not_lt.mpr within
      rw [untilGroup,if_neg busy,if_neg past]
      rcases Nat.lt_or_ge bits.length (11 - s.cnt.toNat) with short | enough
      · refine ⟨[],Nat.zero_le 1,?_⟩
        rw [(announcedPart (by omega)).1,List.drop_of_length_le (by omega),slicesShort (by decide)]
        rfl
      · have size : (bits.take (11 - s.cnt.toNat)).length = 11 - s.cnt.toNat := by
          rw [List.length_take]
          omega
        have some : bits.take (11 - s.cnt.toNat) ≠ [] := List.ne_nil_of_length_pos (by omega)
        obtain ⟨once,cleared⟩ := announcedEnd (s := s) some (by omega)
        refine ⟨[((bits.take (11 - s.cnt.toNat)).foldl onFall s).keycode],Nat.le_refl 1,?_⟩
        rw [← announcedSlices cleared rfl,← once,← announcedAppend,List.take_append_drop]

/-! ### The receiver -/

theorem takenCons (r : Regs) (x : Sample) (rest : List Sample) :
    taken r (x :: rest) =
      (if r.ps2ClkIn && !r.ps2ClkSyn1 then [r.ps2DatSyn1] else []) ++ taken (clock r x) rest := by
  unfold taken
  rw [List.dropLast_cons_cons,clockFalls]
  split <;> rfl

theorem fallsAnnounced (r : Regs) (samples : List Sample) :
    workingFalls (working r) (states r samples) = announced r.serial (taken r samples) := by
  induction samples generalizing r with
  | nil => rfl
  | cons x rest ih =>
    rw [takenCons,states,workingFalls,ih]
    by_cases fell : (r.ps2ClkIn && !r.ps2ClkSyn1) = true
    · have serial : (clock r x).serial = onFall r.serial r.ps2DatSyn1 := if_pos fell
      have same : (working r && !working (clock r x)) =
          decide (r.serial.cnt ≠ 0 ∧ (onFall r.serial r.ps2DatSyn1).cnt = 0) := by
        rw [working,working,serial]
        simp
      rw [if_pos fell,List.singleton_append,announced,same,serial]
      by_cases ended : r.serial.cnt ≠ 0 ∧ (onFall r.serial r.ps2DatSyn1).cnt = 0
      · rw [decide_eq_true ended,if_pos rfl,if_pos ended]
        rfl
      · rw [decide_eq_false ended,if_neg Bool.false_ne_true,if_neg ended]
        rfl
    · have serial : (clock r x).serial = r.serial := if_neg fell
      have still : (working r && !working (clock r x)) = false := by
        rw [working,working,serial,Bool.and_not_self]
      rw [if_neg fell,still,if_neg Bool.false_ne_true,serial]
      rfl

theorem linesSliced (r : Regs) (samples : List Sample) :
    ∃ first : List Byte, first.length ≤ 1 ∧
      workingFalls (working r) (states r samples) =
        first ++ slices ((taken r samples).drop (untilGroup r.serial)) := by
  rw [fallsAnnounced]
  exact announcedFrom r.serial (taken r samples)

theorem slicesFrames (frames : List Frame) : slices (frames.flatMap Frame.levels) = frames.map Frame.byte := by
  induction frames with
  | nil => rfl
  | cons f rest ih =>
    have size : f.levels.length = 11 := rfl
    have received : byteOf ((f.levels.drop 1).take 8) = f.byte := byteReceived 0 f.byte
    rw [List.flatMap_cons,slicesGroup size,received,ih,List.map_cons]

end FpgaSynthesizer.Ps2Slices
