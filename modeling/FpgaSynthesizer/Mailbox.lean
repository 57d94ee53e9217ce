import Mathlib.Data.List.Infix
import Mathlib.Data.List.Nodup

/-! A one-slot mailbox for codes that arrive byte by byte. A code is a run of
prefix bytes and one other byte; a request takes the code in the slot, and the
next byte empties the slot whether the code was taken or not. The declarative
account of who is served is stated over cycle numbers and compared with the
mailbox run, over any byte type and any notion of prefix. -/
namespace FpgaSynthesizer.Mailbox

variable {Byte : Type}

structure ClockCycle (Byte : Type) where
  start : Bool
  byte : Option Byte
  deriving DecidableEq, Repr

structure Code (Byte : Type) where
  bytes : List Byte
  completed : Nat
  last : Nat
  deriving DecidableEq, Repr

structure Delivery (Byte : Type) where
  code : Code Byte
  start : Nat
  deriving DecidableEq, Repr

/-! ### Who is served, by cycle number -/

def nextByte (t : Nat) : List (ClockCycle Byte) → Nat
  | [] => t
  | x :: rest => if x.byte.isSome then t else nextByte (t+1) rest

def codesFrom (isPrefix : Byte → Bool) (t : Nat) (seen : List Byte) : List (ClockCycle Byte) → List (Code Byte)
  | [] => []
  | x :: rest =>
    match x.byte with
    | none => codesFrom isPrefix (t+1) seen rest
    | some b =>
      if isPrefix b then codesFrom isPrefix (t+1) (seen ++ [b]) rest
      else ⟨seen ++ [b],t,nextByte (t+1) rest⟩ :: codesFrom isPrefix (t+1) [] rest

def startsFrom (t : Nat) : List (ClockCycle Byte) → List Nat
  | [] => []
  | x :: rest => if x.start then t :: startsFrom (t+1) rest else startsFrom (t+1) rest

/- A code is delivered by the first start of its window, from its completing
byte up to and including the next byte, that no earlier code has used. -/
def deliver (starts : List Nat) : List (Code Byte) → List Nat → List (Delivery Byte)
  | [], _ => []
  | k :: rest, used =>
    match starts.find? (fun s => k.completed ≤ s ∧ s ≤ k.last ∧ s ∉ used) with
    | none => deliver starts rest used
    | some s => ⟨k,s⟩ :: deliver starts rest (s :: used)

/-! ### The mailbox -/

inductive Box (Byte : Type) where
  | waiting (seen : List Byte)
  | full (code : List Byte)
  deriving DecidableEq, Repr

def reply (isPrefix : Byte → Bool) (box : Box Byte) (byte : Option Byte) : Option (List Byte) :=
  match box, byte with
  | .full k, _ => some k
  | .waiting _, none => none
  | .waiting seen, some b => if isPrefix b then none else some (seen ++ [b])

def next (isPrefix : Byte → Bool) (box : Box Byte) (x : ClockCycle Byte) : Box Byte :=
  match box, x.byte with
  | .waiting seen, none => .waiting seen
  | .waiting seen, some b =>
    if isPrefix b then .waiting (seen ++ [b])
    else if x.start then .waiting [] else .full (seen ++ [b])
  | .full k, none => if x.start then .waiting [] else .full k
  | .full _, some b => if isPrefix b then .waiting [b] else .full [b]

def exchanges (isPrefix : Byte → Bool) (t : Nat) (box : Box Byte) :
    List (ClockCycle Byte) → List (Nat × Option (List Byte))
  | [] => []
  | x :: rest =>
    let later := exchanges isPrefix (t+1) (next isPrefix box x) rest
    if x.start then (t,reply isPrefix box x.byte) :: later else later

/-! ### Windows and used starts -/

theorem nextByteSilent (t : Nat) (start : Bool) (rest : List (ClockCycle Byte)) :
    nextByte t (⟨start,none⟩ :: rest) = nextByte (t+1) rest := rfl

theorem nextByteHere (t : Nat) (start : Bool) (b : Byte) (rest : List (ClockCycle Byte)) :
    nextByte t (⟨start,some b⟩ :: rest) = t := rfl

theorem nextByteFrom (t : Nat) (cycles : List (ClockCycle Byte)) : t ≤ nextByte t cycles := by
  induction cycles generalizing t with
  | nil => exact Nat.le_refl t
  | cons x rest ih =>
    simp only [nextByte]
    split
    · exact Nat.le_refl t
    · exact Nat.le_trans (Nat.le_succ t) (ih (t+1))

theorem codesCompleted {isPrefix : Byte → Bool} {t : Nat} {seen : List Byte} {cycles : List (ClockCycle Byte)} :
    ∀ k ∈ codesFrom isPrefix t seen cycles, t ≤ k.completed := by
  induction cycles generalizing t seen with
  | nil => simp [codesFrom]
  | cons x rest ih =>
    intro k member
    simp only [codesFrom] at member
    split at member
    · exact Nat.le_of_succ_le (ih k member)
    · split at member
      · exact Nat.le_of_succ_le (ih k member)
      · rcases List.mem_cons.mp member with rfl | later
        · exact Nat.le_refl t
        · exact Nat.le_of_succ_le (ih k later)

theorem startsBound {t : Nat} {cycles : List (ClockCycle Byte)} : ∀ s ∈ startsFrom t cycles, t ≤ s := by
  induction cycles generalizing t with
  | nil => simp [startsFrom]
  | cons x rest ih =>
    intro s member
    simp only [startsFrom] at member
    split at member
    · rcases List.mem_cons.mp member with rfl | later
      · exact Nat.le_refl _
      · exact Nat.le_of_succ_le (ih s later)
    · exact Nat.le_of_succ_le (ih s member)

theorem startsWithin {t : Nat} {cycles : List (ClockCycle Byte)} :
    ∀ s ∈ startsFrom t cycles, s < t + cycles.length := by
  induction cycles generalizing t with
  | nil => simp [startsFrom]
  | cons x rest ih =>
    intro s member
    rw [List.length_cons,← Nat.add_assoc,Nat.add_right_comm]
    simp only [startsFrom] at member
    split at member
    · rcases List.mem_cons.mp member with rfl | later
      · omega
      · exact ih s later
    · exact ih s member

theorem startsIncrease (t : Nat) (cycles : List (ClockCycle Byte)) : (startsFrom t cycles).Pairwise (· < ·) := by
  induction cycles generalizing t with
  | nil => exact List.Pairwise.nil
  | cons x rest ih =>
    simp only [startsFrom]
    split
    · exact List.Pairwise.cons (fun s hs => startsBound s hs) (ih (t+1))
    · exact ih (t+1)

theorem deliverSkip {t : Nat} {starts : List Nat} {codes : List (Code Byte)} (used : List Nat)
    (idle : ∀ k ∈ codes, k.completed ≤ t → t ∈ used) :
    deliver (t :: starts) codes used = deliver starts codes used := by
  induction codes generalizing used with
  | nil => rfl
  | cons k rest ih =>
    have skipped : ¬ (k.completed ≤ t ∧ t ≤ k.last ∧ t ∉ used) :=
      fun h => h.2.2 (idle k List.mem_cons_self h.1)
    simp only [deliver,List.find?_cons,decide_eq_false skipped]
    cases starts.find? (fun s => k.completed ≤ s ∧ s ≤ k.last ∧ s ∉ used) with
    | none => exact ih used (fun c hc early => idle c (List.mem_cons_of_mem k hc) early)
    | some s =>
      have tail := ih (s :: used)
        (fun c hc early => List.mem_cons_of_mem s (idle c (List.mem_cons_of_mem k hc) early))
      simp only [tail]

theorem deliverFirst {t : Nat} {starts : List Nat} {k : Code Byte} {rest : List (Code Byte)} {used : List Nat}
    (opened : k.completed ≤ t) (closes : t ≤ k.last) (free : ∀ s ∈ used, s < t) :
    deliver (t :: starts) (k :: rest) used = ⟨k,t⟩ :: deliver starts rest (t :: used) := by
  have chosen : k.completed ≤ t ∧ t ≤ k.last ∧ t ∉ used :=
    ⟨opened,closes,fun taken => Nat.lt_irrefl t (free t taken)⟩
  simp only [deliver,List.find?_cons,decide_eq_true chosen]
  rw [deliverSkip _ (fun _ _ _ => List.mem_cons_self)]

theorem deliverMissed {starts : List Nat} {k : Code Byte} {rest : List (Code Byte)} {used : List Nat}
    (late : ∀ s ∈ starts, k.last < s) : deliver starts (k :: rest) used = deliver starts rest used := by
  have nobody : starts.find? (fun s => k.completed ≤ s ∧ s ≤ k.last ∧ s ∉ used) = none := by
    rw [List.find?_eq_none]
    intro s hs
    have after := late s hs
    simp only [decide_eq_true_iff]
    omega
  simp only [deliver,nobody]

/-! ### The mailbox serves exactly those -/

theorem exchangesStarts (isPrefix : Byte → Bool) (t : Nat) (box : Box Byte) (cycles : List (ClockCycle Byte)) :
    (exchanges isPrefix t box cycles).map Prod.fst = startsFrom t cycles := by
  induction cycles generalizing t box with
  | nil => rfl
  | cons x rest ih =>
    simp only [exchanges,startsFrom]
    split
    · simp [ih]
    · exact ih _ _

/- The codes a suffix of the run can still deliver: the one in the slot, whose
window opened at some earlier cycle, and those that complete later. -/
def pending (isPrefix : Byte → Bool) (t opened : Nat) (box : Box Byte) (cycles : List (ClockCycle Byte)) :
    List (Code Byte) :=
  match box with
  | .waiting seen => codesFrom isPrefix t seen cycles
  | .full k => ⟨k,opened,nextByte t cycles⟩ :: codesFrom isPrefix t [] cycles

def handed (e : Nat × Option (List Byte)) : Option (Nat × List Byte) := e.2.map (fun k => (e.1,k))

def Delivery.handed (d : Delivery Byte) : Nat × List Byte := (d.start,d.code.bytes)

theorem laterCodes {isPrefix : Byte → Bool} {t : Nat} {seen : List Byte} {cycles : List (ClockCycle Byte)}
    {used : List Nat} :
    ∀ k ∈ codesFrom isPrefix (t+1) seen cycles, k.completed ≤ t → t ∈ used := by
  intro k member early
  have late := codesCompleted k member
  omega

def Serves (isPrefix : Byte → Bool) (t opened : Nat) (box : Box Byte) (cycles : List (ClockCycle Byte))
    (used : List Nat) : Prop :=
  (exchanges isPrefix t box cycles).filterMap handed =
    (deliver (startsFrom t cycles) (pending isPrefix t opened box cycles) used).map Delivery.handed

def ServesAfter (isPrefix : Byte → Bool) (t : Nat) (rest : List (ClockCycle Byte)) : Prop :=
  ∀ opened box used, opened ≤ t+1 → (∀ s ∈ used, s < t+1) → Serves isPrefix (t+1) opened box rest used

theorem usedBefore {t : Nat} {used : List Nat} (free : ∀ s ∈ used, s < t) : ∀ s ∈ used, s < t+1 :=
  fun s hs => Nat.lt_succ_of_lt (free s hs)

theorem takenBefore {t : Nat} {used : List Nat} (free : ∀ s ∈ used, s < t) : ∀ s ∈ t :: used, s < t+1 := by
  intro s hs
  rcases List.mem_cons.mp hs with rfl | old
  · exact Nat.lt_succ_self _
  · exact usedBefore free s old

theorem waitingServes {isPrefix : Byte → Bool} {t opened : Nat} {rest : List (ClockCycle Byte)}
    (after : ServesAfter isPrefix t rest) (seen : List Byte) (x : ClockCycle Byte) {used : List Nat}
    (early : opened ≤ t) (free : ∀ s ∈ used, s < t) :
    Serves isPrefix t opened (.waiting seen) (x :: rest) used := by
  have old := usedBefore free
  obtain ⟨start,byte⟩ := x
  unfold Serves
  cases byte with
  | none =>
    have tail := after opened (.waiting seen) used (Nat.le_succ_of_le early) old
    cases start with
    | false => exact tail
    | true =>
      simp only [pending,codesFrom,startsFrom,if_true,deliverSkip _ laterCodes]
      exact tail
  | some b =>
    by_cases pre : isPrefix b = true
    · have tail := after opened (.waiting (seen ++ [b])) used (Nat.le_succ_of_le early) old
      cases start with
      | false =>
        simp only [exchanges,next,pending,codesFrom,startsFrom,if_pos pre]
        exact tail
      | true =>
        simp only [exchanges,next,reply,pending,codesFrom,startsFrom,if_pos pre,if_true,
          deliverSkip _ laterCodes]
        exact tail
    · cases start with
      | false =>
        have tail := after t (.full (seen ++ [b])) used (Nat.le_succ t) old
        simp only [exchanges,next,pending,codesFrom,startsFrom,if_neg pre]
        exact tail
      | true =>
        -- the completing byte meets a free start, which takes the code at once
        have tail := after t (.waiting []) (t :: used) (Nat.le_succ t) (takenBefore free)
        have closes : t ≤ nextByte (t+1) rest := Nat.le_of_succ_le (nextByteFrom (t+1) rest)
        simp only [exchanges,next,reply,pending,codesFrom,startsFrom,if_neg pre,if_true]
        rw [deliverFirst (k := ⟨seen ++ [b],t,nextByte (t+1) rest⟩) (Nat.le_refl t) closes free]
        exact congrArg (List.cons (t,seen ++ [b])) tail

/- The code in the slot takes the start, if there is one; a byte empties the slot
whatever happens, and goes where it would go in an empty mailbox. -/
theorem fullServes {isPrefix : Byte → Bool} {t opened : Nat} {rest : List (ClockCycle Byte)}
    (after : ServesAfter isPrefix t rest) (k : List Byte) (x : ClockCycle Byte) {used : List Nat}
    (early : opened ≤ t) (free : ∀ s ∈ used, s < t) :
    Serves isPrefix t opened (.full k) (x :: rest) used := by
  have old := usedBefore free
  have late : ∀ s ∈ startsFrom (t+1) rest, t < s := fun s hs => startsBound s hs
  obtain ⟨start,byte⟩ := x
  unfold Serves
  cases byte with
  | none =>
    cases start with
    | false => exact after opened (.full k) used (Nat.le_succ_of_le early) old
    | true =>
      have tail := after t (.waiting []) (t :: used) (Nat.le_succ t) (takenBefore free)
      have closes : t ≤ nextByte (t+1) rest := Nat.le_of_succ_le (nextByteFrom (t+1) rest)
      simp only [exchanges,next,reply,pending,codesFrom,startsFrom,nextByteSilent,if_true]
      rw [deliverFirst (k := ⟨k,opened,_⟩) early closes free]
      exact congrArg (List.cons (t,k)) tail
  | some b =>
    by_cases pre : isPrefix b = true
    · cases start with
      | false =>
        have tail := after t (.waiting [b]) used (Nat.le_succ t) old
        simp only [exchanges,next,pending,codesFrom,startsFrom,if_pos pre]
        rw [deliverMissed late]
        exact tail
      | true =>
        have tail := after t (.waiting [b]) (t :: used) (Nat.le_succ t) (takenBefore free)
        simp only [exchanges,next,reply,pending,codesFrom,startsFrom,nextByteHere,if_pos pre,if_true]
        rw [deliverFirst (k := ⟨k,opened,_⟩) early (Nat.le_refl t) free]
        exact congrArg (List.cons (t,k)) tail
    · cases start with
      | false =>
        have tail := after t (.full [b]) used (Nat.le_succ t) old
        simp only [exchanges,next,pending,codesFrom,startsFrom,if_neg pre]
        rw [deliverMissed late]
        exact tail
      | true =>
        -- the old code takes the start; the new one waits in the slot
        have tail := after t (.full [b]) (t :: used) (Nat.le_succ t) (takenBefore free)
        simp only [exchanges,next,reply,pending,codesFrom,startsFrom,nextByteHere,if_neg pre,if_true]
        rw [deliverFirst (k := ⟨k,opened,_⟩) early (Nat.le_refl t) free]
        exact congrArg (List.cons (t,k)) tail

theorem exchangesServe (isPrefix : Byte → Bool) (t opened : Nat) (box : Box Byte)
    (cycles : List (ClockCycle Byte)) (used : List Nat) (early : opened ≤ t) (free : ∀ s ∈ used, s < t) :
    Serves isPrefix t opened box cycles used := by
  induction cycles generalizing t opened box used with
  | nil =>
    cases box with
    | waiting seen => rfl
    | full k => rfl
  | cons x rest ih =>
    have after : ServesAfter isPrefix t rest := fun opened box used => ih (t+1) opened box used
    cases box with
    | waiting seen => exact waitingServes after seen x early free
    | full k => exact fullServes after k x early free

theorem deliverLost {starts : List Nat} {codes : List (Code Byte)} (used : List Nat) {k : Code Byte}
    (member : k ∈ codes) (lost : k ∉ (deliver starts codes used).map Delivery.code) {s : Nat}
    (hs : s ∈ starts) (opened : k.completed ≤ s) (closes : s ≤ k.last) :
    s ∈ used ∨ ∃ d ∈ deliver starts codes used, d.start = s := by
  induction codes generalizing used with
  | nil => cases member
  | cons c rest ih =>
    simp only [deliver] at lost ⊢
    cases found : starts.find? (fun s => c.completed ≤ s ∧ s ≤ c.last ∧ s ∉ used) with
    | none =>
      simp only [found] at lost ⊢
      rcases List.mem_cons.mp member with rfl | later
      · left
        have busy := List.find?_eq_none.mp found s hs
        simp only [decide_eq_true_iff] at busy
        by_contra free
        exact busy ⟨opened,closes,free⟩
      · exact ih used later lost
    | some start =>
      simp only [found,List.map_cons,List.mem_cons,not_or] at lost
      have later : k ∈ rest := (List.mem_cons.mp member).resolve_left lost.1
      rcases ih (start :: used) later lost.2 with taken | ⟨d,hd,own⟩
      · rcases List.mem_cons.mp taken with rfl | old
        · exact .inr ⟨_,List.mem_cons_self,rfl⟩
        · exact .inl old
      · exact .inr ⟨d,List.mem_cons_of_mem _ hd,own⟩

/-! ### The codes of a byte stream -/

def splitFrom (isPrefix : Byte → Bool) (seen : List Byte) : List Byte → List (List Byte)
  | [] => []
  | b :: rest =>
    if isPrefix b then splitFrom isPrefix (seen ++ [b]) rest
    else (seen ++ [b]) :: splitFrom isPrefix [] rest

theorem codesSplit (isPrefix : Byte → Bool) (t : Nat) (seen : List Byte) (cycles : List (ClockCycle Byte)) :
    (codesFrom isPrefix t seen cycles).map Code.bytes =
      splitFrom isPrefix seen (cycles.filterMap ClockCycle.byte) := by
  induction cycles generalizing t seen with
  | nil => rfl
  | cons x rest ih =>
    obtain ⟨start,byte⟩ := x
    cases byte with
    | none => exact ih (t+1) seen
    | some b =>
      simp only [codesFrom,List.filterMap_cons,splitFrom]
      split
      · exact ih (t+1) (seen ++ [b])
      · exact congrArg (List.cons (seen ++ [b])) (ih (t+1) [])

theorem codesIncrease (isPrefix : Byte → Bool) (t : Nat) (seen : List Byte) (cycles : List (ClockCycle Byte)) :
    (codesFrom isPrefix t seen cycles).Pairwise (fun k l => k.completed < l.completed) := by
  induction cycles generalizing t seen with
  | nil => exact List.Pairwise.nil
  | cons x rest ih =>
    simp only [codesFrom]
    split
    · exact ih (t+1) seen
    · split
      · exact ih (t+1) _
      · exact List.Pairwise.cons (fun l hl => codesCompleted l hl) (ih (t+1) [])

theorem nextByteNone {t : Nat} {cycles : List (ClockCycle Byte)} (silent : cycles.filterMap ClockCycle.byte = []) :
    nextByte t cycles = t + cycles.length := by
  induction cycles generalizing t with
  | nil => rfl
  | cons x rest ih =>
    obtain ⟨start,byte⟩ := x
    cases byte with
    | none =>
      rw [nextByteSilent,ih silent,List.length_cons]
      omega
    | some b => cases silent

theorem lastCodeOpen {isPrefix : Byte → Bool} {t : Nat} {seen : List Byte} {cycles : List (ClockCycle Byte)}
    (whole : (splitFrom isPrefix seen (cycles.filterMap ClockCycle.byte)).flatten =
      seen ++ cycles.filterMap ClockCycle.byte)
    {before : List (Code Byte)} {k : Code Byte} (last : codesFrom isPrefix t seen cycles = before ++ [k]) :
    k.last = t + cycles.length := by
  induction cycles generalizing t seen before with
  | nil => simp [codesFrom] at last
  | cons x rest ih =>
    obtain ⟨start,byte⟩ := x
    rw [List.length_cons,← Nat.add_assoc,Nat.add_right_comm]
    cases byte with
    | none => exact ih whole last
    | some b =>
      simp only [codesFrom] at last
      simp only [List.filterMap_cons,splitFrom] at whole
      by_cases pre : isPrefix b = true
      · rw [if_pos pre] at last whole
        exact ih (whole.trans (by simp)) last
      · rw [if_neg pre] at last whole
        have tail : (splitFrom isPrefix [] (rest.filterMap ClockCycle.byte)).flatten =
            rest.filterMap ClockCycle.byte := by simpa using whole
        cases before with
        | nil =>
          obtain ⟨own,none⟩ := List.cons.inj last
          have empty := codesSplit isPrefix (t+1) [] rest
          rw [none,List.map_nil] at empty
          rw [← empty,List.flatten_nil] at tail
          rw [← own]
          exact nextByteNone tail.symm
        | cons c before =>
          exact ih (by simpa using tail) (List.cons.inj last).2

/-! ### Exchanges and deliveries -/

theorem deliverSublist (starts : List Nat) (codes : List (Code Byte)) (used : List Nat) :
    ((deliver starts codes used).map Delivery.code).Sublist codes := by
  induction codes generalizing used with
  | nil => exact List.Sublist.slnil
  | cons k rest ih =>
    simp only [deliver]
    split
    · exact (ih used).cons k
    · exact (ih _).cons_cons k

theorem exchangesNodup (isPrefix : Byte → Bool) (t : Nat) (box : Box Byte) (cycles : List (ClockCycle Byte)) :
    ((exchanges isPrefix t box cycles).map Prod.fst).Nodup := by
  rw [exchangesStarts]
  exact (startsIncrease t cycles).imp Nat.ne_of_lt

theorem exchangeOutcome {isPrefix : Byte → Bool} {t : Nat} {box : Box Byte} {cycles : List (ClockCycle Byte)}
    {delivered : List (Delivery Byte)}
    (served : (exchanges isPrefix t box cycles).filterMap handed = delivered.map Delivery.handed)
    {e : Nat × Option (List Byte)} (member : e ∈ exchanges isPrefix t box cycles) :
    (∃ d ∈ delivered, d.start = e.1 ∧ e.2 = some d.code.bytes) ∨
    ((∀ d ∈ delivered, d.start ≠ e.1) ∧ e.2 = none) := by
  obtain ⟨s,code⟩ := e
  cases code with
  | some bytes =>
    have given : (s,bytes) ∈ delivered.map Delivery.handed := by
      rw [← served]
      exact List.mem_filterMap.mpr ⟨(s,some bytes),member,rfl⟩
    obtain ⟨d,hd,same⟩ := List.mem_map.mp given
    cases same
    exact .inl ⟨d,hd,rfl,rfl⟩
  | none =>
    refine .inr ⟨?_,rfl⟩
    intro d hd same
    have given : d.handed ∈ (exchanges isPrefix t box cycles).filterMap handed := by
      rw [served]
      exact List.mem_map_of_mem hd
    obtain ⟨⟨s',code'⟩,member',took⟩ := List.mem_filterMap.mp given
    cases code' with
    | none => cases took
    | some bytes =>
      have start : s' = s := (congrArg Prod.fst (Option.some.inj took)).trans same
      have equal := List.inj_on_of_nodup_map (exchangesNodup isPrefix t box cycles) member' member start
      cases equal

end FpgaSynthesizer.Mailbox
