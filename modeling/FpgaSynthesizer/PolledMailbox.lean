import FpgaSynthesizer.Mailbox

/-! A mailbox that is asked often enough. Bytes come at least some number of
cycles apart, and in any so many cycles there is a request: then each code is
taken before the next byte comes, whatever the two parties do otherwise. -/
namespace FpgaSynthesizer.PolledMailbox
open Mailbox

variable {Byte : Type}

def ByteAt (cycles : List (ClockCycle Byte)) (n : Nat) : Prop := ∃ x, cycles[n]? = some x ∧ x.byte.isSome = true

def StartAt (cycles : List (ClockCycle Byte)) (n : Nat) : Prop := ∃ x, cycles[n]? = some x ∧ x.start = true

def Apart (gap : Nat) (cycles : List (ClockCycle Byte)) : Prop :=
  ∀ i j, i < j → ByteAt cycles i → ByteAt cycles j → i + gap ≤ j

def Polled (gap : Nat) (cycles : List (ClockCycle Byte)) : Prop :=
  ∀ n, n + gap ≤ cycles.length → ∃ m, n ≤ m ∧ m < n + gap ∧ StartAt cycles m

def Outlasts (gap : Nat) (cycles : List (ClockCycle Byte)) : Prop :=
  ∀ i, ByteAt cycles i → i + gap < cycles.length

theorem startsAt {t m : Nat} {cycles : List (ClockCycle Byte)} (start : StartAt cycles m) :
    t + m ∈ startsFrom t cycles := by
  induction cycles generalizing t m with
  | nil =>
    obtain ⟨x,place,_⟩ := start
    cases place
  | cons x rest ih =>
    obtain ⟨y,place,raised⟩ := start
    cases m with
    | zero =>
      obtain rfl : x = y := Option.some.inj place
      rw [startsFrom,if_pos raised]
      exact List.mem_cons_self
    | succ m =>
      have later := ih (t := t+1) ⟨y,place,raised⟩
      have same : t + (m+1) = t + 1 + m := by omega
      rw [startsFrom,same]
      split
      · exact List.mem_cons_of_mem t later
      · exact later

theorem nextByteAt (t : Nat) (cycles : List (ClockCycle Byte)) :
    (∃ j, nextByte t cycles = t + j ∧ ByteAt cycles j) ∨ nextByte t cycles = t + cycles.length := by
  induction cycles generalizing t with
  | nil => exact .inr rfl
  | cons x rest ih =>
    rw [nextByte]
    by_cases here : x.byte.isSome = true
    · rw [if_pos here]
      exact .inl ⟨0,rfl,x,rfl,here⟩
    · rw [if_neg here,List.length_cons]
      rcases ih (t+1) with ⟨j,place,byte⟩ | last
      · exact .inl ⟨j+1,by omega,byte⟩
      · exact .inr (by omega)

theorem codeWindow {isPrefix : Byte → Bool} {t : Nat} {seen : List Byte} {cycles : List (ClockCycle Byte)}
    {k : Code Byte} (member : k ∈ codesFrom isPrefix t seen cycles) :
    ∃ i, k.completed = t + i ∧ ByteAt cycles i ∧
      ((∃ j, i < j ∧ k.last = t + j ∧ ByteAt cycles j) ∨ k.last = t + cycles.length) := by
  induction cycles generalizing t seen with
  | nil => cases member
  | cons x rest ih =>
    have later {seen' : List Byte} (tail : k ∈ codesFrom isPrefix (t+1) seen' rest) :
        ∃ i, k.completed = t + i ∧ ByteAt (x :: rest) i ∧
          ((∃ j, i < j ∧ k.last = t + j ∧ ByteAt (x :: rest) j) ∨ k.last = t + (x :: rest).length) := by
      obtain ⟨i,completed,byte,window⟩ := ih tail
      refine ⟨i+1,by omega,byte,?_⟩
      rcases window with ⟨j,after,last,next⟩ | last
      · exact .inl ⟨j+1,by omega,by omega,next⟩
      · rw [List.length_cons]
        exact .inr (by omega)
    rw [codesFrom] at member
    cases here : x.byte with
    | none =>
      rw [here] at member
      exact later member
    | some b =>
      rw [here] at member
      dsimp only at member
      split at member
      · exact later member
      · rcases List.mem_cons.mp member with rfl | tail
        · refine ⟨0,rfl,⟨x,rfl,by rw [here]; rfl⟩,?_⟩
          rw [List.length_cons]
          rcases nextByteAt (t+1) rest with ⟨j,place,byte⟩ | last
          · exact .inl ⟨j+1,by omega,by dsimp only; omega,byte⟩
          · exact .inr (by dsimp only; omega)
        · exact later tail

theorem windowsOrdered {isPrefix : Byte → Bool} (t : Nat) (seen : List Byte) (cycles : List (ClockCycle Byte)) :
    (codesFrom isPrefix t seen cycles).Pairwise (fun k l => k.last ≤ l.completed) ∧
      ∀ l ∈ codesFrom isPrefix t seen cycles, nextByte t cycles ≤ l.completed := by
  induction cycles generalizing t seen with
  | nil => exact ⟨List.Pairwise.nil,fun l member => by cases member⟩
  | cons x rest ih =>
    obtain ⟨start,byte⟩ := x
    cases byte with
    | none => exact ih (t+1) seen
    | some b =>
      have here : nextByte t (⟨start,some b⟩ :: rest) = t := rfl
      rw [here]
      simp only [codesFrom]
      split
      · obtain ⟨ordered,_⟩ := ih (t+1) (seen ++ [b])
        exact ⟨ordered,fun l member => Nat.le_of_succ_le (codesCompleted l member)⟩
      · obtain ⟨ordered,first⟩ := ih (t+1) []
        refine ⟨List.Pairwise.cons first ordered,fun l member => ?_⟩
        rcases List.mem_cons.mp member with rfl | later
        · exact Nat.le_refl t
        · exact Nat.le_of_succ_le (codesCompleted l later)

theorem deliverEach {starts : List Nat} {codes : List (Code Byte)} {used : List Nat}
    (ordered : codes.Pairwise (fun k l => k.last ≤ l.completed))
    (asked : ∀ k ∈ codes, ∃ s ∈ starts, k.completed < s ∧ s ≤ k.last)
    (before : ∀ u ∈ used, ∀ k ∈ codes, u ≤ k.completed) : (deliver starts codes used).map Delivery.code = codes := by
  induction codes generalizing used with
  | nil => rfl
  | cons k rest ih =>
    obtain ⟨first,ordered⟩ := List.pairwise_cons.mp ordered
    obtain ⟨s,start,opened,closes⟩ := asked k List.mem_cons_self
    have fresh : s ∉ used := fun taken => Nat.not_lt_of_le (before s taken k List.mem_cons_self) opened
    have free : k.completed ≤ s ∧ s ≤ k.last ∧ s ∉ used := ⟨Nat.le_of_lt opened,closes,fresh⟩
    have asked' : ∀ l ∈ rest, ∃ s ∈ starts, l.completed < s ∧ s ≤ l.last :=
      fun l member => asked l (List.mem_cons_of_mem k member)
    cases found : starts.find? (fun s => k.completed ≤ s ∧ s ≤ k.last ∧ s ∉ used) with
    | none =>
      rw [List.find?_eq_none] at found
      exact absurd (decide_eq_true free) (found s start)
    | some taken =>
      have window := List.find?_some found
      rw [decide_eq_true_iff] at window
      have before' : ∀ u ∈ taken :: used, ∀ l ∈ rest, u ≤ l.completed := by
        intro u member l later
        rcases List.mem_cons.mp member with rfl | earlier
        · exact Nat.le_trans window.2.1 (first l later)
        · exact before u earlier l (List.mem_cons_of_mem k later)
      simp only [deliver,found,List.map_cons,ih ordered asked' before']

theorem polledDelivers {isPrefix : Byte → Bool} {gap : Nat} {cycles : List (ClockCycle Byte)} (apart : Apart gap cycles)
    (polled : Polled gap cycles) (outlasts : Outlasts gap cycles) :
    (deliver (startsFrom 0 cycles) (codesFrom isPrefix 0 [] cycles) []).map Delivery.code =
      codesFrom isPrefix 0 [] cycles := by
  refine deliverEach (windowsOrdered 0 [] cycles).1 ?_ (fun u none => by cases none)
  intro k member
  obtain ⟨i,completed,byte,window⟩ := codeWindow member
  have lasts := outlasts i byte
  obtain ⟨m,from',to',start⟩ := polled (i+1) (by omega)
  have asked := startsAt (t := 0) start
  refine ⟨0+m,asked,by omega,?_⟩
  rcases window with ⟨j,after,last,next⟩ | last
  · have far := apart i j after byte next
    omega
  · omega

/-! ### Requests that find nothing -/

theorem deliverPrompt {starts : List Nat} {codes : List (Code Byte)} {used : List Nat}
    (sorted : starts.Pairwise (· < ·)) (ordered : codes.Pairwise (fun k l => k.last ≤ l.completed))
    (before : ∀ u ∈ used, ∀ k ∈ codes, u ≤ k.completed) {d : Delivery Byte}
    (member : d ∈ deliver starts codes used) :
    d.code ∈ codes ∧ d.code.completed ≤ d.start ∧
      ∀ s ∈ starts, d.code.completed < s → s ≤ d.code.last → d.start ≤ s := by
  induction codes generalizing used with
  | nil => cases member
  | cons k rest ih =>
    obtain ⟨first,ordered⟩ := List.pairwise_cons.mp ordered
    cases found : starts.find? (fun s => k.completed ≤ s ∧ s ≤ k.last ∧ s ∉ used) with
    | none =>
      simp only [deliver,found] at member
      obtain ⟨code,later⟩ := ih ordered (fun u hu l hl => before u hu l (List.mem_cons_of_mem k hl)) member
      exact ⟨List.mem_cons_of_mem k code,later⟩
    | some taken =>
      have window := List.find?_some found
      rw [decide_eq_true_iff] at window
      simp only [deliver,found] at member
      rcases List.mem_cons.mp member with rfl | later
      · refine ⟨List.mem_cons_self,window.1,?_⟩
        intro s start opened closes
        obtain ⟨_,pre,post,split,skipped⟩ := List.find?_eq_some_iff_append.mp found
        rw [split] at start sorted
        rcases List.mem_append.mp start with early | late
        · have passed := skipped s early
          have fresh : s ∉ used := fun old => Nat.not_lt_of_le (before s old k List.mem_cons_self) opened
          rw [Bool.not_eq_true',decide_eq_false_iff_not] at passed
          exact absurd ⟨Nat.le_of_lt opened,closes,fresh⟩ passed
        · rcases List.mem_cons.mp late with rfl | after
          · exact Nat.le_refl _
          · have tail := (List.pairwise_append.mp sorted).2.1
            exact Nat.le_of_lt ((List.pairwise_cons.mp tail).1 s after)
      · have before' : ∀ u ∈ taken :: used, ∀ l ∈ rest, u ≤ l.completed := by
          intro u hu l hl
          rcases List.mem_cons.mp hu with rfl | earlier
          · exact Nat.le_trans window.2.1 (first l hl)
          · exact before u earlier l (List.mem_cons_of_mem k hl)
        obtain ⟨code,rest'⟩ := ih ordered before' later
        exact ⟨List.mem_cons_of_mem k code,rest'⟩

section
variable {isPrefix : Byte → Bool} {gap : Nat} {cycles : List (ClockCycle Byte)}

def served (isPrefix : Byte → Bool) (cycles : List (ClockCycle Byte)) : List (Delivery Byte) :=
  deliver (startsFrom 0 cycles) (codesFrom isPrefix 0 [] cycles) []

theorem servedPrompt (apart : Apart (2*gap+1) cycles) (polled : Polled gap cycles)
    (outlasts : Outlasts (2*gap+1) cycles) {d : Delivery Byte} (member : d ∈ served isPrefix cycles) :
    ByteAt cycles d.code.completed ∧ d.code.completed ≤ d.start ∧ d.start ≤ d.code.completed + gap := by
  obtain ⟨code,opened,prompt⟩ := deliverPrompt (startsIncrease 0 cycles) (windowsOrdered 0 [] cycles).1
    (fun u none => by cases none) member
  obtain ⟨i,completed,byte,window⟩ := codeWindow code
  obtain rfl : d.code.completed = i := by omega
  have lasts := outlasts _ byte
  obtain ⟨m,from',to',start⟩ := polled (d.code.completed+1) (by omega)
  have asked := startsAt (t := 0) start
  rw [Nat.zero_add] at asked
  have closes : m ≤ d.code.last := by
    rcases window with ⟨j,after,last,next⟩ | last
    · have far := apart _ j after byte next
      omega
    · omega
  have early := prompt m asked (by omega) closes
  exact ⟨byte,opened,by omega⟩

theorem idleAfter (apart : Apart (2*gap+1) cycles) (polled : Polled gap cycles)
    (outlasts : Outlasts (2*gap+1) cycles) {d : Delivery Byte} (member : d ∈ served isPrefix cycles) :
    ∃ m ∈ startsFrom 0 cycles, d.start < m ∧ m ≤ d.code.completed + 2*gap := by
  obtain ⟨byte,opened,prompt⟩ := servedPrompt apart polled outlasts member
  have lasts := outlasts _ byte
  obtain ⟨m,from',to',start⟩ := polled (d.start+1) (by omega)
  have asked := startsAt (t := 0) start
  rw [Nat.zero_add] at asked
  exact ⟨m,asked,by omega,by omega⟩

theorem servedOnce (isPrefix : Byte → Bool) (cycles : List (ClockCycle Byte)) :
    ((served isPrefix cycles).map (fun d => d.code.completed)).Nodup := by
  have codes := (deliverSublist (startsFrom 0 cycles) (codesFrom isPrefix 0 [] cycles) []).map Code.completed
  rw [List.map_map] at codes
  exact codes.nodup (List.pairwise_map.mpr ((codesIncrease isPrefix 0 [] cycles).imp Nat.ne_of_lt))

theorem idleBetween (apart : Apart (2*gap+1) cycles) (polled : Polled gap cycles)
    (outlasts : Outlasts (2*gap+1) cycles) {d e : Delivery Byte} (first : d ∈ served isPrefix cycles)
    (second : e ∈ served isPrefix cycles) (order : d.start < e.start) :
    ∃ m ∈ startsFrom 0 cycles, d.start < m ∧ m < e.start := by
  obtain ⟨byte,opened,_⟩ := servedPrompt apart polled outlasts first
  obtain ⟨byte',opened',prompt'⟩ := servedPrompt apart polled outlasts second
  obtain ⟨m,asked,after,early⟩ := idleAfter apart polled outlasts first
  rcases Nat.lt_trichotomy d.code.completed e.code.completed with before | same | behind
  · have far := apart _ _ before byte byte'
    exact ⟨m,asked,after,by omega⟩
  · obtain rfl := List.inj_on_of_nodup_map (servedOnce isPrefix cycles) first second same
    exact absurd order (Nat.lt_irrefl _)
  · have far := apart _ _ behind byte' byte
    omega

theorem nothingBetween {xs : List Nat} (sorted : xs.Pairwise (· < ·)) {n m : Nat} (inside : n + 1 < xs.length)
    (member : m ∈ xs) : m ≤ xs[n] ∨ xs[n+1] ≤ m := by
  obtain ⟨k,bound,rfl⟩ := List.getElem_of_mem member
  have order := List.pairwise_iff_getElem.mp sorted
  rcases Nat.lt_trichotomy k n with before | rfl | behind
  · exact .inl (Nat.le_of_lt (order k n bound (by omega) before))
  · exact .inl (Nat.le_refl _)
  · rcases Nat.eq_or_lt_of_le behind with rfl | later
    · exact .inr (Nat.le_refl _)
    · exact .inr (Nat.le_of_lt (order (n+1) k inside bound later))

theorem exchangesSpaced (apart : Apart (2*gap+1) cycles) (polled : Polled gap cycles)
    (outlasts : Outlasts (2*gap+1) cycles) :
    (exchanges isPrefix 0 (.waiting []) cycles).IsChain (fun x y => x.2 = none ∨ y.2 = none) ∧
      ∀ e ∈ (exchanges isPrefix 0 (.waiting []) cycles).getLast?, e.2 = none := by
  have serves : (exchanges isPrefix 0 (.waiting []) cycles).filterMap handed =
      (served isPrefix cycles).map Delivery.handed :=
    exchangesServe isPrefix 0 0 (.waiting []) cycles [] (Nat.le_refl 0) (fun s none => by cases none)
  have times := exchangesStarts isPrefix 0 (.waiting []) cycles
  have sorted := startsIncrease 0 cycles
  rw [← times] at sorted
  refine ⟨List.isChain_iff_getElem.mpr ?_,?_⟩
  · intro n inside
    rcases exchangeOutcome serves (List.getElem_mem (Nat.lt_of_succ_lt inside)) with ⟨d,hd,start,_⟩ | ⟨_,none⟩
    · rcases exchangeOutcome serves (List.getElem_mem inside) with ⟨e,he,start',_⟩ | ⟨_,none⟩
      · have inside' : n + 1 < ((exchanges isPrefix 0 (.waiting []) cycles).map Prod.fst).length := by
          rwa [List.length_map]
        have order := List.pairwise_iff_getElem.mp sorted n (n+1) (Nat.lt_of_succ_lt inside') inside'
          (Nat.lt_succ_self n)
        rw [List.getElem_map,List.getElem_map,← start,← start'] at order
        obtain ⟨m,asked,after,early⟩ := idleBetween apart polled outlasts hd he order
        rw [← times] at asked
        have none := nothingBetween sorted inside' asked
        rw [List.getElem_map,List.getElem_map,← start,← start'] at none
        omega
      · exact .inr none
    · exact .inl none
  · intro e last
    obtain ⟨init,split⟩ := List.getLast?_eq_some_iff.mp last
    rcases exchangeOutcome serves (List.mem_of_getLast? last) with ⟨d,hd,start,_⟩ | ⟨_,none⟩
    · obtain ⟨m,asked,after,_⟩ := idleAfter apart polled outlasts hd
      rw [← times,split,List.map_append] at asked
      rw [split,List.map_append] at sorted
      rcases List.mem_append.mp asked with early | same
      · have before := (List.pairwise_append.mp sorted).2.2 m early e.1 List.mem_cons_self
        omega
      · have own : m = e.1 := List.mem_singleton.mp same
        omega
    · exact none

end

end FpgaSynthesizer.PolledMailbox
