import FpgaSynthesizer.Polling
import FpgaSynthesizer.Ps2Ci
import Mathlib.Data.List.Chain

/-! get_key of the two programs, over the values that ALT_CI_KEYBOARD_CI_0 returns
to them one after the other. the_synth takes the first value that is not zero;
fpga_synth gathers a key from the values up to a zero, so it agrees with the_synth
exactly when a zero follows every code. -/
namespace FpgaSynthesizer.GetKey
open Polling
open Ps2Ci (Byte Word isPrefix value valueOne valueLow lowByte wordInjective)

namespace TheSynth

def getKey : List Word → Option (Word × List Word)
  | [] => none
  | key :: rest => if key = 0 then getKey rest else some (key,rest)

end TheSynth

namespace FpgaSynth

/- The locals of get_key between two reads; tmp is the read itself. -/
structure Locals where
  key : Word
  prev : Word
  deriving DecidableEq, Repr

def validKey (key : Word) : Bool :=
  let lsb := key &&& 0xff
  lsb ≠ 0

def Locals.read (l : Locals) (tmp : Word) : Locals :=
  {key :=
    if tmp ≠ 0 ∧ tmp ≠ l.prev then
      if tmp = 0xf0 ∨ tmp = 0xe0 then (l.key <<< 8) ||| (tmp <<< 8) else l.key ||| tmp
    else l.key
   prev := if tmp ≠ 0 then tmp else l.prev}

def loop (l : Locals) : List Word → Option (Word × List Word)
  | [] => none
  | tmp :: rest =>
    let now := l.read tmp
    if tmp = 0 ∧ validKey now.key then some (now.key,rest) else loop now rest

def getKey (reads : List Word) : Option (Word × List Word) := loop ⟨0,0⟩ reads

end FpgaSynth

theorem theSynthProgress {reads : List Word} {key : Word} {rest : List Word}
    (returned : TheSynth.getKey reads = some (key,rest)) : rest.length < reads.length := by
  induction reads with
  | nil => cases returned
  | cons tmp reads ih =>
    simp only [TheSynth.getKey] at returned
    split at returned
    · exact Nat.lt_succ_of_lt (ih returned)
    · cases returned
      exact Nat.lt_succ_self _

theorem loopProgress {l : FpgaSynth.Locals} {reads : List Word} {key : Word} {rest : List Word}
    (returned : FpgaSynth.loop l reads = some (key,rest)) : rest.length < reads.length := by
  induction reads generalizing l with
  | nil => cases returned
  | cons tmp reads ih =>
    simp only [FpgaSynth.loop] at returned
    split at returned
    · cases returned
      exact Nat.lt_succ_self _
    · exact Nat.lt_succ_of_lt (ih returned)

def theSynth : Reader Word Word := ⟨TheSynth.getKey,theSynthProgress⟩

def fpgaSynth : Reader Word Word := ⟨FpgaSynth.getKey,loopProgress⟩

/-! ### One read of fpga_synth's loop -/

open FpgaSynth

theorem readZero (l : Locals) : l.read 0 = l := by simp [Locals.read]

theorem readRepeat (l : Locals) : l.read l.prev = l := by
  obtain ⟨key,prev⟩ := l
  simp only [Locals.read,ne_eq,not_true_eq_false,and_false,if_false]
  split
  · rfl
  · rename_i zero
    rw [not_not.mp zero]

theorem readPrefix {l : Locals} {tmp : Word} (marked : tmp = 0xf0 ∨ tmp = 0xe0) (new : tmp ≠ l.prev) :
    l.read tmp = ⟨(l.key <<< 8) ||| (tmp <<< 8),tmp⟩ := by
  have real : tmp ≠ 0 := by
    rcases marked with rfl | rfl <;> decide
  simp only [Locals.read,if_pos real,if_pos (show tmp ≠ 0 ∧ tmp ≠ l.prev from ⟨real,new⟩),if_pos marked]

theorem readFinal {l : Locals} {tmp : Word} (real : tmp ≠ 0) (plain : ¬ (tmp = 0xf0 ∨ tmp = 0xe0))
    (new : tmp ≠ l.prev) : l.read tmp = ⟨l.key ||| tmp,tmp⟩ := by
  simp only [Locals.read,if_pos real,if_pos (show tmp ≠ 0 ∧ tmp ≠ l.prev from ⟨real,new⟩),if_neg plain]

theorem loopBreak {l : Locals} (valid : validKey l.key = true) (rest : List Word) :
    loop l (0 :: rest) = some (l.key,rest) := by
  simp only [loop,readZero,valid,and_self,if_true]

theorem loopZero {l : Locals} (invalid : validKey l.key = false) (rest : List Word) :
    loop l (0 :: rest) = loop l rest := by
  simp only [loop,readZero,invalid,Bool.false_eq_true,and_false,if_false]

theorem loopReal {l : Locals} {tmp : Word} (real : tmp ≠ 0) (rest : List Word) :
    loop l (tmp :: rest) = loop (l.read tmp) rest := by
  simp only [loop,real,false_and,if_false]

theorem validByte (key : Word) : validKey key = decide (key.setWidth 8 ≠ 0) := by
  have zero : (key.setWidth 8).setWidth 32 = (0 : Word) ↔ key.setWidth 8 = 0 := wordInjective _ 0
  simp only [validKey,lowByte,ne_eq,zero]

/-! ### Streams of whole codes -/

def Complete (code : Word) : Prop :=
  ∃ (prefixes : List Byte) (last : Byte), (∀ b ∈ prefixes, isPrefix b = true) ∧ last ≠ 0 ∧
    isPrefix last = false ∧ code = value (prefixes ++ [last])

def Spaced (reads : List Word) : Prop := reads.IsChain (fun x y => x = 0 ∨ y = 0)

theorem spacedPair {x y : Word} {rest : List Word} :
    Spaced (x :: y :: rest) ↔ (x = 0 ∨ y = 0) ∧ Spaced (y :: rest) := List.isChain_cons_cons

theorem spacedZero {rest : List Word} : Spaced (0 :: rest) ↔ Spaced rest :=
  List.isChain_cons.trans (and_iff_right (fun _ _ => .inl rfl))

theorem completeFinal {code : Word} (complete : Complete code) :
    code ≠ 0 ∧ ¬ (code = 0xf0 ∨ code = 0xe0) ∧ validKey code = true := by
  obtain ⟨prefixes,last,_,real,plain,rfl⟩ := complete
  have low := valueLow prefixes last
  refine ⟨?_,?_,?_⟩
  · intro zero
    rw [zero] at low
    exact real low.symm
  · rintro (same | same)
    · rw [same] at low
      rw [← low] at plain
      exact absurd plain (by decide)
    · rw [same] at low
      rw [← low] at plain
      exact absurd plain (by decide)
  · rw [validByte,low,decide_eq_true_iff]
    exact real

theorem readFirst {code : Word} (complete : Complete code) :
    (⟨0,0⟩ : Locals).read code = ⟨code,code⟩ := by
  obtain ⟨real,plain,_⟩ := completeFinal complete
  have first : (0 : Word) ||| code = code := BitVec.zero_or
  rw [readFinal real plain real,first]

def returned (l : Locals) (reads : List Word) : List Word :=
  match loop l reads with
  | none => []
  | some (key,rest) => key :: fpgaSynth.values rest

theorem returnedStart (reads : List Word) : fpgaSynth.values reads = returned ⟨0,0⟩ reads := by
  unfold returned
  cases read : loop ⟨0,0⟩ reads with
  | none => rw [Reader.values,callsBlock (r := fpgaSynth) read,List.map_nil]
  | some out =>
    obtain ⟨key,rest⟩ := out
    exact valuesReturn (r := fpgaSynth) read

theorem returnedZero (l : Locals) (rest : List Word) :
    returned l (0 :: rest) =
      if validKey l.key then l.key :: returned ⟨0,0⟩ rest else returned l rest := by
  cases valid : validKey l.key with
  | true =>
    rw [if_pos rfl,← returnedStart]
    simp only [returned,loopBreak valid]
  | false =>
    rw [if_neg Bool.false_ne_true]
    simp only [returned,loopZero valid]

theorem returnedCode (l : Locals) {code : Word} (complete : Complete code) (rest : List Word) :
    returned l (code :: rest) = returned (l.read code) rest := by
  simp only [returned,loopReal (completeFinal complete).1]

def codes (reads : List Word) : List Word := reads.filter (· ≠ 0)

theorem codesZero (rest : List Word) : codes (0 :: rest) = codes rest := rfl

theorem codesCode {code : Word} (complete : Complete code) (rest : List Word) :
    codes (code :: rest) = code :: codes rest :=
  List.filter_cons_of_pos (decide_eq_true (completeFinal complete).1)

theorem returnedFew (l : Locals) {reads : List Word} (complete : ∀ x ∈ reads, x = 0 ∨ Complete x) :
    (returned l reads).length ≤ (if validKey l.key then 1 else 0) + (codes reads).length := by
  induction reads generalizing l with
  | nil => exact Nat.zero_le _
  | cons tmp rest ih =>
    have later := fun x hx => complete x (List.mem_cons_of_mem tmp hx)
    rcases complete tmp List.mem_cons_self with rfl | code
    · rw [returnedZero,codesZero]
      cases valid : validKey l.key with
      | true =>
        have tail := ih ⟨0,0⟩ later
        rw [if_neg (show ¬ validKey (0 : Word) = true by decide)] at tail
        simp only [if_true,List.length_cons]
        omega
      | false =>
        have tail := ih l later
        rwa [valid] at tail
    · have tail := ih (l.read tmp) later
      rw [returnedCode l code,codesCode code,List.length_cons]
      split at tail <;> split <;> omega

theorem theSynthCodes (reads : List Word) : theSynth.values reads = codes reads := by
  induction reads with
  | nil => rfl
  | cons tmp rest ih =>
    by_cases zero : tmp = 0
    · subst zero
      have same : theSynth.read (0 :: rest) = theSynth.read rest := rfl
      rw [Reader.values,callsAlike same,codesZero]
      exact ih
    · have read : theSynth.read (tmp :: rest) = some (tmp,rest) := if_neg zero
      have kept : codes (tmp :: rest) = tmp :: codes rest := List.filter_cons_of_pos (decide_eq_true zero)
      rw [valuesReturn read,ih,kept]

def AgreeSpaced (reads : List Word) : Prop :=
  (returned ⟨0,0⟩ (reads ++ [0]) = codes reads ↔ Spaced (reads ++ [0])) ∧
  ∀ code, Complete code →
    (returned ⟨code,code⟩ (reads ++ [0]) = code :: codes reads ↔ Spaced (code :: (reads ++ [0])))

theorem agreeEnd : AgreeSpaced [] := by
  refine ⟨?_,?_⟩
  · exact iff_of_true rfl (List.isChain_singleton 0)
  · intro code complete
    obtain ⟨_,_,valid⟩ := completeFinal complete
    have last : returned ⟨code,code⟩ [0] = [code] := by
      rw [returnedZero,if_pos valid]
      rfl
    exact iff_of_true last (List.isChain_pair.mpr (.inr rfl))

theorem agreeZero {rest : List Word} (agree : AgreeSpaced rest) : AgreeSpaced (0 :: rest) := by
  refine ⟨?_,?_⟩
  · rw [List.cons_append,returnedZero,if_neg (by decide),codesZero,spacedZero]
    exact agree.1
  · intro code complete
    obtain ⟨_,_,valid⟩ := completeFinal complete
    rw [List.cons_append,returnedZero,if_pos valid,codesZero,List.cons_inj_right,spacedPair,
      and_iff_right (.inr rfl),spacedZero]
    exact agree.1

theorem agreeCode {rest : List Word} (agree : AgreeSpaced rest) {tmp : Word} (code : Complete tmp)
    (complete : ∀ x ∈ rest, x = 0 ∨ Complete x) : AgreeSpaced (tmp :: rest) := by
  refine ⟨?_,?_⟩
  · rw [List.cons_append,returnedCode _ code,readFirst code,codesCode code]
    exact agree.2 tmp code
  · intro first begun
    -- two codes without a zero make one key
    have merged : returned ⟨first,first⟩ (tmp :: rest ++ [0]) ≠ first :: codes (tmp :: rest) := by
      intro same
      have lengths := congrArg List.length same
      have ended : ∀ x ∈ rest ++ [0], x = 0 ∨ Complete x := by
        intro x member
        rcases List.mem_append.mp member with earlier | last
        · exact complete x earlier
        · exact .inl (List.mem_singleton.mp last)
      have few := returnedFew ((⟨first,first⟩ : Locals).read tmp) ended
      have zero : codes (rest ++ [0]) = codes rest := by simp [codes]
      rw [List.cons_append,returnedCode _ code,codesCode code,List.length_cons,List.length_cons] at lengths
      rw [zero] at few
      split at few <;> omega
    have apart : ¬ Spaced (first :: (tmp :: rest ++ [0])) := by
      intro spaced
      rcases (spacedPair.mp spaced).1 with none | none
      · exact (completeFinal begun).1 none
      · exact (completeFinal code).1 none
    exact iff_of_false merged apart

theorem agreeSpaced {reads : List Word} (complete : ∀ x ∈ reads, x = 0 ∨ Complete x) : AgreeSpaced reads := by
  induction reads with
  | nil => exact agreeEnd
  | cons tmp rest ih =>
    have later := fun x hx => complete x (List.mem_cons_of_mem tmp hx)
    rcases complete tmp List.mem_cons_self with rfl | code
    · exact agreeZero (ih later)
    · exact agreeCode (ih later) code later

theorem agreeExactlyWhenSpaced (reads : List Word) (complete : ∀ x ∈ reads, x = 0 ∨ Complete x) :
    (fpgaSynth.values (reads ++ [0]) = theSynth.values (reads ++ [0]) ∧
      theSynth.values (reads ++ [0]) = (reads ++ [0]).filter (· ≠ 0)) ↔ Spaced (reads ++ [0]) := by
  have zero : codes (reads ++ [0]) = codes reads := by simp [codes]
  rw [theSynthCodes,returnedStart,zero,← (agreeSpaced complete).1]
  exact and_iff_left zero.symm

theorem plainComplete {b : Byte} (real : b ≠ 0) (plain : isPrefix b = false) : Complete (b.setWidth 32) :=
  ⟨[],b,by simp,real,plain,(valueOne b).symm⟩

theorem pressAndReleaseAgree :
    fpgaSynth.values ([0x1c,0,0xf01c] ++ [0]) = theSynth.values ([0x1c,0,0xf01c] ++ [0]) := by
  have codes : ∀ x ∈ [0x1c,0,0xf01c], x = 0 ∨ Complete x := by
    intro x member
    simp only [List.mem_cons,List.not_mem_nil,or_false] at member
    rcases member with rfl | rfl | rfl
    · exact .inr (plainComplete (b := 0x1c) (by decide) (by decide))
    · exact .inl rfl
    · exact .inr ⟨[0xf0],0x1c,by decide,by decide,by decide,by decide⟩
  exact ((agreeExactlyWhenSpaced [0x1c,0,0xf01c] codes).mpr (by unfold Spaced; decide)).1

theorem adjacentCodesMerge :
    (∀ x ∈ [0x1c,0x23], x = 0 ∨ Complete x) ∧
    theSynth.values ([0x1c,0x23] ++ [0]) = [0x1c,0x23] ∧ fpgaSynth.values ([0x1c,0x23] ++ [0]) = [0x3f] := by
  refine ⟨?_,by decide,by decide⟩
  intro x member
  rcases List.mem_pair.mp member with rfl | rfl
  · exact .inr (plainComplete (b := 0x1c) (by decide) (by decide))
  · exact .inr (plainComplete (b := 0x23) (by decide) (by decide))

end FpgaSynthesizer.GetKey
