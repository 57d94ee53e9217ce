import FpgaSynthesizer.GetKey
import Mathlib.Algebra.Group.Nat.Defs

/-! fpga_synth's get_key over codes that are read byte by byte, each byte any number
of times. A prefix moves the key up by a byte and is filtered while it repeats,
also across zeros; the last byte completes the key, and the next zero returns it. -/
namespace FpgaSynthesizer.GetKeyBytes
open Polling GetKey
open GetKey.FpgaSynth
open Ps2Ci (Byte Word isPrefix value valueShift valueLow valueOne wordInjective)

structure KeyCode where
  prefixes : List Byte
  last : Byte
  marked : ∀ b ∈ prefixes, isPrefix b = true
  apart : prefixes.IsChain (· ≠ ·)
  short : prefixes.length ≤ 3
  plain : last ≠ 0 ∧ isPrefix last = false

def KeyCode.bytes (c : KeyCode) : List Byte := c.prefixes ++ [c.last]

def bigEndian (bytes : List Byte) : Nat := bytes.foldl (fun v b => v*256 + b.toNat) 0

def word (b : Byte) : Word := b.setWidth 32

inductive PrefixReads : List Byte → List Word → Prop where
  | nil : PrefixReads [] []
  | cons {b bs again later} (copies : ∀ x ∈ again, x = 0 ∨ x = word b) (tail : PrefixReads bs later) :
      PrefixReads (b :: bs) (word b :: (again ++ later))

/- How one code is read: its prefixes, its last byte in copies, and the zeros
beyond the one that ends it. -/
structure CodeReads where
  code : KeyCode
  prefixReads : List Word
  read : PrefixReads code.prefixes prefixReads
  copies : Nat
  zeros : Nat

def stream : List CodeReads → List Word
  | [] => []
  | c :: rest =>
    c.prefixReads ++ (word c.code.last :: List.replicate c.copies (word c.code.last)) ++
      0 :: (List.replicate c.zeros 0 ++ stream rest)

def decoded : List CodeReads → List (Nat × List Word)
  | [] => []
  | c :: rest => (bigEndian c.code.bytes,List.replicate c.zeros 0 ++ stream rest) :: decoded rest

/-! ### Bytes and words -/

theorem markedWord {b : Byte} (marked : isPrefix b = true) : word b = 0xf0 ∨ word b = 0xe0 := by
  rcases Bool.or_eq_true_iff.mp marked with same | same
  · exact .inl (congrArg word (of_decide_eq_true same))
  · exact .inr (congrArg word (of_decide_eq_true same))

theorem plainWord {b : Byte} (plain : isPrefix b = false) : ¬ (word b = 0xf0 ∨ word b = 0xe0) := by
  rintro (same | same)
  · obtain rfl := (wordInjective b 0xf0).mp same
    exact absurd plain (by decide)
  · obtain rfl := (wordInjective b 0xe0).mp same
    exact absurd plain (by decide)

theorem wordApart {b d : Byte} (apart : b ≠ d) : word b ≠ word d := fun same => apart ((wordInjective b d).mp same)

theorem wordReal {b : Byte} (real : b ≠ 0) : word b ≠ 0 := fun zero => real ((wordInjective b 0).mp zero)

theorem bigEndianSmall (bytes : List Byte) : bigEndian bytes < 256^bytes.length := by
  induction bytes using List.reverseRecOn with
  | nil => decide
  | append_singleton bytes b ih =>
    have small := b.isLt
    have next : bigEndian (bytes ++ [b]) = bigEndian bytes*256 + b.toNat := by
      rw [bigEndian,List.foldl_append]
      rfl
    rw [next,List.length_append,List.length_singleton,Nat.pow_succ]
    omega

theorem codeInteger (c : KeyCode) : (value c.bytes).toNat = bigEndian c.bytes := by
  have small := bigEndianSmall c.bytes
  have length : c.bytes.length ≤ 4 := by
    rw [KeyCode.bytes,List.length_append,List.length_singleton]
    exact Nat.succ_le_succ c.short
  have fits : 256^c.bytes.length ≤ 256^4 := Nat.pow_le_pow_right (by decide) length
  exact Nat.mod_eq_of_lt (Nat.lt_of_lt_of_le small fits)

/-! ### Copies and zeros are passed over -/

theorem loopCopies {l : Locals} {again : List Word} (copies : ∀ x ∈ again, x = 0 ∨ x = l.prev)
    (unfinished : validKey l.key = false) (rest : List Word) : loop l (again ++ rest) = loop l rest := by
  induction again with
  | nil => rfl
  | cons x again ih =>
    have tail := ih (fun y hy => copies y (List.mem_cons_of_mem x hy))
    by_cases zero : x = 0
    · rw [zero,List.cons_append,loopZero unfinished,tail]
    · have same : x = l.prev := (copies x List.mem_cons_self).resolve_left zero
      rw [List.cons_append,loopReal zero,same,readRepeat,tail]

theorem loopLast {l : Locals} (real : l.prev ≠ 0) (valid : validKey l.key = true) (copies : Nat)
    (rest : List Word) : loop l (List.replicate copies l.prev ++ 0 :: rest) = some (l.key,rest) := by
  induction copies with
  | zero => exact loopBreak valid rest
  | succ copies ih => rw [List.replicate_succ,List.cons_append,loopReal real,readRepeat,ih]

theorem shiftUnfinished (v : Word) : validKey (v <<< 8) = false := by
  rw [validByte]
  simp

/-! ### One code -/

/- The bytes seen so far stand in the key one byte up, and the last of them is
the value that the filter remembers. -/
theorem prefixesRead {bs : List Byte} {reads : List Word} (read : PrefixReads bs reads) {seen : List Byte}
    {p : Byte} (marked : ∀ b ∈ bs, isPrefix b = true) (apart : (p :: bs).IsChain (· ≠ ·)) (rest : List Word) :
    loop ⟨value seen <<< 8,word p⟩ (reads ++ rest) =
      loop ⟨value (seen ++ bs) <<< 8,word (bs.getLastD p)⟩ rest := by
  induction read generalizing seen p with
  | nil => rw [List.append_nil,List.nil_append,List.getLastD_nil]
  | @cons b bs again later copies tail ih =>
    obtain ⟨new,chain⟩ := List.isChain_cons_cons.mp apart
    have own := markedWord (marked b List.mem_cons_self)
    have real : word b ≠ 0 := by
      rcases own with same | same <;> rw [same] <;> decide
    have key : (value seen <<< 8) <<< 8 ||| word b <<< 8 = value (seen ++ [b]) <<< 8 := by
      rw [valueShift,BitVec.shiftLeft_or_distrib]
      rfl
    have first : (⟨value seen <<< 8,word p⟩ : Locals).read (word b) = ⟨value (seen ++ [b]) <<< 8,word b⟩ := by
      rw [readPrefix own (wordApart new.symm),key]
    have passed : loop ⟨value (seen ++ [b]) <<< 8,word b⟩ (again ++ (later ++ rest)) =
        loop ⟨value (seen ++ [b]) <<< 8,word b⟩ (later ++ rest) :=
      loopCopies (l := ⟨value (seen ++ [b]) <<< 8,word b⟩) copies (shiftUnfinished _) _
    rw [List.cons_append,loopReal real,first,List.append_assoc,passed,
      ih (fun d hd => marked d (List.mem_cons_of_mem b hd)) chain,List.append_assoc,List.getLastD_cons]
    rfl

theorem codeRead (c : CodeReads) (rest : List Word) :
    FpgaSynth.getKey (c.prefixReads ++ (word c.code.last :: List.replicate c.copies (word c.code.last)) ++
      0 :: rest) = some (value c.code.bytes,rest) := by
  obtain ⟨real,plain⟩ := c.code.plain
  have awake := wordReal real
  have none : (⟨0,0⟩ : Locals) = ⟨value [] <<< 8,word 0⟩ := by decide
  have start : ((0 : Byte) :: c.code.prefixes).IsChain (· ≠ ·) := by
    refine List.IsChain.cons c.code.apart ?_
    intro b head same
    rw [← same] at head
    exact absurd (c.code.marked 0 (List.mem_of_mem_head? head)) (by decide)
  have new : c.code.last ≠ c.code.prefixes.getLastD 0 := by
    intro same
    rcases List.mem_cons.mp (List.getLastD_mem_cons (l := c.code.prefixes) (a := 0)) with zero | marked
    · exact real (same.trans zero)
    · rw [same,c.code.marked _ marked] at plain
      contradiction
  have key : (value c.code.prefixes <<< 8) ||| word c.code.last = value c.code.bytes :=
    (valueShift c.code.prefixes c.code.last).symm
  have valid : validKey (value c.code.bytes) = true := by
    rw [validByte,KeyCode.bytes,valueLow,decide_eq_true_iff]
    exact real
  rw [FpgaSynth.getKey,none,List.append_assoc,prefixesRead c.read c.code.marked start,List.nil_append,
    List.cons_append,loopReal awake,readFinal awake (plainWord plain) (wordApart new),key]
  exact loopLast (l := ⟨value c.code.bytes,word c.code.last⟩) awake valid c.copies rest

/-! ### Whole streams -/

theorem zerosSkipped (zeros : Nat) (rest : List Word) :
    fpgaSynth.calls (List.replicate zeros 0 ++ rest) = fpgaSynth.calls rest := by
  apply callsAlike
  apply loopCopies (l := ⟨0,0⟩)
  · intro x member
    exact .inl (List.eq_of_mem_replicate member)
  · decide

theorem byteReadsDecoded (codes : List CodeReads) :
    (fpgaSynth.calls (stream codes)).map (fun out => (out.1.toNat,out.2)) = decoded codes := by
  induction codes with
  | nil => rfl
  | cons c rest ih =>
    rw [stream,callsReturn (codeRead c _),List.map_cons,zerosSkipped,ih,codeInteger]
    rfl

example : fpgaSynth.calls [0xf0,0,0xf0,0x1c,0x1c,0x1c,0,0] = [(0xf01c,[0])] := by decide

end FpgaSynthesizer.GetKeyBytes
