import FpgaSynthesizer.AudioCodec

/-! What the DAC reads. Between two falls of LRCK_1X the voices stand still, and
each half of the word clock carries the sixteen bits of their sum, the highest
first, one at each rising edge of the bit clock. -/
namespace FpgaSynthesizer.SerialOutput
open Voices hiding Event step run runCons
open AudioCodec WaveGen

def serialWord (sound : Sample) : List Bool := (List.range 16).map (fun j => sound.getLsbD (15-j))

def bitAt (sound : Sample) (t : Nat) : Bool := sound.getLsbD (15 - t/12 % 16)

def half : List Event := List.replicate 192 .clk

theorem clkBank {n : Nat} {c : Codec} (phase : Phase n c) (quiet : (n+1) % 384 ≠ 0) :
    (clk c).bank = c.bank := by
  have before := phaseLrck phase
  have after := phaseLrck (clkPhase phase)
  have still : (c.lrck1x.level && !(clk c).lrck1x.level) = false := by
    simp only [oAudLrck] at before after
    rw [before,after]
    simp only [Bool.and_eq_false_iff,Bool.not_eq_false',decide_eq_false_iff_not,decide_eq_true_iff]
    omega
  simp only [clk] at still ⊢
  rw [still,if_neg Bool.false_ne_true]

theorem clkRise {n : Nat} {c : Codec} (phase : Phase n c) :
    (!oAudBck c && oAudBck (clk c)) = decide ((n+1) % 12 = 6) := by
  rw [phaseBck phase,phaseBck (clkPhase phase),← decide_not,← Bool.decide_and,decide_eq_decide]
  omega

theorem dataBit {n : Nat} {c : Codec} (phase : Phase n c) (pressed : keyPressed c.bank = true) :
    oAudData c = bitAt (soundO c.bank) n := by
  rw [oAudData,if_pos pressed,bitAt,BitVec.toNat_not,phase.selCont]

theorem clkBits {n : Nat} {c : Codec} (phase : Phase n c) (pressed : keyPressed c.bank = true) :
    (if !oAudBck c && oAudBck (clk c) then [oAudData (clk c)] else []) =
      if decide ((n+1) % 12 = 6) = true then [bitAt (soundO c.bank) (n+1)] else [] := by
  rw [clkRise phase]
  by_cases rise : (n+1) % 12 = 6
  · have bank := clkBank phase (by omega)
    rw [dataBit (clkPhase phase) (by rw [bank]; exact pressed),bank]
  · rw [decide_eq_false rise,if_neg Bool.false_ne_true,if_neg Bool.false_ne_true]

theorem risesFrom {n : Nat} {c : Codec} (phase : Phase n c) (pressed : keyPressed c.bank = true) {k : Nat}
    (within : n % 384 + k ≤ 384) :
    bckRises c (List.replicate k .clk) =
      ((List.range' (n+1) k).filter (fun t => t % 12 = 6)).map (bitAt (soundO c.bank)) := by
  induction k generalizing n c with
  | zero => rfl
  | succ k ih =>
    have tail : bckRises (clk c) (List.replicate k .clk) =
        ((List.range' (n+1+1) k).filter (fun t => t % 12 = 6)).map (bitAt (soundO c.bank)) := by
      rcases Nat.eq_zero_or_pos k with rfl | more
      · rfl
      · have bank := clkBank phase (by omega)
        have later := ih (clkPhase phase) (by rw [bank]; exact pressed) (by omega)
        rwa [bank] at later
    rw [List.replicate_succ,bckRises,List.range'_succ,List.filter_cons]
    change (if !oAudBck c && oAudBck (clk c) then [oAudData (clk c)] else []) ++
      bckRises (clk c) (List.replicate k .clk) = _
    rw [clkBits phase pressed,tail]
    split <;> rfl

theorem bankFrom {n : Nat} {c : Codec} (phase : Phase n c) {k : Nat} (within : n % 384 + k < 384) :
    (run c (List.replicate k .clk)).bank = c.bank := by
  induction k generalizing n c with
  | zero => rfl
  | succ k ih =>
    have bank := clkBank phase (by omega)
    have tail := ih (clkPhase phase) (by omega)
    rw [bank] at tail
    exact tail

theorem halfWord (sound : Sample) {n : Nat} (start : n % 192 = 0) :
    ((List.range' (n+1) 192).filter (fun t => t % 12 = 6)).map (bitAt sound) = serialWord sound := by
  have places : (List.range' 1 192).filter (fun t => t % 12 = 6) =
      (List.range 16).map (fun j => 12*j + 6) := by decide
  have shifted : (List.range' 1 192).map (n + ·) = List.range' (n+1) 192 := List.map_add_range' 1 192 1
  have same : ((fun t => decide (t % 12 = 6)) ∘ (n + ·)) = (fun t => decide (t % 12 = 6)) := by
    funext t
    simp only [Function.comp,decide_eq_decide]
    omega
  rw [← shifted,List.filter_map,same,places,List.map_map,List.map_map,serialWord]
  apply List.map_congr_left
  intro j member
  have inside := List.mem_range.mp member
  have place : (n + (12*j + 6))/12 % 16 = j := by omega
  simp only [Function.comp,bitAt,place]

theorem snocClk (c : Codec) (events : List Event) : run c (events ++ [.clk]) = clk (run c events) := by
  rw [run,List.foldl_append]
  rfl

theorem clksReplicate (k : Nat) : clks (List.replicate k .clk) = k := List.count_replicate_self

theorem fallPosition {n : Nat} {c : Codec} (phase : Phase n c) (high : oAudLrck c = true)
    (low : oAudLrck (clk c) = false) : (n+1) % 384 = 0 := by
  rw [phaseLrck phase,decide_eq_true_iff] at high
  rw [phaseLrck (clkPhase phase),decide_eq_false_iff_not] at low
  omega

structure Period (c : Codec) : Prop where
  lowHalf : ∀ k, k < 192 → oAudLrck (run c (List.replicate k .clk)) = false
  highHalf : ∀ k, 192 ≤ k → k < 384 → oAudLrck (run c (List.replicate k .clk)) = true
  ends : oAudLrck (run c (List.replicate 384 .clk)) = false
  lowWord : bckRises c half = serialWord (soundO c.bank)
  highWord : bckRises (run c half) half = serialWord (soundO c.bank)

theorem periodFrom {n : Nat} {c : Codec} (phase : Phase n c) (start : n % 384 = 0)
    (pressed : keyPressed c.bank = true) : Period c := by
  have level := fun k => phaseLrck (runPhase phase (List.replicate k .clk))
  simp only [clksReplicate] at level
  have middle := runPhase phase half
  rw [half,clksReplicate,← half] at middle
  have bank : (run c half).bank = c.bank := bankFrom phase (by omega)
  refine ⟨?_,?_,?_,?_,?_⟩
  · intro k first
    rw [level,decide_eq_false_iff_not]
    omega
  · intro k second inside
    rw [level,decide_eq_true_iff]
    omega
  · rw [level,decide_eq_false_iff_not]
    omega
  · exact (risesFrom phase pressed (by omega)).trans (halfWord _ (by omega))
  · have word := risesFrom middle (by rw [bank]; exact pressed) (k := 192) (by omega)
    rw [bank] at word
    exact word.trans (halfWord _ (by omega))

theorem outputCarriesSamples (bank : Bank) (events : List Event) :
    oAudBck (run (released bank) events) = decide (clks events/6 % 2 = 1) ∧
    oAudLrck (run (released bank) events) = decide (clks events/192 % 2 = 1) ∧
    (run (released bank) events).selCont.toNat = clks events/12 % 16 ∧
    (oAudLrck (run (released bank) events) = true →
      oAudLrck (run (released bank) (events ++ [.clk])) = false →
      keyPressed (run (released bank) (events ++ [.clk])).bank = true →
      Period (run (released bank) (events ++ [.clk]))) := by
  have phase := runPhase (releasedPhase bank) events
  rw [Nat.zero_add] at phase
  refine ⟨phaseBck phase,phaseLrck phase,phase.selCont,?_⟩
  rw [snocClk]
  intro high low pressed
  exact periodFrom (clkPhase phase) (fallPosition phase high low) pressed

theorem clkKeys (c : Codec) : (clk c).bank.keys = c.bank.keys := by
  simp only [clk]
  split
  · rw [fallKeys]
  · rfl

def heldFromReset : Bank := ⟨1,0b0001,restVoices⟩

theorem firstPeriodCarried :
    Period (run (released heldFromReset) (List.replicate 383 .clk ++ [.clk])) := by
  have before := outputCarriesSamples heldFromReset (List.replicate 383 .clk)
  have after := outputCarriesSamples heldFromReset (List.replicate 383 .clk ++ [.clk])
  have count : clks (List.replicate 383 .clk ++ [.clk]) = 384 := by
    have one : List.count Event.clk [.clk] = 1 := rfl
    rw [clks,List.count_append,List.count_replicate_self,one]
  have keys : (run (released heldFromReset) (List.replicate 383 .clk ++ [.clk])).bank.keys = 1 := by
    rw [snocClk,clkKeys,bankFrom (releasedPhase heldFromReset) (by decide)]
    rfl
  apply before.2.2.2
  · rw [before.2.1,clksReplicate]
    decide
  · rw [after.2.1,count]
    decide
  · rw [keyPressed,keys]
    decide

end FpgaSynthesizer.SerialOutput
