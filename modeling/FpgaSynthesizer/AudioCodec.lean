import FpgaSynthesizer.ClockDivider
import FpgaSynthesizer.Voices

/-! audio_codec: the bit clock and the word clock divided from iCLK_18_4, the bit
selector on the falling edge of the bit clock, and the serial data. Keys and
effects change between two edges of iCLK_18_4, at any time. -/
namespace FpgaSynthesizer.AudioCodec
open ClockDivider Voices

def refClk : Nat := 18432000
def sampleRate : Nat := 48000
def dataWidth : Nat := 16
def channelNum : Nat := 2

def bckLimit : Nat := refClk/(sampleRate*dataWidth*channelNum*2) - 1
def lrck1xLimit : Nat := refClk/(sampleRate*2) - 1

structure Codec where
  bck : Divider 4
  lrck1x : Divider 9
  selCont : BitVec 4
  bank : Bank
  deriving DecidableEq, Repr

inductive Event where
  | clk
  | keys (keys : BitVec numNotes)
  | effects (effects : BitVec 18)
  deriving DecidableEq, Repr

def oAudBck (c : Codec) : Bool := c.bck.level

def oAudLrck (c : Codec) : Bool := c.lrck1x.level

def keyPressed (b : Bank) : Bool := b.keys ≠ 0

def oAudData (c : Codec) : Bool :=
  if keyPressed c.bank then (soundO c.bank).getLsbD (~~~c.selCont).toNat else false

/- Reset clears the dividers and the selector, and no ramp. -/
def released (bank : Bank) : Codec := ⟨cleared,cleared,0,bank⟩

def clk (c : Codec) : Codec :=
  let bck := tick bckLimit c.bck
  let lrck1x := tick lrck1xLimit c.lrck1x
  {bck := bck
   lrck1x := lrck1x
   selCont := if c.bck.level && !bck.level then c.selCont + 1 else c.selCont
   bank := if c.lrck1x.level && !lrck1x.level then Voices.step c.bank .lrckFall else c.bank}

def step (c : Codec) : Event → Codec
  | .clk => clk c
  | .keys keys => {c with bank := Voices.step c.bank (.keys keys)}
  | .effects effects => {c with bank := Voices.step c.bank (.effects effects)}

def run (c : Codec) (events : List Event) : Codec := events.foldl step c

def clks (events : List Event) : Nat := events.count .clk

def bckRises (c : Codec) : List Event → List Bool
  | [] => []
  | e :: rest =>
    (if !oAudBck c && oAudBck (step c e) then [oAudData (step c e)] else []) ++ bckRises (step c e) rest

/-! ### The three counters stay in phase -/

structure Phase (n : Nat) (c : Codec) : Prop where
  bck : At bckLimit n c.bck
  lrck1x : At lrck1xLimit n c.lrck1x
  selCont : c.selCont.toNat = n/12 % 16

theorem releasedPhase (bank : Bank) : Phase 0 (released bank) :=
  ⟨clearedAt bckLimit,clearedAt lrck1xLimit,rfl⟩

theorem phaseBck {n : Nat} {c : Codec} (phase : Phase n c) : oAudBck c = decide (n/6 % 2 = 1) :=
  phase.bck.level

theorem phaseLrck {n : Nat} {c : Codec} (phase : Phase n c) : oAudLrck c = decide (n/192 % 2 = 1) :=
  phase.lrck1x.level

theorem clkPhase {n : Nat} {c : Codec} (phase : Phase n c) : Phase (n+1) (clk c) := by
  have bck := tickAt (by decide) phase.bck
  refine ⟨bck,tickAt (by decide) phase.lrck1x,?_⟩
  have before : c.bck.level = decide (n/6 % 2 = 1) := phase.bck.level
  have after : (tick bckLimit c.bck).level = decide ((n+1)/6 % 2 = 1) := bck.level
  have count := phase.selCont
  have next : (c.selCont + 1).toNat = (c.selCont.toNat + 1) % 16 := by simp [BitVec.toNat_add]
  simp only [clk,before,after]
  by_cases fell : n/6 % 2 = 1 ∧ ¬ (n+1)/6 % 2 = 1
  · rw [decide_eq_true fell.1,decide_eq_false fell.2,Bool.not_false,Bool.and_true,if_pos rfl,next,count]
    omega
  · have still : (decide (n/6 % 2 = 1) && !decide ((n+1)/6 % 2 = 1)) = false := by
      simpa using fell
    rw [still,if_neg Bool.false_ne_true,count]
    omega

theorem stepPhase {n : Nat} {c : Codec} (phase : Phase n c) (e : Event) :
    Phase (n + clks [e]) (step c e) := by
  cases e with
  | clk => exact clkPhase phase
  | keys keys => exact ⟨phase.bck,phase.lrck1x,phase.selCont⟩
  | effects effects => exact ⟨phase.bck,phase.lrck1x,phase.selCont⟩

theorem runPhase {n : Nat} {c : Codec} (phase : Phase n c) (events : List Event) :
    Phase (n + clks events) (run c events) := by
  induction events generalizing n c with
  | nil => exact phase
  | cons e rest ih =>
    have tail := ih (stepPhase phase e)
    have count : clks (e :: rest) = clks [e] + clks rest := by
      simp only [clks,List.count_cons,List.count_nil]
      omega
    rwa [count,← Nat.add_assoc]

end FpgaSynthesizer.AudioCodec
