import FpgaSynthesizer.GetKeyBytes
import FpgaSynthesizer.Keyboard

/-! The same main under the two versions of get_key. fpga_synth needs a zero between
any two codes; a program that starts a read twice in the time of a byte finds one
after each code, so the two programs then play the same. -/
namespace FpgaSynthesizer.TwoPrograms
open Mailbox PolledMailbox Ps2Delivery Ps2Frames Ps2Board Polling
open GetKey (theSynth fpgaSynth Complete Spaced codes)
open GetKeyBytes (CodeReads)
open Keyboard (keyOf keysSent Plays)
open KeyPath (Read)
open Ps2Ci hiding Word run clock Regs
open ToneProgram (System Word Call call)

/- What get_switches returns is indexed by the iteration. The last get_key may
still be waiting. -/
def mainFrom (getKey : Reader Word Word) (switches : Nat → Word) : Nat → Nat → System → List Word → System
  | 0, n, s, _ => call s (.switches (switches n))
  | fuel+1, n, s, reads =>
    let s := call s (.switches (switches n))
    match getKey.read reads with
    | none => s
    | some (key,rest) => mainFrom getKey switches fuel (n+1) (call s (.key key)) rest

/- No get_key returns without a read. -/
def main (getKey : Reader Word Word) (switches : Nat → Word) (s : System) (reads : List Word) : System :=
  mainFrom getKey switches reads.length 0 s reads

def mainCalls (switches : Nat → Word) (n : Nat) : List Word → List Call
  | [] => [.switches (switches n)]
  | key :: rest => .switches (switches n) :: .key key :: mainCalls switches (n+1) rest

theorem mainFromCalls (getKey : Reader Word Word) (switches : Nat → Word) {fuel : Nat} (n : Nat) (s : System)
    {reads : List Word} (enough : reads.length ≤ fuel) :
    mainFrom getKey switches fuel n s reads = ToneProgram.run s (mainCalls switches n (getKey.values reads)) := by
  induction fuel generalizing n s reads with
  | zero =>
    obtain rfl := List.length_eq_zero_iff.mp (Nat.le_zero.mp enough)
    rw [Reader.values,callsBlock (emptyBlocks getKey)]
    rfl
  | succ fuel ih =>
    simp only [mainFrom]
    cases read : getKey.read reads with
    | none =>
      rw [Reader.values,callsBlock read]
      rfl
    | some out =>
      obtain ⟨key,rest⟩ := out
      have shorter := getKey.progress read
      simp only
      rw [ih (n+1) _ (by omega),valuesReturn read]
      rfl

theorem mainRun (getKey : Reader Word Word) (switches : Nat → Word) (s : System) (reads : List Word) :
    main getKey switches s reads = ToneProgram.run s (mainCalls switches 0 (getKey.values reads)) :=
  mainFromCalls getKey switches 0 s (Nat.le_refl _)

theorem mainKeys (switches : Nat → Word) (n : Nat) (keys : List Word) :
    (mainCalls switches n keys).filterMap keyOf = keys := by
  induction keys generalizing n with
  | nil => rfl
  | cons key rest ih => exact congrArg (List.cons key) (ih (n+1))

theorem mainPlays (getKey : Reader Word Word) (switches : Nat → Word) (reads : List Word) :
    Plays (main getKey switches ToneProgram.powerUp reads) (getKey.values reads) := by
  have plays := Keyboard.callsPlay (mainCalls switches 0 (getKey.values reads))
  rwa [← mainRun,mainKeys] at plays

def found (switches : Word) (reads : List Read) (n : Nat) : Word :=
  (switches :: (reads.filter (fun x => x.key ≠ 0)).map Read.switches).getD n 0

theorem mainCallsLater {early late : Nat → Word} {n m : Nat} (same : ∀ k, early (n+k) = late (m+k))
    (keys : List Word) : mainCalls early n keys = mainCalls late m keys := by
  induction keys generalizing n m with
  | nil => exact congrArg (fun sw => [Call.switches sw]) (same 0)
  | cons key rest ih =>
    have tail : mainCalls early (n+1) rest = mainCalls late (m+1) rest := ih (fun k => by
      have next := same (k+1)
      rwa [Nat.add_comm k 1,← Nat.add_assoc,← Nat.add_assoc] at next)
    rw [mainCalls,mainCalls,tail,← Nat.add_zero n,same 0]
    rfl

theorem loopMainCalls (switches : Word) (reads : List Read) :
    Keyboard.loopCalls switches reads = mainCalls (found switches reads) 0 (codes (reads.map Read.key)) := by
  induction reads generalizing switches with
  | nil => rfl
  | cons x rest ih =>
    have tail := ih x.switches
    rw [Keyboard.loopCalls] at tail
    rw [Keyboard.loopCalls,List.flatMap_cons]
    by_cases zero : x.key = 0
    · have skipped : found switches (x :: rest) = found switches rest := by
        funext n
        simp [found,zero]
      rw [if_pos zero,List.nil_append,← Keyboard.loopCalls,ih,skipped,List.map_cons,zero,GetKey.codesZero]
    · have stays : (x :: rest).filter (fun y => y.key ≠ 0) = x :: rest.filter (fun y => y.key ≠ 0) :=
        List.filter_cons_of_pos (decide_eq_true zero)
      have later : ∀ k, found x.switches rest (0+k) = found switches (x :: rest) (1+k) := by
        intro k
        rw [Nat.zero_add,Nat.add_comm 1 k,found,found,stays]
        rfl
      have kept : codes ((x :: rest).map Read.key) = x.key :: codes (rest.map Read.key) :=
        List.filter_cons_of_pos (decide_eq_true zero)
      rw [if_neg zero,kept,mainCalls,← mainCallsLater later,← tail]
      rfl

theorem loopMain (s : System) (switches : Word) (reads : List Read) :
    KeyPath.mainLoop s switches reads = main theSynth (found switches reads) s (reads.map Read.key) := by
  rw [Keyboard.loopRun,mainRun,GetKey.theSynthCodes,loopMainCalls]

/-! ### The values of ps2_ci -/

theorem splitMember {seen bytes code : List Byte} (marked : ∀ b ∈ seen, isPrefix b = true)
    (member : code ∈ splitFrom isPrefix seen bytes) :
    ∃ prefixes last, code = prefixes ++ [last] ∧ (∀ b ∈ prefixes, isPrefix b = true) ∧
      isPrefix last = false ∧ last ∈ bytes := by
  induction bytes generalizing seen with
  | nil => cases member
  | cons b rest ih =>
    rw [splitFrom] at member
    by_cases pre : isPrefix b = true
    · rw [if_pos pre] at member
      have marked' : ∀ x ∈ seen ++ [b], isPrefix x = true := by
        intro x hx
        rcases List.mem_append.mp hx with earlier | same
        · exact marked x earlier
        · rwa [List.mem_singleton.mp same]
      obtain ⟨prefixes,last,split,all,plain,inside⟩ := ih marked' member
      exact ⟨prefixes,last,split,all,plain,List.mem_cons_of_mem b inside⟩
    · rw [if_neg pre] at member
      rcases List.mem_cons.mp member with rfl | later
      · exact ⟨seen,b,rfl,marked,Bool.not_eq_true _ ▸ pre,List.mem_cons_self⟩
      · obtain ⟨prefixes,last,split,all,plain,inside⟩ := ih (fun x none => by cases none) later
        exact ⟨prefixes,last,split,all,plain,List.mem_cons_of_mem b inside⟩

theorem splitComplete {bytes code : List Byte} (real : ∀ b ∈ bytes, b ≠ 0)
    (member : code ∈ splitFrom isPrefix [] bytes) : Complete (value code) := by
  obtain ⟨prefixes,last,rfl,marked,plain,inside⟩ := splitMember (fun x none => by cases none) member
  exact ⟨prefixes,last,marked,real last inside,plain,rfl⟩

section
variable {r : Ps2Ci.Regs} {inputs : List Inputs}

theorem resultsComplete (idle : r.state = State.zero) (quiet : r.done = false) (silent : r.newByte = false)
    (protocol : Protocol r inputs) (answered : (results r inputs).length = starts inputs)
    (real : ∀ b ∈ bytesOf r inputs, b ≠ 0) : ∀ x ∈ results r inputs, x = 0 ∨ Complete x := by
  intro x member
  by_cases zero : x = 0
  · exact .inl zero
  · have kept : x ∈ (results r inputs).filter (· ≠ 0) := List.mem_filter.mpr ⟨member,decide_eq_true zero⟩
    rw [nonzeroResults idle quiet silent protocol answered] at kept
    obtain ⟨d,hd,rfl⟩ := List.mem_map.mp (List.mem_filter.mp kept).1
    have code : d.code ∈ codesOf r inputs := (deliverSublist _ _ _).subset (List.mem_map_of_mem hd)
    have cut : d.code.bytes ∈ splitFrom isPrefix [] (bytesOf r inputs) := by
      rw [bytesOf,← codesSplit isPrefix 0]
      exact List.mem_map_of_mem code
    exact .inr (splitComplete real cut)

theorem resultsSpaced (idle : r.state = State.zero) (quiet : r.done = false) (silent : r.newByte = false)
    (protocol : Protocol r inputs) (answered : (results r inputs).length = starts inputs) {gap : Nat}
    (apart : Apart (2*gap+1) (cyclesOf r inputs)) (polled : Polled gap (cyclesOf r inputs))
    (outlasts : Outlasts (2*gap+1) (cyclesOf r inputs)) :
    Spaced (results r inputs) ∧ ∀ x ∈ (results r inputs).getLast?, x = 0 := by
  have exchanged : (exchanges isPrefix 0 (.waiting []) (cyclesOf r inputs)).IsChain
      (fun x y => x.2 = none ∨ y.2 = none) ∧
      ∀ e ∈ (exchanges isPrefix 0 (.waiting []) (cyclesOf r inputs)).getLast?, e.2 = none :=
    exchangesSpaced apart polled outlasts
  obtain ⟨spaced,ended⟩ := exchanged
  rw [runExchanges idle quiet silent protocol answered,Spaced,List.isChain_map]
  refine ⟨spaced.imp fun x y none => ?_,?_⟩
  · rcases none with first | second
    · exact .inl (congrArg answer first)
    · exact .inr (congrArg answer second)
  · intro x last
    rw [List.getLast?_map] at last
    obtain ⟨e,final,rfl⟩ := Option.map_eq_some_iff.mp last
    exact congrArg answer (ended e final)

theorem bothRead (idle : r.state = State.zero) (quiet : r.done = false) (silent : r.newByte = false)
    (protocol : Protocol r inputs) (answered : (results r inputs).length = starts inputs)
    (real : ∀ b ∈ bytesOf r inputs, b ≠ 0) {gap : Nat} (apart : Apart (2*gap+1) (cyclesOf r inputs))
    (polled : Polled gap (cyclesOf r inputs)) (outlasts : Outlasts (2*gap+1) (cyclesOf r inputs)) :
    fpgaSynth.values (results r inputs) = codes (results r inputs) := by
  have complete := resultsComplete idle quiet silent protocol answered real
  obtain ⟨spaced,ended⟩ := resultsSpaced idle quiet silent protocol answered apart polled outlasts
  rcases List.eq_nil_or_concat' (results r inputs) with none | ⟨init,x,split⟩
  · rw [none]
    rfl
  · have zero : x = 0 := ended x (by rw [split,List.getLast?_concat]; rfl)
    rw [zero] at split
    rw [split] at complete spaced
    have agree := GetKey.agreeSpaced (fun y hy => complete y (List.mem_append_left [0] hy))
    have same : codes (init ++ [0]) = codes init := by simp [codes]
    rw [split,GetKey.returnedStart,same]
    exact agree.1.mpr spaced

end

/-! ### From the wires -/

theorem apartLess {few many : Nat} (less : few ≤ many) {cycles : List (ClockCycle Byte)} (apart : Apart many cycles) :
    Apart few cycles := by
  intro i j before byte byte'
  have far := apart i j before byte byte'
  omega

theorem polledMore {few many : Nat} (more : few ≤ many) {cycles : List (ClockCycle Byte)} (polled : Polled few cycles) :
    Polled many cycles := by
  intro n inside
  obtain ⟨m,after,before,start⟩ := polled n (by omega)
  exact ⟨m,after,by omega,start⟩

section
variable {frames : List Frame} {rest : List Bool} {r : Ps2Board.Regs} {pins : List Pins}

theorem wiresBoth (slow : ∀ f ∈ frames, SlowFrame f) (real : ∀ f ∈ frames, f.byte ≠ 0) (ended : 12290 ≤ rest.length)
    (idle : Idle r) (zero : r.ci.state = State.zero) (quiet : r.ci.done = false)
    (lines : pins.map Pins.sample = transmission frames rest) (protocol : Protocol r.ci (shows r pins))
    (answered : (results r.ci (shows r pins)).length = starts (shows r pins))
    (polled : Polled 5631 (cycles r pins)) :
    fpgaSynth.values (results r.ci (shows r pins)) = codes (results r.ci (shows r pins)) := by
  have bytes : ∀ b ∈ bytesOf r.ci (shows r pins), b ≠ 0 := by
    rw [framesReach slow (by omega) idle lines]
    intro b member
    obtain ⟨f,own,rfl⟩ := List.mem_map.mp member
    exact real f own
  have apart : Apart (2*5631+1) (cycles r pins) := apartLess (by decide) (bytesApart idle pins)
  exact bothRead zero quiet idle.silent protocol answered bytes apart polled
    (Keyboard.framesOutlast slow (by omega) idle lines)

theorem programsAgree (slow : ∀ f ∈ frames, SlowFrame f) (real : ∀ f ∈ frames, f.byte ≠ 0)
    (ended : 12290 ≤ rest.length) (idle : Idle r) (zero : r.ci.state = State.zero) (quiet : r.ci.done = false)
    (lines : pins.map Pins.sample = transmission frames rest) (protocol : Protocol r.ci (shows r pins))
    (answered : (results r.ci (shows r pins)).length = starts (shows r pins))
    (polled : Polled 5631 (cycles r pins)) (switches : Nat → Word) :
    (∀ s, main fpgaSynth switches s (results r.ci (shows r pins)) =
      main theSynth switches s (results r.ci (shows r pins))) ∧
    Plays (main fpgaSynth switches ToneProgram.powerUp (results r.ci (shows r pins)))
      (keysSent (frames.map Frame.byte)) ∧
    ∀ others, Plays (main theSynth others ToneProgram.powerUp (results r.ci (shows r pins)))
      (keysSent (frames.map Frame.byte)) := by
  have both := wiresBoth slow real ended idle zero quiet lines protocol answered polled
  have sent : codes (results r.ci (shows r pins)) = keysSent (frames.map Frame.byte) :=
    Keyboard.wiresRead slow ended idle zero quiet lines protocol answered (polledMore (by decide) polled)
  refine ⟨?_,?_,?_⟩
  · intro s
    rw [mainRun,mainRun,both,GetKey.theSynthCodes]
  · have plays := mainPlays fpgaSynth switches (results r.ci (shows r pins))
    rwa [both,sent] at plays
  · intro others
    have plays := mainPlays theSynth others (results r.ci (shows r pins))
    rwa [GetKey.theSynthCodes,sent] at plays

end

def watched : List Pins := Keyboard.polling 5000 (transmission [shortest] (List.replicate 12290 true))

theorem watchedLines : watched.map Pins.sample = transmission [shortest] (List.replicate 12290 true) :=
  Keyboard.pollingSample 5000 _

theorem watchedProtocol : Protocol powerUp.ci (shows powerUp watched) :=
  SpacedStarts.spacedProtocol rfl rfl rfl (Keyboard.pollingSpaced powerUp (by decide) _)

theorem watchedAnswered :
    (results powerUp.ci (shows powerUp watched)).length = starts (shows powerUp watched) := by
  have enough : 2 ≤ (shows powerUp watched).length := by
    have same := congrArg List.length (Keyboard.showsStart powerUp watched)
    rw [List.length_map,List.length_map] at same
    rw [same,← List.length_map (f := Pins.sample),watchedLines,Keyboard.pressedTime]
    decide
  exact SpacedStarts.settlesAnswered rfl rfl rfl watchedProtocol
    (Keyboard.pollingSettles powerUp Keyboard.pressedTime (by decide) (by decide)) enough

theorem watchedPlays :
    main fpgaSynth (fun n => BitVec.ofNat 32 n) ToneProgram.powerUp (results powerUp.ci (shows powerUp watched)) =
      main theSynth (fun n => BitVec.ofNat 32 n) ToneProgram.powerUp (results powerUp.ci (shows powerUp watched)) ∧
    Plays (main fpgaSynth (fun n => BitVec.ofNat 32 n) ToneProgram.powerUp
      (results powerUp.ci (shows powerUp watched))) (keysSent [0x1c]) ∧
    Plays (main theSynth (fun _ => 1) ToneProgram.powerUp
      (results powerUp.ci (shows powerUp watched))) (keysSent [0x1c]) := by
  obtain ⟨same,plays,others⟩ := programsAgree Keyboard.pressedSlow (by decide)
    (Nat.le_of_eq List.length_replicate.symm) powerUpIdle rfl rfl watchedLines watchedProtocol watchedAnswered
    (Keyboard.pollingPolled powerUp (by decide) (by decide) _) (fun n => BitVec.ofNat 32 n)
  exact ⟨same ToneProgram.powerUp,plays,others fun _ => 1⟩

/-! ### Codes read byte by byte -/

theorem streamValues (sent : List CodeReads) :
    fpgaSynth.values (GetKeyBytes.stream sent) = sent.map (fun c => value c.code.bytes) := by
  induction sent with
  | nil => rfl
  | cons c rest ih =>
    rw [GetKeyBytes.stream,valuesReturn (GetKeyBytes.codeRead c _),Reader.values,GetKeyBytes.zerosSkipped,List.map_cons]
    exact congrArg (List.cons _) ih

theorem bytesPlayed (sent : List CodeReads) (whole : List Word)
    (reads : codes whole = sent.map (fun c => value c.code.bytes)) (switches : Nat → Word) (s : System) :
    main fpgaSynth switches s (GetKeyBytes.stream sent) = main theSynth switches s whole := by
  rw [mainRun,mainRun,streamValues,GetKey.theSynthCodes,reads]

def released : GetKeyBytes.KeyCode := ⟨[0xf0],0x1c,by decide,List.isChain_singleton _,by decide,by decide⟩

theorem releasedPrefix : GetKeyBytes.PrefixReads released.prefixes [0xf0,0,0xf0] := by
  have copies : ∀ x ∈ [(0 : Word),0xf0], x = 0 ∨ x = GetKeyBytes.word 0xf0 := by
    intro x member
    rcases List.mem_pair.mp member with zero | again
    · exact .inl zero
    · exact .inr again
  exact .cons copies .nil

def releasedReads : CodeReads := ⟨released,[0xf0,0,0xf0],releasedPrefix,2,1⟩

theorem releasedPlayed :
    main fpgaSynth (fun _ => 0) ToneProgram.powerUp [0xf0,0,0xf0,0x1c,0x1c,0x1c,0,0] =
      main theSynth (fun _ => 0) ToneProgram.powerUp [0,0xf01c] :=
  bytesPlayed [releasedReads] [0,0xf01c] (by decide) (fun _ => 0) ToneProgram.powerUp

end FpgaSynthesizer.TwoPrograms
