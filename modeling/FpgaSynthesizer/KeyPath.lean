import FpgaSynthesizer.Ps2Delivery
import FpgaSynthesizer.ToneAgreement

/-! From the keyboard's bytes to tones_status. The main loop reads ps2_ci until a
read is not zero; nothing between the two holds more than the one code that the
NEW state keeps, so the last code of a key counts when the loop reads it. -/
namespace FpgaSynthesizer.KeyPath
open Mailbox Ps2Delivery ToneProgram ToneCalls ToneAgreement
open Ps2Ci hiding Word run
open SynthCi (Opcode)

/- A read of get_key and the switches that the next iteration of main finds. -/
structure Read where
  key : Word
  switches : Word
  deriving DecidableEq, Repr

def getKey (s : System) (x : Read) : System :=
  if x.key = 0 then s else call (call s (.key x.key)) (.switches x.switches)

def mainLoop (s : System) (switches : Word) (reads : List Read) : System :=
  reads.foldl getKey (call s (.switches switches))

def noteKeys : Vector Word numRelTones :=
  #v[Key.A,Key.W,Key.S,Key.D,Key.R,Key.F,Key.T,Key.G,Key.H,Key.U,Key.J,Key.I,Key.K,Key.O,Key.L,
     Key.OE,Key.AA,Key.AE]

def scanCode (i : Fin numRelTones) : Byte := (noteKeys.get i).setWidth 8

structure NoteCode where
  key : Fin numRelTones
  make : Bool
  deriving DecidableEq, Repr

def NoteCode.bytes (c : NoteCode) : List Byte := if c.make then [scanCode c.key] else [0xf0,scanCode c.key]

theorem scanCodePlain (i : Fin numRelTones) : isPrefix (scanCode i) = false := by
  revert i
  decide

theorem noteSplit (codes : List NoteCode) :
    splitFrom isPrefix [] (codes.flatMap NoteCode.bytes) = codes.map NoteCode.bytes := by
  induction codes with
  | nil => rfl
  | cons c rest ih =>
    have plain := scanCodePlain c.key
    cases h : c.make with
    | true => simp [NoteCode.bytes,h,splitFrom,plain,ih]
    | false =>
      have breakPrefix : isPrefix 0xf0 = true := rfl
      simp only [List.flatMap_cons,List.map_cons,NoteCode.bytes,h,Bool.false_eq_true,if_false,
        List.cons_append,List.nil_append,splitFrom,breakPrefix,if_true,plain]
      exact congrArg _ ih

theorem noteValue (c : NoteCode) : value c.bytes ≠ 0 ∧ ¬ OctaveKey (value c.bytes) ∧
    keyToRelTone (value c.bytes &&& 0xff) = c.key ∧
    keyOpcode (value c.bytes) = (if c.make then Opcode.keyOn else Opcode.keyOff) := by
  obtain ⟨key,make⟩ := c
  revert make key
  decide

theorem bytesOwn {c d : NoteCode} (same : c.bytes = d.bytes) : c = d := by
  obtain ⟨_,_,key,opcode⟩ := noteValue c
  obtain ⟨_,_,key',opcode'⟩ := noteValue d
  rw [same] at key opcode
  have tone : c.key = d.key := Fin.ext (Int.ofNat.inj (key.symm.trans key'))
  have make : c.make = d.make := by
    have both := opcode.symm.trans opcode'
    revert both
    cases c.make <;> cases d.make <;> decide
  cases c
  cases d
  cases tone
  cases make
  rfl

def pressed (status : Vector Int numRelTones) (c : NoteCode) : Vector Int numRelTones :=
  status.set c.key (if c.make then 1 else 0)

theorem noteRead (s : System) (c : NoteCode) (sw : Word) :
    (getKey s ⟨value c.bytes,sw⟩).statics.tonesStatus = pressed s.statics.tonesStatus c := by
  obtain ⟨real,note,tone,opcode⟩ := noteValue c
  rw [getKey,if_neg real,switchesKeep]
  have handled : (handleKey s.statics (value c.bytes)).1 =
      press s.statics c.key (keyOpcode (value c.bytes)) := by
    have update := updateNote s.statics c.key (keyOpcode (value c.bytes)) note
    rw [← tone] at update
    exact congrArg Prod.fst update
  simp only [call,handle,handled,press,opcode,pressed]
  cases c.make <;> rfl

theorem readsStatus {s : System} {reads : List Read} {codes : List NoteCode}
    (keys : (reads.map Read.key).filter (· ≠ 0) = codes.map (fun c => value c.bytes)) :
    (reads.foldl getKey s).statics.tonesStatus = codes.foldl pressed s.statics.tonesStatus := by
  induction reads generalizing s codes with
  | nil =>
    cases codes with
    | nil => rfl
    | cons c rest => cases keys
  | cons x reads ih =>
    obtain ⟨key,sw⟩ := x
    by_cases zero : key = 0
    · have idle : getKey s ⟨key,sw⟩ = s := if_pos zero
      rw [List.foldl_cons,idle]
      exact ih (by simpa [zero] using keys)
    · rw [List.map_cons,List.filter_cons,if_pos (by simpa using zero)] at keys
      cases codes with
      | nil => cases keys
      | cons c rest =>
        obtain ⟨head,tail⟩ := List.cons.inj keys
        subst head
        rw [List.foldl_cons,List.foldl_cons,ih tail,noteRead]

theorem pressedOther {status : Vector Int numRelTones} {codes : List NoteCode} {i : Fin numRelTones}
    (others : ∀ c ∈ codes, c.key ≠ i) : (codes.foldl pressed status).get i = status.get i := by
  induction codes generalizing status with
  | nil => rfl
  | cons c rest ih =>
    have apart : c.key ≠ i := others c List.mem_cons_self
    rw [List.foldl_cons,ih (fun d hd => others d (List.mem_cons_of_mem c hd)),pressed,statusSet,
      if_neg apart]

theorem pressedLast (status : Vector Int numRelTones) (first : List NoteCode) (c : NoteCode)
    {last : List NoteCode} (others : ∀ x ∈ last, x.key ≠ c.key) :
    ((first ++ c :: last).foldl pressed status).get c.key = 1 ↔ c.make = true := by
  rw [List.foldl_append,List.foldl_cons,pressedOther others]
  rw [pressed,statusSet,if_pos rfl]
  cases c.make <;> decide

theorem sublistAround {α : Type} {part before after : List α} {k : α}
    (sub : part.Sublist (before ++ k :: after)) (member : k ∈ part) (fresh : k ∉ before)
    (single : k ∉ after) :
    ∃ first last, part = first ++ k :: last ∧ first.Sublist before ∧ last.Sublist after := by
  obtain ⟨first,rest,rfl,hfirst,hrest⟩ := List.sublist_append_iff.mp sub
  have own : k ∈ rest := (List.mem_append.mp member).resolve_left (fun h => fresh (hfirst.subset h))
  rcases List.sublist_cons_iff.mp hrest with skipped | ⟨last,rfl,hlast⟩
  · exact absurd (skipped.subset own) single
  · exact ⟨first,last,rfl,hfirst,hlast⟩

theorem indexSplit {α : Type} {xs : List α} {n : Nat} {x : α} (place : xs[n]? = some x) :
    ∃ before after, xs = before ++ x :: after ∧ before.length = n := by
  obtain ⟨inside,own⟩ := List.getElem?_eq_some_iff.mp place
  refine ⟨xs.take n,xs.drop (n+1),?_,List.length_take_of_le (Nat.le_of_lt inside)⟩
  rw [← own,← List.drop_eq_getElem_cons inside,List.take_append_drop]

/-! ### Runs that carry whole note codes -/

def Delivered (r : Regs) (inputs : List Inputs) (n : Nat) : Prop :=
  ∃ d ∈ deliveries r inputs, (codesOf r inputs)[n]? = some d.code

theorem codesSent {r : Regs} {inputs : List Inputs} {codes : List NoteCode}
    (sent : bytesOf r inputs = codes.flatMap NoteCode.bytes) :
    (codesOf r inputs).map Code.bytes = codes.map NoteCode.bytes := by
  rw [codesOf,codesSplit]
  exact (congrArg _ sent).trans (noteSplit codes)

theorem codeAt {r : Regs} {inputs : List Inputs} {before after : List NoteCode} {c : NoteCode}
    (sent : bytesOf r inputs = (before ++ c :: after).flatMap NoteCode.bytes) :
    ∃ earlier k later, codesOf r inputs = earlier ++ k :: later ∧
      (codesOf r inputs)[before.length]? = some k ∧
      earlier.map Code.bytes = before.map NoteCode.bytes ∧ k.bytes = c.bytes ∧
      later.map Code.bytes = after.map NoteCode.bytes := by
  have bytes := codesSent sent
  rw [List.map_append] at bytes
  obtain ⟨earlier,rest,split,hearlier,hrest⟩ := List.map_eq_append_iff.mp bytes
  obtain ⟨k,later,rfl,hk,hlater⟩ := List.map_eq_cons_iff.mp hrest
  have size : earlier.length = before.length := by simpa using congrArg List.length hearlier
  refine ⟨earlier,k,later,split,?_,hearlier,hk,hlater⟩
  rw [split,← size,List.getElem?_append_right (Nat.le_refl _),Nat.sub_self]
  rfl

theorem notesOf {r : Regs} {inputs : List Inputs} {codes : List NoteCode} {part : List (Code Byte)}
    (sent : bytesOf r inputs = codes.flatMap NoteCode.bytes) (sub : part.Sublist (codesOf r inputs)) :
    ∃ notes : List NoteCode, part.map Code.bytes = notes.map NoteCode.bytes := by
  have bytes := sub.map Code.bytes
  rw [codesSent sent] at bytes
  obtain ⟨notes,_,same⟩ := List.sublist_map_iff.mp bytes
  exact ⟨notes,same⟩

theorem noteAt {r : Regs} {inputs : List Inputs} {codes : List NoteCode} {m : Nat} {k : Code Byte} {x : NoteCode}
    (sent : bytesOf r inputs = codes.flatMap NoteCode.bytes) (place : (codesOf r inputs)[m]? = some k)
    (bytes : k.bytes = x.bytes) : codes[m]? = some x := by
  have same := congrArg (fun xs => xs[m]?) (codesSent sent)
  simp only [List.getElem?_map,place,Option.map_some] at same
  obtain ⟨y,here,own⟩ := Option.map_eq_some_iff.mp same.symm
  rw [here,bytesOwn (own.trans bytes)]

theorem notesDelivered {r : Regs} {inputs : List Inputs} {codes : List NoteCode} {part : List (Code Byte)}
    {notes : List NoteCode} (sent : bytesOf r inputs = codes.flatMap NoteCode.bytes)
    (served : ∀ k ∈ part, k ∈ (deliveries r inputs).map Delivery.code)
    (bytes : part.map Code.bytes = notes.map NoteCode.bytes) {x : NoteCode} (member : x ∈ notes) :
    ∃ k ∈ part, ∀ m, (codesOf r inputs)[m]? = some k → codes[m]? = some x ∧ Delivered r inputs m := by
  have own : x.bytes ∈ part.map Code.bytes := by
    rw [bytes]
    exact List.mem_map_of_mem member
  obtain ⟨k,inside,same⟩ := List.mem_map.mp own
  refine ⟨k,inside,?_⟩
  intro m place
  obtain ⟨d,hd,code⟩ := List.mem_map.mp (served k inside)
  exact ⟨noteAt sent place same,⟨d,hd,by rw [place,code]⟩⟩

theorem deliveredSublist (r : Regs) (inputs : List Inputs) :
    ((deliveries r inputs).map Delivery.code).Sublist (codesOf r inputs) := deliverSublist _ _ _

theorem deliveredAround {r : Regs} {inputs : List Inputs} {before after : List NoteCode} {c : NoteCode}
    (sent : bytesOf r inputs = (before ++ c :: after).flatMap NoteCode.bytes)
    (delivered : Delivered r inputs before.length) :
    ∃ first last : List NoteCode,
      (deliveries r inputs).map (fun d => d.code.bytes) = (first ++ c :: last).map NoteCode.bytes ∧
      ∀ x ∈ last, ∃ m, before.length < m ∧ (before ++ c :: after)[m]? = some x ∧ Delivered r inputs m := by
  obtain ⟨d,hd,position⟩ := delivered
  obtain ⟨earlier,k,later,split,place,hearlier,hk,_⟩ := codeAt sent
  have own : d.code = k := Option.some.inj (position.symm.trans place)
  subst own
  have order := codesIncrease isPrefix 0 [] (cyclesOf r inputs)
  rw [← codesOf,split,List.pairwise_append,List.pairwise_cons] at order
  have fresh : d.code ∉ earlier :=
    fun h => Nat.lt_irrefl _ (order.2.2 d.code h d.code List.mem_cons_self)
  have single : d.code ∉ later := fun h => Nat.lt_irrefl _ (order.2.1.1 d.code h)
  have sub := deliveredSublist r inputs
  rw [split] at sub
  obtain ⟨p,q,parts,hp,hq⟩ := sublistAround sub (List.mem_map_of_mem hd) fresh single
  have wholly := deliveredSublist r inputs
  rw [parts] at wholly
  obtain ⟨first,hfirst⟩ := notesOf sent ((List.sublist_append_left p _).trans wholly)
  obtain ⟨last,hlast⟩ :=
    notesOf sent (((List.sublist_cons_self d.code q).trans (List.sublist_append_right p _)).trans wholly)
  refine ⟨first,last,?_,?_⟩
  · have whole := congrArg (List.map Code.bytes) parts
    rw [List.map_map,List.map_append,List.map_cons,hfirst,hlast,hk] at whole
    rw [List.map_append,List.map_cons]
    exact whole
  · intro x member
    have served : ∀ k ∈ q, k ∈ (deliveries r inputs).map Delivery.code := by
      intro k inside
      rw [parts]
      exact List.mem_append_right _ (List.mem_cons_of_mem _ inside)
    obtain ⟨k,inside,shown⟩ := notesDelivered sent served hlast member
    obtain ⟨j,here⟩ := List.getElem?_of_mem (hq.subset inside)
    have size : earlier.length = before.length := by simpa using congrArg List.length hearlier
    have at' : (codesOf r inputs)[before.length + (j+1)]? = some k := by
      rw [split,← size,List.getElem?_append_right (Nat.le_add_right _ _),Nat.add_sub_cancel_left]
      exact here
    exact ⟨before.length + (j+1),by omega,shown _ at'⟩

theorem deliveredRead {r : Regs} (idle : r.state = State.zero) (quiet : r.done = false)
    (silent : r.newByte = false) {inputs : List Inputs} (protocol : Protocol r inputs)
    (answered : (results r inputs).length = starts inputs) {codes : List NoteCode}
    (delivered : (deliveries r inputs).map (fun d => d.code.bytes) = codes.map NoteCode.bytes) :
    (results r inputs).filter (· ≠ 0) = codes.map (fun c => value c.bytes) := by
  have values := congrArg (List.map value) delivered
  rw [List.map_map,List.map_map] at values
  have real : ∀ v ∈ codes.map (fun c => value c.bytes), decide (v ≠ 0) = true := by
    intro v hv
    obtain ⟨c,_,rfl⟩ := List.mem_map.mp hv
    exact decide_eq_true (noteValue c).1
  rw [nonzeroResults idle quiet silent protocol answered]
  exact (congrArg _ values).trans (List.filter_eq_self.mpr real)

theorem lastDelivered {r : Regs} (idle : r.state = State.zero) (quiet : r.done = false)
    (silent : r.newByte = false) {inputs : List Inputs} (protocol : Protocol r inputs)
    (answered : (results r inputs).length = starts inputs) {before : List NoteCode} {c : NoteCode}
    (sent : bytesOf r inputs = (before ++ [c]).flatMap NoteCode.bytes) {x : Nat × Ps2Ci.Word}
    (member : x ∈ (startsOf r inputs).zip (results r inputs)) (zero : x.2 = 0)
    (after : ∀ k ∈ codesOf r inputs, k.completed < x.1) : Delivered r inputs before.length := by
  obtain ⟨earlier,k,later,split,position,_,_,hlater⟩ := codeAt sent
  obtain rfl : later = [] := List.map_eq_nil_iff.mp hlater
  have own : k ∈ codesOf r inputs := List.mem_of_getElem? position
  have start : x.1 ∈ startsOf r inputs := (List.of_mem_zip member).1
  have whole : (splitFrom isPrefix [] (bytesOf r inputs)).flatten = [] ++ bytesOf r inputs := by
    rw [sent,noteSplit,List.flatMap_def,List.nil_append]
  have stays : k.last = 0 + (cyclesOf r inputs).length := lastCodeOpen whole split
  by_contra lost
  have unserved : k ∉ (deliveries r inputs).map Delivery.code := by
    intro served
    obtain ⟨d,hd,code⟩ := List.mem_map.mp served
    exact lost ⟨d,hd,by rw [position,code]⟩
  have closes : x.1 ≤ k.last := by
    have within := startsWithin x.1 start
    omega
  have opened := Nat.le_of_lt (after k own)
  obtain ⟨d,hd,taken⟩ := (deliverLost [] own unserved start opened closes).resolve_left List.not_mem_nil
  rcases startAnswer idle quiet silent protocol answered member with ⟨e,he,_,value⟩ | ⟨free,_⟩
  · have code : e.code ∈ codesOf r inputs :=
      (deliverSublist _ _ _).subset (List.mem_map_of_mem he)
    have note : e.code.bytes ∈ (before ++ [c]).map NoteCode.bytes := by
      rw [← codesSent sent]
      exact List.mem_map_of_mem code
    obtain ⟨n,_,hn⟩ := List.mem_map.mp note
    rw [← hn,zero] at value
    exact (noteValue n).1 value.symm
  · exact free d hd taken

theorem lastDeliveredCodeDecides {r : Regs} (idle : r.state = State.zero) (quiet : r.done = false)
    (silent : r.newByte = false) (inputs : List Inputs) (protocol : Protocol r inputs)
    (answered : (results r inputs).length = starts inputs) (codes : List NoteCode)
    (sent : bytesOf r inputs = codes.flatMap NoteCode.bytes) (s : System) (switches : Word)
    (reads : List Read) (read : reads.map Read.key = results r inputs) :
    (∀ n c, codes[n]? = some c → Delivered r inputs n →
      (∀ m x, n < m → codes[m]? = some x → x.key = c.key → ¬ Delivered r inputs m) →
      ((mainLoop s switches reads).statics.tonesStatus.get c.key = 1 ↔ c.make = true)) ∧
    (∀ i, (∀ n c, codes[n]? = some c → c.key = i → ¬ Delivered r inputs n) →
      (mainLoop s switches reads).statics.tonesStatus.get i = s.statics.tonesStatus.get i) ∧
    (∀ before c, codes = before ++ [c] →
      (∃ x ∈ (startsOf r inputs).zip (results r inputs),
        x.2 = 0 ∧ ∀ k ∈ codesOf r inputs, k.completed < x.1) →
      Delivered r inputs before.length) := by
  have status : ∀ notes : List NoteCode,
      (deliveries r inputs).map (fun d => d.code.bytes) = notes.map NoteCode.bytes →
      (mainLoop s switches reads).statics.tonesStatus = notes.foldl pressed s.statics.tonesStatus := by
    intro notes parts
    have keys := deliveredRead idle quiet silent protocol answered parts
    rw [← read] at keys
    rw [mainLoop,readsStatus keys,switchesKeep]
  refine ⟨?_,?_,?_⟩
  · intro n c place delivered last
    obtain ⟨before,after,rfl,rfl⟩ := indexSplit place
    obtain ⟨first,rest,parts,later⟩ := deliveredAround sent delivered
    rw [status _ parts]
    refine pressedLast _ first c ?_
    intro x member key
    obtain ⟨m,beyond,here,read⟩ := later x member
    exact last m x beyond here key read
  · intro i none
    have sub := deliveredSublist r inputs
    obtain ⟨notes,bytes⟩ := notesOf sent sub
    have parts : (deliveries r inputs).map (fun d => d.code.bytes) = notes.map NoteCode.bytes := by
      rw [← bytes,List.map_map]
      rfl
    rw [status notes parts]
    refine pressedOther ?_
    intro x member key
    obtain ⟨k,inside,shown⟩ := notesDelivered sent (fun _ h => h) bytes member
    obtain ⟨m,place⟩ := List.getElem?_of_mem (sub.subset inside)
    exact none m x (shown m place).1 key (shown m place).2
  · rintro before c rfl ⟨x,member,zero,after⟩
    exact lastDelivered idle quiet silent protocol answered sent member zero after

/- Registers before the first byte, with the working signal still high. -/
def listening : Regs := ⟨true,false,State.zero,0,false,0⟩

/- Press A and read it; release A, and press W before the next read. -/
def overwritten : List Inputs :=
  [⟨false,false,0x1c⟩,⟨true,true,0x1c⟩,⟨false,false,0xf0⟩,⟨false,true,0xf0⟩,⟨false,false,0x1c⟩,
   ⟨false,true,0x1c⟩,⟨false,false,0x1d⟩,⟨false,true,0x1d⟩,⟨true,true,0x1d⟩,⟨false,true,0x1d⟩,
   ⟨true,true,0x1d⟩,⟨false,true,0x1d⟩]

def overwrittenReads : List Read := [⟨0x1c,0⟩,⟨0x1d,0⟩,⟨0,0⟩]

def overwrittenCodes : List NoteCode := [⟨0,true⟩,⟨0,false⟩,⟨1,true⟩]

theorem overwrittenDelivered : Delivered listening overwritten 0 ∧ ¬ Delivered listening overwritten 1 := by
  unfold Delivered
  decide

theorem laterPressIsRead :
    (mainLoop powerUp 0 overwrittenReads).statics.tonesStatus.get 0 = 1 ∧
    (mainLoop powerUp 0 overwrittenReads).statics.tonesStatus.get 1 = 1 ∧
    (mainLoop powerUp 0 overwrittenReads).statics.tonesStatus.get 2 = powerUp.statics.tonesStatus.get 2 := by
  have decides := lastDeliveredCodeDecides (r := listening) rfl rfl rfl overwritten (by decide) (by decide)
    overwrittenCodes (by decide) powerUp 0 overwrittenReads (by decide)
  have delivered := decides.2.2 [⟨0,true⟩,⟨0,false⟩] ⟨1,true⟩ rfl (by decide)
  refine ⟨(decides.1 0 ⟨0,true⟩ rfl overwrittenDelivered.1 ?_).mpr rfl,
    (decides.1 2 ⟨1,true⟩ rfl delivered ?_).mpr rfl,decides.2.1 2 ?_⟩
  · intro m x beyond here key
    match m with
    | 1 => exact overwrittenDelivered.2
    | 2 =>
      cases here
      cases key
  · intro m x beyond here
    obtain ⟨inside,_⟩ := List.getElem?_eq_some_iff.mp here
    have three : overwrittenCodes.length = 3 := rfl
    omega
  · intro n c here key
    have member : c ∈ overwrittenCodes := List.mem_of_getElem? here
    have others : ∀ x ∈ overwrittenCodes, x.key ≠ 2 := by decide
    exact absurd key (others c member)

theorem unreadReleaseIsLost :
    Protocol listening overwritten ∧
    (results listening overwritten).length = starts overwritten ∧
    bytesOf listening overwritten = overwrittenCodes.flatMap NoteCode.bytes ∧
    (∃ x ∈ (startsOf listening overwritten).zip (results listening overwritten),
      x.2 = 0 ∧ ∀ k ∈ codesOf listening overwritten, k.completed < x.1) ∧
    overwrittenReads.map Read.key = results listening overwritten ∧
    (overwrittenCodes.filter (fun c => c.key = 0)).getLast? = some ⟨0,false⟩ ∧
    (mainLoop powerUp 0 overwrittenReads).statics.tonesStatus.get 0 = 1 := by
  decide

end FpgaSynthesizer.KeyPath
