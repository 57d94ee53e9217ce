import FpgaSynthesizer.ToneKeys

/-! The four forms of a scan code. handle_key takes a note from the low byte and a
release from the second byte, so an extended code counts as the plain code of the
same base; the table follows the plain codes as long as no extended code of a
note's base says something else than they do. -/
namespace FpgaSynthesizer.ToneCodes
open ToneProgram ToneCalls ToneAgreement ToneKeys
open Ps2Ci (Byte isPrefix value valueLow lowByte wordInjective)
open KeyPath (noteKeys scanCode)

structure ScanCode where
  extended : Bool
  make : Bool
  base : Byte
  plain : base ≠ 0 ∧ isPrefix base = false
  deriving DecidableEq

def formBytes (extended make : Bool) (base : Byte) : List Byte :=
  (if extended then [0xe0] else []) ++ (if make then [] else [0xf0]) ++ [base]

def ScanCode.key (c : ScanCode) : Word := value (formBytes c.extended c.make c.base)

def runCodes (codes : List ScanCode) : System := runKeys (codes.map ScanCode.key)

def saysPressed (i : Fin numRelTones) (codes : List ScanCode) : Bool :=
  (((codes.map ScanCode.key).filter
    (fun key => decide (key = noteKeys.get i ∨ key = 0xf000 + noteKeys.get i))).getLast?.map
      (fun key => decide (key = noteKeys.get i))).getD false

def TableFollows (codes : List ScanCode) : Prop :=
  ∀ i : Fin numRelTones, (runCodes codes).statics.tonesStatus.get i = 1 ↔ saysPressed i codes = true

def TableKept (codes : List ScanCode) (c : ScanCode) : Prop :=
  (runCodes (codes ++ [c])).statics.tonesStatus = (runCodes codes).statics.tonesStatus

def Repeats (codes : List ScanCode) (c : ScanCode) : Prop :=
  ∀ i : Fin numRelTones, c.base = scanCode i → c.make = saysPressed i codes

/-! ### The value of a code -/

theorem wordParts (x y : Word) : x = y ↔ x >>> 8 = y >>> 8 ∧ x &&& 0xff = y &&& 0xff := by
  constructor
  · rintro rfl
    exact ⟨rfl,rfl⟩
  · rintro ⟨high,bytes⟩
    have upper := congrArg BitVec.toNat high
    have lower := congrArg BitVec.toNat bytes
    rw [BitVec.toNat_ushiftRight,BitVec.toNat_ushiftRight,Nat.shiftRight_eq_div_pow,
      Nat.shiftRight_eq_div_pow] at upper
    rw [lowByte,lowByte,BitVec.toNat_setWidth,BitVec.toNat_setWidth,BitVec.toNat_setWidth,
      BitVec.toNat_setWidth] at lower
    apply BitVec.eq_of_toNat_eq
    omega

def formHigh (extended make : Bool) : Word :=
  if extended then (if make then 0xe0 else 0xe0f0) else (if make then 0 else 0xf0)

theorem formLow (extended make : Bool) (base : Byte) :
    value (formBytes extended make base) &&& 0xff = base.setWidth 32 := by
  rw [lowByte,formBytes,valueLow]

theorem formPrefixes (extended make : Bool) (base : Byte) :
    value (formBytes extended make base) >>> 8 = formHigh extended make := by
  revert extended make base
  decide +kernel

theorem keyPresses (c : ScanCode) : presses c.key = c.make := by
  rw [presses,ScanCode.key,formPrefixes]
  cases c.extended <;> cases c.make <;> decide

theorem noteParts (i : Fin numRelTones) :
    noteKeys.get i >>> 8 = 0 ∧ (0xf000 + noteKeys.get i) >>> 8 = 0xf0 ∧
    (0xf000 + noteKeys.get i) &&& 0xff = noteKeys.get i &&& 0xff ∧
    noteKeys.get i &&& 0xff = (scanCode i).setWidth 32 ∧ (scanCode i).setWidth 32 = noteKeys.get i := by
  revert i
  decide

theorem keyTouches (c : ScanCode) (i : Fin numRelTones) : touches i c.key = true ↔ c.base = scanCode i := by
  obtain ⟨_,_,_,_,own⟩ := noteParts i
  rw [touches,decide_eq_true_iff,ScanCode.key,formLow,← own,wordInjective]

theorem keyOwn (c : ScanCode) (i : Fin numRelTones) :
    (c.key = noteKeys.get i ↔ c.extended = false ∧ c.make = true ∧ c.base = scanCode i) ∧
    (c.key = 0xf000 + noteKeys.get i ↔ c.extended = false ∧ c.make = false ∧ c.base = scanCode i) := by
  obtain ⟨makeHigh,breakHigh,breakLow,low,_⟩ := noteParts i
  rw [wordParts,wordParts c.key (0xf000 + _),makeHigh,breakHigh,breakLow,low,ScanCode.key,formPrefixes,
    formLow,wordInjective]
  cases c.extended <;> cases c.make <;> simp [formHigh]

/-! ### One more code -/

theorem codeStatus (codes : List ScanCode) (c : ScanCode) (i : Fin numRelTones) :
    (runCodes (codes ++ [c])).statics.tonesStatus.get i =
      if c.base = scanCode i then (if c.make then 1 else 0)
      else (runCodes codes).statics.tonesStatus.get i := by
  rw [runCodes,List.map_append,List.map_singleton,runKeysSnoc,keyStatus,keyPresses]
  simp only [keyTouches]
  rfl

theorem saysPressedSnoc (i : Fin numRelTones) (codes : List ScanCode) (c : ScanCode) :
    saysPressed i (codes ++ [c]) =
      if c.extended = false ∧ c.base = scanCode i then c.make else saysPressed i codes := by
  obtain ⟨pressed,released⟩ := keyOwn c i
  rw [saysPressed,List.map_append,List.filter_append,List.map_singleton]
  by_cases own : c.extended = false ∧ c.base = scanCode i
  · rw [if_pos own]
    cases make : c.make with
    | true =>
      have key : c.key = noteKeys.get i := pressed.mpr ⟨own.1,make,own.2⟩
      simp [key]
    | false =>
      have key : c.key = 0xf000 + noteKeys.get i := released.mpr ⟨own.1,make,own.2⟩
      have other : ¬ c.key = noteKeys.get i := fun h => Bool.false_ne_true (make.symm.trans (pressed.mp h).2.1)
      rw [List.filter_cons,if_pos (decide_eq_true (.inr key)),List.filter_nil,List.getLast?_concat,
        Option.map_some,decide_eq_false other]
      rfl
  · have foreign : ¬ (c.key = noteKeys.get i ∨ c.key = 0xf000 + noteKeys.get i) := by
      rintro (h | h)
      · exact own ⟨(pressed.mp h).1,(pressed.mp h).2.2⟩
      · exact own ⟨(released.mp h).1,(released.mp h).2.2⟩
    rw [if_neg own,List.filter_cons,if_neg (by rwa [decide_eq_true_iff]),List.filter_nil,List.append_nil]
    rfl

theorem codesBits (codes : List ScanCode) : StatusBits (runCodes codes).statics.tonesStatus := by
  intro i
  rw [runCodes,runStatus]
  split
  · exact .inr rfl
  · exact .inl rfl

theorem repeatsKeep {codes : List ScanCode} (follows : TableFollows codes) {c : ScanCode}
    (repeats : Repeats codes c) : TableKept codes c := by
  apply statusEqual
  intro i
  rw [codeStatus]
  split
  · rename_i base
    have before := follows i
    rw [← repeats i base] at before
    rcases codesBits codes i with off | on
    · rw [off] at before ⊢
      rw [if_neg (fun make => absurd (before.mpr make) (by decide))]
    · rw [on,if_pos (before.mp on)]
  · rfl

theorem followsSnoc {codes : List ScanCode} (follows : TableFollows codes) {c : ScanCode}
    (kept : c.extended = true → TableKept codes c) : TableFollows (codes ++ [c]) := by
  intro i
  cases extended : c.extended with
  | true =>
    rw [kept extended,saysPressedSnoc,if_neg (fun h => Bool.false_ne_true (h.1.symm.trans extended))]
    exact follows i
  | false =>
    rw [codeStatus,saysPressedSnoc]
    by_cases base : c.base = scanCode i
    · rw [if_pos base,if_pos (show c.extended = false ∧ c.base = scanCode i from ⟨extended,base⟩)]
      cases c.make <;> decide
    · rw [if_neg base,if_neg (fun h => base h.2)]
      exact follows i

/-! ### Whole sequences -/

def ExtendedKept (codes : List ScanCode) : Prop :=
  ∀ p c, p ++ [c] <+: codes → c.extended = true → TableKept p c

def ExtendedRepeats (codes : List ScanCode) : Prop :=
  ∀ p c, p ++ [c] <+: codes → c.extended = true → Repeats p c

theorem emptyFollows : TableFollows [] := by
  intro i
  have released : (runCodes []).statics.tonesStatus.get i = 0 := initialStatus i
  rw [released]
  decide +revert

theorem keptFollows {codes : List ScanCode} (kept : ExtendedKept codes) : TableFollows codes := by
  induction codes using List.reverseRecOn with
  | nil => exact emptyFollows
  | append_singleton p c ih =>
    have earlier := ih (fun q d part => kept q d (part.trans (List.prefix_append _ _)))
    exact followsSnoc earlier (kept p c (List.prefix_refl _))

theorem repeatsFollow {codes : List ScanCode} (repeats : ExtendedRepeats codes) : TableFollows codes := by
  induction codes using List.reverseRecOn with
  | nil => exact emptyFollows
  | append_singleton p c ih =>
    have earlier := ih (fun q d part => repeats q d (part.trans (List.prefix_append _ _)))
    exact followsSnoc earlier (fun extended => repeatsKeep earlier (repeats p c (List.prefix_refl _) extended))

theorem followsRepeats {codes : List ScanCode} {c : ScanCode} (after : TableFollows (codes ++ [c]))
    (extended : c.extended = true) : Repeats codes c := by
  intro i base
  have foreign : ¬ (c.extended = false ∧ c.base = scanCode i) :=
    fun h => Bool.false_ne_true (h.1.symm.trans extended)
  have agrees := after i
  rw [codeStatus,if_pos base,saysPressedSnoc,if_neg foreign] at agrees
  cases make : c.make with
  | true =>
    rw [make] at agrees
    exact (agrees.mp rfl).symm
  | false =>
    rw [make] at agrees
    cases pressed : saysPressed i codes with
    | true => exact absurd (agrees.mpr pressed) (by decide)
    | false => rfl

theorem tableFollowsExactlyWhenRepeated (codes : List ScanCode) :
    TableFollows codes ∧ ExtendedKept codes ↔ ExtendedRepeats codes := by
  constructor
  · rintro ⟨_,kept⟩ p c part extended
    have within : p <+: codes := (List.prefix_append p [c]).trans part
    have before : TableFollows p := keptFollows (fun q d inner => kept q d (inner.trans within))
    have after : TableFollows (p ++ [c]) := followsSnoc before (kept p c part)
    exact followsRepeats after extended
  · intro repeats
    refine ⟨repeatsFollow repeats,?_⟩
    intro p c part extended
    have within : p <+: codes := (List.prefix_append p [c]).trans part
    have before : TableFollows p := repeatsFollow (fun q d inner => repeats q d (inner.trans within))
    exact repeatsKeep before (repeats p c part extended)

def extendedD : ScanCode := ⟨true,true,0x23,by decide⟩

theorem extendedKeyPlaysNote : ¬ TableFollows [extendedD] ∧ ¬ TableKept [] extendedD := by
  have pressed : (runCodes [extendedD]).statics.tonesStatus.get 3 = 1 := by decide +kernel
  refine ⟨?_,?_⟩
  · intro follows
    exact absurd ((follows 3).mp pressed) (by decide)
  · intro kept
    have before : (runCodes []).statics.tonesStatus.get 3 = 0 := initialStatus 3
    have after : (runCodes ([] ++ [extendedD])).statics.tonesStatus.get 3 = 1 := pressed
    rw [kept,before] at after
    contradiction

end FpgaSynthesizer.ToneCodes
