import FpgaSynthesizer.ToneRuns
import Mathlib.Data.Finset.Card
import Mathlib.Data.Fintype.Card

/-! The states inside one call of handle_key: after every prefix of its device
actions the sounding tones lie in one window, the old octave's or the new one's. -/
namespace FpgaSynthesizer.ToneShift
open RegisterBits ToneProgram ToneCalls ToneWindow ToneAgreement
open SynthCi (Opcode)

def soundingTones (b : Board) : Finset (Fin 88) :=
  Finset.univ.filter (fun a => b.synth.curSounds.getLsbD a = true)

theorem memberSounding {b : Board} {a : Fin 88} : a ∈ soundingTones b ↔ sounds b a = true := by
  simp [soundingTones,sounds]

theorem windowCard {b : Board} (octave : Int)
    (window : ∀ a ∈ soundingTones b, ∃ i : Fin numRelTones, (i : Int) + 12*octave = (a.val : Int)) :
    (soundingTones b).card ≤ numRelTones := by
  have card : (soundingTones b).card ≤ (Finset.univ : Finset (Fin numRelTones)).card := by
    apply Finset.card_le_card_of_injOn (fun a => Fin.ofNat numRelTones ((a.val : Int) - 12*octave).toNat)
    · intro a _
      simp
    · intro a ha c hc same
      obtain ⟨i,hi⟩ := window a ha
      obtain ⟨j,hj⟩ := window c hc
      have left : ((a.val : Int) - 12*octave).toNat = i.val := by omega
      have right : ((c.val : Int) - 12*octave).toNat = j.val := by omega
      have equal : i = j := by simpa [left,right] using same
      subst equal
      apply Fin.ext
      omega
  rwa [Finset.card_univ,Fintype.card_fin] at card

theorem shiftPart {s : System} (agree : Agree s) {octave : Int}
    (before : OctaveFits s.statics.prevOctave) (after : OctaveFits octave) {p : List Action}
    (part : p <+: shiftActions s.statics.tonesStatus s.statics.prevOctave octave) :
    (∀ a : Nat, a < 88 → sounds (performAll s.board p) a = true →
      Sounding s.statics.tonesStatus s.statics.prevOctave a) ∨
    (∀ a : Nat, a < 88 → sounds (performAll s.board p) a = true →
      Sounding s.statics.tonesStatus octave a) := by
  have window := mirroredWindow (agreeMirrors agree before).sounding
  have quiet := fun x hx => silenceAll window (a := x) hx
  rcases prefixOfAppend part with loops | ⟨q,last,rfl⟩
  · rcases prefixOfAppend loops with first | ⟨q,second,rfl⟩
    · left
      intro a inside on
      exact (agree.sounding a inside).mp (silencePart first inside on)
    · right
      intro a inside on
      rw [performAllAppend] at on
      exact (mirroredFits after inside).mp (soundPart agree.bits quiet second inside on)
  · right
    intro a inside on
    have written : sounds (performAll (performAll s.board
        (silenceWindow s.statics.prevOctave (List.finRange numRelTones)))
        (soundWindow s.statics.tonesStatus octave (List.finRange numRelTones) 0).1) a = true := by
      rw [performAllAppend,performAllAppend] at on
      rcases List.prefix_cons_iff.mp last with rfl | ⟨t,rfl,ht⟩
      · exact on
      · rw [List.prefix_nil.mp ht] at on
        exact on
    exact (mirroredFits after inside).mp (soundPart agree.bits quiet (List.prefix_refl _) inside written)

theorem notePart {b : Board} {i : Fin numRelTones} {octave : Int} (fits : OctaveFits octave)
    {opcode : Opcode} {p : List Action} (part : p <+: noteActions i octave opcode) {a : Nat}
    (inside : a < 88) (on : sounds (performAll b p) a = true) :
    sounds b a = true ∨ (i : Int) + 12*octave = a := by
  by_cases hit : a ∈ (soundWrites p).map Write.index
  · right
    obtain ⟨x,hx,index⟩ := List.mem_map.mp hit
    have member : x ∈ soundWrites (noteActions i octave opcode) := (part.filterMap soundWrite).subset hx
    rw [noteWrites] at member
    split at member
    · rename_i exist
      rw [List.mem_singleton.mp member] at index
      exact (windowIndex fits i inside).mp ⟨exist,index⟩
    · simp at member
  · left
    have agree : ∀ y ∈ soundWrites p, y.index = a → y.bit = false :=
      fun y hy same => absurd (List.mem_map.mpr ⟨y,hy,same⟩) hit
    rwa [sounds,performSounds,writeAllGet _ _ agree inside,if_neg hit] at on

theorem keyPart {s : System} (agree : Agree s) {key : Word} (before : OctaveFits s.statics.prevOctave)
    (after : OctaveFits (call s (.key key)).statics.prevOctave) {p : List Action}
    (part : p <+: (handleKey s.statics key).2) :
    ∃ octave, (octave = s.statics.prevOctave ∨ octave = (call s (.key key)).statics.prevOctave) ∧
      ∀ a ∈ soundingTones (performAll s.board p), ∃ i : Fin numRelTones,
        (i : Int) + 12*octave = (a.val : Int) ∧
        (OctaveKey key → (call s (.key key)).statics.tonesStatus.get i = 1) := by
  rcases handleKeyCases s.statics key with ⟨_,same⟩ | ⟨note,i,_,same⟩ | ⟨note,_,same⟩
  · simp only [call,handle,same] at part after ⊢
    rcases shiftPart agree before after part with old | new
    · refine ⟨_,.inl rfl,?_⟩
      intro a on
      obtain ⟨j,held,tone⟩ := old a a.isLt (memberSounding.mp on)
      exact ⟨j,tone,fun _ => held⟩
    · refine ⟨_,.inr rfl,?_⟩
      intro a on
      obtain ⟨j,held,tone⟩ := new a a.isLt (memberSounding.mp on)
      exact ⟨j,tone,fun _ => held⟩
  · rw [same] at part
    refine ⟨_,.inl rfl,?_⟩
    intro a on
    rcases notePart before part a.isLt (memberSounding.mp on) with old | own
    · obtain ⟨j,tone⟩ := agreeWindow agree a a.isLt old
      exact ⟨j,tone,fun shift => absurd shift note⟩
    · exact ⟨i,own,fun shift => absurd shift note⟩
  · rw [same] at part
    refine ⟨_,.inl rfl,?_⟩
    intro a on
    rw [List.prefix_nil.mp part] at on
    obtain ⟨j,tone⟩ := agreeWindow agree a a.isLt (memberSounding.mp on)
    exact ⟨j,tone,fun shift => absurd shift note⟩

theorem callStaysInOneWindow (calls : List Call) (key : Word)
    (fits : NoOverflow powerUp (calls ++ [.key key])) {p : List Action}
    (part : p <+: (handleKey (run powerUp calls).statics key).2) :
    (∃ octave, (octave = (run powerUp calls).statics.prevOctave ∨
        octave = (run powerUp (calls ++ [.key key])).statics.prevOctave) ∧
      ∀ a ∈ soundingTones (performAll (run powerUp calls).board p),
        ∃ i : Fin numRelTones, (i : Int) + 12*octave = (a.val : Int) ∧
          (OctaveKey key → (run powerUp (calls ++ [.key key])).statics.tonesStatus.get i = 1)) ∧
    (soundingTones (performAll (run powerUp calls).board p)).card ≤ numRelTones := by
  have final : run powerUp (calls ++ [.key key]) = call (run powerUp calls) (.key key) := by
    simp [run]
  have before : OctaveFits (run powerUp calls).statics.prevOctave := fits calls (List.prefix_append _ _)
  have after := fits (calls ++ [.key key]) (List.prefix_refl _)
  have agree : Agree (run powerUp calls) :=
    runAgree powerUpAgree (fun q hq => fits q (hq.trans (List.prefix_append _ _)))
  rw [final] at after ⊢
  have window := keyPart agree before after part
  refine ⟨window,?_⟩
  obtain ⟨octave,_,tones⟩ := window
  apply windowCard octave
  intro a on
  obtain ⟨i,tone,_⟩ := tones a on
  exact ⟨i,tone⟩

/- A held A, octave up: the state between the 20th and the 21st command. -/
theorem shiftOfOneKeyStaysInOneWindow :
    NoOverflow powerUp [.key 0x1c,.key 0x1a] ∧
    (soundingTones (performAll (run powerUp [.key 0x1c]).board
      ((handleKey (run powerUp [.key 0x1c]).statics 0x1a).2.take 20))).card ≤ numRelTones :=
  ⟨ToneRuns.fewNoOverflow (by decide),
    (callStaysInOneWindow [.key 0x1c] 0x1a (ToneRuns.fewNoOverflow (by decide)) (List.take_prefix 20 _)).2⟩

end FpgaSynthesizer.ToneShift
