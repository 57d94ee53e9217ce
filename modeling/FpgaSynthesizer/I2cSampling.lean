import FpgaSynthesizer.I2cBus

/-! An observer that looks at the bus more often than it changes. SDA does not matter
while SCL is low, and a level that is seen again adds nothing. -/
namespace FpgaSynthesizer.I2cSampling
open I2cBus

structure SameLevel (x y : Level) : Prop where
  scl : x.scl = y.scl
  sda : x.scl = true → x.sda = y.sda

structure Alike (o p : Observer) : Prop where
  line : SameLevel o.line p.line
  bit : o.bit = p.bit
  transfer : o.transfer = p.transfer
  ended : o.ended = p.ended

variable {o p q : Observer} {x y : Level}

theorem sameSelf (x : Level) : SameLevel x x := ⟨rfl,fun _ => rfl⟩

theorem alikeSelf (o : Observer) : Alike o o := ⟨sameSelf o.line,rfl,rfl,rfl⟩

theorem alikeTrans (first : Alike o p) (second : Alike p q) : Alike o q := by
  refine ⟨⟨first.line.scl.trans second.line.scl,?_⟩,first.bit.trans second.bit,
    first.transfer.trans second.transfer,first.ended.trans second.ended⟩
  intro high
  exact (first.line.sda high).trans (second.line.sda (first.line.scl ▸ high))

theorem watchLine (o : Observer) (x : Level) : (watch o x).line = x := by
  unfold watch
  split
  · split
    · rfl
    · split <;> rfl
  · split
    · rfl
    · split <;> rfl

theorem watchAlike (alike : Alike o p) (same : SameLevel x y) : Alike (watch o x) (watch p y) := by
  obtain ⟨⟨scl,sda⟩,bit,transfer,ended⟩ := alike
  have now := same.scl
  unfold watch
  rw [← scl,← now,← transfer,← ended,← bit]
  cases before : o.line.scl with
  | false =>
    simp only [Bool.false_and,Bool.false_eq_true,if_false]
    cases after : x.scl with
    | false => exact ⟨same,rfl,rfl,rfl⟩
    | true =>
      have own := same.sda after
      rw [if_pos rfl,if_pos rfl,own]
      exact ⟨same,rfl,rfl,rfl⟩
  | true =>
    have held := sda before
    cases after : x.scl with
    | false =>
      simp only [Bool.and_false,Bool.false_eq_true,if_false,if_true]
      exact ⟨same,rfl,rfl,rfl⟩
    | true =>
      have own := same.sda after
      simp only [Bool.and_true,if_true]
      rw [← held,← own]
      split
      · exact ⟨same,rfl,rfl,rfl⟩
      · split
        · exact ⟨same,rfl,rfl,rfl⟩
        · exact ⟨same,rfl,rfl,rfl⟩

theorem watchAgain (same : SameLevel o.line x) : Alike (watch o x) o := by
  have back : SameLevel x o.line := ⟨same.scl.symm,fun high => (same.sda (same.scl.trans high)).symm⟩
  unfold watch
  rw [← same.scl]
  cases before : o.line.scl with
  | false =>
    simp only [Bool.false_and,Bool.false_eq_true,if_false]
    exact ⟨back,rfl,rfl,rfl⟩
  | true =>
    rw [← same.sda before]
    cases o.line.sda <;> exact ⟨back,rfl,rfl,rfl⟩

theorem watchEnded (steady : o.line.scl = true → x.scl = true → o.line.sda = x.sda) : (watch o x).ended = o.ended := by
  unfold watch
  cases before : o.line.scl with
  | false =>
    simp only [Bool.false_and,Bool.false_eq_true,if_false]
    split <;> rfl
  | true =>
    cases after : x.scl with
    | false => rfl
    | true =>
      rw [steady before after]
      cases x.sda <;> rfl

end FpgaSynthesizer.I2cSampling
