import ScopeTags.Text.Quoted

/-!
# Scalars

A scalar is a plain value that a caller hands over and a message shows: a state of a machine, the
status named by a fault, a value given for a setting.  As states a flag and the number that it
stands for are equal (`Scalar.instBEq`), though a message shows which of them was given.
-/

namespace ScopeTags

/-- A plain value. -/
inductive Scalar where
  | null
  | flag (value : Bool)
  | number (value : Int)
  | text (value : String)
deriving DecidableEq, Repr

namespace Scalar

/-- The value as running text: a text stands for itself. -/
def plain : Scalar → String
  | null => "None"
  | flag true => "True"
  | flag false => "False"
  | number n => toString n
  | text s => s

/-- The value as a literal: a text stands between quotes. -/
def literal : Scalar → String
  | text s => Text.quoted s
  | value => value.plain

/-- The number that a flag or a number stands for. -/
def value? : Scalar → Option Int
  | flag b => some b.toInt
  | number n => some n
  | _ => none

/-- Flags and numbers are equal where they stand for the same number, other scalars where they are
    the same. -/
instance instBEq : BEq Scalar where
  beq a b := a.value? == b.value? && (a.value?.isSome || decide (a = b))

theorem beq_iff {a b : Scalar} :
    (a == b) = true ↔ a.value? = b.value? ∧ (a.value?.isSome = true ∨ a = b) := by
  change (a.value? == b.value? && (a.value?.isSome || decide (a = b))) = true ↔ _
  simp

instance : EquivBEq Scalar where
  rfl := beq_iff.mpr ⟨rfl, .inr rfl⟩
  symm h := by
    obtain ⟨hvalue, hsame⟩ := beq_iff.mp h
    exact beq_iff.mpr ⟨hvalue.symm, hsame.imp (hvalue ▸ ·) Eq.symm⟩
  trans h h' := by
    obtain ⟨hvalue, hsame⟩ := beq_iff.mp h
    obtain ⟨hvalue', hsame'⟩ := beq_iff.mp h'
    refine beq_iff.mpr ⟨hvalue.trans hvalue', ?_⟩
    rcases hsame with hsome | rfl
    · exact .inl hsome
    · exact hsame'

end Scalar

/-- States that messages can show. -/
class Shown (σ : Type) where
  /-- The state as a fault carries it. -/
  scalar : σ → Scalar
  /-- The state as the notice of a change names it. -/
  label : σ → String

instance : Shown Scalar := ⟨id, Scalar.plain⟩

end ScopeTags
