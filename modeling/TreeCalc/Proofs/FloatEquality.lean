import TreeCalc.Proofs.ReadBack

namespace TreeCalc.Number

open Float.Model (UnpackedFloat)
open Float.Model.UnpackedFloat (Sign)

theorem compare_sizes_iff (m n : ℕ) (d e : ℤ) : (compare d e).then (compare m n) = .eq ↔ d = e ∧ m = n := by
  rw [Ordering.then_eq_eq, compare_eq_iff_eq, compare_eq_iff_eq]

theorem beq_self_of_ne_notANumber {a : UnpackedFloat} (number : a ≠ .notANumber) : a.beq a = true := by
  cases a with
  | notANumber => exact absurd rfl number
  | infinity sign => cases sign <;> rfl
  | zero sign => rfl
  | finite sign mantissa exponent positive =>
    have sizes := (compare_sizes_iff mantissa mantissa exponent exponent).mpr ⟨rfl, rfl⟩
    cases sign with
    | positive => exact beq_iff_eq.mpr (congrArg some sizes)
    | negative => exact beq_iff_eq.mpr (congrArg (some ∘ Ordering.swap) sizes)

/-- Comparison calls numbers equal only if they are the same, or both zero. -/
theorem eq_or_zeros_of_beq {a b : UnpackedFloat} (same : a.beq b = true) :
    a = b ∨ ∃ s t, a = .zero s ∧ b = .zero t := by
  -- Different kinds, and different signs, compute to an ordering that is not `eq`; only sizes need an argument.
  cases a with
  | notANumber => cases same
  | infinity s =>
    cases b with
    | notANumber => cases same
    | infinity t =>
      cases s <;> cases t
      · exact Or.inl rfl
      · cases same
      · cases same
      · exact Or.inl rfl
    | zero | finite => cases s <;> cases same
  | zero s =>
    cases b with
    | notANumber => cases same
    | infinity t => cases t <;> cases same
    | zero t => exact Or.inr ⟨s, t, rfl, rfl⟩
    | finite t => cases t <;> cases same
  | finite s m d positive =>
    cases b with
    | notANumber => cases same
    | infinity t => cases s <;> cases t <;> cases same
    | zero => cases s <;> cases same
    | finite t n e nonzero =>
      cases s with
      | negative =>
        cases t with
        | positive => cases same
        | negative =>
          have swapped : ((compare d e).then (compare m n)).swap = .eq := Option.some.inj (eq_of_beq same)
          obtain ⟨rfl, rfl⟩ := (compare_sizes_iff m n d e).mp (Ordering.swap_eq_eq.mp swapped)
          exact Or.inl rfl
      | positive =>
        cases t with
        | negative => cases same
        | positive =>
          obtain ⟨rfl, rfl⟩ := (compare_sizes_iff m n d e).mp (Option.some.inj (eq_of_beq same))
          exact Or.inl rfl

/-- One of the two zeros. -/
def IsZero (x : Float) : Prop := ∃ sign, x.toModel.unpack = .zero sign

theorem isNaN_eq_false_iff (x : Float) : x.isNaN = false ↔ x.toModel.unpack ≠ .notANumber := by
  have meaning : x.isNaN = x.toModel.unpack.isNaN := rfl
  rw [meaning]
  cases x.toModel.unpack with
  | notANumber => exact ⟨fun number => absurd number (by decide), fun other => absurd rfl other⟩
  | infinity | zero | finite => exact ⟨fun _ impossible => UnpackedFloat.noConfusion impossible, fun _ => rfl⟩

theorem IsZero.isNaN {x : Float} (zero : IsZero x) : x.isNaN = false := by
  obtain ⟨sign, unpacked⟩ := zero
  rw [isNaN_eq_false_iff, unpacked]
  exact fun impossible => UnpackedFloat.noConfusion impossible

/-- Two numbers are equal when they are the same or both zero; a NaN is equal to nothing. -/
theorem beq_iff (x y : Float) : (x == y) = true ↔ (x = y ∧ x.isNaN = false) ∨ (IsZero x ∧ IsZero y) := by
  have meaning : ∀ y : Float, (x == y) = x.toModel.unpack.beq y.toModel.unpack := fun _ => rfl
  constructor
  · intro equal
    rw [meaning] at equal
    obtain same | ⟨s, t, left, right⟩ := eq_or_zeros_of_beq equal
    · have number : x.isNaN = false := by
        rw [isNaN_eq_false_iff]
        intro nan
        rw [nan] at equal
        cases equal
      have forms : decode x = decode y := by rw [decode_eq_formOf, decode_eq_formOf, same]
      have other : decode x ≠ .nan := fun nan => by
        rw [(decode_eq_nan_iff x).mp nan] at number
        cases number
      exact Or.inl ⟨eq_of_decode_eq forms other, number⟩
    · exact Or.inr ⟨⟨s, left⟩, t, right⟩
  · rintro (⟨rfl, number⟩ | ⟨⟨s, left⟩, t, right⟩)
    · exact beq_self_of_ne_notANumber ((isNaN_eq_false_iff x).mp number)
    · rw [meaning, left, right]
      rfl

theorem beq_symm {x y : Float} (equal : (x == y) = true) : (y == x) = true := by
  obtain ⟨rfl, number⟩ | ⟨left, right⟩ := (beq_iff x y).mp equal
  · exact equal
  · exact (beq_iff y x).mpr (Or.inr ⟨right, left⟩)

theorem beq_trans {x y z : Float} (first : (x == y) = true) (second : (y == z) = true) : (x == z) = true := by
  obtain ⟨rfl, _⟩ | ⟨left, _⟩ := (beq_iff x y).mp first
  · exact second
  · obtain ⟨rfl, _⟩ | ⟨_, right⟩ := (beq_iff y z).mp second
    · exact first
    · exact (beq_iff x z).mpr (Or.inr ⟨left, right⟩)

theorem beq_self_iff (x : Float) : (x == x) = true ↔ x.isNaN = false := by
  rw [beq_iff]
  exact ⟨fun equal => equal.elim And.right fun zeros => zeros.1.isNaN, fun number => Or.inl ⟨rfl, number⟩⟩

/-- Apart from zero, equal numbers are the same. -/
theorem eq_of_beq_of_nonzero {x y : Float} (equal : (x == y) = true) (nonzero : (x == 0.0) = false) : x = y := by
  obtain ⟨same, _⟩ | ⟨zero, _⟩ := (beq_iff x y).mp equal
  · exact same
  · have origin : IsZero 0.0 := ⟨.positive, rfl⟩
    rw [(beq_iff x 0.0).mpr (Or.inr ⟨zero, origin⟩)] at nonzero
    cases nonzero

end TreeCalc.Number
