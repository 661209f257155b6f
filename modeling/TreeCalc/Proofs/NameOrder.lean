import Mathlib.Data.List.Lex
import Mathlib.Order.Monotone.Basic

namespace TreeCalc.Text

/-- The bytes of a text in UTF-8. -/
def bytes (text : String) : List UInt8 := text.toUTF8.data.toList

/-- Whether the bytes of a text come before those of another one, compared from the left. -/
def ByteLess (a b : String) : Prop := List.Lex (· < ·) (bytes a) (bytes b)

instance : DecidableRel ByteLess := fun a b =>
  inferInstanceAs (Decidable (List.Lex (· < ·) (bytes a) (bytes b)))

theorem ByteLess.asymm {a b : String} (less : ByteLess a b) : ¬ ByteLess b a :=
  Std.Asymm.asymm (r := List.Lex (· < ·)) (bytes a) (bytes b) less

theorem bytes_eq (text : String) : bytes text = text.toList.flatMap String.utf8EncodeChar := by
  have encoded : text.toUTF8 = text.toList.utf8Encode := String.utf8Encode_toList.symm
  rw [bytes, encoded, List.utf8Encode]
  simp

/-- A number as a leading byte, which is counted from `mark` on, and `width` bytes of six bits that follow it. -/
def spread (mark : Nat) : Nat → Nat → List UInt8
  | 0, n => [UInt8.ofNat (n + mark)]
  | width + 1, n => spread mark width (n / 64) ++ [UInt8.ofNat (n % 64 + 128)]

/-- What is left of a number for the leading byte. -/
def lead : Nat → Nat → Nat
  | 0, n => n
  | width + 1, n => lead width (n / 64)

theorem ofNat_lt_ofNat {m n : Nat} (less : m < n) (byte : n < 256) : UInt8.ofNat m < UInt8.ofNat n := by
  rw [UInt8.lt_iff_toNat_lt, UInt8.toNat_ofNat_of_lt' byte, UInt8.toNat_ofNat_of_lt' (Nat.lt_trans less byte)]
  exact less

theorem spread_eq_cons (mark width n : Nat) :
    ∃ rest, spread mark width n = UInt8.ofNat (lead width n + mark) :: rest := by
  induction width generalizing n with
  | zero => exact ⟨[], rfl⟩
  | succ width ih =>
    obtain ⟨rest, first⟩ := ih (n / 64)
    exact ⟨rest ++ [UInt8.ofNat (n % 64 + 128)], by rw [spread, first, lead, List.cons_append]⟩

/-- Numbers that are spread over as many bytes differ in the first place where their bytes do. -/
theorem spread_lt_spread {mark width m n : Nat} (less : m < n) (byte : lead width n + mark < 256)
    (u v : List UInt8) :
    List.Lex (· < ·) (spread mark width m ++ u) (spread mark width n ++ v) := by
  induction width generalizing m n u v with
  | zero => exact .rel (ofNat_lt_ofNat (Nat.add_lt_add_right less mark) byte)
  | succ width ih =>
    rw [spread, spread, List.append_assoc, List.append_assoc]
    rcases Nat.lt_or_ge (m / 64) (n / 64) with front | back
    · exact ih front byte _ _
    · have same : m / 64 = n / 64 := by omega
      have last : m % 64 + 128 < n % 64 + 128 := by omega
      rw [same]
      exact .append_left _ (.rel (ofNat_lt_ofNat last (by omega))) _

/-- How many bytes follow the leading one. -/
def width (n : Nat) : Nat := if n ≤ 0x7f then 0 else if n ≤ 0x7ff then 1 else if n ≤ 0xffff then 2 else 3

/-- Where the leading bytes for a width begin, those for no width after the last one. -/
def mark : Nat → Nat
  | 0 => 0
  | 1 => 0xc0
  | 2 => 0xe0
  | 3 => 0xf0
  | _ => 0x100

theorem code_lt (c : Char) : c.val.toNat < 0x110000 := by
  rcases c.valid with low | ⟨-, high⟩
  · exact Nat.lt_trans low (by decide)
  · exact high

theorem encode_eq_spread (c : Char) :
    String.utf8EncodeChar c = spread (mark (width c.val.toNat)) (width c.val.toNat) c.val.toNat := by
  have bound := code_lt c
  delta String.utf8EncodeChar
  dsimp only
  generalize c.val.toNat = n at bound ⊢
  unfold width
  split
  · rfl
  · split
    · have first : n / 64 % 32 = n / 64 := by omega
      rw [first]
      rfl
    · split
      · have first : n / 4096 % 16 = n / 64 / 64 := by omega
        rw [first]
        rfl
      · have first : n / 262144 % 8 = n / 64 / 64 / 64 := by omega
        have second : n / 4096 % 64 = n / 64 / 64 % 64 := by omega
        rw [first, second]
        rfl

theorem mark_monotone : Monotone mark := by
  refine monotone_nat_of_le_succ fun v => ?_
  rcases v with _ | _ | _ | _ | v
  all_goals simp [mark]

theorem mark_le (v : Nat) : mark v ≤ 0x100 := by
  unfold mark
  split <;> omega

theorem width_mono {m n : Nat} (less : m < n) : width m ≤ width n := by
  unfold width
  split_ifs <;> omega

/-- The leading bytes for a width end before those for the next one begin. -/
theorem lead_lt_mark {n : Nat} (bound : n < 0x110000) : lead (width n) n + mark (width n) < mark (width n + 1) := by
  unfold width
  split_ifs <;> simp only [lead, mark] <;> omega

/-- Characters in order have bytes in order, and the bytes of neither are the beginning of those of the other. -/
theorem encode_lt_encode {c d : Char} (less : c < d) (u v : List UInt8) :
    List.Lex (· < ·) (String.utf8EncodeChar c ++ u) (String.utf8EncodeChar d ++ v) := by
  have order : c.val.toNat < d.val.toNat := less
  have below := lead_lt_mark (code_lt c)
  have above := (lead_lt_mark (code_lt d)).trans_le (mark_le _)
  rw [encode_eq_spread, encode_eq_spread]
  generalize c.val.toNat = m at order below ⊢
  generalize d.val.toNat = n at order above ⊢
  rcases Nat.lt_or_eq_of_le (width_mono order) with wider | same
  · -- The leading byte of the wider one is greater.
    obtain ⟨rest, first⟩ := spread_eq_cons (mark (width m)) (width m) m
    obtain ⟨others, second⟩ := spread_eq_cons (mark (width n)) (width n) n
    have apart : mark (width m + 1) ≤ mark (width n) := mark_monotone wider
    rw [first, second]
    exact .rel (ofNat_lt_ofNat (by omega) (by omega))
  · rw [same]
    exact spread_lt_spread order (by omega) u v

theorem flatMap_encode_lt {left right : List Char} (less : List.Lex (· < ·) left right) :
    List.Lex (· < ·) (left.flatMap String.utf8EncodeChar) (right.flatMap String.utf8EncodeChar) := by
  induction less with
  | @nil c rest =>
    rw [List.flatMap_cons, encode_eq_spread]
    obtain ⟨others, first⟩ := spread_eq_cons (mark (width c.val.toNat)) (width c.val.toNat) c.val.toNat
    rw [first]
    exact .nil
  | rel less =>
    rw [List.flatMap_cons, List.flatMap_cons]
    exact encode_lt_encode less _ _
  | @cons c _ _ _ ih =>
    rw [List.flatMap_cons, List.flatMap_cons]
    exact .append_left _ ih _

/-- Texts that are in order by their code points are in order by their bytes. -/
theorem byteLess_of_lt {a b : String} (less : a < b) : ByteLess a b := by
  rw [ByteLess, bytes_eq, bytes_eq]
  exact flatMap_encode_lt (List.lex_lt.mpr (String.lt_iff.mp less))

theorem byteLess_of_compare {a b : String} (less : String.compare a b = .lt) : ByteLess a b :=
  byteLess_of_lt (compareOfLessAndEq_eq_lt.mp less)

theorem byteLess_iff_lt {a b : String} : ByteLess a b ↔ a < b := by
  refine ⟨fun less => ?_, byteLess_of_lt⟩
  by_contra other
  have back : b ≤ a := String.not_lt.mp other
  by_cases forth : b < a
  · exact (byteLess_of_lt forth).asymm less
  · obtain rfl := String.le_antisymm (String.not_lt.mp forth) back
    exact less.asymm less

/-- Sorts texts by their bytes. -/
def sortByBytes (texts : List String) : List String := texts.mergeSort fun a b => !decide (ByteLess b a)

/-- Texts that are all different are in strictly increasing order when they are sorted. -/
theorem pairwise_sortByBytes {texts : List String} (once : texts.Nodup) :
    (sortByBytes texts).Pairwise ByteLess := by
  have le_iff : ∀ a b : String, (!decide (ByteLess b a)) = true ↔ a ≤ b := by
    intro a b
    rw [Bool.not_eq_true', decide_eq_false_iff_not, byteLess_iff_lt, String.not_lt]
  have sorted : (sortByBytes texts).Pairwise fun a b => (!decide (ByteLess b a)) = true := by
    refine List.pairwise_mergeSort ?_ ?_ texts
    · intro a b c
      simp only [le_iff]
      exact String.le_trans
    · intro a b
      rw [Bool.or_eq_true, le_iff, le_iff]
      exact String.le_total a b
  have distinct : (sortByBytes texts).Nodup := (List.mergeSort_perm texts _).nodup_iff.mpr once
  refine (sorted.and distinct).imp ?_
  rintro a b ⟨order, apart⟩
  rw [byteLess_iff_lt, ← String.not_le]
  exact fun back => apart (String.le_antisymm ((le_iff a b).mp order) back)

end TreeCalc.Text
