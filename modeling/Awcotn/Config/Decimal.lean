import Awcotn.Config.LexicalCast
import Awcotn.Foundation.BlockStyle

/-!
# Integers in decimal

An implementation of `boost::lexical_cast` between `int` and `std::string`, which goes with the block style.
-/

namespace Awcotn

namespace Boost

/-- The number of some digits. -/
def readDigits (digits : List Char) : Option ℕ :=
  if digits ≠ [] ∧ digits.all Char.isDigit then some (Nat.ofDigitChars 10 digits 0) else none

/-- An integer with its sign. -/
def readInt : List Char → Option ℤ
  | '-' :: digits => (readDigits digits).map fun n => -(n : ℤ)
  | '+' :: digits => (readDigits digits).map Int.ofNat
  | digits => (readDigits digits).map Int.ofNat

def writeInt : ℤ → List Char
  | .ofNat n => Nat.toDigits 10 n
  | .negSucc n => '-' :: Nat.toDigits 10 (n + 1)

/-- The decimal numbers, which must fit into an `int`. -/
def decimal : Boost where
  toText k := String.ofList (writeInt k.toInt)
  toInt text := (readInt text.toList).bind fun i =>
    if Int32.minValue.toInt ≤ i ∧ i ≤ Int32.maxValue.toInt then some (.ofInt i) else none

theorem isDigit_of_mem {n : ℕ} {c : Char} (hc : c ∈ Nat.toDigits 10 n) : c.isDigit = true :=
  Nat.isDigit_of_mem_toDigits (by decide) (by decide) hc

theorem readDigits_toDigits (n : ℕ) : readDigits (Nat.toDigits 10 n) = some n := by
  rw [readDigits, if_pos ⟨Nat.toDigits_ne_nil, List.all_eq_true.2 fun c hc => isDigit_of_mem hc⟩, Nat.ofDigitChars_ten_toDigits]

theorem readInt_writeInt (i : ℤ) : readInt (writeInt i) = some i := by
  cases i with
  | negSucc n =>
      rw [writeInt, readInt, readDigits_toDigits]
      rfl
  | ofNat n =>
      have hread : readInt (Nat.toDigits 10 n) = (readDigits (Nat.toDigits 10 n)).map Int.ofNat := by
        unfold readInt
        split
        · next digits heq => exact absurd (isDigit_of_mem (heq ▸ List.mem_cons_self)) (by decide)
        · next digits heq => exact absurd (isDigit_of_mem (heq ▸ List.mem_cons_self)) (by decide)
        · rfl
      rw [writeInt, hread, readDigits_toDigits]
      rfl

theorem plain_writeInt (i : ℤ) : Yaml.Block.plain (writeInt i) = true := by
  have hplain : ∀ n, (Nat.toDigits 10 n).all Yaml.Block.plainChar = true := by
    intro n
    rw [List.all_eq_true]
    intro c hc
    simp [Yaml.Block.plainChar, Char.isAlphanum, isDigit_of_mem hc]
  cases i with
  | ofNat n =>
      have hsign : Nat.toDigits 10 n ≠ ['-'] := by
        intro heq
        exact absurd (isDigit_of_mem (n := n) (c := '-') (heq ▸ List.mem_cons_self)) (by decide)
      simp [Yaml.Block.plain, writeInt, hplain, hsign]
  | negSucc n =>
      have hsign : Yaml.Block.plainChar '-' = true := by decide
      simp [Yaml.Block.plain, writeInt, hplain, hsign]

theorem decimal_lawful : decimal.Lawful Yaml.block where
  toInt_toText k := by
    have hrange : Int32.minValue.toInt ≤ k.toInt ∧ k.toInt ≤ Int32.maxValue.toInt := ⟨k.le_toInt, k.toInt_le⟩
    simp only [decimal, String.toList_ofList, readInt_writeInt, Option.bind_some, if_pos hrange, Int32.ofInt_toInt]
  emit_toText k := Yaml.Block.emit_plain (by simp only [decimal, String.toList_ofList, plain_writeInt])

end Boost

end Awcotn
