import Mathlib.Data.Nat.Find

/-!
`mem.c`, and the integer types of the firmware.

`memcmp` answers 1 for equal regions and 0 for different ones (`memcmp_eq_one_iff`), the
opposite of the C library.
-/

namespace EbnAnchor

/-- `uint8_t`. -/
abbrev Byte := BitVec 8

/-- `int`, `uint32_t`. -/
abbrev Word := BitVec 32

/-- The loop of `memcmp`, from index `i` with `n` bytes to go. -/
def memcmpFrom (d1 d2 : Nat → Byte) (i : Nat) : Nat → Word
  | 0 => 1
  | n + 1 => if d1 i ≠ d2 i then 0 else memcmpFrom d1 d2 (i + 1) n

def memcmp (str1 str2 : Nat → Byte) (n : Nat) : Word := memcmpFrom str1 str2 0 n

theorem memcmpFrom_cases (d1 d2 : Nat → Byte) (i n : Nat) :
    ((∀ j, i ≤ j → j < i + n → d1 j = d2 j) ∧ memcmpFrom d1 d2 i n = 1) ∨
    ((∃ j, i ≤ j ∧ j < i + n ∧ d1 j ≠ d2 j) ∧ memcmpFrom d1 d2 i n = 0) := by
  induction n generalizing i with
  | zero => exact Or.inl ⟨fun j _ _ => by omega, rfl⟩
  | succ n ih =>
    rw [memcmpFrom]
    by_cases hi : d1 i = d2 i
    · rw [if_neg (not_not.mpr hi)]
      rcases ih (i + 1) with ⟨hall, hone⟩ | ⟨⟨j, hj, hlt, hne⟩, hzero⟩
      · refine Or.inl ⟨fun j hj hlt => ?_, hone⟩
        rcases Nat.eq_or_lt_of_le hj with rfl | hgt
        · exact hi
        · exact hall j hgt (by omega)
      · exact Or.inr ⟨⟨j, by omega, by omega, hne⟩, hzero⟩
    · rw [if_pos hi]
      exact Or.inr ⟨⟨i, le_rfl, by omega, hi⟩, rfl⟩

theorem memcmp_eq_one_iff (d1 d2 : Nat → Byte) (n : Nat) :
    memcmp d1 d2 n = 1 ↔ ∀ i < n, d1 i = d2 i := by
  rcases memcmpFrom_cases d1 d2 0 n with ⟨hall, hone⟩ | ⟨⟨j, -, hlt, hne⟩, hzero⟩
  · exact ⟨fun _ i hi => hall i (by omega) (by omega), fun _ => hone⟩
  · refine ⟨fun h => absurd (hzero.symm.trans h) (by decide), fun h => ?_⟩
    exact absurd (h j (by omega)) hne

theorem memcmp_eq_zero_iff (d1 d2 : Nat → Byte) (n : Nat) :
    memcmp d1 d2 n = 0 ↔ ∃ i < n, d1 i ≠ d2 i := by
  rcases memcmpFrom_cases d1 d2 0 n with ⟨hall, hone⟩ | ⟨⟨j, -, hlt, hne⟩, hzero⟩
  · refine ⟨fun h => absurd (hone.symm.trans h) (by decide), fun ⟨i, hi, hne⟩ => ?_⟩
    exact absurd (hall i (by omega) (by omega)) hne
  · exact ⟨fun _ => ⟨j, by omega, hne⟩, fun _ => hzero⟩

end EbnAnchor
