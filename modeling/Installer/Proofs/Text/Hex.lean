import Installer.Text.Hex
import Mathlib.Tactic.Ring

/-! # Hexadecimal numbers read back

Reading the digits that were written of a number gives the number, as long as it has no more digits
than were written.
-/

namespace Installer.Text.Hex

theorem value?_digitChar : ∀ d < 16, value? (Nat.digitChar d) = some d := by
  decide

theorem length_ofNat (width n : Nat) : (ofNat width n).length = width := by
  simp [ofNat]

theorem ofNat_succ (width n : Nat) :
    ofNat (width + 1) n = Nat.digitChar (n / 16 ^ width % 16) :: ofNat width n := by
  have shift : n >>> (4 * width) = n / 16 ^ width := by
    rw [Nat.shiftRight_eq_div_pow, Nat.pow_mul]
  simp [ofNat, List.range_succ, shift]

/-- Every written digit is one of sixteen. -/
theorem mem_ofNat {c : Char} {width n : Nat} (mem : c ∈ ofNat width n) :
    ∃ d < 16, c = Nat.digitChar d := by
  obtain ⟨place, -, rfl⟩ := List.mem_map.mp mem
  exact ⟨_, Nat.mod_lt _ (by decide), rfl⟩

/-- Digits are read from the highest one on, with `read` as the number of those before them. -/
theorem foldlM_ofNat (n : Nat) :
    ∀ width read : Nat,
      (ofNat width n).foldlM (fun n c => (value? c).map fun d => 16 * n + d) read =
        some (16 ^ width * read + n % 16 ^ width)
  | 0, read => by simp [ofNat, Nat.mod_one]
  | width + 1, read => by
    rw [ofNat_succ, List.foldlM_cons, value?_digitChar _ (Nat.mod_lt _ (by decide))]
    simp only [Option.map_some, Option.bind_eq_bind, Option.bind_some]
    rw [foldlM_ofNat n width, Nat.mod_pow_succ]
    congr 1
    ring

theorem toNat?_ofNat {width n : Nat} (fits : n < 16 ^ width) : toNat? (ofNat width n) = some n := by
  rw [toNat?, foldlM_ofNat, Nat.mul_zero, Nat.zero_add, Nat.mod_eq_of_lt fits]

end Installer.Text.Hex
