/-
Module: MonoRuntime.Lib.ByteFields
Purpose: Numbers of several bytes on which one function acts in every byte: shifts and masks that stay inside of the bytes are
  such functions, and so are sums and differences of them where no byte overflows. The bits of a number are counted byte for
  byte.
Trusted boundary: none
Main exports: mapBytes
-/
import Mathlib.Algebra.BigOperators.Intervals
import Mathlib.Data.Nat.Bitwise

namespace MonoRuntime.ByteFields

/-! ### One function in every byte -/

/-- A number of `n` bytes, with a function applied to each of them. -/
def mapBytes (f : Nat → Nat) : (n x : Nat) → Nat
  | 0, _ => 0
  | n + 1, x => f (x % 256) + 256 * mapBytes f n (x / 256)

/-- The same byte, `n` times. -/
def rep (c n : Nat) : Nat :=
  mapBytes (fun _ => c) n 0

section Maps

variable {f g : Nat → Nat} {n x c : Nat}

theorem mod_byte (x : Nat) : x % 256 < 256 :=
  Nat.mod_lt x (by decide)

theorem mapBytes_succ (f : Nat → Nat) (n x : Nat) : mapBytes f (n + 1) x = f (x % 256) + 256 * mapBytes f n (x / 256) :=
  rfl

theorem rep_succ (c n : Nat) : rep c (n + 1) = c + 256 * rep c n :=
  rfl

theorem mapBytes_lt (bytes : ∀ a < 256, f a < 256) : ∀ n x, mapBytes f n x < 256 ^ n
  | 0, _ => Nat.one_pos
  | n + 1, x => by
      have first := bytes (x % 256) (mod_byte x)
      have rest := mapBytes_lt bytes n (x / 256)
      rw [mapBytes_succ, Nat.pow_succ]
      omega

theorem mapBytes_id : ∀ n x, x < 256 ^ n → mapBytes id n x = x
  | 0, x, bound => by
      rw [mapBytes]
      omega
  | n + 1, x, bound => by
      rw [Nat.pow_succ] at bound
      rw [mapBytes_succ, mapBytes_id n (x / 256) (by omega)]
      exact Nat.mod_add_div x 256

theorem mapBytes_add : ∀ n x, mapBytes f n x + mapBytes g n x = mapBytes (fun a => f a + g a) n x
  | 0, _ => rfl
  | n + 1, x => by
      rw [mapBytes_succ, mapBytes_succ, mapBytes_succ, ← mapBytes_add n (x / 256)]
      omega

theorem mapBytes_sub (le : ∀ a < 256, g a ≤ f a) :
    ∀ n x, mapBytes g n x ≤ mapBytes f n x ∧ mapBytes f n x - mapBytes g n x = mapBytes (fun a => f a - g a) n x
  | 0, _ => ⟨le_refl 0, rfl⟩
  | n + 1, x => by
      have first := le (x % 256) (mod_byte x)
      obtain ⟨rest, differs⟩ := mapBytes_sub le n (x / 256)
      rw [mapBytes_succ, mapBytes_succ, mapBytes_succ, ← differs]
      omega

theorem mapBytes_comp (bytes : ∀ a < 256, g a < 256) :
    ∀ n x, mapBytes f n (mapBytes g n x) = mapBytes (fun a => f (g a)) n x
  | 0, _ => rfl
  | n + 1, x => by
      have first := bytes (x % 256) (mod_byte x)
      have low : mapBytes g (n + 1) x % 256 = g (x % 256) := by
        rw [mapBytes_succ]
        omega
      have high : mapBytes g (n + 1) x / 256 = mapBytes g n (x / 256) := by
        rw [mapBytes_succ]
        omega
      rw [mapBytes_succ, low, high, mapBytes_comp bytes n (x / 256)]
      rfl

theorem mapBytes_congr (same : ∀ a < 256, f a = g a) : ∀ n x, mapBytes f n x = mapBytes g n x
  | 0, _ => rfl
  | n + 1, x => by rw [mapBytes_succ, mapBytes_succ, same _ (mod_byte x), mapBytes_congr same n (x / 256)]

end Maps

/-! ### Masks -/

section Masks

variable {c n x : Nat}

theorem and_byte (u v : Nat) (byte : c < 256) : u &&& (c + 256 * v) = (u % 256 &&& c) + 256 * (u / 256 &&& v) := by
  have parts : u &&& (c + 256 * v) = 256 * ((u &&& (c + 256 * v)) / 256) + (u &&& (c + 256 * v)) % 256 :=
    (Nat.div_add_mod _ _).symm
  have low : (c + 256 * v) % 256 = c := by omega
  have high : (c + 256 * v) / 256 = v := by omega
  rw [parts, show 256 = 2 ^ 8 by rfl, Nat.and_mod_two_pow, Nat.and_div_two_pow]
  rw [show 2 ^ 8 = 256 by rfl, low, high]
  omega

/-- A shift and a mask that leaves out what the shift brings from the next byte. -/
theorem and_rep {s : Nat} (small : s ≤ 8) (mask : c < 2 ^ (8 - s)) :
    ∀ n x, x / 2 ^ s &&& rep c n = mapBytes (fun a => a / 2 ^ s &&& c) n x
  | 0, x => Nat.and_zero _
  | n + 1, x => by
      have byte : c < 256 := mask.trans_le (Nat.pow_le_pow_right (by decide) (Nat.sub_le 8 s))
      have first : x / 2 ^ s % 256 &&& c = x % 256 / 2 ^ s &&& c := by
        apply Nat.eq_of_testBit_eq
        intro i
        rw [Nat.testBit_and, Nat.testBit_and, show 256 = 2 ^ 8 by rfl, Nat.testBit_mod_two_pow, Nat.testBit_div_two_pow,
          Nat.testBit_div_two_pow, Nat.testBit_mod_two_pow]
        by_cases inside : i < 8 - s
        · simp [show i < 8 by omega, show i + s < 8 by omega]
        · rw [Nat.testBit_lt_two_pow (mask.trans_le (Nat.pow_le_pow_right (by decide) (by omega : 8 - s ≤ i)))]
          simp
      have rest : x / 2 ^ s / 256 = x / 256 / 2 ^ s := by
        rw [Nat.div_div_eq_div_mul, Nat.div_div_eq_div_mul, Nat.mul_comm]
      rw [rep_succ, and_byte _ _ byte, first, rest, and_rep small mask n (x / 256)]
      rfl

/-- The two halves of every byte are added, and the mask keeps the sums, where the halves are below eight. -/
theorem and_rep_nibbles {g : Nat → Nat} (low : ∀ a < 256, g a % 16 < 8) (high : ∀ a < 256, g a / 16 < 8) :
    ∀ n x, mapBytes g n x / 16 + mapBytes g n x &&& rep 15 n = mapBytes (fun a => g a / 16 + g a % 16) n x
  | 0, _ => Nat.and_zero _
  | n + 1, x => by
      have first := low (x % 256) (mod_byte x)
      have second := high (x % 256) (mod_byte x)
      have next : mapBytes g n (x / 256) % 16 < 8 := by
        cases n with
        | zero => exact Nat.zero_lt_succ 7
        | succ n =>
          have half := low (x / 256 % 256) (mod_byte _)
          rw [mapBytes_succ]
          omega
      have ih := and_rep_nibbles low high n (x / 256)
      rw [rep_succ, and_byte _ _ (by decide), show 15 = 2 ^ 4 - 1 by rfl, Nat.and_two_pow_sub_one_eq_mod]
      rw [show 2 ^ 4 - 1 = 15 by rfl]
      rw [mapBytes_succ, mapBytes_succ, ← ih]
      have quotient : ((g (x % 256) + 256 * mapBytes g n (x / 256)) / 16 +
          (g (x % 256) + 256 * mapBytes g n (x / 256))) / 256 =
          mapBytes g n (x / 256) / 16 + mapBytes g n (x / 256) := by
        omega
      rw [quotient]
      omega

end Masks

/-! ### Counting -/

/-- The sum of a function over the bytes. -/
def sumBytes (f : Nat → Nat) : (n x : Nat) → Nat
  | 0, _ => 0
  | n + 1, x => f (x % 256) + sumBytes f n (x / 256)

/-- The bits below `n` that are set. -/
def bitCount (n x : Nat) : Nat :=
  ∑ b ∈ Finset.range n, (x.testBit b).toNat

theorem bitCount_bytes : ∀ n x, bitCount (8 * n) x = sumBytes (bitCount 8) n x
  | 0, _ => rfl
  | n + 1, x => by
      rw [sumBytes, ← bitCount_bytes n (x / 256), show 8 * (n + 1) = 8 + 8 * n by omega]
      unfold bitCount
      rw [Finset.sum_range_add]
      congr 1
      · refine Finset.sum_congr rfl fun b inside => ?_
        rw [show 256 = 2 ^ 8 by rfl, Nat.testBit_mod_two_pow, decide_eq_true (Finset.mem_range.mp inside), Bool.true_and]
      · refine Finset.sum_congr rfl fun b _ => ?_
        rw [show 256 = 2 ^ 8 by rfl, Nat.testBit_div_two_pow, Nat.add_comm]

end MonoRuntime.ByteFields
