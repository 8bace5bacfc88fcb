import Mathlib.Tactic

/-!
# Fixed-width big-endian numerals

`beBytes n v` is the low `n` bytes of `v`, most significant first, and `beVal` reads bytes
back. They are inverse to each other on the `n`-byte strings and the numbers below `256 ^ n`.
-/

set_option autoImplicit false

namespace PulseForge.Foundation

/-- The low `n` bytes of `v`, most significant first. -/
def beBytes : ℕ → ℕ → List UInt8
  | 0, _ => []
  | n + 1, v => beBytes n (v / 256) ++ [UInt8.ofNat v]

/-- The number that bytes spell, most significant first. -/
def beVal (bs : List UInt8) : ℕ := bs.foldl (fun v p => v * 256 + p.toNat) 0

@[simp] theorem length_beBytes (n v : ℕ) : (beBytes n v).length = n := by
  induction n generalizing v with
  | zero => rfl
  | succ n ih => simp [beBytes, ih]

@[simp] theorem beVal_nil : beVal [] = 0 := rfl

@[simp] theorem beVal_concat (bs : List UInt8) (b : UInt8) :
    beVal (bs ++ [b]) = beVal bs * 256 + b.toNat := by
  simp [beVal]

/-- The bytes bound the value. -/
theorem beVal_lt (bs : List UInt8) : beVal bs < 256 ^ bs.length := by
  induction bs using List.reverseRecOn with
  | nil => simp
  | append_singleton bs b ih =>
    rw [beVal_concat, List.length_append, List.length_singleton, pow_succ]
    have hb := b.toNat_lt
    omega

/-- **Reading back what was written**: the low bytes of the number. -/
theorem beVal_beBytes (n v : ℕ) : beVal (beBytes n v) = v % 256 ^ n := by
  induction n generalizing v with
  | zero => simp [beBytes, Nat.mod_one]
  | succ n ih =>
    have hlow : (UInt8.ofNat v).toNat = v % 256 := UInt8.toNat_ofNat'
    have hsplit : v % 256 ^ (n + 1) = v % 256 + 256 * (v / 256 % 256 ^ n) := by
      rw [pow_succ', Nat.mod_mul]
    rw [beBytes, beVal_concat, ih, hlow, hsplit]
    omega

/-- **Writing back what was read.** -/
theorem beBytes_beVal {n : ℕ} (bs : List UInt8) (h : bs.length = n) : beBytes n (beVal bs) = bs := by
  induction bs using List.reverseRecOn generalizing n with
  | nil => rw [← h]; rfl
  | append_singleton bs b ih =>
    obtain rfl : n = bs.length + 1 := by simpa using h.symm
    have hb := b.toNat_lt
    have hdiv : (beVal bs * 256 + b.toNat) / 256 = beVal bs := by omega
    have hlow : UInt8.ofNat (beVal bs * 256 + b.toNat) = b := by
      apply UInt8.toNat.inj
      rw [UInt8.toNat_ofNat']
      omega
    rw [beVal_concat, beBytes, hdiv, ih rfl, hlow]

/-- A value that fits comes back. -/
theorem beVal_beBytes_of_lt {n v : ℕ} (h : v < 256 ^ n) : beVal (beBytes n v) = v := by
  rw [beVal_beBytes, Nat.mod_eq_of_lt h]

end PulseForge.Foundation
