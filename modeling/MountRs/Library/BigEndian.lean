import Mathlib.Data.Nat.Digits.Lemmas

/-! # Big endian numbers -/

namespace MountRs

/-- `to_be_bytes` of a number of `width` bytes. -/
def toBeBytes (width n : ℕ) : List UInt8 :=
  (List.range width).reverse.map fun k => UInt8.ofNat (n / 256 ^ k)

def fromBeBytes (bytes : List UInt8) : ℕ := Nat.ofDigits 256 (bytes.reverse.map UInt8.toNat)

@[simp] theorem length_toBeBytes (width n : ℕ) : (toBeBytes width n).length = width := by
  simp [toBeBytes]

theorem digit_lt (bytes : List UInt8) : ∀ d ∈ bytes.reverse.map UInt8.toNat, d < 256 := by
  simp only [List.mem_map]
  rintro _ ⟨b, -, rfl⟩
  exact b.toNat_lt

theorem fromBeBytes_lt (bytes : List UInt8) : fromBeBytes bytes < 256 ^ bytes.length := by
  simpa [fromBeBytes] using Nat.ofDigits_lt_base_pow_length (by decide) (digit_lt bytes)

theorem fromBeBytes_toBeBytes (width n : ℕ) :
    fromBeBytes (toBeBytes width n) = n % 256 ^ width := by
  induction width with
  | zero => simp [toBeBytes, fromBeBytes, Nat.mod_one]
  | succ width ih =>
    simp only [fromBeBytes, toBeBytes, ← List.map_reverse, List.reverse_reverse, List.range_succ,
      List.map_append, Nat.ofDigits_append] at ih ⊢
    rw [ih, pow_succ, Nat.mod_mul]
    simp

theorem toBeBytes_fromBeBytes {width : ℕ} {bytes : List UInt8} (h : bytes.length = width) :
    toBeBytes width (fromBeBytes bytes) = bytes := by
  have hdigits : (toBeBytes width (fromBeBytes bytes)).reverse.map UInt8.toNat =
      bytes.reverse.map UInt8.toNat := by
    refine Nat.ofDigits_inj_of_len_eq (by decide) (by simp [h]) (digit_lt _) (digit_lt _) ?_
    exact (fromBeBytes_toBeBytes _ _).trans (Nat.mod_eq_of_lt (h ▸ fromBeBytes_lt bytes))
  exact List.reverse_injective (List.map_injective_iff.2 (fun _ _ => UInt8.toNat_inj.1) hdigits)

end MountRs
