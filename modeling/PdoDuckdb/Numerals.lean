import PdoDuckdb.Bytes
import Mathlib.Data.Nat.Digits.Defs

namespace PdoDuckdb

open Byte

def hexDigit (n : ℕ) : Byte := ((ascii "0123456789abcdef")[n]?).getD 0

def decimal (n : ℕ) : List Byte := (Nat.toDigits 10 n).map Char.toUInt8

def signedDecimal (n : ℤ) : List Byte :=
  if n < 0 then minus :: decimal n.natAbs else decimal n.natAbs

theorem toNat_toUInt8 {a : Char} (h : a.isDigit) : a.toUInt8.toNat = a.toNat := by
  obtain ⟨h₀, h₉⟩ : 48 ≤ a.toNat ∧ a.toNat ≤ 57 := by
    simpa [Char.isDigit, UInt32.le_iff_toNat_le] using h
  simp only [Char.toUInt8, UInt32.toNat_toUInt8, Char.toNat] at h₀ h₉ ⊢
  omega

theorem isDigit_toUInt8 {a : Char} (h : a.isDigit) : isDigit a.toUInt8 := by
  obtain ⟨h₀, h₉⟩ : 48 ≤ a.toNat ∧ a.toNat ≤ 57 := by
    simpa [Char.isDigit, UInt32.le_iff_toNat_le] using h
  simp [isDigit, UInt8.le_iff_toNat_le, toNat_toUInt8 h, h₀, h₉]

theorem isDigit_of_mem_toDigits {a : Char} {n : ℕ} (h : a ∈ Nat.toDigits 10 n) : a.isDigit :=
  Nat.isDigit_of_mem_toDigits (by decide) (by decide) h

theorem isDigit_of_mem_decimal {c : Byte} {n : ℕ} (h : c ∈ decimal n) : isDigit c := by
  obtain ⟨a, ha, rfl⟩ := List.mem_map.mp h
  exact isDigit_toUInt8 (isDigit_of_mem_toDigits ha)

theorem decimal_ne_nil (n : ℕ) : decimal n ≠ [] := by
  simp [decimal, Nat.toDigits_ne_nil]

theorem length_decimal_le {n k : ℕ} (hk : 0 < k) (h : n < 10 ^ k) : (decimal n).length ≤ k := by
  rw [decimal, List.length_map]
  exact (Nat.length_toDigits_le_iff (by decide) hk).mpr h

theorem map_ofNat_decimal (n : ℕ) :
    (decimal n).map (fun c ↦ Char.ofNat c.toNat) = Nat.toDigits 10 n := by
  have hback : ∀ a ∈ Nat.toDigits 10 n, Char.ofNat a.toUInt8.toNat = a := by
    intro a ha
    rw [toNat_toUInt8 (isDigit_of_mem_toDigits ha), Char.ofNat_toNat]
  calc
    (decimal n).map (fun c ↦ Char.ofNat c.toNat) =
        (Nat.toDigits 10 n).map fun a ↦ Char.ofNat a.toUInt8.toNat := by
      rw [decimal, List.map_map]
      rfl
    _ = Nat.toDigits 10 n := by rw [List.map_congr_left hback, List.map_id']

theorem decimal_injective : Function.Injective decimal := by
  intro m n h
  have hdigits : Nat.toDigits 10 m = Nat.toDigits 10 n := by
    rw [← map_ofNat_decimal, h, map_ofNat_decimal]
  calc
    m = Nat.ofDigitChars 10 (Nat.toDigits 10 m) 0 := Nat.ofDigitChars_ten_toDigits.symm
    _ = Nat.ofDigitChars 10 (Nat.toDigits 10 n) 0 := by rw [hdigits]
    _ = n := Nat.ofDigitChars_ten_toDigits

theorem minus_notMem_decimal (n : ℕ) : minus ∉ decimal n :=
  fun h ↦ absurd (isDigit_of_mem_decimal h) (by decide)

end PdoDuckdb
