import Mathlib.Tactic

/-!
Words as bytes, the lowest byte first.

`bytesOfWord` are the four bytes of a word of 32 bits and `wordOfBytes` reads them back:
`wordOfBytes_bytesOfWord`.
-/

namespace ColumnDb

/-- The unsigned integer in a block of bytes, the lowest byte first. -/
def wordOfBytes (bs : List UInt8) : ℕ := bs.foldr (fun b n => b.toNat + 256 * n) 0

/-- The four bytes of a word of 32 bits. -/
def bytesOfWord (n : ℕ) : List UInt8 :=
  [UInt8.ofNat n, UInt8.ofNat (n / 2 ^ 8), UInt8.ofNat (n / 2 ^ 16), UInt8.ofNat (n / 2 ^ 24)]

@[simp] lemma length_bytesOfWord (n : ℕ) : (bytesOfWord n).length = 4 := rfl

/-- **Reading a word back** from its bytes. -/
theorem wordOfBytes_bytesOfWord {n : ℕ} (h : n < 2 ^ 32) : wordOfBytes (bytesOfWord n) = n := by
  simp only [wordOfBytes, bytesOfWord, List.foldr_cons, List.foldr_nil, UInt8.toNat_ofNat']
  omega

end ColumnDb
