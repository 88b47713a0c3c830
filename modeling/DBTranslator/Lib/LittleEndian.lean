import Mathlib.Data.BitVec

/-! Little-endian words: the bytes of a word and the word of a byte function. -/
namespace DBTranslator.Lib.LittleEndian

/-- Byte `i` of a word, counted from the least significant end. -/
def byte {w : Nat} (v : BitVec w) (i : Nat) : BitVec 8 := v.extractLsb' (8 * i) 8

/-- The word of `n` bytes whose byte `i` is `f i`. -/
def ofBytes : (n : Nat) → (Nat → BitVec 8) → BitVec (8 * n)
  | 0, _ => 0
  | n + 1, f => (f n ++ ofBytes n f).cast (by omega)

theorem getLsbD_ofBytes (n : Nat) (f : Nat → BitVec 8) (i : Nat) (hi : i < 8 * n) :
    (ofBytes n f).getLsbD i = (f (i / 8)).getLsbD (i % 8) := by
  induction n with
  | zero => omega
  | succ n ih =>
    rw [ofBytes, BitVec.getLsbD_cast, BitVec.getLsbD_append]
    by_cases hlow : i < 8 * n
    · rw [if_pos hlow, ih hlow]
    · have hdiv : i / 8 = n := by omega
      have hmod : i % 8 = i - 8 * n := by omega
      rw [if_neg hlow, hdiv, hmod]

/-- Reading back a byte of an assembled word gives the byte put there. -/
@[simp] theorem byte_ofBytes (n : Nat) (f : Nat → BitVec 8) (i : Nat) (hi : i < n) :
    byte (ofBytes n f) i = f i := by
  apply BitVec.eq_of_getLsbD_eq
  intro j hj
  have hdiv : (8 * i + j) / 8 = i := by omega
  have hmod : (8 * i + j) % 8 = j := by omega
  rw [byte, BitVec.getLsbD_extractLsb', getLsbD_ofBytes n f (8 * i + j) (by omega), hdiv, hmod]
  simp [hj]

theorem ofBytes_congr (n : Nat) {f g : Nat → BitVec 8} (h : ∀ i < n, f i = g i) :
    ofBytes n f = ofBytes n g := by
  apply BitVec.eq_of_getLsbD_eq
  intro i hi
  rw [getLsbD_ofBytes n f i hi, getLsbD_ofBytes n g i hi, h (i / 8) (by omega)]

/-- The low bytes of a word make its low part. -/
theorem ofBytes_byte {w : Nat} (v : BitVec w) (n : Nat) : ofBytes n (byte v) = v.setWidth (8 * n) := by
  apply BitVec.eq_of_getLsbD_eq
  intro i hi
  have hsum : 8 * (i / 8) + i % 8 = i := Nat.div_add_mod i 8
  have hmod : i % 8 < 8 := Nat.mod_lt i (by decide)
  rw [getLsbD_ofBytes n _ i hi, byte, BitVec.getLsbD_extractLsb', hsum, BitVec.getLsbD_setWidth]
  simp [hmod, hi]

theorem byte_setWidth {w : Nat} (v : BitVec w) {n i : Nat} (hi : i < n) :
    byte (v.setWidth (8 * n)) i = byte v i := by
  rw [← ofBytes_byte, byte_ofBytes n (byte v) i hi]

/-- The only byte of a byte. -/
theorem byte_zero (v : BitVec 8) : byte v 0 = v := BitVec.extractLsb'_eq_self

end DBTranslator.Lib.LittleEndian
