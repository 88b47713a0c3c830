import DBTranslator.Lib.BitField

/-! The six RISC-V base instruction formats: how operands are laid out in a word, and the
fields read back from it. -/
namespace DBTranslator.Lib.RiscvFormat
open BitField

abbrev Word := BitVec 32

def opcode (w : Word) : BitVec 7 := w.extractLsb' 0 7
def rd (w : Word) : BitVec 5 := w.extractLsb' 7 5
def funct3 (w : Word) : BitVec 3 := w.extractLsb' 12 3
def rs1 (w : Word) : BitVec 5 := w.extractLsb' 15 5
def rs2 (w : Word) : BitVec 5 := w.extractLsb' 20 5
def funct7 (w : Word) : BitVec 7 := w.extractLsb' 25 7
def imm12 (w : Word) : BitVec 12 := w.extractLsb' 20 12
def upperImm (w : Word) : BitVec 20 := w.extractLsb' 12 20

/-- The immediate of a store, from its two fields. -/
def storeImm (w : Word) : BitVec 12 := funct7 w ++ rd w

/-- The immediate of a branch: sign, bit 11, two groups of bits and the bit not encoded. -/
def branchImm (w : Word) : BitVec 13 :=
  (funct7 w).extractLsb' 6 1 ++ ((rd w).extractLsb' 0 1 ++
    ((funct7 w).extractLsb' 0 6 ++ ((rd w).extractLsb' 1 4 ++ 0#1)))

/-- The immediate of a jump: sign, eight bits, bit 11, ten bits and the bit not encoded. -/
def jumpImm (w : Word) : BitVec 21 :=
  w.extractLsb' 31 1 ++ (w.extractLsb' 12 8 ++ (w.extractLsb' 20 1 ++ (w.extractLsb' 21 10 ++ 0#1)))

section Fields
variable (w : Word)

theorem toNat_opcode : (opcode w).toNat = w.toNat % 2 ^ 7 := by
  rw [opcode, toNat_extract, Nat.pow_zero, Nat.div_one]

theorem toNat_rd : (rd w).toNat = w.toNat / 2 ^ 7 % 2 ^ 5 := toNat_extract w 7 5
theorem toNat_funct3 : (funct3 w).toNat = w.toNat / 2 ^ 12 % 2 ^ 3 := toNat_extract w 12 3
theorem toNat_rs1 : (rs1 w).toNat = w.toNat / 2 ^ 15 % 2 ^ 5 := toNat_extract w 15 5
theorem toNat_rs2 : (rs2 w).toNat = w.toNat / 2 ^ 20 % 2 ^ 5 := toNat_extract w 20 5
theorem toNat_funct7 : (funct7 w).toNat = w.toNat / 2 ^ 25 % 2 ^ 7 := toNat_extract w 25 7
theorem toNat_imm12 : (imm12 w).toNat = w.toNat / 2 ^ 20 % 2 ^ 12 := toNat_extract w 20 12
theorem toNat_upperImm : (upperImm w).toNat = w.toNat / 2 ^ 12 % 2 ^ 20 := toNat_extract w 12 20

theorem toNat_storeImm : (storeImm w).toNat = (funct7 w).toNat * 2 ^ 5 + (rd w).toNat :=
  toNat_append (funct7 w) (rd w)

theorem toNat_branchImm : (branchImm w).toNat = (funct7 w).toNat / 2 ^ 6 * 2 ^ 12 +
    (rd w).toNat % 2 * 2 ^ 11 + (funct7 w).toNat % 2 ^ 6 * 2 ^ 5 + (rd w).toNat / 2 * 2 := by
  have hf := (funct7 w).isLt
  have hd := (rd w).isLt
  unfold branchImm
  simp only [toNat_append, toNat_extract, BitVec.toNat_ofNat]
  omega

theorem toNat_jumpImm : (jumpImm w).toNat = w.toNat / 2 ^ 31 % 2 * 2 ^ 20 +
    w.toNat / 2 ^ 12 % 2 ^ 8 * 2 ^ 12 + w.toNat / 2 ^ 20 % 2 * 2 ^ 11 + w.toNat / 2 ^ 21 % 2 ^ 10 * 2 := by
  unfold jumpImm
  simp only [toNat_append, toNat_extract, BitVec.toNat_ofNat]
  omega

end Fields

def rType (f7 : BitVec 7) (r2 r1 : BitVec 5) (f3 : BitVec 3) (d : BitVec 5) (op : BitVec 7) :
    Word :=
  f7 ++ (r2 ++ (r1 ++ (f3 ++ (d ++ op))))

def iType (imm : BitVec 12) (r1 : BitVec 5) (f3 : BitVec 3) (d : BitVec 5) (op : BitVec 7) :
    Word :=
  imm ++ (r1 ++ (f3 ++ (d ++ op)))

def sType (imm : BitVec 12) (r2 r1 : BitVec 5) (f3 : BitVec 3) (op : BitVec 7) : Word :=
  rType (imm.extractLsb' 5 7) r2 r1 f3 (imm.extractLsb' 0 5) op

/-- The branch immediate counts bytes; bit 0 is not encoded. -/
def bType (imm : BitVec 13) (r2 r1 : BitVec 5) (f3 : BitVec 3) (op : BitVec 7) : Word :=
  rType (imm.extractLsb' 12 1 ++ imm.extractLsb' 5 6) r2 r1 f3
    (imm.extractLsb' 1 4 ++ imm.extractLsb' 11 1) op

def uType (imm : BitVec 20) (d : BitVec 5) (op : BitVec 7) : Word := imm ++ (d ++ op)

/-- The jump immediate counts bytes; bit 0 is not encoded. -/
def jType (imm : BitVec 21) (d : BitVec 5) (op : BitVec 7) : Word :=
  uType (imm.extractLsb' 20 1 ++ (imm.extractLsb' 1 10 ++
    (imm.extractLsb' 11 1 ++ imm.extractLsb' 12 8))) d op

theorem toNat_rType (f7 : BitVec 7) (r2 r1 : BitVec 5) (f3 : BitVec 3) (d : BitVec 5)
    (op : BitVec 7) : (rType f7 r2 r1 f3 d op).toNat =
      f7.toNat * 2 ^ 25 + r2.toNat * 2 ^ 20 + r1.toNat * 2 ^ 15 + f3.toNat * 2 ^ 12 +
        d.toNat * 2 ^ 7 + op.toNat := by
  unfold rType
  simp only [toNat_append]
  omega

theorem toNat_iType (imm : BitVec 12) (r1 : BitVec 5) (f3 : BitVec 3) (d : BitVec 5)
    (op : BitVec 7) : (iType imm r1 f3 d op).toNat =
      imm.toNat * 2 ^ 20 + r1.toNat * 2 ^ 15 + f3.toNat * 2 ^ 12 + d.toNat * 2 ^ 7 + op.toNat := by
  unfold iType
  simp only [toNat_append]
  omega

theorem toNat_uType (imm : BitVec 20) (d : BitVec 5) (op : BitVec 7) :
    (uType imm d op).toNat = imm.toNat * 2 ^ 12 + d.toNat * 2 ^ 7 + op.toNat := by
  unfold uType
  simp only [toNat_append]
  omega

/-- The four groups of a jump immediate that counts half-words, put back in order. -/
theorem toNat_jType (imm : BitVec 21) (d : BitVec 5) (op : BitVec 7) (heven : imm.toNat % 2 = 0) :
    (jType imm d op).toNat / 2 ^ 31 % 2 * 2 ^ 20 + (jType imm d op).toNat / 2 ^ 12 % 2 ^ 8 * 2 ^ 12 +
      (jType imm d op).toNat / 2 ^ 20 % 2 * 2 ^ 11 + (jType imm d op).toNat / 2 ^ 21 % 2 ^ 10 * 2 =
        imm.toNat := by
  have himm := imm.isLt
  have hd := d.isLt
  have hop := op.isLt
  have h11 : imm.toNat / 2 ^ 11 = imm.toNat / 2 / 2 ^ 10 :=
    (Nat.div_div_eq_div_mul imm.toNat 2 (2 ^ 10)).symm
  have h12 : imm.toNat / 2 ^ 12 = imm.toNat / 2 ^ 11 / 2 :=
    (Nat.div_div_eq_div_mul imm.toNat (2 ^ 11) 2).symm
  have h20 : imm.toNat / 2 ^ 20 = imm.toNat / 2 ^ 12 / 2 ^ 8 :=
    (Nat.div_div_eq_div_mul imm.toNat (2 ^ 12) (2 ^ 8)).symm
  -- the word above `rd`, group by group from the sign down
  obtain ⟨x, hx⟩ : ∃ x, x = imm.toNat / 2 ^ 20 % 2 * 2 ^ 10 + imm.toNat / 2 % 2 ^ 10 := ⟨_, rfl⟩
  obtain ⟨y, hy⟩ : ∃ y, y = x * 2 + imm.toNat / 2 ^ 11 % 2 := ⟨_, rfl⟩
  obtain ⟨z, hz⟩ : ∃ z, z = y * 2 ^ 8 + imm.toNat / 2 ^ 12 % 2 ^ 8 := ⟨_, rfl⟩
  have hword : (jType imm d op).toNat / 2 ^ 12 = z := by
    unfold jType
    simp only [toNat_uType, toNat_append, toNat_extract]
    omega
  have w20 : (jType imm d op).toNat / 2 ^ 20 = y := by
    rw [show (2 : Nat) ^ 20 = 2 ^ 12 * 2 ^ 8 from rfl, ← Nat.div_div_eq_div_mul, hword]
    omega
  have w21 : (jType imm d op).toNat / 2 ^ 21 = x := by
    rw [show (2 : Nat) ^ 21 = 2 ^ 20 * 2 from rfl, ← Nat.div_div_eq_div_mul, w20]
    omega
  have w31 : (jType imm d op).toNat / 2 ^ 31 = imm.toNat / 2 ^ 20 % 2 := by
    rw [show (2 : Nat) ^ 31 = 2 ^ 21 * 2 ^ 10 from rfl, ← Nat.div_div_eq_div_mul, w21]
    omega
  have gz : z % 2 ^ 8 = imm.toNat / 2 ^ 12 % 2 ^ 8 := by omega
  have gy : y % 2 = imm.toNat / 2 ^ 11 % 2 := by omega
  have gx : x % 2 ^ 10 = imm.toNat / 2 % 2 ^ 10 := by omega
  clear hx hy hz
  rw [w31, hword, w20, w21, gz, gy, gx]
  omega

section ReadBack
variable (f7 : BitVec 7) (r2 r1 : BitVec 5) (f3 : BitVec 3) (d : BitVec 5) (op : BitVec 7)

@[simp] theorem opcode_rType : opcode (rType f7 r2 r1 f3 d op) = op := by
  apply BitVec.eq_of_toNat_eq
  rw [toNat_opcode, toNat_rType]
  omega

@[simp] theorem rd_rType : rd (rType f7 r2 r1 f3 d op) = d := by
  apply BitVec.eq_of_toNat_eq
  rw [toNat_rd, toNat_rType]
  omega

@[simp] theorem funct3_rType : funct3 (rType f7 r2 r1 f3 d op) = f3 := by
  apply BitVec.eq_of_toNat_eq
  rw [toNat_funct3, toNat_rType]
  omega

@[simp] theorem rs1_rType : rs1 (rType f7 r2 r1 f3 d op) = r1 := by
  apply BitVec.eq_of_toNat_eq
  rw [toNat_rs1, toNat_rType]
  omega

@[simp] theorem rs2_rType : rs2 (rType f7 r2 r1 f3 d op) = r2 := by
  apply BitVec.eq_of_toNat_eq
  rw [toNat_rs2, toNat_rType]
  omega

@[simp] theorem funct7_rType : funct7 (rType f7 r2 r1 f3 d op) = f7 := by
  apply BitVec.eq_of_toNat_eq
  rw [toNat_funct7, toNat_rType]
  omega

/-- An R-type word is an I-type word whose immediate holds `funct7` and `rs2`. -/
theorem iType_eq_rType (imm : BitVec 12) :
    iType imm r1 f3 d op = rType (imm.extractLsb' 5 7) (imm.extractLsb' 0 5) r1 f3 d op := by
  apply BitVec.eq_of_toNat_eq
  rw [toNat_iType, toNat_rType, toNat_extract, toNat_extract]
  omega

@[simp] theorem opcode_iType (imm : BitVec 12) : opcode (iType imm r1 f3 d op) = op := by
  rw [iType_eq_rType, opcode_rType]

@[simp] theorem rd_iType (imm : BitVec 12) : rd (iType imm r1 f3 d op) = d := by
  rw [iType_eq_rType, rd_rType]

@[simp] theorem funct3_iType (imm : BitVec 12) : funct3 (iType imm r1 f3 d op) = f3 := by
  rw [iType_eq_rType, funct3_rType]

@[simp] theorem rs1_iType (imm : BitVec 12) : rs1 (iType imm r1 f3 d op) = r1 := by
  rw [iType_eq_rType, rs1_rType]

@[simp] theorem imm12_iType (imm : BitVec 12) : imm12 (iType imm r1 f3 d op) = imm := by
  apply BitVec.eq_of_toNat_eq
  rw [toNat_imm12, toNat_iType]
  omega

@[simp] theorem opcode_uType (imm : BitVec 20) : opcode (uType imm d op) = op := by
  apply BitVec.eq_of_toNat_eq
  rw [toNat_opcode, toNat_uType]
  omega

@[simp] theorem rd_uType (imm : BitVec 20) : rd (uType imm d op) = d := by
  apply BitVec.eq_of_toNat_eq
  rw [toNat_rd, toNat_uType]
  omega

@[simp] theorem upperImm_uType (imm : BitVec 20) : upperImm (uType imm d op) = imm := by
  apply BitVec.eq_of_toNat_eq
  rw [toNat_upperImm, toNat_uType]
  omega

@[simp] theorem storeImm_sType (imm : BitVec 12) : storeImm (sType imm r2 r1 f3 op) = imm := by
  have himm := imm.isLt
  apply BitVec.eq_of_toNat_eq
  rw [toNat_storeImm, sType, funct7_rType, rd_rType, toNat_extract, toNat_extract]
  omega

/-- The groups of a branch immediate that counts half-words, put back in order. -/
theorem branchImm_bType (imm : BitVec 13) (heven : imm.toNat % 2 = 0) :
    branchImm (bType imm r2 r1 f3 op) = imm := by
  have himm := imm.isLt
  have h5 : imm.toNat / 2 ^ 5 = imm.toNat / 2 ^ 1 / 2 ^ 4 :=
    (Nat.div_div_eq_div_mul imm.toNat (2 ^ 1) (2 ^ 4)).symm
  have h11 : imm.toNat / 2 ^ 11 = imm.toNat / 2 ^ 5 / 2 ^ 6 :=
    (Nat.div_div_eq_div_mul imm.toNat (2 ^ 5) (2 ^ 6)).symm
  have h12 : imm.toNat / 2 ^ 12 = imm.toNat / 2 ^ 11 / 2 :=
    (Nat.div_div_eq_div_mul imm.toNat (2 ^ 11) 2).symm
  have hone : imm.toNat = imm.toNat / 2 ^ 1 * 2 := by omega
  apply BitVec.eq_of_toNat_eq
  rw [toNat_branchImm, bType, funct7_rType, rd_rType]
  simp only [toNat_append, toNat_extract]
  -- the digits of the immediate, from the highest down
  generalize imm.toNat / 2 ^ 12 = q12 at *
  generalize imm.toNat / 2 ^ 11 = q11 at *
  generalize imm.toNat / 2 ^ 5 = q5 at *
  generalize imm.toNat / 2 ^ 1 = q1 at *
  have hsign : (q12 % 2 ^ 1 * 2 ^ 6 + q5 % 2 ^ 6) / 2 ^ 6 = q12 := by omega
  have hmid : (q12 % 2 ^ 1 * 2 ^ 6 + q5 % 2 ^ 6) % 2 ^ 6 = q5 % 2 ^ 6 := by omega
  have hbit : (q1 % 2 ^ 4 * 2 ^ 1 + q11 % 2 ^ 1) % 2 = q11 % 2 := by omega
  have hlow : (q1 % 2 ^ 4 * 2 ^ 1 + q11 % 2 ^ 1) / 2 = q1 % 2 ^ 4 := by omega
  rw [hsign, hmid, hbit, hlow, hone]
  omega

@[simp] theorem rs1_sType (imm : BitVec 12) : rs1 (sType imm r2 r1 f3 op) = r1 := rs1_rType _ _ _ _ _ _
@[simp] theorem rs2_sType (imm : BitVec 12) : rs2 (sType imm r2 r1 f3 op) = r2 := rs2_rType _ _ _ _ _ _
@[simp] theorem rs1_bType (imm : BitVec 13) : rs1 (bType imm r2 r1 f3 op) = r1 := rs1_rType _ _ _ _ _ _
@[simp] theorem rs2_bType (imm : BitVec 13) : rs2 (bType imm r2 r1 f3 op) = r2 := rs2_rType _ _ _ _ _ _

end ReadBack

end DBTranslator.Lib.RiscvFormat
