import DBTranslator.Lib.Rv32i
import DBTranslator.Riscv.Effect
import DBTranslator.Riscv.Encoding

/-! The immediates that the `build_ir` bodies put together from the fields of a word, against the
immediates of the instruction formats. -/
namespace DBTranslator.Riscv
open Lib Lib.BitField

section Formats
variable (w : BitVec 32)

theorem immediate_eq : immediate w = (RiscvFormat.imm12 w).signExtend 32 := by
  have hfield := toNat_field w 20 12 0xFFF#32 rfl
  have hlt : ((w >>> 20) &&& 0xFFF#32).toNat < 2 ^ 12 := by omega
  unfold immediate
  dsimp only
  rw [signFill_eq _ 11 0x800#32 0xFFFFF000#32 rfl rfl (by decide) hlt]
  congr 1
  apply BitVec.eq_of_toNat_eq
  rw [BitVec.toNat_setWidth, hfield, RiscvFormat.toNat_imm12, Nat.mod_mod]

/-- The store immediate is reassembled from its two fields. -/
theorem storeOffset_eq : storeOffset w = (RiscvFormat.storeImm w).signExtend 32 := by
  have h25 := toNat_field w 25 7 0x7F#32 rfl
  have h7 := toNat_field w 7 5 0x1F#32 rfl
  have s25 := toNat_shift (x := (w >>> 25) &&& 0x7F#32) 5 (by omega)
  have hfield : (((w >>> 25) &&& 0x7F#32) <<< 5 ||| ((w >>> 7) &&& 0x1F#32)).toNat =
      (RiscvFormat.storeImm w).toNat := by
    rw [toNat_or_low 5 (by omega) (by omega), s25, h25, h7, RiscvFormat.toNat_storeImm,
      RiscvFormat.toNat_funct7, RiscvFormat.toNat_rd]
  unfold storeOffset
  dsimp only
  rw [signFill_eq _ 11 0x800#32 0xFFFFF000#32 rfl rfl (by decide) (by rw [hfield]; exact BitVec.isLt _)]
  congr 1
  apply BitVec.eq_of_toNat_eq
  rw [BitVec.toNat_setWidth, hfield, Nat.mod_eq_of_lt (BitVec.isLt _)]

/-- The four groups of a branch word are shifted to their places and the sign is bit 12. -/
theorem branchOffset_eq : branchOffset w = (RiscvFormat.branchImm w).signExtend 32 := by
  have h31 := toNat_field w 31 1 0x1#32 rfl
  have h7 := toNat_field w 7 1 0x1#32 rfl
  have h25 := toNat_field w 25 6 0x3F#32 rfl
  have h8 := toNat_field w 8 4 0xF#32 rfl
  have s31 := toNat_shift (x := (w >>> 31) &&& 0x1#32) 12 (by omega)
  have s7 := toNat_shift (x := (w >>> 7) &&& 0x1#32) 11 (by omega)
  have s25 := toNat_shift (x := (w >>> 25) &&& 0x3F#32) 5 (by omega)
  have s8 := toNat_shift (x := (w >>> 8) &&& 0xF#32) 1 (by omega)
  have hsign : (RiscvFormat.funct7 w).toNat / 2 ^ 6 = w.toNat / 2 ^ 31 % 2 ^ 1 := by
    rw [RiscvFormat.toNat_funct7]
    omega
  have hmid : (RiscvFormat.funct7 w).toNat % 2 ^ 6 = w.toNat / 2 ^ 25 % 2 ^ 6 := by
    rw [RiscvFormat.toNat_funct7]
    omega
  have hbit : (RiscvFormat.rd w).toNat % 2 = w.toNat / 2 ^ 7 % 2 ^ 1 := by
    rw [RiscvFormat.toNat_rd]
    omega
  have hlow : (RiscvFormat.rd w).toNat / 2 = w.toNat / 2 ^ 8 % 2 ^ 4 := by
    rw [RiscvFormat.toNat_rd]
    omega
  have hfield : (((w >>> 31) &&& 0x1#32) <<< 12 ||| ((w >>> 7) &&& 0x1#32) <<< 11
      ||| ((w >>> 25) &&& 0x3F#32) <<< 5 ||| ((w >>> 8) &&& 0xF#32) <<< 1).toNat =
      (RiscvFormat.branchImm w).toNat := by
    have o1 := toNat_or_low 12 (x := ((w >>> 31) &&& 0x1#32) <<< 12)
      (y := ((w >>> 7) &&& 0x1#32) <<< 11) (by omega) (by omega)
    have o2 := toNat_or_low 11 (x := ((w >>> 31) &&& 0x1#32) <<< 12 ||| ((w >>> 7) &&& 0x1#32) <<< 11)
      (y := ((w >>> 25) &&& 0x3F#32) <<< 5) (by omega) (by omega)
    rw [toNat_or_low 5 (by omega) (by omega), o2, o1, s31, s7, s25, s8, h31, h7, h25, h8,
      RiscvFormat.toNat_branchImm, hsign, hmid, hbit, hlow, Nat.pow_one]
  unfold branchOffset
  dsimp only
  rw [signFill_eq _ 12 0x1000#32 0xFFFFE000#32 rfl rfl (by decide) (by rw [hfield]; exact BitVec.isLt _)]
  congr 1
  apply BitVec.eq_of_toNat_eq
  rw [BitVec.toNat_setWidth, hfield, Nat.mod_eq_of_lt (BitVec.isLt _)]

theorem upperImmediate_eq : upperImmediate w = Rv32i.upper (RiscvFormat.upperImm w) := by
  have hw := w.isLt
  apply BitVec.eq_of_toNat_eq
  rw [upperImmediate, toNat_and_high w 12 0xFFFFF000#32 rfl (by decide), Rv32i.toNat_upper,
    RiscvFormat.toNat_upperImm]
  omega

theorem shamt_eq : shamt w = (RiscvFormat.rs2 w).setWidth 32 := regSrc2_eq w

end Formats

section Encoded
variable (r1 r2 : BitVec 5) (f3 : BitVec 3) (d : BitVec 5) (op : BitVec 7) {imm : Int}

theorem immediate_iType (hlo : -2 ^ 11 ≤ imm) (hhi : imm < 2 ^ 11) :
    immediate (RiscvFormat.iType (BitVec.ofInt 12 imm) r1 f3 d op) = BitVec.ofInt 32 imm := by
  rw [immediate_eq, RiscvFormat.imm12_iType]
  exact signExtend_ofInt 32 hlo hhi

theorem storeOffset_sType (hlo : -2 ^ 11 ≤ imm) (hhi : imm < 2 ^ 11) :
    storeOffset (RiscvFormat.sType (BitVec.ofInt 12 imm) r2 r1 f3 op) = BitVec.ofInt 32 imm := by
  rw [storeOffset_eq, RiscvFormat.storeImm_sType]
  exact signExtend_ofInt 32 hlo hhi

theorem branchOffset_bType (hlo : -2 ^ 12 ≤ imm) (hhi : imm < 2 ^ 12) (heven : imm % 2 = 0) :
    branchOffset (RiscvFormat.bType (BitVec.ofInt 13 imm) r2 r1 f3 op) = BitVec.ofInt 32 imm := by
  have hbit : (BitVec.ofInt 13 imm).toNat % 2 = 0 := by
    have hval : ((BitVec.ofInt 13 imm).toNat : Int) = imm % 2 ^ 13 := by
      rw [BitVec.toNat_ofInt]
      omega
    omega
  rw [branchOffset_eq, RiscvFormat.branchImm_bType r2 r1 f3 op _ hbit]
  exact signExtend_ofInt 32 hlo hhi

end Encoded

end DBTranslator.Riscv
