import DBTranslator.Riscv.Encoding
import DBTranslator.Riscv.Effect

/-! The jump of `JAL`, whose sign test looks at bit 19 of the offset instead of bit 20. -/
namespace DBTranslator.Riscv
open Lib Lib.BitField

/-- The offset that the four scattered fields of a jump word hold, without its sign. -/
def jalField (w : BitVec 32) : Nat :=
  w.toNat / 2 ^ 31 % 2 * 2 ^ 20 + w.toNat / 2 ^ 12 % 2 ^ 8 * 2 ^ 12 +
    w.toNat / 2 ^ 20 % 2 * 2 ^ 11 + w.toNat / 2 ^ 21 % 2 ^ 10 * 2

/-- The code fills the bits above bit 19 with bit 19. -/
theorem toNat_jalOffset (w : BitVec 32) : (jalOffset w).toNat =
    if jalField w / 2 ^ 19 % 2 = 1 then 2 ^ 32 - 2 ^ 20 + jalField w % 2 ^ 20 else jalField w := by
  have h31 := toNat_field w 31 1 0x1#32 rfl
  have h12 := toNat_field w 12 8 0xFF#32 rfl
  have h20 := toNat_field w 20 1 0x1#32 rfl
  have h21 := toNat_field w 21 10 0x3FF#32 rfl
  have s31 := toNat_shift (x := (w >>> 31) &&& 0x1#32) 20 (by omega)
  have s12 := toNat_shift (x := (w >>> 12) &&& 0xFF#32) 12 (by omega)
  have s20 := toNat_shift (x := (w >>> 20) &&& 0x1#32) 11 (by omega)
  have s21 := toNat_shift (x := (w >>> 21) &&& 0x3FF#32) 1 (by omega)
  have hfield : (((w >>> 31) &&& 0x1#32) <<< 20 ||| ((w >>> 12) &&& 0xFF#32) <<< 12
      ||| ((w >>> 20) &&& 0x1#32) <<< 11 ||| ((w >>> 21) &&& 0x3FF#32) <<< 1).toNat =
      jalField w := by
    have o1 := toNat_or_low 20 (x := ((w >>> 31) &&& 0x1#32) <<< 20)
      (y := ((w >>> 12) &&& 0xFF#32) <<< 12) (by omega) (by omega)
    have o2 := toNat_or_low 12 (x := ((w >>> 31) &&& 0x1#32) <<< 20 ||| ((w >>> 12) &&& 0xFF#32) <<< 12)
      (y := ((w >>> 20) &&& 0x1#32) <<< 11) (by omega) (by omega)
    rw [toNat_or_low 11 (by omega) (by omega), o2, o1, jalField]
    omega
  unfold jalOffset
  dsimp only
  split
  · rename_i hbit
    rw [toNat_or_high _ 20 0xFFF00000#32 rfl (by decide), hfield]
    rw [and_bit_ne_zero _ 19 0x80000#32 rfl (by decide), hfield] at hbit
    exact (if_pos hbit).symm
  · rename_i hbit
    rw [and_bit_ne_zero _ 19 0x80000#32 rfl (by decide), hfield] at hbit
    rw [hfield, if_neg hbit]

/-- The code decodes the encoded offset in the inner half of the range and nowhere else. -/
theorem jalOffset_iff (rd : BitVec 5) (offset : Int) (hlo : -2 ^ 20 ≤ offset)
    (hhi : offset ≤ 2 ^ 20 - 2) (heven : offset % 2 = 0) :
    jalOffset (RiscvFormat.jType (BitVec.ofInt 21 offset) rd 0x6F) = BitVec.ofInt 32 offset ↔
      -2 ^ 19 ≤ offset ∧ offset < 2 ^ 19 := by
  have h21 : ((BitVec.ofInt 21 offset).toNat : Int) = offset % 2 ^ 21 := by
    rw [BitVec.toNat_ofInt]
    omega
  have h32 : ((BitVec.ofInt 32 offset).toNat : Int) = offset % 2 ^ 32 := by
    rw [BitVec.toNat_ofInt]
    omega
  have hfield : jalField _ = _ := RiscvFormat.toNat_jType (BitVec.ofInt 21 offset) rd 0x6F (by omega)
  rw [← BitVec.toNat_inj, toNat_jalOffset, hfield]
  split <;> omega

/-- The jump offset of the code is the manual's when bits 19 and 20 of it agree. -/
theorem jalOffset_eq_iff (w : BitVec 32) : jalOffset w = (RiscvFormat.jumpImm w).signExtend 32 ↔
    -2 ^ 19 ≤ (RiscvFormat.jumpImm w).toInt ∧ (RiscvFormat.jumpImm w).toInt < 2 ^ 19 := by
  have hfield : jalField w = (RiscvFormat.jumpImm w).toNat := by
    rw [RiscvFormat.toNat_jumpImm, jalField]
  have hlt := (RiscvFormat.jumpImm w).isLt
  rw [← BitVec.toNat_inj, toNat_jalOffset, hfield, BitVec.toNat_signExtend, BitVec.toNat_setWidth,
    BitVec.msb_eq_decide, BitVec.toInt_eq_toNat_cond]
  generalize (RiscvFormat.jumpImm w).toNat = f at hlt
  simp only [decide_eq_true_eq]
  split <;> split <;> split <;> omega

/-- What the manual says a jump does: `rd` gets the return address, the offset is added to `PC`,
no other register and no memory changes. -/
def JumpsBy (rd : BitVec 5) (offset : Int) (s : CPUState) : Prop :=
  runIr (JALInstruction.buildIr (encode .JAL ⟨rd, 0, 0, 0, offset, 0, 0, 0⟩)) s.host =
    .ok (CPUState.host { s with
      Registers := Function.update s.Registers rd (s.PC + 4#32)
      PC := s.PC + BitVec.ofInt 32 offset })

private theorem jumpsBy_iff (rd : BitVec 5) (offset : Int) (s : CPUState) : JumpsBy rd offset s ↔
    jalOffset (RiscvFormat.jType (BitVec.ofInt 21 offset) rd 0x6F) = BitVec.ofInt 32 offset := by
  have hrd : RiscvFormat.rd (RiscvFormat.jType (BitVec.ofInt 21 offset) rd 0x6F) = rd :=
    RiscvFormat.rd_uType rd 0x6F _
  rw [JumpsBy, runIr_of_simulates (jal_simulates _), encode]
  simp only [jalEffect, hrd, CPUState.host_PC, Option.map_some, CPUState.host_setReg,
    CPUState.host_setPC, Except.ok.injEq, CPUState.host_inj, CPUState.mk.injEq, and_true]
  rw [BitVec.add_comm 4#32, BitVec.add_comm _ s.PC]
  constructor
  · rintro ⟨-, hpc⟩
    exact (BitVec.add_right_inj s.PC).mp hpc
  · intro hoff
    exact ⟨rfl, by rw [hoff]⟩

/-- `JAL` jumps to its offset exactly in the inner half of the range that it encodes. -/
theorem jal_jumps_iff (rd : BitVec 5) (offset : Int) (hlo : -2 ^ 20 ≤ offset)
    (hhi : offset ≤ 2 ^ 20 - 2) (heven : offset % 2 = 0) (s : CPUState) :
    JumpsBy rd offset s ↔ -2 ^ 19 ≤ offset ∧ offset < 2 ^ 19 := by
  rw [← jalOffset_iff rd offset hlo hhi heven, jumpsBy_iff]

/-- A jump two words ahead from address 0. -/
theorem jal_jumps_ahead : JumpsBy 1 8 ⟨fun _ => 0, 0, MemoryManager.empty⟩ :=
  (jal_jumps_iff 1 8 (by decide) (by decide) (by decide) _).mpr ⟨by decide, by decide⟩

/-- A jump forward by 2^19 goes back by 2^19. -/
theorem jal_half_megabyte : ¬ JumpsBy 1 (2 ^ 19) ⟨fun _ => 0, 0, MemoryManager.empty⟩ := by
  rw [jumpsBy_iff]
  decide

end DBTranslator.Riscv
