import DBTranslator.Lib.RiscvFormat

/-! The decoder of `Instruction.cpp`, with its masks read as instruction fields. -/
namespace DBTranslator.Riscv
open Lib.BitField Lib

inductive Instr where
  | UNKNOWN
  | LUI | AUIPC | JAL | JALR
  | BEQ | BNE | BLT | BGE | BLTU | BGEU
  | LB | LH | LW | LBU | LHU
  | SB | SH | SW
  | ADDI | SLTI | SLTIU | XORI | ORI | ANDI | SLLI | SRLI | SRAI
  | ADD | SUB | SLL | SLT | SLTU | XOR | SRL | SRA | OR | AND
  | FENCE | FENCETSO | PAUSE
  | ECALL | EBREAK
  deriving DecidableEq, Repr

def opcode (instr : BitVec 32) : BitVec 32 := instr &&& 0x7F#32
def funct3 (instr : BitVec 32) : BitVec 32 := (instr >>> 12) &&& 0x7#32
def funct7 (instr : BitVec 32) : BitVec 32 := (instr >>> 25) &&& 0x7F#32

/-- A `break` out of a case of the source's switch ends in `UNKNOWN`. -/
def decode (InstructionData : BitVec 32) : Instr :=
  let op := opcode InstructionData
  let f3 := funct3 InstructionData
  let f7 := funct7 InstructionData
  match op with
  | 0x37#32 => .LUI
  | 0x17#32 => .AUIPC
  | 0x6F#32 => .JAL
  | 0x67#32 => if f3 = 0x0#32 then .JALR else .UNKNOWN
  | 0x03#32 =>
    match f3 with
    | 0x0#32 => .LB
    | 0x1#32 => .LH
    | 0x2#32 => .LW
    | 0x4#32 => .LBU
    | 0x5#32 => .LHU
    | _ => .UNKNOWN
  | 0x13#32 =>
    match f3 with
    | 0x0#32 => .ADDI
    | 0x1#32 => if InstructionData >>> 25 = 0x00#32 then .SLLI else .UNKNOWN
    | 0x2#32 => .SLTI
    | 0x3#32 => .SLTIU
    | 0x4#32 => .XORI
    | 0x5#32 =>
      if InstructionData >>> 25 = 0x00#32 then .SRLI
      else if InstructionData >>> 25 = 0x20#32 then .SRAI
      else .UNKNOWN
    | 0x6#32 => .ORI
    | 0x7#32 => .ANDI
    | _ => .UNKNOWN
  | 0x63#32 =>
    match f3 with
    | 0x0#32 => .BEQ
    | 0x1#32 => .BNE
    | 0x4#32 => .BLT
    | 0x5#32 => .BGE
    | 0x6#32 => .BLTU
    | 0x7#32 => .BGEU
    | _ => .UNKNOWN
  | 0x23#32 =>
    match f3 with
    | 0x0#32 => .SB
    | 0x1#32 => .SH
    | 0x2#32 => .SW
    | _ => .UNKNOWN
  | 0x33#32 =>
    match f3 with
    | 0x0#32 => if f7 = 0x00#32 then .ADD else if f7 = 0x20#32 then .SUB else .UNKNOWN
    | 0x1#32 => .SLL
    | 0x2#32 => .SLT
    | 0x3#32 => .SLTU
    | 0x4#32 => .XOR
    | 0x5#32 => if f7 = 0x00#32 then .SRL else if f7 = 0x20#32 then .SRA else .UNKNOWN
    | 0x6#32 => .OR
    | 0x7#32 => .AND
    | _ => .UNKNOWN
  | 0x0F#32 =>
    if f3 = 0x0#32 then
      let fm := (InstructionData >>> 28) &&& 0xF#32
      let pred := (InstructionData >>> 24) &&& 0xF#32
      let succ := (InstructionData >>> 20) &&& 0xF#32
      if fm = 0x8#32 ∧ pred = 0x3#32 ∧ succ = 0x3#32 then .FENCETSO
      else if InstructionData &&& 0xFFFFF000#32 = 0x0000100F#32 then .PAUSE
      else .FENCE
    else .UNKNOWN
  | 0x73#32 =>
    if f3 = 0x0#32 then
      let imm12 := (InstructionData >>> 20) &&& 0xFFF#32
      if imm12 = 0x000#32 then .ECALL
      else if imm12 = 0x001#32 then .EBREAK
      else .UNKNOWN
    else .UNKNOWN
  | _ => .UNKNOWN

section Fields
variable (w : BitVec 32)

theorem opcode_iff (n : Nat) (hn : n < 2 ^ 7) :
    opcode w = BitVec.ofNat 32 n ↔ RiscvFormat.opcode w = BitVec.ofNat 7 n := by
  rw [← BitVec.toNat_inj, ← BitVec.toNat_inj, RiscvFormat.toNat_opcode, opcode,
    toNat_mask w 7 0x7F#32 rfl]
  simp only [BitVec.toNat_ofNat]
  omega

theorem funct3_eq : funct3 w = (RiscvFormat.funct3 w).setWidth 32 := by
  apply BitVec.eq_of_toNat_eq
  rw [funct3, toNat_field w 12 3 0x7#32 rfl, BitVec.toNat_setWidth, RiscvFormat.toNat_funct3]
  omega

theorem funct7_iff (n : Nat) (hn : n < 2 ^ 7) :
    funct7 w = BitVec.ofNat 32 n ↔ RiscvFormat.funct7 w = BitVec.ofNat 7 n := by
  rw [← BitVec.toNat_inj, ← BitVec.toNat_inj, RiscvFormat.toNat_funct7, funct7,
    toNat_field w 25 7 0x7F#32 rfl]
  simp only [BitVec.toNat_ofNat]
  omega

/-- The shift decoders test the top seven bits without a mask. -/
theorem shift25_iff (n : Nat) (hn : n < 2 ^ 7) :
    w >>> 25 = BitVec.ofNat 32 n ↔ RiscvFormat.funct7 w = BitVec.ofNat 7 n := by
  have hw := w.isLt
  rw [← BitVec.toNat_inj, ← BitVec.toNat_inj, RiscvFormat.toNat_funct7, BitVec.toNat_ushiftRight,
    Nat.shiftRight_eq_div_pow]
  simp only [BitVec.toNat_ofNat]
  omega

theorem imm12_iff (n : Nat) (hn : n < 2 ^ 12) :
    (w >>> 20) &&& 0xFFF#32 = BitVec.ofNat 32 n ↔ RiscvFormat.imm12 w = BitVec.ofNat 12 n := by
  rw [← BitVec.toNat_inj, ← BitVec.toNat_inj, RiscvFormat.toNat_imm12,
    toNat_field w 20 12 0xFFF#32 rfl]
  simp only [BitVec.toNat_ofNat]
  omega

/-- The three fence fields are the immediate of the word. -/
theorem fence_iff : ((w >>> 28) &&& 0xF#32 = 0x8#32 ∧ (w >>> 24) &&& 0xF#32 = 0x3#32 ∧
    (w >>> 20) &&& 0xF#32 = 0x3#32) ↔ RiscvFormat.imm12 w = 0x833#12 := by
  have hw := w.isLt
  rw [← BitVec.toNat_inj, ← BitVec.toNat_inj, ← BitVec.toNat_inj, ← BitVec.toNat_inj,
    RiscvFormat.toNat_imm12, toNat_field w 28 4 0xF#32 rfl, toNat_field w 24 4 0xF#32 rfl,
    toNat_field w 20 4 0xF#32 rfl]
  simp only [BitVec.toNat_ofNat]
  omega

/-- The mask clears the opcode bits that the comparison then asks for. -/
theorem pause_mask : w &&& 0xFFFFF000#32 ≠ 0x0000100F#32 := by
  intro h
  have hbit := congrArg (fun v : BitVec 32 => v.getLsbD 0) h
  simp at hbit

end Fields

end DBTranslator.Riscv
