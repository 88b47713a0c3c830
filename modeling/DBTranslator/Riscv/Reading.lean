import DBTranslator.Lib.Rv32iMachine
import DBTranslator.Riscv.Branch
import DBTranslator.Riscv.JumpAndLink

/-! What `decode` and `build_ir` read out of a word, against the decoding of the manual. -/
namespace DBTranslator.Riscv
open Lib Lib.Rv32i

/-- The manual's reading of a word that is known to be of a kind. -/
def readAs (w : BitVec 32) : Instr → Option Instruction
  | .UNKNOWN => none
  | .LUI => some (.lui (RiscvFormat.rd w) (RiscvFormat.upperImm w))
  | .AUIPC => some (.auipc (RiscvFormat.rd w) (RiscvFormat.upperImm w))
  | .JAL => some (.jal (RiscvFormat.rd w) (RiscvFormat.jumpImm w))
  | .JALR => some (.jalr (RiscvFormat.rd w) (RiscvFormat.rs1 w) (RiscvFormat.imm12 w))
  | .BEQ => branch .eq
  | .BNE => branch .ne
  | .BLT => branch .lt
  | .BGE => branch .ge
  | .BLTU => branch .ltu
  | .BGEU => branch .geu
  | .LB => load 1 true
  | .LH => load 2 true
  | .LW => load 4 true
  | .LBU => load 1 false
  | .LHU => load 2 false
  | .SB => store 1
  | .SH => store 2
  | .SW => store 4
  | .ADDI => imm .add
  | .SLTI => imm .slt
  | .SLTIU => imm .sltu
  | .XORI => imm .xor
  | .ORI => imm .or
  | .ANDI => imm .and
  | .SLLI => imm .sll
  | .SRLI => imm .srl
  | .SRAI => imm .sra
  | .ADD => reg .add
  | .SUB => reg .sub
  | .SLL => reg .sll
  | .SLT => reg .slt
  | .SLTU => reg .sltu
  | .XOR => reg .xor
  | .SRL => reg .srl
  | .SRA => reg .sra
  | .OR => reg .or
  | .AND => reg .and
  | .FENCE | .FENCETSO | .PAUSE => some .fence
  | .ECALL => some .ecall
  | .EBREAK => some .ebreak
where
  branch (c : Condition) := some (.branch c (RiscvFormat.rs1 w) (RiscvFormat.rs2 w) (RiscvFormat.branchImm w))
  load (bytes : Nat) (signed : Bool) :=
    some (.load bytes signed (RiscvFormat.rd w) (RiscvFormat.rs1 w) (RiscvFormat.imm12 w))
  store (bytes : Nat) := some (.store bytes (RiscvFormat.rs1 w) (RiscvFormat.rs2 w) (RiscvFormat.storeImm w))
  imm (op : AluOp) := some (.imm op (RiscvFormat.rd w) (RiscvFormat.rs1 w) (immValue op w))
  reg (op : AluOp) := some (.reg op (RiscvFormat.rd w) (RiscvFormat.rs1 w) (RiscvFormat.rs2 w))

/-- The instruction of a register operation. -/
def regInstr : AluOp → Instr
  | .add => .ADD
  | .sub => .SUB
  | .sll => .SLL
  | .slt => .SLT
  | .sltu => .SLTU
  | .xor => .XOR
  | .srl => .SRL
  | .sra => .SRA
  | .or => .OR
  | .and => .AND

/-- The instruction of an operation with an immediate; a subtraction has none. -/
def immInstr : AluOp → Instr
  | .add => .ADDI
  | .sub => .UNKNOWN
  | .sll => .SLLI
  | .slt => .SLTI
  | .sltu => .SLTIU
  | .xor => .XORI
  | .srl => .SRLI
  | .sra => .SRAI
  | .or => .ORI
  | .and => .ANDI

def loadInstr : Nat → Bool → Instr
  | 1, true => .LB
  | 2, true => .LH
  | 4, true => .LW
  | 1, false => .LBU
  | 2, false => .LHU
  | _, _ => .UNKNOWN

def storeInstr : Nat → Instr
  | 1 => .SB
  | 2 => .SH
  | 4 => .SW
  | _ => .UNKNOWN

/-- An instruction with its operands: the indices of its registers and its constant, zero where it has
none. -/
structure Reading where
  kind : Instr
  rd : BitVec 32
  rs1 : BitVec 32
  rs2 : BitVec 32
  constant : BitVec 32
  deriving DecidableEq, Repr

/-- What `build_ir` of a kind takes out of the word. The fences have one body, and the comparisons of
registers take `RegSrc1` for both sides. -/
def built (w : BitVec 32) (k : Instr) : Reading :=
  match k with
  | .UNKNOWN | .ECALL | .EBREAK => ⟨k, 0, 0, 0, 0⟩
  | .FENCE | .FENCETSO | .PAUSE => ⟨.FENCE, 0, 0, 0, 0⟩
  | .LUI | .AUIPC => ⟨k, regDest w, 0, 0, upperImmediate w⟩
  | .JAL => ⟨k, regDest w, 0, 0, jalOffset w⟩
  | .JALR | .LB | .LH | .LW | .LBU | .LHU | .ADDI | .SLTI | .SLTIU | .XORI | .ORI | .ANDI =>
    ⟨k, regDest w, regSrc1 w, 0, immediate w⟩
  | .SLLI | .SRLI | .SRAI => ⟨k, regDest w, regSrc1 w, 0, shamt w⟩
  | .BEQ | .BNE | .BLT | .BGE | .BLTU | .BGEU => ⟨k, 0, regSrc1 w, regSrc2 w, branchOffset w⟩
  | .SB | .SH | .SW => ⟨k, 0, regSrc1 w, regSrc2 w, storeOffset w⟩
  | .ADD | .SUB | .SLL | .XOR | .SRL | .SRA | .OR | .AND => ⟨k, regDest w, regSrc1 w, regSrc2 w, 0⟩
  | .SLT | .SLTU => ⟨k, regDest w, regSrc1 w, regSrc1 w, 0⟩

/-- An instruction of the manual as a reading; `none` is no instruction. -/
def reading : Option Instruction → Reading
  | none => ⟨.UNKNOWN, 0, 0, 0, 0⟩
  | some (.lui rd value) => ⟨.LUI, rd.setWidth 32, 0, 0, upper value⟩
  | some (.auipc rd value) => ⟨.AUIPC, rd.setWidth 32, 0, 0, upper value⟩
  | some (.jal rd offset) => ⟨.JAL, rd.setWidth 32, 0, 0, offset.signExtend 32⟩
  | some (.jalr rd rs1 offset) => ⟨.JALR, rd.setWidth 32, rs1.setWidth 32, 0, offset.signExtend 32⟩
  | some (.branch c rs1 rs2 offset) =>
    ⟨branchOf c, 0, rs1.setWidth 32, rs2.setWidth 32, offset.signExtend 32⟩
  | some (.load bytes signed rd rs1 offset) =>
    ⟨loadInstr bytes signed, rd.setWidth 32, rs1.setWidth 32, 0, offset.signExtend 32⟩
  | some (.store bytes rs1 rs2 offset) =>
    ⟨storeInstr bytes, 0, rs1.setWidth 32, rs2.setWidth 32, offset.signExtend 32⟩
  | some (.imm op rd rs1 value) => ⟨immInstr op, rd.setWidth 32, rs1.setWidth 32, 0, value⟩
  | some (.reg op rd rs1 rs2) => ⟨regInstr op, rd.setWidth 32, rs1.setWidth 32, rs2.setWidth 32, 0⟩
  | some .fence => ⟨.FENCE, 0, 0, 0, 0⟩
  | some .ecall => ⟨.ECALL, 0, 0, 0, 0⟩
  | some .ebreak => ⟨.EBREAK, 0, 0, 0, 0⟩

/-- A jump whose offset the code sign-extends from the wrong bit. -/
def farJump (w : BitVec 32) : Prop :=
  RiscvFormat.opcode w = 0x6F ∧
    ¬ (-2 ^ 19 ≤ (RiscvFormat.jumpImm w).toInt ∧ (RiscvFormat.jumpImm w).toInt < 2 ^ 19)

/-- A comparison of two registers, of which the code takes only the first. -/
def comparesItself (w : BitVec 32) : Prop :=
  RiscvFormat.opcode w = 0x33 ∧ (RiscvFormat.funct3 w = 2 ∨ RiscvFormat.funct3 w = 3) ∧
    RiscvFormat.rs1 w ≠ RiscvFormat.rs2 w

section Decoders
variable {w : BitVec 32} {i : Instruction}

private def row (op : BitVec 7) (f3 : BitVec 3) (f7 : Option (BitVec 7)) : Fixed := ⟨op, some f3, f7, none, false⟩

private theorem branch_row {f3 : BitVec 3} {c : Condition} (h : conditionOf f3 = some c) :
    checkedFields (branchOf c) = some (row 0x63 f3 none) ∧ readAs w (branchOf c) = readAs.branch w c := by
  unfold conditionOf at h
  split at h
  all_goals cases h
  all_goals exact ⟨rfl, rfl⟩

private theorem load_row {f3 : BitVec 3} {form : Nat × Bool} (h : loadOf f3 = some form) :
    checkedFields (loadInstr form.1 form.2) = some (row 0x03 f3 none) ∧
      readAs w (loadInstr form.1 form.2) = readAs.load w form.1 form.2 := by
  unfold loadOf at h
  split at h
  all_goals cases h
  all_goals exact ⟨rfl, rfl⟩

private theorem store_row {f3 : BitVec 3} {bytes : Nat} (h : storeOf f3 = some bytes) :
    checkedFields (storeInstr bytes) = some (row 0x23 f3 none) ∧
      readAs w (storeInstr bytes) = readAs.store w bytes := by
  unfold storeOf at h
  split at h
  all_goals cases h
  all_goals exact ⟨rfl, rfl⟩

-- Six of the register forms are found without a look at `funct7`.
private theorem reg_row {f3 : BitVec 3} {f7 : BitVec 7} {op : AluOp} (h : regOf f3 f7 = some op) :
    (∃ f7', checkedFields (regInstr op) = some (row 0x33 f3 f7') ∧ ∀ x ∈ f7', f7 = x) ∧
      readAs w (regInstr op) = readAs.reg w op := by
  unfold regOf at h
  split at h
  all_goals cases h
  all_goals exact ⟨⟨_, rfl, by simp⟩, rfl⟩

private theorem imm_row {f3 : BitVec 3} {f7 : BitVec 7} {op : AluOp} (h : immOf f3 f7 = some op) :
    (∃ f7', checkedFields (immInstr op) = some (row 0x13 f3 f7') ∧ ∀ x ∈ f7', f7 = x) ∧
      readAs w (immInstr op) = readAs.imm w op := by
  unfold immOf at h
  split at h
  all_goals repeat' split at h
  all_goals cases h
  all_goals exact ⟨⟨_, rfl, by simp [*]⟩, rfl⟩

private theorem decode_of_row {k : Instr} {f : Fixed} (hf : checkedFields k = some f) (hw : f.has w)
    (hfence : f.op ≠ 0x0F) : decode w = k := by
  refine decode_of_fields k w f hf hw ?_ ?_
  · rintro rfl
    cases hf
    exact hfence rfl
  · rintro rfl
    cases hf
    exact absurd rfl hfence

private theorem reads_of {k : Instr} {f : Fixed} (hf : checkedFields k = some f) (hw : f.has w)
    (hi : readAs w k = some i) (hfence : f.op ≠ 0x0F) : readAs w (decode w) = some i := by
  rw [decode_of_row hf hw hfence, hi]

private theorem reads_of_row {k : Instr} {op : BitVec 7} {f7 : Option (BitVec 7)}
    (hf : checkedFields k = some (row op (RiscvFormat.funct3 w) f7)) (hop : RiscvFormat.opcode w = op)
    (h7 : ∀ x ∈ f7, RiscvFormat.funct7 w = x) (hi : readAs w k = some i) (hfence : op ≠ 0x0F) :
    readAs w (decode w) = some i := by
  refine reads_of hf ⟨hop, ?_, h7, ?_, ?_⟩ hi hfence
  · rintro x ⟨⟩
    rfl
  · rintro x ⟨⟩
  · rintro ⟨⟩

private theorem reads_fence (hop : RiscvFormat.opcode w = 0x0F) (h3 : RiscvFormat.funct3 w = 0) :
    readAs w (decode w) = some .fence := by
  by_cases himm : RiscvFormat.imm12 w = 0x833
  · rw [decode_of_fields .FENCETSO w _ rfl (has_imm_iff.mpr ⟨hop, h3, himm⟩) (by decide) (by rintro ⟨⟩)]
    rfl
  · rw [decode_of_fields .FENCE w _ rfl (has_f3_iff.mpr ⟨hop, h3⟩) (by decide) fun _ => himm]
    rfl

/-- A word that encodes an instruction by the manual is decoded to the kind of that instruction. -/
theorem reads_decode (h : Rv32i.decode w = some i) : readAs w (decode w) = some i := by
  unfold Rv32i.decode at h
  split at h
  case h_1 hop => exact reads_of (k := .LUI) rfl (has_op_iff.mpr hop) h (by decide)
  case h_2 hop => exact reads_of (k := .AUIPC) rfl (has_op_iff.mpr hop) h (by decide)
  case h_3 hop => exact reads_of (k := .JAL) rfl (has_op_iff.mpr hop) h (by decide)
  case h_4 hop =>
    split at h
    · rename_i h3
      exact reads_of (k := .JALR) rfl (has_f3_iff.mpr ⟨hop, h3⟩) h (by decide)
    · cases h
  case h_5 hop =>
    obtain ⟨c, hc, rfl⟩ := Option.map_eq_some_iff.mp h
    obtain ⟨hrow, hreads⟩ := branch_row hc
    exact reads_of_row hrow hop (by simp) hreads (by decide)
  case h_6 hop =>
    obtain ⟨form, hform, rfl⟩ := Option.map_eq_some_iff.mp h
    obtain ⟨hrow, hreads⟩ := load_row hform
    exact reads_of_row hrow hop (by simp) hreads (by decide)
  case h_7 hop =>
    obtain ⟨bytes, hbytes, rfl⟩ := Option.map_eq_some_iff.mp h
    obtain ⟨hrow, hreads⟩ := store_row hbytes
    exact reads_of_row hrow hop (by simp) hreads (by decide)
  case h_8 hop =>
    obtain ⟨op, hform, rfl⟩ := Option.map_eq_some_iff.mp h
    obtain ⟨⟨f7, hrow, h7⟩, hreads⟩ := imm_row hform
    exact reads_of_row hrow hop h7 hreads (by decide)
  case h_9 hop =>
    obtain ⟨op, hform, rfl⟩ := Option.map_eq_some_iff.mp h
    obtain ⟨⟨f7, hrow, h7⟩, hreads⟩ := reg_row hform
    exact reads_of_row hrow hop h7 hreads (by decide)
  case h_10 hop =>
    split at h
    · rename_i h3
      rw [reads_fence hop h3, ← h]
    · cases h
  case h_11 hop =>
    split at h
    · rename_i hfields
      obtain ⟨h3, -, -⟩ := hfields
      split at h
      · rename_i himm
        exact reads_of (k := .ECALL) rfl (has_imm_iff.mpr ⟨hop, h3, himm⟩) h (by decide)
      · split at h
        · rename_i himm
          exact reads_of (k := .EBREAK) rfl (has_imm_iff.mpr ⟨hop, h3, himm⟩) h (by decide)
        · cases h
    · cases h
  case h_12 => cases h

private theorem decode_eq_readAs (h7 : ¬ funct7Ignored w) (hregs : ¬ systemRegsIgnored w) :
    Rv32i.decode w = readAs w (decode w) := by
  cases hd : Rv32i.decode w with
  | some i => exact (reads_decode hd).symm
  | none =>
    rw [decode_eq_fields]
    unfold decodeFields
    split
    case h_37 => rfl
    case h_1 hop | h_2 hop | h_3 hop =>
      rw [Rv32i.decode, hop] at hd
      cases hd
    case h_20 hop hf3 =>
      split
      · rw [Rv32i.decode, hop, hf3, ‹RiscvFormat.funct7 w = _›] at hd
        cases hd
      · rfl
    case h_24 hop hf3 | h_27 hop hf3 | h_32 hop hf3 =>
      split
      · rw [Rv32i.decode, hop, hf3, ‹RiscvFormat.funct7 w = _›] at hd
        cases hd
      · split
        · rw [Rv32i.decode, hop, hf3, ‹RiscvFormat.funct7 w = _›] at hd
          cases hd
        · rfl
    case h_28 hop hf3 | h_29 hop hf3 | h_30 hop hf3 | h_31 hop hf3 | h_33 hop hf3 | h_34 hop hf3 =>
      have hf7 : RiscvFormat.funct7 w = 0 := by
        by_contra hne
        exact h7 ⟨hop, by rw [hf3]; decide, by rw [hf3]; decide, hne⟩
      rw [Rv32i.decode, hop, hf3, hf7] at hd
      cases hd
    case h_35 hop hf3 =>
      rw [Rv32i.decode, hop, hf3] at hd
      cases hd
    case h_36 hop hf3 =>
      have hzero (himm : RiscvFormat.imm12 w = 0 ∨ RiscvFormat.imm12 w = 1) :
          RiscvFormat.rd w = 0 ∧ RiscvFormat.rs1 w = 0 := by
        by_contra hne
        exact hregs ⟨hop, hf3, himm, not_and_or.mp hne⟩
      split
      · rename_i himm
        obtain ⟨hrd, hrs1⟩ := hzero (.inl himm)
        rw [Rv32i.decode, hop, hf3, hrd, hrs1, himm] at hd
        cases hd
      · split
        · rename_i himm
          obtain ⟨hrd, hrs1⟩ := hzero (.inr himm)
          rw [Rv32i.decode, hop, hf3, hrd, hrs1, himm] at hd
          cases hd
        · rfl
    all_goals
      rename_i hop hf3
      rw [Rv32i.decode, hop, hf3] at hd
      cases hd

private theorem row_of_skipped {f3 : BitVec 3} (h0 : f3 ≠ 0) (h5 : f3 ≠ 5) :
    ∃ k, checkedFields k = some (row 0x33 f3 none) := by
  have hcases : ∀ x : BitVec 3, x ≠ 0 → x ≠ 5 → x = 1 ∨ x = 2 ∨ x = 3 ∨ x = 4 ∨ x = 6 ∨ x = 7 := by
    decide
  rcases hcases _ h0 h5 with rfl | rfl | rfl | rfl | rfl | rfl
  · exact ⟨.SLL, rfl⟩
  · exact ⟨.SLT, rfl⟩
  · exact ⟨.SLTU, rfl⟩
  · exact ⟨.XOR, rfl⟩
  · exact ⟨.OR, rfl⟩
  · exact ⟨.AND, rfl⟩

private theorem row_of_system {imm : BitVec 12} (himm : imm = 0 ∨ imm = 1) :
    ∃ k, checkedFields k = some ⟨0x73, some 0, none, some imm, false⟩ := by
  rcases himm with rfl | rfl
  · exact ⟨.ECALL, rfl⟩
  · exact ⟨.EBREAK, rfl⟩

private theorem readAs_ne_none (w : BitVec 32) {k : Instr} {f : Fixed} (hf : checkedFields k = some f)
    (hw : f.has w) (hfence : f.op ≠ 0x0F) : readAs w (decode w) ≠ none := by
  rw [decode_of_row hf hw hfence]
  cases k
  case UNKNOWN => cases hf
  all_goals exact Option.some_ne_none _

/-- The kind that `decode` answers with is the manual's exactly when it skips no field. -/
theorem decode_eq_readAs_iff : Rv32i.decode w = readAs w (decode w) ↔
    ¬ funct7Ignored w ∧ ¬ systemRegsIgnored w := by
  constructor
  · intro heq
    constructor
    · rintro ⟨hop, h0, h5, h7⟩
      obtain ⟨k, hk⟩ := row_of_skipped h0 h5
      refine readAs_ne_none w hk (has_f3_iff.mpr ⟨hop, rfl⟩) (show (0x33#7) ≠ 0x0F by decide) ?_
      have hreg : regOf (RiscvFormat.funct3 w) (RiscvFormat.funct7 w) = none := by
        unfold regOf
        split
        case h_11 => rfl
        all_goals first
          | exact absurd (by assumption) h0
          | exact absurd (by assumption) h5
          | exact absurd (by assumption) h7
      rw [← heq, Rv32i.decode, hop]
      simp [hreg]
    · rintro ⟨hop, h3, himm, hregs⟩
      obtain ⟨k, hk⟩ := row_of_system himm
      refine readAs_ne_none w hk (has_imm_iff.mpr ⟨hop, h3, rfl⟩) (show (0x73#7) ≠ 0x0F by decide) ?_
      rw [← heq, Rv32i.decode, hop]
      exact if_neg fun hall => hregs.elim (· hall.2.1) (· hall.2.2)
  · rintro ⟨h7, hregs⟩
    exact decode_eq_readAs h7 hregs

end Decoders

section Operands
variable {w w' : BitVec 32} {k k' : Instr}

private def bodyKind : Instr → Instr
  | .FENCETSO | .PAUSE => .FENCE
  | k => k

private theorem built_kind : (built w k).kind = bodyKind k := by
  cases k <;> rfl

private theorem built_bodyKind : built w (bodyKind k) = built w k := by
  cases k <;> rfl

private theorem generate_bodyKind : generate (bodyKind k) w = generate k w := by
  cases k <;> rfl

private theorem generate_of_built (h : built w k = built w' k) : generate k w = generate k w' := by
  cases k
  case UNKNOWN | ECALL | EBREAK | FENCE | FENCETSO | PAUSE => rfl
  case LUI =>
    obtain ⟨-, hd, -, -, hc⟩ := Reading.mk.inj h
    rw [generate, generate, LUIInstruction.buildIr, LUIInstruction.buildIr, hd, hc]
  case AUIPC =>
    obtain ⟨-, hd, -, -, hc⟩ := Reading.mk.inj h
    rw [generate, generate, AUIPCInstruction.buildIr, AUIPCInstruction.buildIr, hd, hc]
  case JAL =>
    obtain ⟨-, hd, -, -, hc⟩ := Reading.mk.inj h
    rw [generate, generate, JALInstruction.buildIr, JALInstruction.buildIr, hd, hc]
  case JALR =>
    obtain ⟨-, hd, h1, -, hc⟩ := Reading.mk.inj h
    rw [generate, generate, JALRInstruction.buildIr, JALRInstruction.buildIr, hd, h1, hc]
  case BEQ | BNE | BLT | BGE | BLTU | BGEU =>
    obtain ⟨-, -, h1, h2, hc⟩ := Reading.mk.inj h
    change branchIr _ w = branchIr _ w'
    rw [branchIr, branchIr, h1, h2, hc]
  case LB | LH | LW | LBU | LHU =>
    obtain ⟨-, hd, h1, -, hc⟩ := Reading.mk.inj h
    change loadIr _ _ w = loadIr _ _ w'
    rw [loadIr, loadIr, hd, h1, hc]
  case SB | SH | SW =>
    obtain ⟨-, -, h1, h2, hc⟩ := Reading.mk.inj h
    change storeIr _ _ w = storeIr _ _ w'
    rw [storeIr, storeIr, h1, h2, hc]
  case ADDI | XORI | ORI | ANDI | SLLI | SRLI | SRAI =>
    obtain ⟨-, hd, h1, -, hc⟩ := Reading.mk.inj h
    change immIr _ _ w = immIr _ _ w'
    rw [immIr, immIr, hd, h1, hc]
  case SLTI | SLTIU =>
    obtain ⟨-, hd, h1, -, hc⟩ := Reading.mk.inj h
    change setLessImmIr _ w = setLessImmIr _ w'
    rw [setLessImmIr, setLessImmIr, hd, h1, hc]
  case ADD | SUB | XOR | OR | AND =>
    obtain ⟨-, hd, h1, h2, -⟩ := Reading.mk.inj h
    change regIr _ w = regIr _ w'
    rw [regIr, regIr, hd, h1, h2]
  case SLL | SRL | SRA =>
    obtain ⟨-, hd, h1, h2, -⟩ := Reading.mk.inj h
    change regShiftIr _ w = regShiftIr _ w'
    rw [regShiftIr, regShiftIr, hd, h1, h2]
  case SLT | SLTU =>
    obtain ⟨-, hd, h1, -, -⟩ := Reading.mk.inj h
    change setLessIr _ w = setLessIr _ w'
    rw [setLessIr, setLessIr, hd, h1]

/-- The code of a word is made from its reading and from nothing else. -/
theorem generate_congr (h : built w k = built w' k') : generate k w = generate k' w' := by
  have hkind : bodyKind k = bodyKind k' := by rw [← built_kind, h, built_kind]
  rw [← built_bodyKind, ← built_bodyKind (k := k'), ← hkind] at h
  rw [← generate_bodyKind, ← generate_bodyKind (k := k'), ← hkind]
  exact generate_of_built h

/-- The operands are the manual's but for two slips. -/
private theorem built_eq_iff : built w k = reading (readAs w k) ↔
    ¬ (k = .JAL ∧ jalOffset w ≠ (RiscvFormat.jumpImm w).signExtend 32) ∧
      ¬ ((k = .SLT ∨ k = .SLTU) ∧ RiscvFormat.rs1 w ≠ RiscvFormat.rs2 w) := by
  have hregs : (RiscvFormat.rs1 w).setWidth 32 = (RiscvFormat.rs2 w).setWidth 32 ↔
      RiscvFormat.rs1 w = RiscvFormat.rs2 w := by
    have h1 := (RiscvFormat.rs1 w).isLt
    have h2 := (RiscvFormat.rs2 w).isLt
    rw [← BitVec.toNat_inj, ← BitVec.toNat_inj, BitVec.toNat_setWidth, BitVec.toNat_setWidth]
    omega
  have hexact (hj : k ≠ .JAL) (hlt : k ≠ .SLT) (hltu : k ≠ .SLTU) (heq : built w k = reading (readAs w k)) :
      built w k = reading (readAs w k) ↔
        ¬ (k = .JAL ∧ jalOffset w ≠ (RiscvFormat.jumpImm w).signExtend 32) ∧
          ¬ ((k = .SLT ∨ k = .SLTU) ∧ RiscvFormat.rs1 w ≠ RiscvFormat.rs2 w) := by
    refine iff_of_true heq ⟨fun hand => hj hand.1, fun hand => ?_⟩
    exact hand.1.elim hlt hltu
  cases k
  case JAL =>
    simp [built, readAs, reading, regDest_eq]
  case SLT | SLTU =>
    simp [built, readAs, readAs.reg, reading, regInstr, regDest_eq, regSrc1_eq, hregs]
  all_goals
    refine hexact (by decide) (by decide) (by decide) ?_
  case LUI | AUIPC => rw [built, regDest_eq, upperImmediate_eq]; rfl
  case JALR | LB | LH | LW | LBU | LHU | ADDI | SLTI | SLTIU | XORI | ORI | ANDI =>
    rw [built, regDest_eq, regSrc1_eq, immediate_eq]
    rfl
  case SLLI | SRLI | SRAI =>
    rw [built, regDest_eq, regSrc1_eq, shamt_eq]
    rfl
  case BEQ | BNE | BLT | BGE | BLTU | BGEU =>
    rw [built, regSrc1_eq, regSrc2_eq, branchOffset_eq]
    rfl
  case SB | SH | SW =>
    rw [built, regSrc1_eq, regSrc2_eq, storeOffset_eq]
    rfl
  case ADD | SUB | SLL | XOR | SRL | SRA | OR | AND =>
    rw [built, regDest_eq, regSrc1_eq, regSrc2_eq]
    rfl
  all_goals rfl

private theorem decode_eq_jal_iff : decode w = .JAL ↔ RiscvFormat.opcode w = 0x6F := by
  constructor
  · intro h
    exact has_op_iff.mp (decode_checks w _ (by rw [h]; rfl))
  · intro hop
    exact decode_of_row (f := ⟨0x6F, none, none, none, false⟩) rfl (has_op_iff.mpr hop) (by decide)

private theorem decode_eq_compare_iff : decode w = .SLT ∨ decode w = .SLTU ↔
    RiscvFormat.opcode w = 0x33 ∧ (RiscvFormat.funct3 w = 2 ∨ RiscvFormat.funct3 w = 3) := by
  constructor
  · rintro (h | h)
    · obtain ⟨hop, hf3⟩ := has_f3_iff.mp (decode_checks w _ (by rw [h]; rfl))
      exact ⟨hop, .inl hf3⟩
    · obtain ⟨hop, hf3⟩ := has_f3_iff.mp (decode_checks w _ (by rw [h]; rfl))
      exact ⟨hop, .inr hf3⟩
  · rintro ⟨hop, hf3 | hf3⟩
    · exact .inl (decode_of_row (f := row 0x33 2 none) rfl (has_f3_iff.mpr ⟨hop, hf3⟩) (by decide))
    · exact .inr (decode_of_row (f := row 0x33 3 none) rfl (has_f3_iff.mpr ⟨hop, hf3⟩) (by decide))

private theorem decode_eq_readAs_of_built (h : built w (decode w) = reading (Rv32i.decode w)) :
    Rv32i.decode w = readAs w (decode w) := by
  cases hd : Rv32i.decode w with
  | some i => exact (reads_decode hd).symm
  | none =>
    have hkind : bodyKind (decode w) = .UNKNOWN := by rw [← built_kind (w := w), h, hd]; rfl
    generalize decode w = k at hkind
    cases k
    case UNKNOWN => rfl
    all_goals cases hkind

/-- The words of which the code takes what the manual does: all but those where `decode` skips a field, the
far jumps and the comparisons of two registers. -/
theorem decoders_agree_iff (w : BitVec 32) :
    (∀ w', built w' (decode w') = built w (decode w) → generate (decode w') w' = generate (decode w) w) ∧
      (built w (decode w) = reading (Rv32i.decode w) ↔
        ¬ funct7Ignored w ∧ ¬ systemRegsIgnored w ∧ ¬ farJump w ∧ ¬ comparesItself w) := by
  refine ⟨fun w' => generate_congr, ?_⟩
  have hslips : built w (decode w) = reading (readAs w (decode w)) ↔ ¬ farJump w ∧ ¬ comparesItself w := by
    rw [built_eq_iff, decode_eq_jal_iff, decode_eq_compare_iff, ne_eq, jalOffset_eq_iff, farJump,
      comparesItself, and_assoc]
  rw [← hslips, ← and_assoc, ← decode_eq_readAs_iff]
  constructor
  · intro h
    have hreads := decode_eq_readAs_of_built h
    exact ⟨hreads, hreads ▸ h⟩
  · rintro ⟨hreads, h⟩
    rw [hreads, h]

/-- The jump by 512 KiB forward, which the code takes backward. -/
example : (reading (Rv32i.decode 0x000800EF#32)).constant = 0x00080000#32 ∧
    (built 0x000800EF#32 (decode 0x000800EF#32)).constant = 0xFFF80000#32 := by decide

end Operands

end DBTranslator.Riscv
