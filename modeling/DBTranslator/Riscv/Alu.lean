import DBTranslator.Riscv.Immediate

/-! The computational instructions against the manual, from the word to the state: all of them but
the register shifts and the register comparisons. -/
namespace DBTranslator.Riscv
open Lib Lib.Ssa Lib.Rv32i

/-- A register as the manual reads it: `x0` is zero. -/
def CPUState.x (s : CPUState) (r : BitVec 5) : BitVec 32 := if r = 0 then 0 else s.Registers r

theorem CPUState.x_eq {s : CPUState} (h0 : s.Registers 0 = 0) (r : BitVec 5) : s.x r = s.Registers r := by
  rw [CPUState.x]
  split
  · rename_i hr
    rw [hr, h0]
  · rfl

/-- The value that the manual gives `rd`, for the instructions of this module. -/
def aluValue (k : Instr) (o : Operands) (s : CPUState) : Option (BitVec 32) :=
  let imm := BitVec.ofInt 32 o.imm
  let amount := o.shamt.setWidth 32
  match k with
  | .LUI => some (upper (BitVec.ofInt 20 o.imm))
  | .AUIPC => some (s.PC + upper (BitVec.ofInt 20 o.imm))
  | .ADDI => some (AluOp.add.eval (s.x o.rs1) imm)
  | .SLTI => some (AluOp.slt.eval (s.x o.rs1) imm)
  | .SLTIU => some (AluOp.sltu.eval (s.x o.rs1) imm)
  | .XORI => some (AluOp.xor.eval (s.x o.rs1) imm)
  | .ORI => some (AluOp.or.eval (s.x o.rs1) imm)
  | .ANDI => some (AluOp.and.eval (s.x o.rs1) imm)
  | .SLLI => some (AluOp.sll.eval (s.x o.rs1) amount)
  | .SRLI => some (AluOp.srl.eval (s.x o.rs1) amount)
  | .SRAI => some (AluOp.sra.eval (s.x o.rs1) amount)
  | .ADD => some (AluOp.add.eval (s.x o.rs1) (s.x o.rs2))
  | .SUB => some (AluOp.sub.eval (s.x o.rs1) (s.x o.rs2))
  | .XOR => some (AluOp.xor.eval (s.x o.rs1) (s.x o.rs2))
  | .OR => some (AluOp.or.eval (s.x o.rs1) (s.x o.rs2))
  | .AND => some (AluOp.and.eval (s.x o.rs1) (s.x o.rs2))
  | _ => none

/-- The manual's operation for an operation of the emitted code. -/
def aluOf : BinOp → Option AluOp
  | .add => some .add
  | .addNUWNSW => none
  | .sub => some .sub
  | .and => some .and
  | .or => some .or
  | .xor => some .xor
  | .shl => some .sll
  | .lshr => some .srl
  | .ashr => some .sra

/-- The two agree on every operand but the shift amounts from 32 on. -/
theorem eval_aluOf {Op : BinOp} {op : AluOp} (hop : aluOf Op = some op) (a b : BitVec 32)
    (hb : op.isShift = true → b.toNat < 32) : Op.eval a b = some (op.eval a b) := by
  cases Op
  case addNUWNSW => cases hop
  case shl | lshr | ashr =>
    obtain rfl := Option.some.inj hop
    have hlt := hb rfl
    rw [BinOp.eval, if_pos hlt, AluOp.eval, Nat.mod_eq_of_lt hlt]
  all_goals
    obtain rfl := Option.some.inj hop
    rfl

theorem ofBool_slt (a b : BitVec 32) :
    (BitVec.ofBool (Pred.slt.holds a b)).setWidth 32 = AluOp.slt.eval a b := by
  rw [AluOp.eval]
  by_cases h : a.toInt < b.toInt
  · rw [if_pos h, show Pred.slt.holds a b = true from decide_eq_true h]
    rfl
  · rw [if_neg h, show Pred.slt.holds a b = false from decide_eq_false h]
    rfl

theorem ofBool_ult (a b : BitVec 32) :
    (BitVec.ofBool (Pred.ult.holds a b)).setWidth 32 = AluOp.sltu.eval a b := by
  rw [AluOp.eval]
  by_cases h : a.toNat < b.toNat
  · rw [if_pos h, show Pred.ult.holds a b = true from decide_eq_true h]
    rfl
  · rw [if_neg h, show Pred.ult.holds a b = false from decide_eq_false h]
    rfl

section Effects
variable {w : BitVec 32} {s : CPUState} {Op : BinOp} {op : AluOp}

theorem immEffect_eq (hop : aluOf Op = some op) (imm : BitVec 32)
    (himm : op.isShift = true → imm.toNat < 32) : immEffect Op imm w s.host =
      .ok (s.host.writeRd w (some (op.eval (s.Registers (RiscvFormat.rs1 w)) imm))) := by
  rw [immEffect, HostState.rs1, CPUState.host_Registers, Option.bind_some, eval_aluOf hop _ _ himm]

theorem regEffect_eq (hop : aluOf Op = some op)
    (hy : op.isShift = true → (s.Registers (RiscvFormat.rs2 w)).toNat < 32) :
    regEffect Op w s.host = .ok (s.host.writeRd w
      (some (op.eval (s.Registers (RiscvFormat.rs1 w)) (s.Registers (RiscvFormat.rs2 w))))) := by
  rw [regEffect, HostState.rs1, HostState.rs2, CPUState.host_Registers, CPUState.host_Registers,
    Option.bind_some, Option.bind_some, eval_aluOf hop _ _ hy]

theorem setLessImmEffect_eq (Cmp : Pred) (hCmp : ∀ a b : BitVec 32,
      (BitVec.ofBool (Cmp.holds a b)).setWidth 32 = op.eval a b) : setLessImmEffect Cmp w s.host =
      .ok (s.host.writeRd w (some (op.eval (s.Registers (RiscvFormat.rs1 w)) (immediate w)))) := by
  rw [setLessImmEffect, HostState.rs1, CPUState.host_Registers, Option.map_some, hCmp]

end Effects

section Encoded
variable {k : Instr} {o : Operands} {s : CPUState} {v : BitVec 32}

/-- A word whose effect writes `v` to its destination runs to the state with `v` there. -/
theorem runsTo_of_writeRd (hdec : decode (encode k o) = k) (hrd : RiscvFormat.rd (encode k o) = o.rd)
    (heff : effect k (encode k o) s.host = .ok (s.host.writeRd (encode k o) (some v))) :
    RunsTo (generate (decode (encode k o)) (encode k o)) s { s with
      Registers := Function.update s.Registers o.rd v
      PC := s.PC + 4#32 } := by
  rw [RunsTo, runIr_of_simulates (generate_simulates _ _), hdec, heff, CPUState.host_writeRd, hrd]

private theorem rd_of_aluValue (hv : aluValue k o s = some v) : RiscvFormat.rd (encode k o) = o.rd := by
  cases k
  case LUI | AUIPC => exact RiscvFormat.rd_uType _ _ _
  case ADDI | SLTI | SLTIU | XORI | ORI | ANDI => exact RiscvFormat.rd_iType _ _ _ _ _
  case SLLI | SRLI | SRAI | ADD | SUB | XOR | OR | AND => exact RiscvFormat.rd_rType _ _ _ _ _ _
  all_goals cases hv

theorem luiForm_effect : effect .LUI (encode .LUI o) s.host =
    .ok (s.host.writeRd (encode .LUI o) (some (upper (BitVec.ofInt 20 o.imm)))) := by
  rw [effect, luiEffect, upperImmediate_eq, encode, RiscvFormat.upperImm_uType]

theorem auipcForm_effect : effect .AUIPC (encode .AUIPC o) s.host =
    .ok (s.host.writeRd (encode .AUIPC o) (some (s.PC + upper (BitVec.ofInt 20 o.imm)))) := by
  rw [effect, auipcEffect, upperImmediate_eq, encode, RiscvFormat.upperImm_uType, CPUState.host_PC,
    Option.map_some, BitVec.add_comm]

theorem immForm_effect {Op : BinOp} {op : AluOp} (f3 : BitVec 3) (hop : aluOf Op = some op)
    (hnot : op.isShift = false) (hlo : -2 ^ 11 ≤ o.imm) (hhi : o.imm < 2 ^ 11) :
    let w := RiscvFormat.iType (BitVec.ofInt 12 o.imm) o.rs1 f3 o.rd 0x13
    immEffect Op (immediate w) w s.host =
      .ok (s.host.writeRd w (some (op.eval (s.Registers o.rs1) (BitVec.ofInt 32 o.imm)))) := by
  intro w
  rw [immEffect_eq hop _ (by rw [hnot]; rintro ⟨⟩), RiscvFormat.rs1_iType,
    immediate_iType _ _ _ _ hlo hhi]

private theorem setLessForm_effect {Cmp : Pred} {op : AluOp} (f3 : BitVec 3)
    (hCmp : ∀ a b : BitVec 32, (BitVec.ofBool (Cmp.holds a b)).setWidth 32 = op.eval a b)
    (hlo : -2 ^ 11 ≤ o.imm) (hhi : o.imm < 2 ^ 11) :
    let w := RiscvFormat.iType (BitVec.ofInt 12 o.imm) o.rs1 f3 o.rd 0x13
    setLessImmEffect Cmp w s.host =
      .ok (s.host.writeRd w (some (op.eval (s.Registers o.rs1) (BitVec.ofInt 32 o.imm)))) := by
  intro w
  rw [setLessImmEffect_eq Cmp hCmp, RiscvFormat.rs1_iType, immediate_iType _ _ _ _ hlo hhi]

private theorem shiftForm_effect {Op : BinOp} {op : AluOp} (f7 : BitVec 7) (f3 : BitVec 3)
    (hop : aluOf Op = some op) :
    let w := RiscvFormat.rType f7 o.shamt o.rs1 f3 o.rd 0x13
    immEffect Op (shamt w) w s.host =
      .ok (s.host.writeRd w (some (op.eval (s.Registers o.rs1) (o.shamt.setWidth 32)))) := by
  intro w
  have hamount : shamt w = o.shamt.setWidth 32 := by rw [shamt_eq, RiscvFormat.rs2_rType]
  have hlt : (o.shamt.setWidth 32).toNat < 32 := by
    rw [BitVec.toNat_setWidth_of_le (by decide)]
    exact o.shamt.isLt
  rw [hamount, immEffect_eq hop _ fun _ => hlt, RiscvFormat.rs1_rType]

private theorem regForm_effect {Op : BinOp} {op : AluOp} (f7 : BitVec 7) (f3 : BitVec 3)
    (hop : aluOf Op = some op) (hnot : op.isShift = false) :
    let w := RiscvFormat.rType f7 o.rs2 o.rs1 f3 o.rd 0x33
    regEffect Op w s.host =
      .ok (s.host.writeRd w (some (op.eval (s.Registers o.rs1) (s.Registers o.rs2)))) := by
  intro w
  rw [regEffect_eq hop (by rw [hnot]; rintro ⟨⟩), RiscvFormat.rs1_rType, RiscvFormat.rs2_rType]

/-- The code for an encoded word writes the manual's value: it takes its operands from the fields
that the format puts them in, before it writes any register. -/
private theorem effect_of_aluValue (hfit : o.fit k) (h0 : s.Registers 0 = 0)
    (hv : aluValue k o s = some v) :
    effect k (encode k o) s.host = .ok (s.host.writeRd (encode k o) (some v)) := by
  have hx := CPUState.x_eq h0
  cases k
  case LUI =>
    obtain rfl := Option.some.inj hv
    exact luiForm_effect
  case AUIPC =>
    obtain rfl := Option.some.inj hv
    exact auipcForm_effect
  case ADDI | XORI | ORI | ANDI =>
    obtain rfl := Option.some.inj hv
    rw [hx]
    exact immForm_effect _ rfl rfl hfit.1 hfit.2
  case SLTI =>
    obtain rfl := Option.some.inj hv
    rw [hx]
    exact setLessForm_effect _ ofBool_slt hfit.1 hfit.2
  case SLTIU =>
    obtain rfl := Option.some.inj hv
    rw [hx]
    exact setLessForm_effect _ ofBool_ult hfit.1 hfit.2
  case SLLI | SRLI | SRAI =>
    obtain rfl := Option.some.inj hv
    rw [hx]
    exact shiftForm_effect _ _ rfl
  case ADD | SUB | XOR | OR | AND =>
    obtain rfl := Option.some.inj hv
    rw [hx, hx]
    exact regForm_effect _ _ rfl rfl
  all_goals cases hv

end Encoded

/-- Decoding an encoded word and running the code that is emitted for it writes the manual's value
to `rd`, whatever registers are the same, goes on to the next word and changes nothing else. -/
theorem alu_full_effect (k : Instr) (o : Operands) (hfit : o.fit k) (s : CPUState)
    (h0 : s.Registers 0 = 0) (v : BitVec 32) (hv : aluValue k o s = some v) :
    decode (encode k o) = k ∧ RunsTo (generate (decode (encode k o)) (encode k o)) s { s with
      Registers := Function.update s.Registers o.rd v
      PC := s.PC + 4#32 } := by
  have hdec := decode_encode_of_row (fun k => aluValue k o s) rfl rfl hv hfit
  have heff := effect_of_aluValue hfit h0 hv
  exact ⟨hdec, runsTo_of_writeRd hdec (rd_of_aluValue hv) heff⟩

/-- `sub x1, x1, x1` on a state where `x1` holds 5. -/
theorem alu_sub_same : RunsTo (generate (decode 0x401080B3#32) 0x401080B3#32)
    ⟨fun r => if r = 1 then 5 else 0, 0, MemoryManager.empty⟩
    ⟨Function.update (fun r => if r = 1 then 5 else 0) 1 0, 0 + 4#32, MemoryManager.empty⟩ :=
  (alu_full_effect .SUB ⟨1, 1, 1, 0, 0, 0, 0, 0⟩ trivial _ rfl 0 rfl).2

end DBTranslator.Riscv
