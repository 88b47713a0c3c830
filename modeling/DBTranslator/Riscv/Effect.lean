import DBTranslator.Lib.SsaGuard
import DBTranslator.Riscv.BuildIr

/-! What the code of one guest word does to the CPU state, in closed form, and that the
built code does it. -/
namespace DBTranslator.Riscv
open Lib Lib.Ssa Lib.Ssa.Builder

namespace HostState
variable (σ : HostState)

def advance : HostState := σ.setPC (σ.PC.map (· + 4#32))

/-- Write the destination register of a word and go on to the next word. -/
def writeRd (w : BitVec 32) (v : Option (BitVec 32)) : HostState :=
  (σ.setReg (RiscvFormat.rd w) v).advance

def rs1 (w : BitVec 32) : Option (BitVec 32) := σ.Registers (RiscvFormat.rs1 w)
def rs2 (w : BitVec 32) : Option (BitVec 32) := σ.Registers (RiscvFormat.rs2 w)

end HostState

@[simp] theorem CPUState.host_writeRd (s : CPUState) (w v : BitVec 32) :
    s.host.writeRd w (some v) = CPUState.host { s with
      Registers := Function.update s.Registers (RiscvFormat.rd w) v
      PC := s.PC + 4#32 } := by
  rw [HostState.writeRd, CPUState.host_setReg]
  rfl

def luiEffect (w : BitVec 32) (σ : HostState) : Except Fault HostState :=
  .ok (σ.writeRd w (some (upperImmediate w)))

def auipcEffect (w : BitVec 32) (σ : HostState) : Except Fault HostState :=
  .ok (σ.writeRd w (σ.PC.map (upperImmediate w + ·)))

def jalEffect (w : BitVec 32) (σ : HostState) : Except Fault HostState :=
  .ok ((σ.setReg (RiscvFormat.rd w) (σ.PC.map (4#32 + ·))).setPC (σ.PC.map (jalOffset w + ·)))

def jalrEffect (w : BitVec 32) (σ : HostState) : Except Fault HostState :=
  .ok ((σ.setReg (RiscvFormat.rd w) (σ.PC.map (· + 4#32))).setPC
    ((σ.rs1 w).map fun x => (x + immediate w) &&& ~~~1#32))

def branchEffect (Cmp : Pred) (w : BitVec 32) (σ : HostState) : Except Fault HostState :=
  .ok (σ.setPC (((σ.rs1 w).bind fun x => (σ.rs2 w).map fun y => Cmp.holds x y).bind fun c =>
    if c then σ.PC.map (· + branchOffset w) else σ.PC.map (· + 4#32)))

def loadEffect (width : Width) (ext : BitVec (8 * width.bytes) → BitVec 32) (w : BitVec 32)
    (σ : HostState) : Except Fault HostState :=
  match σ.rs1 w with
  | some x => (read width σ.Manager (x + immediate w)).map fun v => σ.writeRd w (some (ext v))
  | none => .error .poison

def storeEffect (width : Width) (w : BitVec 32) (σ : HostState) : Except Fault HostState :=
  match σ.rs1 w, σ.rs2 w with
  | some x, some y =>
    (write width σ.Manager (x + storeOffset w) (y.setWidth (8 * width.bytes))).map fun m =>
      { σ with Manager := m }.advance
  | _, _ => .error .poison

def immEffect (Op : BinOp) (imm : BitVec 32) (w : BitVec 32) (σ : HostState) :
    Except Fault HostState :=
  .ok (σ.writeRd w ((σ.rs1 w).bind fun x => Op.eval x imm))

def setLessImmEffect (Cmp : Pred) (w : BitVec 32) (σ : HostState) : Except Fault HostState :=
  .ok (σ.writeRd w ((σ.rs1 w).map fun x => (BitVec.ofBool (Cmp.holds x (immediate w))).setWidth 32))

def regEffect (Op : BinOp) (w : BitVec 32) (σ : HostState) : Except Fault HostState :=
  .ok (σ.writeRd w ((σ.rs1 w).bind fun x => (σ.rs2 w).bind fun y => Op.eval x y))

/-- The comparison sees the first register twice. -/
def setLessEffect (Cmp : Pred) (w : BitVec 32) (σ : HostState) : Except Fault HostState :=
  .ok (σ.writeRd w ((σ.rs1 w).map fun x => (BitVec.ofBool (Cmp.holds x x)).setWidth 32))

private theorem field5_eq (w : BitVec 32) (lo : Nat) :
    (w >>> lo) &&& 0x1F#32 = (w.extractLsb' lo 5).setWidth 32 := by
  have hlt := (w.extractLsb' lo 5).isLt
  apply BitVec.eq_of_toNat_eq
  rw [BitField.toNat_field w lo 5 0x1F#32 rfl, BitVec.toNat_setWidth, BitField.toNat_extract]
  rw [BitField.toNat_extract] at hlt
  exact (Nat.mod_eq_of_lt (by omega)).symm

theorem regDest_eq (w : BitVec 32) : regDest w = (RiscvFormat.rd w).setWidth 32 := field5_eq w 7
theorem regSrc1_eq (w : BitVec 32) : regSrc1 w = (RiscvFormat.rs1 w).setWidth 32 := field5_eq w 15
theorem regSrc2_eq (w : BitVec 32) : regSrc2 w = (RiscvFormat.rs2 w).setWidth 32 := field5_eq w 20

/-- What a host may check before it makes a call. -/
abbrev CallCheck := HostState → MemoryFunction → List (Val HostPtr) → Except Fault Unit

/-- The argument of a block function. -/
abbrev cpuArg : Val HostPtr := .ptr (some ⟨.CPUState, 0⟩)

/-- Before a block runs only its argument is defined. -/
def blockEnv (n : Nat) : Val HostPtr := if n = 0 then cpuArg else .ptr none

/-- Run the code that a builder appends to an empty block function. -/
def runIr (b : IRBuilder Unit) (σ : HostState) : Except Fault HostState :=
  (exec cpuHost (b.code 1) ⟨blockEnv, σ⟩).map Frame.mem

/-- Execution from a concrete state ends in a concrete state. -/
def RunsTo (b : IRBuilder Unit) (s s' : CPUState) : Prop := runIr b s.host = .ok s'.host

theorem runIr_of_simulates {b : IRBuilder Unit} {eff : HostState → Except Fault HostState}
    (h : Simulates cpuHost cpuArg b eff) (σ : HostState) : runIr b σ = eff σ :=
  h.exec_mem (Nat.zero_lt_one) rfl σ

section Run
variable (σ : HostState) (n : Nat) (env : Nat → Val HostPtr)

@[simp] theorem run_structGEP (h0 : env 0 = cpuArg) (Idx : Fin 3) :
    (createStructGEP CPUArg Idx).run cpuHost n ⟨env, σ⟩ = .ok (.local n, n + 1,
      ⟨Function.update env n (.ptr (some ⟨.CPUState, ![0, 128, 136] Idx⟩)), σ⟩) := by
  rw [createStructGEP, run_createInBoundsGEP, CPUArg, eval_local, h0]
  match Idx with
  | 0 | 1 | 2 => rfl

@[simp] theorem run_regGEP (p : Nat) (hp : env p = .ptr (some ⟨.CPUState, 0⟩)) (r : BitVec 5) :
    (createRegGEP (.local p) (r.setWidth 32)).run cpuHost n ⟨env, σ⟩ = .ok (.local n, n + 1,
      ⟨Function.update env n (.ptr (some (regPtr r))), σ⟩) := by
  rw [createRegGEP, run_createInBoundsGEP, eval_local, hp, getInt32, eval_const, gep_ptr,
    offset_reg, ok_bind]

variable (check : CallCheck)

@[simp] theorem guard_structGEP (h0 : env 0 = cpuArg) (Idx : Fin 3) :
    (createStructGEP CPUArg Idx).run (cpuHost.guard check) n ⟨env, σ⟩ = .ok (.local n, n + 1,
      ⟨Function.update env n (.ptr (some ⟨.CPUState, ![0, 128, 136] Idx⟩)), σ⟩) :=
  (run_guard rfl _).trans (run_structGEP σ n env h0 Idx)

@[simp] theorem guard_regGEP (p : Nat) (hp : env p = .ptr (some ⟨.CPUState, 0⟩)) (r : BitVec 5) :
    (createRegGEP (.local p) (r.setWidth 32)).run (cpuHost.guard check) n ⟨env, σ⟩ = .ok (.local n, n + 1,
      ⟨Function.update env n (.ptr (some (regPtr r))), σ⟩) :=
  (run_guard rfl _).trans (run_regGEP σ n env p hp r)

end Run

/-- The check that lets every call through. -/
abbrev pass : CallCheck := fun _ _ _ => .ok ()

/-- The call of a memory function that a word makes, poison when a register that it needs is. -/
def HostState.memoryCall (σ : HostState) (w : BitVec 32) : Instr → Option (MemoryFunction × List (Val HostPtr))
  | .LB | .LBU => read .byte
  | .LH | .LHU => read .half
  | .LW => read .word
  | .SB => write .byte
  | .SH => write .half
  | .SW => write .word
  | _ => none
where
  read (width : Width) :=
    some (.read width, [.ptr (some ⟨.MemoryManager, 0⟩), .int 32 ((σ.rs1 w).map (· + immediate w))])
  write (width : Width) :=
    some (.write width, [.ptr (some ⟨.MemoryManager, 0⟩), .int 32 ((σ.rs1 w).map (· + storeOffset w)),
      .int (8 * width.bytes) ((σ.rs2 w).map (·.setWidth (8 * width.bytes)))])

section Bodies
variable (w : BitVec 32)
attribute [local simp] getInt32 updatePC regDest_eq regSrc1_eq regSrc2_eq HostState.advance
  HostState.writeRd HostState.rs1 HostState.rs2

theorem updatePC_simulates : Simulates cpuHost cpuArg updatePC fun σ => .ok σ.advance := by
  apply Simulates.of_run
  intro n env σ h0
  simp [h0]

theorem lui_simulates : Simulates cpuHost cpuArg (LUIInstruction.buildIr w) (luiEffect w) := by
  apply Simulates.of_run
  intro n env σ h0
  simp [LUIInstruction.buildIr, luiEffect, h0]

theorem auipc_simulates :
    Simulates cpuHost cpuArg (AUIPCInstruction.buildIr w) (auipcEffect w) := by
  apply Simulates.of_run
  intro n env σ h0
  simp [AUIPCInstruction.buildIr, auipcEffect, h0]

theorem jal_simulates : Simulates cpuHost cpuArg (JALInstruction.buildIr w) (jalEffect w) := by
  apply Simulates.of_run
  intro n env σ h0
  simp [JALInstruction.buildIr, jalEffect, h0]

theorem jalr_simulates : Simulates cpuHost cpuArg (JALRInstruction.buildIr w) (jalrEffect w) := by
  apply Simulates.of_run
  intro n env σ h0
  simp [JALRInstruction.buildIr, jalrEffect, h0, Function.comp_def]

theorem branch_simulates (Cmp : Pred) :
    Simulates cpuHost cpuArg (branchIr Cmp w) (branchEffect Cmp w) := by
  apply Simulates.of_run
  intro n env σ h0
  cases hx : σ.Registers (RiscvFormat.rs1 w) with
  | none => simp [branchIr, branchEffect, h0, hx]
  | some x =>
    cases hy : σ.Registers (RiscvFormat.rs2 w) <;> simp [branchIr, branchEffect, h0, hx, hy]

section Memory
variable (check : CallCheck)

/-- A poison address is handed to a parameter that may not be poison; a word is not extended. -/
private theorem load_guarded (Index : Fin 6) (width : Width)
    (hI : addMemoryInterface Index = .read width) (createExt : Nat → Operand → Nat → IRBuilder Operand)
    (ext : {v : Nat} → (v' : Nat) → BitVec v → BitVec v')
    (hself : ∀ a, createExt 32 a 32 = pure a) (hword : ∀ v : BitVec 32, ext 32 v = v)
    (hext : ∀ n v a env σ, v ≠ 32 → (createExt v a 32).run (cpuHost.guard check) n ⟨env, σ⟩ =
      (a.eval env).ext ext 32 >>= fun x => .ok (.local n, n + 1, ⟨Function.update env n x, σ⟩)) :
    Simulates (cpuHost.guard check) cpuArg (loadIr Index createExt w) fun σ =>
      check σ (.read width) [.ptr (some ⟨.MemoryManager, 0⟩), .int 32 ((σ.rs1 w).map (· + immediate w))] >>=
        fun _ => loadEffect width (ext 32) w σ := by
  apply Simulates.of_run
  intro n env σ h0
  cases hc : check σ (.read width) [.ptr (some ⟨.MemoryManager, 0⟩), .int 32 ((σ.rs1 w).map (· + immediate w))] with
  | error e =>
    rw [HostState.rs1] at hc
    simp [loadIr, loadEffect, h0, hI, hc]
  | ok u =>
    rw [HostState.rs1] at hc
    cases hx : σ.Registers (RiscvFormat.rs1 w) with
    | none =>
      rw [hx, Option.map_none] at hc
      simp [loadIr, loadEffect, h0, hI, hx, hc]
    | some x =>
      rw [hx, Option.map_some] at hc
      cases hv : read width σ.Manager (x + immediate w) with
      | error e => simp [loadIr, loadEffect, h0, hI, hx, hc, hv]
      | ok v =>
        cases width with
        | byte | half =>
          simp [loadIr, loadEffect, h0, hI, hx, hc, hv, hext, MemoryFunction.width, Width.bytes, Except.map]
          rfl
        | word =>
          simp [loadIr, loadEffect, h0, hI, hx, hc, hv, hself, MemoryFunction.width, Width.bytes, Except.map]
          exact congrArg (fun y => (σ.setReg _ (some y)).setPC _) (hword v)

theorem signedLoad_guarded (Index : Fin 6) (width : Width) (hI : addMemoryInterface Index = .read width) :
    Simulates (cpuHost.guard check) cpuArg (loadIr Index createSExt w) fun σ =>
      check σ (.read width) [.ptr (some ⟨.MemoryManager, 0⟩), .int 32 ((σ.rs1 w).map (· + immediate w))] >>=
        fun _ => loadEffect width (·.signExtend 32) w σ :=
  load_guarded w check Index width hI createSExt (fun v' v => v.signExtend v') (createSExt_self 32)
    BitVec.signExtend_eq fun n v a env σ hv => run_createSExt _ n env σ a v 32 hv

theorem unsignedLoad_guarded (Index : Fin 6) (width : Width) (hI : addMemoryInterface Index = .read width) :
    Simulates (cpuHost.guard check) cpuArg (loadIr Index createZExt w) fun σ =>
      check σ (.read width) [.ptr (some ⟨.MemoryManager, 0⟩), .int 32 ((σ.rs1 w).map (· + immediate w))] >>=
        fun _ => loadEffect width (·.setWidth 32) w σ :=
  load_guarded w check Index width hI createZExt (fun v' v => v.setWidth v') (createZExt_self 32)
    BitVec.setWidth_eq fun n v a env σ hv => run_createZExt _ n env σ a v 32 hv

theorem store_guarded (Index : Fin 6) (width : Width) (hI : addMemoryInterface Index = .write width) :
    Simulates (cpuHost.guard check) cpuArg (storeIr Index (8 * width.bytes) w) fun σ =>
      check σ (.write width) [.ptr (some ⟨.MemoryManager, 0⟩), .int 32 ((σ.rs1 w).map (· + storeOffset w)),
          .int (8 * width.bytes) ((σ.rs2 w).map (·.setWidth (8 * width.bytes)))] >>=
        fun _ => storeEffect width w σ := by
  have hbits : 8 * width.bytes ≤ 32 := by cases width <;> decide
  apply Simulates.of_run
  intro n env σ h0
  cases hc : check σ (.write width) [.ptr (some ⟨.MemoryManager, 0⟩), .int 32 ((σ.rs1 w).map (· + storeOffset w)),
      .int (8 * width.bytes) ((σ.rs2 w).map (·.setWidth (8 * width.bytes)))] with
  | error e =>
    rw [HostState.rs1, HostState.rs2] at hc
    simp [storeIr, storeEffect, h0, hI, load_reg, hbits, hc]
  | ok u =>
    rw [HostState.rs1, HostState.rs2] at hc
    cases hx : σ.Registers (RiscvFormat.rs1 w) with
    | none =>
      rw [hx, Option.map_none] at hc
      simp [storeIr, storeEffect, h0, hI, load_reg, hbits, hx, hc]
    | some x =>
      cases hy : σ.Registers (RiscvFormat.rs2 w) with
      | none =>
        rw [hx, hy, Option.map_some, Option.map_none] at hc
        simp [storeIr, storeEffect, h0, hI, load_reg, hbits, hx, hy, hc]
      | some y =>
        rw [hx, hy, Option.map_some, Option.map_some] at hc
        cases hm : write width σ.Manager (x + storeOffset w) (y.setWidth (8 * width.bytes)) with
        | error e => simp [storeIr, storeEffect, h0, hI, load_reg, hbits, hx, hy, hc, hm]
        | ok m => simp [storeIr, storeEffect, h0, hI, load_reg, hbits, hx, hy, hc, hm]

end Memory

theorem imm_simulates (Op : BinOp) (Immediate : BitVec 32 → BitVec 32) :
    Simulates cpuHost cpuArg (immIr Op Immediate w) (immEffect Op (Immediate w) w) := by
  apply Simulates.of_run
  intro n env σ h0
  simp [immIr, immEffect, h0]

theorem setLessImm_simulates (Cmp : Pred) :
    Simulates cpuHost cpuArg (setLessImmIr Cmp w) (setLessImmEffect Cmp w) := by
  apply Simulates.of_run
  intro n env σ h0
  simp [setLessImmIr, setLessImmEffect, h0, Function.comp_def]

theorem reg_simulates (Op : BinOp) : Simulates cpuHost cpuArg (regIr Op w) (regEffect Op w) := by
  apply Simulates.of_run
  intro n env σ h0
  simp [regIr, regEffect, h0]

theorem regShift_simulates (Op : BinOp) :
    Simulates cpuHost cpuArg (regShiftIr Op w) (regEffect Op w) := by
  apply Simulates.of_run
  intro n env σ h0
  simp [regShiftIr, regEffect, h0]

theorem setLess_simulates (Cmp : Pred) :
    Simulates cpuHost cpuArg (setLessIr Cmp w) (setLessEffect Cmp w) := by
  apply Simulates.of_run
  intro n env σ h0
  cases hx : σ.Registers (RiscvFormat.rs1 w) <;> simp [setLessIr, setLessEffect, h0, hx]

end Bodies

/-- The effect of the code that `generate` appends. -/
def effect (k : Instr) (w : BitVec 32) : HostState → Except Fault HostState :=
  match k with
  | .UNKNOWN | .ECALL => .ok
  | .FENCE | .FENCETSO | .PAUSE | .EBREAK => fun σ => .ok σ.advance
  | .LUI => luiEffect w
  | .AUIPC => auipcEffect w
  | .JAL => jalEffect w
  | .JALR => jalrEffect w
  | .BEQ => branchEffect .eq w
  | .BNE => branchEffect .ne w
  | .BLT => branchEffect .slt w
  | .BGE => branchEffect .sge w
  | .BLTU => branchEffect .ult w
  | .BGEU => branchEffect .uge w
  | .LB => loadEffect .byte (·.signExtend 32) w
  | .LH => loadEffect .half (·.signExtend 32) w
  | .LW => loadEffect .word (·.signExtend 32) w
  | .LBU => loadEffect .byte (·.setWidth 32) w
  | .LHU => loadEffect .half (·.setWidth 32) w
  | .SB => storeEffect .byte w
  | .SH => storeEffect .half w
  | .SW => storeEffect .word w
  | .ADDI => immEffect .add (immediate w) w
  | .XORI => immEffect .xor (immediate w) w
  | .ORI => immEffect .or (immediate w) w
  | .ANDI => immEffect .and (immediate w) w
  | .SLLI => immEffect .shl (shamt w) w
  | .SRLI => immEffect .lshr (shamt w) w
  | .SRAI => immEffect .ashr (shamt w) w
  | .SLTI => setLessImmEffect .slt w
  | .SLTIU => setLessImmEffect .ult w
  | .ADD => regEffect .add w
  | .SUB => regEffect .sub w
  | .XOR => regEffect .xor w
  | .OR => regEffect .or w
  | .AND => regEffect .and w
  | .SLL => regEffect .shl w
  | .SRL => regEffect .lshr w
  | .SRA => regEffect .ashr w
  | .SLT => setLessEffect .slt w
  | .SLTU => setLessEffect .ult w

/-- The check of the call that a word makes. -/
def checkCall (check : CallCheck) (k : Instr) (w : BitVec 32) (σ : HostState) : Except Fault Unit :=
  match σ.memoryCall w k with
  | some (f, args) => check σ f args
  | none => .ok ()

/-- On a host with a check the call of a word is checked before the word has its effect. -/
theorem generate_guarded (check : CallCheck) (k : Instr) (w : BitVec 32) :
    Simulates (cpuHost.guard check) cpuArg (generate k w) fun σ =>
      checkCall check k w σ >>= fun _ => effect k w σ := by
  cases k
  case UNKNOWN | ECALL => exact Simulates.nil
  case FENCE | FENCETSO | PAUSE | EBREAK => exact updatePC_simulates.guard fun _ => rfl
  case LUI => exact (lui_simulates w).guard fun _ => rfl
  case AUIPC => exact (auipc_simulates w).guard fun _ => rfl
  case JAL => exact (jal_simulates w).guard fun _ => rfl
  case JALR => exact (jalr_simulates w).guard fun _ => rfl
  case BEQ | BNE | BLT | BGE | BLTU | BGEU => exact (branch_simulates w _).guard fun _ => rfl
  case LB => exact signedLoad_guarded w check 0 .byte rfl
  case LH => exact signedLoad_guarded w check 1 .half rfl
  case LW => exact signedLoad_guarded w check 2 .word rfl
  case LBU => exact unsignedLoad_guarded w check 0 .byte rfl
  case LHU => exact unsignedLoad_guarded w check 1 .half rfl
  case SB => exact store_guarded w check 3 .byte rfl
  case SH => exact store_guarded w check 4 .half rfl
  case SW => exact store_guarded w check 5 .word rfl
  case ADDI | XORI | ORI | ANDI | SLLI | SRLI | SRAI => exact (imm_simulates w _ _).guard fun _ => rfl
  case SLTI | SLTIU => exact (setLessImm_simulates w _).guard fun _ => rfl
  case ADD | SUB | XOR | OR | AND => exact (reg_simulates w _).guard fun _ => rfl
  case SLL | SRL | SRA => exact (regShift_simulates w _).guard fun _ => rfl
  case SLT | SLTU => exact (setLess_simulates w _).guard fun _ => rfl

theorem checkCall_pass (k : Instr) (w : BitVec 32) (σ : HostState) : checkCall pass k w σ = .ok () := by
  unfold checkCall
  split <;> rfl

/-- The code appended for a word has exactly its effect, wherever in a block it stands. -/
theorem generate_simulates (k : Instr) (w : BitVec 32) :
    Simulates cpuHost cpuArg (generate k w) (effect k w) := by
  have hguarded := generate_guarded pass k w
  simp only [checkCall_pass, ok_bind] at hguarded
  rwa [guard_pass] at hguarded

/-- What an instruction does to registers, program counter and memory, in outline. -/
inductive Kind where
  | idle | advance | write | link | branch | store
  deriving DecidableEq, Repr

def Instr.kind : Instr → Kind
  | .UNKNOWN | .ECALL => .idle
  | .FENCE | .FENCETSO | .PAUSE | .EBREAK => .advance
  | .JAL | .JALR => .link
  | .BEQ | .BNE | .BLT | .BGE | .BLTU | .BGEU => .branch
  | .SB | .SH | .SW => .store
  | _ => .write

/-- The states that an instruction of a kind can end in. -/
def Kind.Outcome (w : BitVec 32) (σ σ' : HostState) : Kind → Prop
  | .idle => σ' = σ
  | .advance => σ' = σ.advance
  | .write => ∃ v, σ' = σ.writeRd w v
  | .link => ∃ v pc, σ' = (σ.setReg (RiscvFormat.rd w) v).setPC pc
  | .branch => ∃ pc, σ' = σ.setPC pc
  | .store => ∃ m, σ' = HostState.advance { σ with Manager := m }

private theorem loadEffect_outcome {width : Width} {ext : BitVec (8 * width.bytes) → BitVec 32}
    {w : BitVec 32} {σ σ' : HostState} (h : loadEffect width ext w σ = .ok σ') :
    ∃ v, σ' = σ.writeRd w v := by
  unfold loadEffect at h
  split at h
  · obtain ⟨v, -, rfl⟩ := map_eq_ok.mp h
    exact ⟨_, rfl⟩
  · cases h

private theorem storeEffect_outcome {width : Width} {w : BitVec 32} {σ σ' : HostState}
    (h : storeEffect width w σ = .ok σ') : ∃ m, σ' = HostState.advance { σ with Manager := m } := by
  unfold storeEffect at h
  split at h
  · obtain ⟨m, -, rfl⟩ := map_eq_ok.mp h
    exact ⟨m, rfl⟩
  · cases h

/-- Everything a word can do. -/
theorem effect_outcome {k : Instr} {w : BitVec 32} {σ σ' : HostState}
    (h : effect k w σ = .ok σ') : k.kind.Outcome w σ σ' := by
  cases k
  case LB | LH | LW | LBU | LHU => exact loadEffect_outcome h
  case SB | SH | SW => exact storeEffect_outcome h
  case JAL | JALR => exact ⟨_, _, (Except.ok.inj h).symm⟩
  case UNKNOWN | ECALL | FENCE | FENCETSO | PAUSE | EBREAK => exact (Except.ok.inj h).symm
  all_goals exact ⟨_, (Except.ok.inj h).symm⟩

/-- Only stores write memory. -/
theorem effect_Manager {k : Instr} {w : BitVec 32} {σ σ' : HostState}
    (h : effect k w σ = .ok σ') (hk : k.kind ≠ .store) : σ'.Manager = σ.Manager := by
  have hout := effect_outcome h
  generalize k.kind = kind at hout hk
  cases kind with
  | idle => rw [show σ' = σ from hout]
  | advance => rw [show σ' = σ.advance from hout]; rfl
  | write | branch =>
    obtain ⟨v, rfl⟩ := hout
    rfl
  | link =>
    obtain ⟨v, pc, rfl⟩ := hout
    rfl
  | store => exact absurd rfl hk

end DBTranslator.Riscv
