import DBTranslator.Riscv.Decode
import DBTranslator.Riscv.Host

/-! The `build_ir` bodies and `generate` of `Instruction.cpp`: the code that each guest
word appends to the function of its block. -/
namespace DBTranslator.Riscv
open Lib.Ssa Lib.Ssa.Builder

abbrev IRBuilder := Builder MemoryFunction

/-- `Data.CurrentFunction->getArg(0)`. -/
def CPUArg : Operand := .local 0

/-- Field `Idx` of `CPUState`, at the offset the struct layout gives it. -/
def createStructGEP (Ptr : Operand) (Idx : Fin 3) : IRBuilder Operand :=
  createInBoundsGEP 1 Ptr (getInt32 (![0#32, 128#32, 136#32] Idx))

/-- Element `Reg` of the register array. -/
def createRegGEP (RegsPtr : Operand) (Reg : BitVec 32) : IRBuilder Operand :=
  createInBoundsGEP 4 RegsPtr (getInt32 Reg)

def updatePC : IRBuilder Unit := do
  let PCPtr ← createStructGEP CPUArg 1
  let PCVal ← createLoad (.int 32) PCPtr
  let NewPCVal ← createBinary .add PCVal (getInt32 4#32)
  createStore NewPCVal PCPtr

section Fields
variable (InstructionData : BitVec 32)

def regDest : BitVec 32 := (InstructionData >>> 7) &&& 0x1F#32
def regSrc1 : BitVec 32 := (InstructionData >>> 15) &&& 0x1F#32
def regSrc2 : BitVec 32 := (InstructionData >>> 20) &&& 0x1F#32
def shamt : BitVec 32 := (InstructionData >>> 20) &&& 0x1F#32
def upperImmediate : BitVec 32 := InstructionData &&& 0xFFFFF000#32

def jalOffset : BitVec 32 :=
  let Offset := ((InstructionData >>> 31) &&& 0x1#32) <<< 20
    ||| ((InstructionData >>> 12) &&& 0xFF#32) <<< 12
    ||| ((InstructionData >>> 20) &&& 0x1#32) <<< 11
    ||| ((InstructionData >>> 21) &&& 0x3FF#32) <<< 1
  if Offset &&& 0x80000#32 ≠ 0 then Offset ||| 0xFFF00000#32 else Offset

def immediate : BitVec 32 :=
  let Immediate := (InstructionData >>> 20) &&& 0xFFF#32
  if Immediate &&& 0x800#32 ≠ 0 then Immediate ||| 0xFFFFF000#32 else Immediate

def branchOffset : BitVec 32 :=
  let Offset := ((InstructionData >>> 31) &&& 0x1#32) <<< 12
    ||| ((InstructionData >>> 7) &&& 0x1#32) <<< 11
    ||| ((InstructionData >>> 25) &&& 0x3F#32) <<< 5
    ||| ((InstructionData >>> 8) &&& 0xF#32) <<< 1
  if Offset &&& 0x1000#32 ≠ 0 then Offset ||| 0xFFFFE000#32 else Offset

def storeOffset : BitVec 32 :=
  let Offset := ((InstructionData >>> 25) &&& 0x7F#32) <<< 5
    ||| ((InstructionData >>> 7) &&& 0x1F#32)
  if Offset &&& 0x800#32 ≠ 0 then Offset ||| 0xFFFFF000#32 else Offset

end Fields

def LUIInstruction.buildIr (InstructionData : BitVec 32) : IRBuilder Unit := do
  let RegsPtr ← createStructGEP CPUArg 0
  let RegDestPtr ← createRegGEP RegsPtr (regDest InstructionData)
  createStore (getInt32 (upperImmediate InstructionData)) RegDestPtr
  updatePC

def AUIPCInstruction.buildIr (InstructionData : BitVec 32) : IRBuilder Unit := do
  let RegsPtr ← createStructGEP CPUArg 0
  let RegDestPtr ← createRegGEP RegsPtr (regDest InstructionData)
  let PCPtr ← createStructGEP CPUArg 1
  let PCVal ← createLoad (.int 32) PCPtr
  let Sum ← createBinary .add (getInt32 (upperImmediate InstructionData)) PCVal
  createStore Sum RegDestPtr
  let NewPCVal ← createBinary .add PCVal (getInt32 4#32)
  createStore NewPCVal PCPtr

def JALInstruction.buildIr (InstructionData : BitVec 32) : IRBuilder Unit := do
  let RegsPtr ← createStructGEP CPUArg 0
  let RegDestPtr ← createRegGEP RegsPtr (regDest InstructionData)
  let PCPtr ← createStructGEP CPUArg 1
  let PCVal ← createLoad (.int 32) PCPtr
  let Link ← createBinary .add (getInt32 4#32) PCVal
  createStore Link RegDestPtr
  let Target ← createBinary .add (getInt32 (jalOffset InstructionData)) PCVal
  createStore Target PCPtr

def JALRInstruction.buildIr (InstructionData : BitVec 32) : IRBuilder Unit := do
  let RegsPtr ← createStructGEP CPUArg 0
  let RegSrcPtr ← createRegGEP RegsPtr (regSrc1 InstructionData)
  let RegSrcVal ← createLoad (.int 32) RegSrcPtr
  let PCPtr ← createStructGEP CPUArg 1
  let PCVal ← createLoad (.int 32) PCPtr
  let RegDestPtr ← createRegGEP RegsPtr (regDest InstructionData)
  let Link ← createBinary .add PCVal (getInt32 4#32)
  createStore Link RegDestPtr
  let Target ← createBinary .add RegSrcVal (getInt32 (immediate InstructionData))
  let TargetAligned ← createBinary .and Target (getInt32 (~~~1#32))
  createStore TargetAligned PCPtr

/-- The common body of the conditional branches. -/
def branchIr (Cmp : Pred) (InstructionData : BitVec 32) : IRBuilder Unit := do
  let RegsPtr ← createStructGEP CPUArg 0
  let Reg1Ptr ← createRegGEP RegsPtr (regSrc1 InstructionData)
  let Reg2Ptr ← createRegGEP RegsPtr (regSrc2 InstructionData)
  let Reg1Val ← createLoad (.int 32) Reg1Ptr
  let Reg2Val ← createLoad (.int 32) Reg2Ptr
  let PCPtr ← createStructGEP CPUArg 1
  let PCVal ← createLoad (.int 32) PCPtr
  let Cond ← createICmp Cmp Reg1Val Reg2Val
  let PCPlusOffset ← createBinary .add PCVal (getInt32 (branchOffset InstructionData))
  let PCPlus4 ← createBinary .add PCVal (getInt32 4#32)
  let PCNext ← createSelect Cond PCPlusOffset PCPlus4
  createStore PCNext PCPtr

def BEQInstruction.buildIr := branchIr .eq
def BNEInstruction.buildIr := branchIr .ne
def BLTInstruction.buildIr := branchIr .slt
def BGEInstruction.buildIr := branchIr .sge
def BLTUInstruction.buildIr := branchIr .ult
def BGEUInstruction.buildIr := branchIr .uge

/-- The common body of the loads: `MemoryFunctions[Index]` and an extension of its result. -/
def loadIr (Index : Fin 6) (createExt : Nat → Operand → Nat → IRBuilder Operand)
    (InstructionData : BitVec 32) : IRBuilder Unit := do
  let RegsPtr ← createStructGEP CPUArg 0
  let MemoryManagerPtrPtr ← createStructGEP CPUArg 2
  let MemoryManagerPtr ← createLoad .ptr MemoryManagerPtrPtr
  let RegDestPtr ← createRegGEP RegsPtr (regDest InstructionData)
  let RegSrcPtr ← createRegGEP RegsPtr (regSrc1 InstructionData)
  let RegSrcVal ← createLoad (.int 32) RegSrcPtr
  let Address ← createBinary .add RegSrcVal (getInt32 (immediate InstructionData))
  let ReadMemory ← createCall (addMemoryInterface Index) [MemoryManagerPtr, Address]
  let Value ← createExt (8 * (addMemoryInterface Index).width.bytes) ReadMemory 32
  createStore Value RegDestPtr
  updatePC

def LBInstruction.buildIr := loadIr 0 createSExt
def LHInstruction.buildIr := loadIr 1 createSExt
def LWInstruction.buildIr := loadIr 2 createSExt
def LBUInstruction.buildIr := loadIr 0 createZExt
def LHUInstruction.buildIr := loadIr 1 createZExt

/-- The common body of the stores: the low `Bits` of the register to `MemoryFunctions[Index]`. -/
def storeIr (Index : Fin 6) (Bits : Nat) (InstructionData : BitVec 32) : IRBuilder Unit := do
  let RegsPtr ← createStructGEP CPUArg 0
  let MemoryManagerPtrPtr ← createStructGEP CPUArg 2
  let RegSrc1Ptr ← createRegGEP RegsPtr (regSrc1 InstructionData)
  let RegSrc2Ptr ← createRegGEP RegsPtr (regSrc2 InstructionData)
  let RegSrc1Val ← createLoad (.int 32) RegSrc1Ptr
  let RegSrc2Val ← createLoad (.int Bits) RegSrc2Ptr
  let MemoryManagerPtr ← createLoad .ptr MemoryManagerPtrPtr
  let Address ← createBinary .add RegSrc1Val (getInt32 (storeOffset InstructionData))
  createCallVoid (addMemoryInterface Index) [MemoryManagerPtr, Address, RegSrc2Val]
  updatePC

def SBInstruction.buildIr := storeIr 3 8
def SHInstruction.buildIr := storeIr 4 16
def SWInstruction.buildIr := storeIr 5 32

/-- The common body of the operations on a register and a constant. -/
def immIr (Op : BinOp) (Immediate : BitVec 32 → BitVec 32) (InstructionData : BitVec 32) :
    IRBuilder Unit := do
  let RegsPtr ← createStructGEP CPUArg 0
  let RegSrcPtr ← createRegGEP RegsPtr (regSrc1 InstructionData)
  let RegSrcVal ← createLoad (.int 32) RegSrcPtr
  let Result ← createBinary Op RegSrcVal (getInt32 (Immediate InstructionData))
  let RegDestPtr ← createRegGEP RegsPtr (regDest InstructionData)
  createStore Result RegDestPtr
  updatePC

def ADDIInstruction.buildIr := immIr .add immediate
def XORIInstruction.buildIr := immIr .xor immediate
def ORIInstruction.buildIr := immIr .or immediate
def ANDIInstruction.buildIr := immIr .and immediate
def SLLIInstruction.buildIr := immIr .shl shamt
def SRLIInstruction.buildIr := immIr .lshr shamt
def SRAIInstruction.buildIr := immIr .ashr shamt

/-- The common body of `SLTI` and `SLTIU`. -/
def setLessImmIr (Cmp : Pred) (InstructionData : BitVec 32) : IRBuilder Unit := do
  let RegsPtr ← createStructGEP CPUArg 0
  let RegDestPtr ← createRegGEP RegsPtr (regDest InstructionData)
  let RegSrcPtr ← createRegGEP RegsPtr (regSrc1 InstructionData)
  let SrcValue ← createLoad (.int 32) RegSrcPtr
  let Cond ← createICmp Cmp SrcValue (getInt32 (immediate InstructionData))
  let Value ← createZExt 1 Cond 32
  createStore Value RegDestPtr
  updatePC

def SLTIInstruction.buildIr := setLessImmIr .slt
def SLTIUInstruction.buildIr := setLessImmIr .ult

/-- The common body of `ADD`, `SUB`, `XOR`, `OR` and `AND`. -/
def regIr (Op : BinOp) (InstructionData : BitVec 32) : IRBuilder Unit := do
  let RegsPtr ← createStructGEP CPUArg 0
  let Reg1Ptr ← createRegGEP RegsPtr (regSrc1 InstructionData)
  let Reg2Ptr ← createRegGEP RegsPtr (regSrc2 InstructionData)
  let Reg1Val ← createLoad (.int 32) Reg1Ptr
  let Reg2Val ← createLoad (.int 32) Reg2Ptr
  let Result ← createBinary Op Reg1Val Reg2Val
  let RegDestPtr ← createRegGEP RegsPtr (regDest InstructionData)
  createStore Result RegDestPtr
  updatePC

def ADDInstruction.buildIr := regIr .add
def SUBInstruction.buildIr := regIr .sub
def XORInstruction.buildIr := regIr .xor
def ORInstruction.buildIr := regIr .or
def ANDInstruction.buildIr := regIr .and

/-- The common body of the register shifts, which take the whole word of the amount. -/
def regShiftIr (Op : BinOp) (InstructionData : BitVec 32) : IRBuilder Unit := do
  let RegsPtr ← createStructGEP CPUArg 0
  let RegSrc1Ptr ← createRegGEP RegsPtr (regSrc1 InstructionData)
  let RegSrc1Val ← createLoad (.int 32) RegSrc1Ptr
  let RegSrc2Ptr ← createRegGEP RegsPtr (regSrc2 InstructionData)
  let RegSrc2Val ← createLoad (.int 32) RegSrc2Ptr
  let Result ← createBinary Op RegSrc1Val RegSrc2Val
  let RegDestPtr ← createRegGEP RegsPtr (regDest InstructionData)
  createStore Result RegDestPtr
  updatePC

def SLLInstruction.buildIr := regShiftIr .shl
def SRLInstruction.buildIr := regShiftIr .lshr
def SRAInstruction.buildIr := regShiftIr .ashr

/-- The common body of `SLT` and `SLTU`. Both pointers index with `RegSrc1`. -/
def setLessIr (Cmp : Pred) (InstructionData : BitVec 32) : IRBuilder Unit := do
  let RegsPtr ← createStructGEP CPUArg 0
  let RegDestPtr ← createRegGEP RegsPtr (regDest InstructionData)
  let RegSrc1Ptr ← createRegGEP RegsPtr (regSrc1 InstructionData)
  let Src1Value ← createLoad (.int 32) RegSrc1Ptr
  let RegSrc2Ptr ← createRegGEP RegsPtr (regSrc1 InstructionData)
  let Src2Value ← createLoad (.int 32) RegSrc2Ptr
  let Cond ← createICmp Cmp Src1Value Src2Value
  let Value ← createZExt 1 Cond 32
  createStore Value RegDestPtr
  updatePC

def SLTInstruction.buildIr := setLessIr .slt
def SLTUInstruction.buildIr := setLessIr .ult

def FENCEInstruction.buildIr (_ : BitVec 32) : IRBuilder Unit := updatePC
def FENCETSOInstruction.buildIr (_ : BitVec 32) : IRBuilder Unit := updatePC
def PAUSEInstruction.buildIr (_ : BitVec 32) : IRBuilder Unit := updatePC
def ECALLInstruction.buildIr (_ : BitVec 32) : IRBuilder Unit := pure ()
def EBREAKInstruction.buildIr (_ : BitVec 32) : IRBuilder Unit := updatePC

def generate (InstrType : Instr) (InstructionData : BitVec 32) : IRBuilder Unit :=
  match InstrType with
  | .UNKNOWN => pure ()
  | .LUI => LUIInstruction.buildIr InstructionData
  | .AUIPC => AUIPCInstruction.buildIr InstructionData
  | .JAL => JALInstruction.buildIr InstructionData
  | .JALR => JALRInstruction.buildIr InstructionData
  | .BEQ => BEQInstruction.buildIr InstructionData
  | .BNE => BNEInstruction.buildIr InstructionData
  | .BLT => BLTInstruction.buildIr InstructionData
  | .BGE => BGEInstruction.buildIr InstructionData
  | .BLTU => BLTUInstruction.buildIr InstructionData
  | .BGEU => BGEUInstruction.buildIr InstructionData
  | .LB => LBInstruction.buildIr InstructionData
  | .LH => LHInstruction.buildIr InstructionData
  | .LW => LWInstruction.buildIr InstructionData
  | .LBU => LBUInstruction.buildIr InstructionData
  | .LHU => LHUInstruction.buildIr InstructionData
  | .SB => SBInstruction.buildIr InstructionData
  | .SH => SHInstruction.buildIr InstructionData
  | .SW => SWInstruction.buildIr InstructionData
  | .ADDI => ADDIInstruction.buildIr InstructionData
  | .SLTI => SLTIInstruction.buildIr InstructionData
  | .SLTIU => SLTIUInstruction.buildIr InstructionData
  | .XORI => XORIInstruction.buildIr InstructionData
  | .ORI => ORIInstruction.buildIr InstructionData
  | .ANDI => ANDIInstruction.buildIr InstructionData
  | .SLLI => SLLIInstruction.buildIr InstructionData
  | .SRLI => SRLIInstruction.buildIr InstructionData
  | .SRAI => SRAIInstruction.buildIr InstructionData
  | .ADD => ADDInstruction.buildIr InstructionData
  | .SUB => SUBInstruction.buildIr InstructionData
  | .SLL => SLLInstruction.buildIr InstructionData
  | .SLT => SLTInstruction.buildIr InstructionData
  | .SLTU => SLTUInstruction.buildIr InstructionData
  | .XOR => XORInstruction.buildIr InstructionData
  | .SRL => SRLInstruction.buildIr InstructionData
  | .SRA => SRAInstruction.buildIr InstructionData
  | .OR => ORInstruction.buildIr InstructionData
  | .AND => ANDInstruction.buildIr InstructionData
  | .FENCE => FENCEInstruction.buildIr InstructionData
  | .FENCETSO => FENCETSOInstruction.buildIr InstructionData
  | .PAUSE => PAUSEInstruction.buildIr InstructionData
  | .ECALL => ECALLInstruction.buildIr InstructionData
  | .EBREAK => EBREAKInstruction.buildIr InstructionData

end DBTranslator.Riscv
