import DBTranslator.Lib.LittleEndian
import DBTranslator.Lib.Rv32i
import Mathlib.Logic.Function.Basic

/-! A single RV32I hart as the manual describes it: the decoding of words, the register file with
its constant zero, a memory of bytes and the step of one instruction. -/
namespace DBTranslator.Lib.Rv32i
open BitField RiscvFormat LittleEndian

/-- The base instructions with their operands. A fence orders nothing on a single hart. -/
inductive Instruction where
  | lui (rd : BitVec 5) (value : BitVec 20)
  | auipc (rd : BitVec 5) (value : BitVec 20)
  | jal (rd : BitVec 5) (offset : BitVec 21)
  | jalr (rd rs1 : BitVec 5) (offset : BitVec 12)
  | branch (c : Condition) (rs1 rs2 : BitVec 5) (offset : BitVec 13)
  | load (bytes : Nat) (signed : Bool) (rd rs1 : BitVec 5) (offset : BitVec 12)
  | store (bytes : Nat) (rs1 rs2 : BitVec 5) (offset : BitVec 12)
  | imm (op : AluOp) (rd rs1 : BitVec 5) (value : Word)
  | reg (op : AluOp) (rd rs1 rs2 : BitVec 5)
  | fence
  | ecall
  | ebreak
  deriving DecidableEq, Repr

def conditionOf (f3 : BitVec 3) : Option Condition :=
  match f3 with
  | 0#3 => some .eq
  | 1#3 => some .ne
  | 4#3 => some .lt
  | 5#3 => some .ge
  | 6#3 => some .ltu
  | 7#3 => some .geu
  | _ => none

/-- The number of bytes that a load reads and whether it extends the sign. -/
def loadOf (f3 : BitVec 3) : Option (Nat × Bool) :=
  match f3 with
  | 0#3 => some (1, true)
  | 1#3 => some (2, true)
  | 2#3 => some (4, true)
  | 4#3 => some (1, false)
  | 5#3 => some (2, false)
  | _ => none

def storeOf (f3 : BitVec 3) : Option Nat :=
  match f3 with
  | 0#3 => some 1
  | 1#3 => some 2
  | 2#3 => some 4
  | _ => none

/-- The operation of a word with two register operands. -/
def regOf (f3 : BitVec 3) (f7 : BitVec 7) : Option AluOp :=
  match f3, f7 with
  | 0#3, 0x00#7 => some .add
  | 0#3, 0x20#7 => some .sub
  | 1#3, 0x00#7 => some .sll
  | 2#3, 0x00#7 => some .slt
  | 3#3, 0x00#7 => some .sltu
  | 4#3, 0x00#7 => some .xor
  | 5#3, 0x00#7 => some .srl
  | 5#3, 0x20#7 => some .sra
  | 6#3, 0x00#7 => some .or
  | 7#3, 0x00#7 => some .and
  | _, _ => none

/-- The operation of a word with an immediate operand; only the shifts look at `funct7`. -/
def immOf (f3 : BitVec 3) (f7 : BitVec 7) : Option AluOp :=
  match f3 with
  | 0#3 => some .add
  | 1#3 => if f7 = 0x00 then some .sll else none
  | 2#3 => some .slt
  | 3#3 => some .sltu
  | 4#3 => some .xor
  | 5#3 => if f7 = 0x00 then some .srl else if f7 = 0x20 then some .sra else none
  | 6#3 => some .or
  | 7#3 => some .and
  | _ => none

/-- The shift amount or the sign-extended immediate. -/
def immValue (op : AluOp) (w : Word) : Word :=
  if op.isShift then (rs2 w).setWidth 32 else (imm12 w).signExtend 32

/-- The instruction that a word encodes, `none` for a reserved word or one of an extension. -/
def decode (w : Word) : Option Instruction :=
  match opcode w with
  | 0x37#7 => some (.lui (rd w) (upperImm w))
  | 0x17#7 => some (.auipc (rd w) (upperImm w))
  | 0x6F#7 => some (.jal (rd w) (jumpImm w))
  | 0x67#7 => if funct3 w = 0 then some (.jalr (rd w) (rs1 w) (imm12 w)) else none
  | 0x63#7 => (conditionOf (funct3 w)).map fun c => .branch c (rs1 w) (rs2 w) (branchImm w)
  | 0x03#7 => (loadOf (funct3 w)).map fun form => .load form.1 form.2 (rd w) (rs1 w) (imm12 w)
  | 0x23#7 => (storeOf (funct3 w)).map fun bytes => .store bytes (rs1 w) (rs2 w) (storeImm w)
  | 0x13#7 => (immOf (funct3 w) (funct7 w)).map fun op => .imm op (rd w) (rs1 w) (immValue op w)
  | 0x33#7 => (regOf (funct3 w) (funct7 w)).map fun op => .reg op (rd w) (rs1 w) (rs2 w)
  | 0x0F#7 => if funct3 w = 0 then some .fence else none
  | 0x73#7 =>
    if funct3 w = 0 ∧ rd w = 0 ∧ rs1 w = 0 then
      if imm12 w = 0 then some .ecall else if imm12 w = 1 then some .ebreak else none
    else none
  | _ => none

/-- The state of a hart. `x0` is a constant. -/
structure Hart where
  pc : Word
  x : BitVec 5 → Word
  x_zero : x 0 = 0
  mem : Word → BitVec 8

namespace Hart
variable (h : Hart)

/-- Write a register; a write to `x0` is dropped. -/
def set (rd : BitVec 5) (v : Word) : Hart :=
  { h with
    x := if rd = 0 then h.x else Function.update h.x rd v
    x_zero := by
      split
      · exact h.x_zero
      · rename_i hrd
        rw [Function.update_of_ne (Ne.symm hrd), h.x_zero] }

def next : Hart := { h with pc := h.pc + 4#32 }

/-- Control goes to an aligned address; a jump to another raises an exception. -/
def jump (target : Word) : Option Hart :=
  if target.toNat % 4 = 0 then some { h with pc := target } else none

/-- The little-endian value of the bytes from an address on; addresses wrap around. -/
def load (n : Nat) (a : Word) : BitVec (8 * n) := ofBytes n fun i => h.mem (a + BitVec.ofNat 32 i)

def store (n : Nat) (a : Word) (v : BitVec (8 * n)) : Hart :=
  { h with mem := fun b => if (b - a).toNat < n then byte v (b - a).toNat else h.mem b }

@[simp] theorem set_pc (rd : BitVec 5) (v : Word) : (h.set rd v).pc = h.pc := rfl
@[simp] theorem set_mem (rd : BitVec 5) (v : Word) : (h.set rd v).mem = h.mem := rfl
@[simp] theorem next_pc : h.next.pc = h.pc + 4#32 := rfl
@[simp] theorem next_x : h.next.x = h.x := rfl
@[simp] theorem next_mem : h.next.mem = h.mem := rfl
@[simp] theorem store_pc (n : Nat) (a : Word) (v : BitVec (8 * n)) : (h.store n a v).pc = h.pc := rfl
@[simp] theorem store_x (n : Nat) (a : Word) (v : BitVec (8 * n)) : (h.store n a v).x = h.x := rfl

theorem set_x {rd r : BitVec 5} (v : Word) (hr : r ≠ 0) :
    (h.set rd v).x r = if r = rd then v else h.x r := by
  show (if rd = 0 then h.x else Function.update h.x rd v) r = _
  by_cases hrd : rd = 0
  · rw [if_pos hrd, if_neg fun heq => hr (heq.trans hrd)]
  · rw [if_neg hrd, Function.update_apply]

theorem jump_eq_some {target : Word} {h' : Hart} (hj : h.jump target = some h') :
    target.toNat % 4 = 0 ∧ h' = { h with pc := target } := by
  unfold jump at hj
  split at hj
  · rename_i haligned
    exact ⟨haligned, (Option.some.inj hj).symm⟩
  · cases hj

/-- A load sees only the bytes that it covers. -/
theorem load_congr {n : Nat} {a b : Word} {h h' : Hart}
    (hbytes : ∀ i < n, h'.mem (b + BitVec.ofNat 32 i) = h.mem (a + BitVec.ofNat 32 i)) :
    h'.load n b = h.load n a := ofBytes_congr n hbytes

end Hart

/-- The registers that an instruction reads. -/
def Instruction.sources : Instruction → List (BitVec 5)
  | .jalr _ rs1 _ | .load _ _ _ rs1 _ | .imm _ _ rs1 _ => [rs1]
  | .branch _ rs1 rs2 _ | .store _ rs1 rs2 _ | .reg _ _ rs1 rs2 => [rs1, rs2]
  | _ => []

/-- The address of a data access and the number of its bytes. -/
def Instruction.access (h : Hart) : Instruction → Option (Word × Nat)
  | .load bytes _ _ rs1 offset | .store bytes rs1 _ offset =>
    some (h.x rs1 + offset.signExtend 32, bytes)
  | _ => none

/-- The bytes that an instruction writes, by their first address and their number. -/
def Instruction.stored (h : Hart) : Instruction → Option (Word × Nat)
  | .store bytes rs1 _ offset => some (h.x rs1 + offset.signExtend 32, bytes)
  | _ => none

/-- The register that an instruction writes and the value that it gives it. -/
def Instruction.result (h : Hart) : Instruction → Option (BitVec 5 × Word)
  | .lui rd value => some (rd, upper value)
  | .auipc rd value => some (rd, h.pc + upper value)
  | .jal rd _ | .jalr rd _ _ => some (rd, h.pc + 4#32)
  | .load bytes signed rd rs1 offset =>
    some (rd, extend signed (h.load bytes (h.x rs1 + offset.signExtend 32)))
  | .imm op rd rs1 value => some (rd, op.eval (h.x rs1) value)
  | .reg op rd rs1 rs2 => some (rd, op.eval (h.x rs1) (h.x rs2))
  | _ => none

/-- The step of an instruction. An environment call, a breakpoint and a misaligned target leave
the hart to the execution environment. -/
def Instruction.exec (h : Hart) : Instruction → Option Hart
  | .lui rd value => some (h.set rd (upper value)).next
  | .auipc rd value => some (h.set rd (h.pc + upper value)).next
  | .jal rd offset => (h.set rd (h.pc + 4#32)).jump (h.pc + offset.signExtend 32)
  | .jalr rd rs1 offset =>
    (h.set rd (h.pc + 4#32)).jump ((h.x rs1 + offset.signExtend 32) &&& ~~~1#32)
  | .branch c rs1 rs2 offset =>
    if c.holds (h.x rs1) (h.x rs2) then h.jump (h.pc + offset.signExtend 32) else some h.next
  | .load bytes signed rd rs1 offset =>
    some (h.set rd (extend signed (h.load bytes (h.x rs1 + offset.signExtend 32)))).next
  | .store bytes rs1 rs2 offset =>
    some (h.store bytes (h.x rs1 + offset.signExtend 32) ((h.x rs2).setWidth (8 * bytes))).next
  | .imm op rd rs1 value => some (h.set rd (op.eval (h.x rs1) value)).next
  | .reg op rd rs1 rs2 => some (h.set rd (op.eval (h.x rs1) (h.x rs2))).next
  | .fence => some h.next
  | .ecall | .ebreak => none

/-- Fetch the word at the program counter, decode it and execute the instruction. -/
def Hart.step (h : Hart) : Option Hart := (decode (h.load 4 h.pc)).bind (Instruction.exec h)

theorem Instruction.access_of_stored {h : Hart} {i : Instruction} {a : Word} {n : Nat}
    (hi : i.stored h = some (a, n)) : i.access h = some (a, n) := by
  cases i with
  | store => exact hi
  | _ => cases hi

section Frame
variable {h h' : Hart} {i : Instruction}

private theorem jump_mem {target : Word} (hj : h.jump target = some h') : h'.mem = h.mem := by
  obtain ⟨-, rfl⟩ := h.jump_eq_some hj
  rfl

/-- Only the bytes of a store change. -/
theorem Instruction.exec_mem (hexec : i.exec h = some h') (b : Word)
    (hb : ∀ a n, i.stored h = some (a, n) → n ≤ (b - a).toNat) : h'.mem b = h.mem b := by
  cases i with
  | jal => exact congrFun (jump_mem hexec) b
  | jalr => exact congrFun (jump_mem hexec) b
  | branch c rs1 rs2 offset =>
    rw [Instruction.exec] at hexec
    split at hexec
    · exact congrFun (jump_mem hexec) b
    · obtain rfl := Option.some.inj hexec
      rfl
  | store bytes rs1 rs2 offset =>
    obtain rfl := Option.some.inj hexec
    exact if_neg (Nat.not_lt.mpr (hb _ _ rfl))
  | ecall | ebreak => cases hexec
  | _ =>
    obtain rfl := Option.some.inj hexec
    rfl

end Frame

end DBTranslator.Lib.Rv32i
