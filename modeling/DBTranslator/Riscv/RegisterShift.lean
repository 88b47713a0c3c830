import DBTranslator.Riscv.Alu

/-! The register shifts. Their bodies hand the whole word of the amount to a shift that is poison
from 32 on, where the forms with a constant amount mask it to five bits. -/
namespace DBTranslator.Riscv
open Lib Lib.Ssa Lib.Rv32i

inductive Shift where
  | left | right | arithmetic
  deriving DecidableEq, Repr

namespace Shift

/-- The form whose amount is in a register. -/
def register : Shift → Instr
  | .left => .SLL
  | .right => .SRL
  | .arithmetic => .SRA

/-- The form whose amount is a constant. -/
def constant : Shift → Instr
  | .left => .SLLI
  | .right => .SRLI
  | .arithmetic => .SRAI

def aluOp : Shift → AluOp
  | .left => .sll
  | .right => .srl
  | .arithmetic => .sra

/-- The operation of the emitted code. -/
def binOp : Shift → BinOp
  | .left => .shl
  | .right => .lshr
  | .arithmetic => .ashr

variable (sh : Shift)

private theorem aluOf_binOp : aluOf sh.binOp = some sh.aluOp := by cases sh <;> rfl
private theorem aluOp_isShift : sh.aluOp.isShift = true := by cases sh <;> rfl

private theorem effect_register (w : BitVec 32) : effect sh.register w = regEffect sh.binOp w := by
  cases sh <;> rfl

private theorem effect_constant (w : BitVec 32) : effect sh.constant w = immEffect sh.binOp (shamt w) w := by
  cases sh <;> rfl

private theorem eval_poison (a : BitVec 32) {b : BitVec 32} (hb : 32 ≤ b.toNat) :
    sh.binOp.eval a b = none := by
  cases sh <;> exact if_neg (Nat.not_lt.mpr hb)

end Shift

/-- The code for the word leaves a defined state in which `rd` holds the old `rs1` shifted by the low
five bits of the old `rs2`, `PC` is advanced and nothing else is changed; the form with that constant
amount does the same. -/
def ShiftsByLowBits (sh : Shift) (w : BitVec 32) (s : CPUState) : Prop :=
  let x := s.Registers (RiscvFormat.rs1 w)
  let y := s.Registers (RiscvFormat.rs2 w)
  let s' := { s with
    Registers := Function.update s.Registers (RiscvFormat.rd w) (sh.aluOp.eval x y)
    PC := s.PC + 4#32 }
  RunsTo (generate sh.register w) s s' ∧
    ∀ wi, RiscvFormat.rs1 wi = RiscvFormat.rs1 w → RiscvFormat.rd wi = RiscvFormat.rd w →
      (shamt wi).toNat = y.toNat % 32 → RunsTo (generate sh.constant wi) s s'

section Word
variable (sh : Shift) (w : BitVec 32) (s : CPUState)

/-- An amount of 32 or more leaves poison in `rd`. -/
theorem register_shift_poison (hy : 32 ≤ (s.Registers (RiscvFormat.rs2 w)).toNat) :
    runIr (generate sh.register w) s.host = .ok (s.host.writeRd w none) := by
  rw [runIr_of_simulates (generate_simulates _ w), sh.effect_register, regEffect, HostState.rs1,
    HostState.rs2, CPUState.host_Registers, CPUState.host_Registers, Option.bind_some,
    Option.bind_some, sh.eval_poison _ hy]

private theorem register_shift_defined (hy : (s.Registers (RiscvFormat.rs2 w)).toNat < 32) :
    runIr (generate sh.register w) s.host = .ok (s.host.writeRd w (some (sh.aluOp.eval
      (s.Registers (RiscvFormat.rs1 w)) (s.Registers (RiscvFormat.rs2 w))))) := by
  rw [runIr_of_simulates (generate_simulates _ w), sh.effect_register,
    regEffect_eq sh.aluOf_binOp fun _ => hy]

private theorem constant_shift_run (y : BitVec 32) (hy : (shamt w).toNat = y.toNat % 32) :
    runIr (generate sh.constant w) s.host = .ok (s.host.writeRd w (some (sh.aluOp.eval
      (s.Registers (RiscvFormat.rs1 w)) y))) := by
  have hlt : (shamt w).toNat < 32 := by
    rw [hy]
    exact Nat.mod_lt _ (by decide)
  rw [runIr_of_simulates (generate_simulates _ w), sh.effect_constant,
    immEffect_eq sh.aluOf_binOp _ fun _ => hlt,
    AluOp.eval_of_mod sh.aluOp_isShift _ (y := shamt w) (z := y) (by rw [hy, Nat.mod_mod])]

/-- A poisoned destination is no concrete state. -/
private theorem not_runsTo_of_poison {b : IRBuilder Unit} {t : CPUState}
    (hrun : runIr b s.host = .ok (s.host.writeRd w none)) : ¬ RunsTo b s t := by
  intro h
  have hreg := congrArg (fun σ => HostState.Registers σ (RiscvFormat.rd w))
    (Except.ok.inj (hrun.symm.trans h))
  have hnone : (s.host.writeRd w none).Registers (RiscvFormat.rd w) = none := Function.update_self _ _ _
  cases hnone.symm.trans hreg

end Word

/-- A register shift does what the manual says exactly when its amount is less than 32. -/
theorem register_shift_iff (sh : Shift) (w : BitVec 32) (s : CPUState) :
    ShiftsByLowBits sh w s ↔ (s.Registers (RiscvFormat.rs2 w)).toNat < 32 := by
  constructor
  · rintro ⟨hrun, -⟩
    by_contra hy
    exact not_runsTo_of_poison w s (register_shift_poison sh w s (Nat.le_of_not_lt hy)) hrun
  · intro hy
    constructor
    · rw [RunsTo, register_shift_defined sh w s hy, CPUState.host_writeRd]
    · intro wi h1 hd hamount
      rw [RunsTo, constant_shift_run sh wi s _ hamount, CPUState.host_writeRd, h1, hd]

/-- `sll x3, x1, x2` with 1 in `x1` and 32 in `x2` leaves poison, not 1, in `x3`. -/
theorem sll_by_thirty_two : ¬ ShiftsByLowBits .left 0x002091B3#32
    ⟨fun r => if r = 2 then 32 else 1, 0, MemoryManager.empty⟩ := by
  rintro ⟨hrun, -⟩
  exact not_runsTo_of_poison _ _ (register_shift_poison .left _ _ (by decide)) hrun

end DBTranslator.Riscv
