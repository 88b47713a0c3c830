import DBTranslator.Riscv.Branch

/-! `SLT` and `SLTU` against the branches and the immediate forms of the same comparison.
Both bodies load their first register twice. -/
namespace DBTranslator.Riscv
open Lib Lib.Ssa

/-- The body sets `rd` when the old `rs1` is less than the old `rs2`, which is when the branch
on the same registers is taken and what the immediate form writes for the same operand; `PC`
advances and nothing else changes. -/
def SetsLess (less : BitVec 32 → BitVec 32 → Bool) (set branch imm : BitVec 32 → IRBuilder Unit)
    (w : BitVec 32) (s : CPUState) : Prop :=
  let x := s.Registers (RiscvFormat.rs1 w)
  let y := s.Registers (RiscvFormat.rs2 w)
  let v : BitVec 32 := if less x y then 1 else 0
  let s' := { s with
    Registers := Function.update s.Registers (RiscvFormat.rd w) v
    PC := s.PC + 4#32 }
  RunsTo (set w) s s' ∧
    (∀ wb, RiscvFormat.rs1 wb = RiscvFormat.rs1 w → RiscvFormat.rs2 wb = RiscvFormat.rs2 w →
      branchOffset wb ≠ 4#32 →
      (v = 1#32 ↔ RunsTo (branch wb) s { s with PC := s.PC + branchOffset wb })) ∧
    ∀ wi, RiscvFormat.rs1 wi = RiscvFormat.rs1 w → RiscvFormat.rd wi = RiscvFormat.rd w →
      immediate wi = y → RunsTo (imm wi) s s'

private theorem ofBool_word (c : Bool) : (BitVec.ofBool c).setWidth 32 = if c then 1#32 else 0#32 := by
  cases c <;> rfl

section Bodies
variable (Cmp : Pred) (w : BitVec 32) (s : CPUState)

private theorem writeRd_iff (b : IRBuilder Unit) (v v' : BitVec 32)
    (hrun : runIr b s.host = .ok (s.host.writeRd w (some v))) :
    RunsTo b s { s with
      Registers := Function.update s.Registers (RiscvFormat.rd w) v'
      PC := s.PC + 4#32 } ↔ v = v' := by
  rw [RunsTo, hrun, CPUState.host_writeRd, Except.ok.injEq, CPUState.host_inj]
  simp only [CPUState.mk.injEq, and_true]
  exact (Function.update_injective s.Registers (RiscvFormat.rd w)).eq_iff

private theorem setLess_run (hirr : ∀ x : BitVec 32, Cmp.holds x x = false) :
    runIr (setLessIr Cmp w) s.host = .ok (s.host.writeRd w (some 0#32)) := by
  rw [runIr_of_simulates (setLess_simulates w Cmp), setLessEffect, HostState.rs1,
    CPUState.host_Registers, Option.map_some, hirr]
  rfl

private theorem setLessImm_run : runIr (setLessImmIr Cmp w) s.host = .ok (s.host.writeRd w
    (some (if Cmp.holds (s.Registers (RiscvFormat.rs1 w)) (immediate w) then 1#32 else 0#32))) := by
  rw [runIr_of_simulates (setLessImm_simulates w Cmp), setLessImmEffect, HostState.rs1,
    CPUState.host_Registers, Option.map_some, ofBool_word]

private theorem setsLess_iff (hirr : ∀ x : BitVec 32, Cmp.holds x x = false) :
    SetsLess Cmp.holds (setLessIr Cmp) (branchIr Cmp) (setLessImmIr Cmp) w s ↔
      Cmp.holds (s.Registers (RiscvFormat.rs1 w)) (s.Registers (RiscvFormat.rs2 w)) = false := by
  dsimp only [SetsLess]
  rw [writeRd_iff w s _ _ _ (setLess_run Cmp w s hirr)]
  constructor
  · rintro ⟨hset, -, -⟩
    by_contra hless
    rw [Bool.not_eq_false] at hless
    rw [if_pos hless] at hset
    exact absurd hset (by decide)
  · intro hless
    rw [hless]
    refine ⟨rfl, ?_, ?_⟩
    · intro wb h1 h2 hoff
      rw [branch_taken_iff Cmp wb s hoff, h1, h2, hless]
      decide
    · intro wi h1 hd himm
      rw [← hd, writeRd_iff wi s _ _ _ (setLessImm_run Cmp wi s), h1, himm, hless]
      rfl

private theorem slt_irrefl (x : BitVec 32) : Pred.slt.holds x x = false := by
  simp [Pred.holds, BitVec.slt]

private theorem ult_irrefl (x : BitVec 32) : Pred.ult.holds x x = false := by
  simp [Pred.holds, BitVec.ult]

end Bodies

/-- `SLT` and `SLTU` do what they should exactly when the answer is no. -/
theorem set_less_iff (w : BitVec 32) (s : CPUState) :
    (SetsLess BitVec.slt SLTInstruction.buildIr BLTInstruction.buildIr SLTIInstruction.buildIr w s ↔
        ¬ (s.Registers (RiscvFormat.rs1 w)).slt (s.Registers (RiscvFormat.rs2 w))) ∧
      (SetsLess BitVec.ult SLTUInstruction.buildIr BLTUInstruction.buildIr SLTIUInstruction.buildIr w s ↔
        ¬ (s.Registers (RiscvFormat.rs1 w)).ult (s.Registers (RiscvFormat.rs2 w))) := by
  rw [Bool.not_eq_true, Bool.not_eq_true]
  constructor
  · exact setsLess_iff .slt w s slt_irrefl
  · exact setsLess_iff .ult w s ult_irrefl

/-- `slt x3, x1, x2` with 0 in `x1` and 1 in `x2` writes 0. -/
theorem slt_zero_one : ¬ SetsLess BitVec.slt SLTInstruction.buildIr BLTInstruction.buildIr
    SLTIInstruction.buildIr 0x0020A1B3#32 ⟨fun r => if r = 2 then 1 else 0, 0, MemoryManager.empty⟩ := by
  rintro ⟨hset, -, -⟩
  have hzero := (writeRd_iff _ _ _ _ _ (setLess_run .slt _ _ slt_irrefl)).mp hset
  exact absurd hzero (by decide)

end DBTranslator.Riscv
