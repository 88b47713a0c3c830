import DBTranslator.Riscv.Immediate

/-! The conditional branches against the manual, from the word to the state: which way they go and
where to. -/
namespace DBTranslator.Riscv
open Lib Lib.Ssa Lib.Rv32i

section Bodies
variable (Cmp : Pred) (w : BitVec 32) (s : CPUState)

/-- The one thing a branch changes is `PC`. -/
theorem branch_run : runIr (branchIr Cmp w) s.host = .ok (CPUState.host { s with
    PC := s.PC + if Cmp.holds (s.Registers (RiscvFormat.rs1 w)) (s.Registers (RiscvFormat.rs2 w)) then
      branchOffset w else 4#32 }) := by
  rw [runIr_of_simulates (branch_simulates w Cmp), branchEffect, HostState.rs1, HostState.rs2]
  simp only [CPUState.host_Registers, CPUState.host_PC, Option.map_some, Option.bind_some]
  split <;> rfl

/-- A branch that does not fall through by its offset is taken when its comparison holds. -/
theorem branch_taken_iff (hoff : branchOffset w ≠ 4#32) :
    RunsTo (branchIr Cmp w) s { s with PC := s.PC + branchOffset w } ↔
      Cmp.holds (s.Registers (RiscvFormat.rs1 w)) (s.Registers (RiscvFormat.rs2 w)) = true := by
  rw [RunsTo, branch_run, Except.ok.injEq, CPUState.host_inj]
  simp only [CPUState.mk.injEq, and_true, true_and, BitVec.add_right_inj]
  by_cases hc : Cmp.holds (s.Registers (RiscvFormat.rs1 w)) (s.Registers (RiscvFormat.rs2 w)) = true
  · rw [if_pos hc]
    exact ⟨fun _ => hc, fun _ => rfl⟩
  · rw [if_neg hc]
    exact ⟨fun h => absurd h.symm hoff, fun h => absurd h hc⟩

end Bodies

/-- The branch on a condition. -/
def branchOf : Condition → Instr
  | .eq => .BEQ
  | .ne => .BNE
  | .lt => .BLT
  | .ge => .BGE
  | .ltu => .BLTU
  | .geu => .BGEU

/-- The comparison of the emitted code for it. -/
def predOf : Condition → Pred
  | .eq => .eq
  | .ne => .ne
  | .lt => .slt
  | .ge => .sge
  | .ltu => .ult
  | .geu => .uge

theorem predOf_holds (c : Condition) (x y : BitVec 32) : (predOf c).holds x y = decide (c.holds x y) := by
  cases c
  case eq => exact beq_eq_decide x y
  case ne =>
    show (!(x == y)) = decide (¬ x = y)
    rw [beq_eq_decide, decide_not]
  case lt | ge | ltu | geu => rfl

/-- The word of a branch on a condition. -/
def branchWord (c : Condition) (rs1 rs2 : BitVec 5) (offset : Int) : BitVec 32 :=
  encode (branchOf c) ⟨0, rs1, rs2, 0, offset, 0, 0, 0⟩

/-- Running the code for the branch ends at its target, with everything else as it was. -/
def BranchTaken (c : Condition) (rs1 rs2 : BitVec 5) (offset : Int) (s : CPUState) : Prop :=
  let w := branchWord c rs1 rs2 offset
  RunsTo (generate (decode w) w) s { s with PC := s.PC + BitVec.ofInt 32 offset }

section Encoded
variable (c : Condition) (rs1 rs2 : BitVec 5) (offset : Int) (s : CPUState)
  (hlo : -2 ^ 12 ≤ offset) (hhi : offset < 2 ^ 12) (heven : offset % 2 = 0)

private theorem generate_branchOf (w : BitVec 32) : generate (branchOf c) w = branchIr (predOf c) w := by
  cases c <;> rfl

private theorem branchWord_regs : RiscvFormat.rs1 (branchWord c rs1 rs2 offset) = rs1 ∧
    RiscvFormat.rs2 (branchWord c rs1 rs2 offset) = rs2 := by
  cases c <;> exact ⟨RiscvFormat.rs1_bType _ _ _ _ _, RiscvFormat.rs2_bType _ _ _ _ _⟩

include hlo hhi heven

private theorem branchWord_offset :
    branchOffset (branchWord c rs1 rs2 offset) = BitVec.ofInt 32 offset := by
  cases c <;> exact branchOffset_bType _ _ _ _ hlo hhi heven

private theorem generate_branchWord : generate (decode (branchWord c rs1 rs2 offset))
    (branchWord c rs1 rs2 offset) = branchIr (predOf c) (branchWord c rs1 rs2 offset) := by
  have hfit : Operands.fit ⟨0, rs1, rs2, 0, offset, 0, 0, 0⟩ (branchOf c) := by
    cases c <;> exact ⟨hlo, hhi, heven⟩
  have hdec : decode (branchWord c rs1 rs2 offset) = branchOf c :=
    decode_encode _ _ (by cases c <;> decide) (by cases c <;> decide) hfit
  rw [hdec, generate_branchOf]

private theorem branch_decides : RunsTo (generate (decode (branchWord c rs1 rs2 offset))
    (branchWord c rs1 rs2 offset)) s { s with
      PC := if c.holds (s.Registers rs1) (s.Registers rs2) then s.PC + BitVec.ofInt 32 offset
        else s.PC + 4#32 } := by
  obtain ⟨h1, h2⟩ := branchWord_regs c rs1 rs2 offset
  rw [generate_branchWord c rs1 rs2 offset hlo hhi heven, RunsTo, branch_run, h1, h2, predOf_holds,
    branchWord_offset c rs1 rs2 offset hlo hhi heven]
  simp only [decide_eq_true_eq]
  split <;> rfl

private theorem branchTaken_iff (hne : offset ≠ 4) :
    BranchTaken c rs1 rs2 offset s ↔ c.holds (s.Registers rs1) (s.Registers rs2) := by
  obtain ⟨h1, h2⟩ := branchWord_regs c rs1 rs2 offset
  have hoff := branchWord_offset c rs1 rs2 offset hlo hhi heven
  have hne' : BitVec.ofInt 32 offset ≠ 4#32 := by
    intro heq
    have hnat := congrArg BitVec.toNat heq
    rw [BitVec.toNat_ofInt] at hnat
    change (offset % 2 ^ 32).toNat = 4 at hnat
    omega
  dsimp only [BranchTaken]
  rw [generate_branchWord c rs1 rs2 offset hlo hhi heven, ← hoff, branch_taken_iff _ _ _ (by rwa [hoff]), h1, h2,
    predOf_holds, decide_eq_true_iff]

end Encoded

/-- Every branch goes to its target when its condition holds of the two registers and to the next
word otherwise, and changes nothing else; of a branch and the branch on the opposite condition
exactly one is taken, unless their target is the next word. -/
theorem branch_full_effect (rs1 rs2 : BitVec 5) (offset : Int) (hlo : -2 ^ 12 ≤ offset)
    (hhi : offset < 2 ^ 12) (heven : offset % 2 = 0) (s : CPUState) (c : Condition) :
    RunsTo (generate (decode (branchWord c rs1 rs2 offset)) (branchWord c rs1 rs2 offset)) s { s with
      PC := if c.holds (s.Registers rs1) (s.Registers rs2) then s.PC + BitVec.ofInt 32 offset
        else s.PC + 4#32 } ∧
    (offset ≠ 4 → (BranchTaken c rs1 rs2 offset s ↔ ¬ BranchTaken c.negate rs1 rs2 offset s)) := by
  refine ⟨branch_decides c rs1 rs2 offset s hlo hhi heven, fun hne => ?_⟩
  rw [branchTaken_iff c rs1 rs2 offset s hlo hhi heven hne, branchTaken_iff c.negate rs1 rs2 offset s hlo hhi heven hne,
    Condition.negate_holds, not_not]

/-- `bge x0, x1, -4` with -1 in `x1` is taken, and `blt` on the same registers is not. -/
theorem branch_back : BranchTaken .ge 0 1 (-4) ⟨fun r => if r = 1 then -1 else 0, 8, MemoryManager.empty⟩ ∧
    ¬ BranchTaken .lt 0 1 (-4) ⟨fun r => if r = 1 then -1 else 0, 8, MemoryManager.empty⟩ := by
  obtain ⟨hrun, hone⟩ := branch_full_effect 0 1 (-4) (by decide) (by decide) (by decide)
    ⟨fun r => if r = 1 then -1 else 0, 8, MemoryManager.empty⟩ .ge
  rw [if_pos (by decide)] at hrun
  exact ⟨hrun, (hone (by decide)).mp hrun⟩

end DBTranslator.Riscv
