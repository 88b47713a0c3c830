import DBTranslator.Riscv.Alu
import DBTranslator.Riscv.LoadStore

/-! `JALR`, and the pairs of words with which compilers build constants, addresses and far calls from
an upper and a lower part. -/
namespace DBTranslator.Riscv
open Lib Lib.Ssa Lib.Ssa.Builder Lib.Rv32i

/-- The code of two words, one after the other in a function. -/
def wordPair (a b : BitVec 32) : IRBuilder Unit := do
  generate (decode a) a
  generate (decode b) b

def luiWord (rd : BitVec 5) (imm : BitVec 20) : BitVec 32 := encode .LUI ⟨rd, 0, 0, 0, imm.toNat, 0, 0, 0⟩

def auipcWord (rd : BitVec 5) (imm : BitVec 20) : BitVec 32 :=
  encode .AUIPC ⟨rd, 0, 0, 0, imm.toNat, 0, 0, 0⟩

def addiWord (rd rs1 : BitVec 5) (imm : BitVec 12) : BitVec 32 :=
  encode .ADDI ⟨rd, rs1, 0, 0, imm.toInt, 0, 0, 0⟩

def jalrWord (rd rs1 : BitVec 5) (imm : BitVec 12) : BitVec 32 :=
  encode .JALR ⟨rd, rs1, 0, 0, imm.toInt, 0, 0, 0⟩

section Words
variable (s : CPUState) (rd rs1 : BitVec 5)

private theorem imm_range (imm : BitVec 12) : -2 ^ 11 ≤ imm.toInt ∧ imm.toInt < 2 ^ 11 :=
  ⟨BitVec.le_toInt imm, BitVec.toInt_lt⟩

private theorem ofInt_toNat (imm : BitVec 20) : BitVec.ofInt 20 imm.toNat = imm := by
  rw [BitVec.ofInt_natCast, BitVec.ofNat_toNat, BitVec.setWidth_eq]

private theorem toNat_range (imm : BitVec 20) : 0 ≤ (imm.toNat : Int) ∧ (imm.toNat : Int) < 2 ^ 20 :=
  ⟨Int.natCast_nonneg _, Int.ofNat_lt.mpr imm.isLt⟩

theorem lui_runs (imm : BitVec 20) :
    RunsTo (generate (decode (luiWord rd imm)) (luiWord rd imm)) s { s with
      Registers := Function.update s.Registers rd (upper imm)
      PC := s.PC + 4#32 } := by
  have hdec : decode (luiWord rd imm) = .LUI := decode_encode _ _ (by decide) (by decide) (toNat_range imm)
  have hrun := runsTo_of_writeRd (s := s) hdec (RiscvFormat.rd_uType _ _ _) luiForm_effect
  dsimp only at hrun
  rwa [ofInt_toNat] at hrun

theorem auipc_runs (imm : BitVec 20) :
    RunsTo (generate (decode (auipcWord rd imm)) (auipcWord rd imm)) s { s with
      Registers := Function.update s.Registers rd (s.PC + upper imm)
      PC := s.PC + 4#32 } := by
  have hdec : decode (auipcWord rd imm) = .AUIPC :=
    decode_encode _ _ (by decide) (by decide) (toNat_range imm)
  have hrun := runsTo_of_writeRd (s := s) hdec (RiscvFormat.rd_uType _ _ _) auipcForm_effect
  dsimp only at hrun
  rwa [ofInt_toNat] at hrun

theorem addi_runs (imm : BitVec 12) :
    RunsTo (generate (decode (addiWord rd rs1 imm)) (addiWord rd rs1 imm)) s { s with
      Registers := Function.update s.Registers rd (s.Registers rs1 + imm.signExtend 32)
      PC := s.PC + 4#32 } := by
  obtain ⟨hlo, hhi⟩ := imm_range imm
  have hdec : decode (addiWord rd rs1 imm) = .ADDI :=
    decode_encode _ _ (by decide) (by decide) ⟨hlo, hhi⟩
  exact runsTo_of_writeRd hdec (RiscvFormat.rd_iType _ _ _ _ _)
    (immForm_effect 0 (show aluOf .add = some .add from rfl) rfl hlo hhi)

/-- The base is read before the link register is written, and bit 0 of the target is cleared. -/
theorem jalr_runs (imm : BitVec 12) :
    RunsTo (generate (decode (jalrWord rd rs1 imm)) (jalrWord rd rs1 imm)) s { s with
      Registers := Function.update s.Registers rd (s.PC + 4#32)
      PC := (s.Registers rs1 + imm.signExtend 32) &&& ~~~1#32 } := by
  obtain ⟨hlo, hhi⟩ := imm_range imm
  have hdec : decode (jalrWord rd rs1 imm) = .JALR :=
    decode_encode _ _ (by decide) (by decide) ⟨hlo, hhi⟩
  have hrd : RiscvFormat.rd (jalrWord rd rs1 imm) = rd := RiscvFormat.rd_iType _ _ _ _ _
  have hrs1 : RiscvFormat.rs1 (jalrWord rd rs1 imm) = rs1 := RiscvFormat.rs1_iType _ _ _ _ _
  have himm : immediate (jalrWord rd rs1 imm) = imm.signExtend 32 := immediate_iType _ _ _ _ hlo hhi
  rw [runsTo_iff, hdec, effect, jalrEffect, HostState.rs1, hrd, hrs1, himm, CPUState.host_Registers,
    CPUState.host_PC, Option.map_some, Option.map_some, CPUState.host_setReg, CPUState.host_setPC]

end Words

/-- Two words run one after the other. -/
theorem runIr_wordPair {a b : BitVec 32} {s t : CPUState} (h : RunsTo (generate (decode a) a) s t) :
    runIr (wordPair a b) s.host = runIr (generate (decode b) b) t.host := by
  have hseq := (generate_simulates (decode a) a).seq (generate_simulates (decode b) b)
  rw [runsTo_iff] at h
  rw [wordPair, runIr_of_simulates hseq, h, runIr_of_simulates (generate_simulates _ _)]
  rfl

theorem RunsTo.wordPair {a b : BitVec 32} {s t u : CPUState} (h : RunsTo (generate (decode a) a) s t)
    (h' : RunsTo (generate (decode b) b) t u) : RunsTo (wordPair a b) s u :=
  (runIr_wordPair h).trans h'

/-- The state after the upper part of a constant is loaded. -/
def CPUState.upperLoaded (s : CPUState) (rd : BitVec 5) (v : BitVec 32) : CPUState :=
  { s with
    Registers := Function.update s.Registers rd ((v + 0x800#32) &&& 0xFFFFF000#32)
    PC := s.PC + 4#32 }

section Pairs
variable (s : CPUState) (rd : BitVec 5) (v : BitVec 32)

private theorem lui_upperLoaded : RunsTo (generate (decode (luiWord rd (hi20 v))) (luiWord rd (hi20 v))) s
    (s.upperLoaded rd v) := by
  have hrun := lui_runs s rd (hi20 v)
  rwa [upper_hi20] at hrun

private theorem upperLoaded_add_lo12 : (s.upperLoaded rd v).Registers rd + (lo12 v).signExtend 32 = v := by
  have hreg : (s.upperLoaded rd v).Registers rd = upper (hi20 v) := by
    rw [upper_hi20]
    exact Function.update_self rd _ s.Registers
  rw [hreg, upper_hi20_add_lo12]

private theorem upperLoaded_next : (s.upperLoaded rd v).PC + 4#32 = s.PC + 8#32 :=
  BitVec.add_assoc s.PC 4#32 4#32

private theorem lui_addi_runs : RunsTo (wordPair (luiWord rd (hi20 v)) (addiWord rd rd (lo12 v))) s { s with
    Registers := Function.update s.Registers rd v
    PC := s.PC + 8#32 } := by
  have hrun := addi_runs (s.upperLoaded rd v) rd rd (lo12 v)
  rw [upperLoaded_add_lo12, CPUState.upperLoaded] at hrun
  dsimp only at hrun
  rw [Function.update_idem, BitVec.add_assoc] at hrun
  exact (lui_upperLoaded s rd v).wordPair hrun

private theorem auipc_jalr_runs :
    RunsTo (wordPair (auipcWord rd (hi20 v)) (jalrWord rd rd (lo12 v))) s { s with
      Registers := Function.update s.Registers rd (s.PC + 8#32)
      PC := (s.PC + v) &&& ~~~1#32 } := by
  have hrun := jalr_runs { s with
    Registers := Function.update s.Registers rd (s.PC + upper (hi20 v))
    PC := s.PC + 4#32 } rd rd (lo12 v)
  dsimp only at hrun
  rw [Function.update_self, Function.update_idem, BitVec.add_assoc s.PC (upper _), upper_hi20_add_lo12,
    BitVec.add_assoc s.PC] at hrun
  exact (auipc_runs s rd (hi20 v)).wordPair hrun

private theorem lui_load_runs {k : Instr} {w : Width} (d : BitVec 5) (hk : k.loadWidth? = some w) :
    runIr (wordPair (luiWord rd (hi20 v)) (encode k ⟨d, rd, 0, 0, (lo12 v).toInt, 0, 0, 0⟩)) s.host =
      (read w s.Manager v).map fun x => CPUState.host { s.upperLoaded rd v with
        Registers := Function.update (s.upperLoaded rd v).Registers d (extend k.signed x)
        PC := s.PC + 8#32 } := by
  have hfit : Operands.fit ⟨d, rd, 0, 0, (lo12 v).toInt, 0, 0, 0⟩ k := by
    cases k
    case LB | LH | LW | LBU | LHU => exact imm_range _
    all_goals cases hk
  have haddr : (s.upperLoaded rd v).Registers rd + BitVec.ofInt 32 (lo12 v).toInt = v :=
    upperLoaded_add_lo12 s rd v
  rw [runIr_wordPair (lui_upperLoaded s rd v), runIr_load hk hfit]
  dsimp only
  rw [haddr, upperLoaded_next]
  rfl

private theorem lui_store_runs {k : Instr} {w : Width} (r : BitVec 5) (hk : k.storeWidth? = some w) :
    runIr (wordPair (luiWord rd (hi20 v)) (encode k ⟨0, rd, r, 0, (lo12 v).toInt, 0, 0, 0⟩)) s.host =
      (write w s.Manager v (((s.upperLoaded rd v).Registers r).setWidth (8 * w.bytes))).map fun m =>
        CPUState.host { s.upperLoaded rd v with
          PC := s.PC + 8#32
          Manager := m } := by
  have hfit : Operands.fit ⟨0, rd, r, 0, (lo12 v).toInt, 0, 0, 0⟩ k := by
    cases k
    case SB | SH | SW => exact imm_range _
    all_goals cases hk
  have haddr : (s.upperLoaded rd v).Registers rd + BitVec.ofInt 32 (lo12 v).toInt = v :=
    upperLoaded_add_lo12 s rd v
  rw [runIr_wordPair (lui_upperLoaded s rd v), runIr_store hk hfit]
  dsimp only
  rw [haddr, upperLoaded_next]
  rfl

end Pairs

/-- From every state: `jalr` jumps to its base and immediate and links; and for every constant, split
in its upper and lower part, `lui` and `addi` leave the constant, `lui` and a load or store use it as
their address, and `auipc` and `jalr` through one register go that far from the first of them. -/
theorem jalr_and_pairs (s : CPUState) (rd : BitVec 5) :
    (∀ rs1 imm, RunsTo (generate (decode (jalrWord rd rs1 imm)) (jalrWord rd rs1 imm)) s { s with
      Registers := Function.update s.Registers rd (s.PC + 4#32)
      PC := (s.Registers rs1 + imm.signExtend 32) &&& ~~~1#32 }) ∧
    ∀ v : BitVec 32,
      RunsTo (wordPair (luiWord rd (hi20 v)) (addiWord rd rd (lo12 v))) s { s with
        Registers := Function.update s.Registers rd v
        PC := s.PC + 8#32 } ∧
      RunsTo (wordPair (auipcWord rd (hi20 v)) (jalrWord rd rd (lo12 v))) s { s with
        Registers := Function.update s.Registers rd (s.PC + 8#32)
        PC := (s.PC + v) &&& ~~~1#32 } ∧
      (∀ k w d, k.loadWidth? = some w →
        runIr (wordPair (luiWord rd (hi20 v)) (encode k ⟨d, rd, 0, 0, (lo12 v).toInt, 0, 0, 0⟩)) s.host =
          (read w s.Manager v).map fun x => CPUState.host { s.upperLoaded rd v with
            Registers := Function.update (s.upperLoaded rd v).Registers d (extend k.signed x)
            PC := s.PC + 8#32 }) ∧
      ∀ k w r, k.storeWidth? = some w →
        runIr (wordPair (luiWord rd (hi20 v)) (encode k ⟨0, rd, r, 0, (lo12 v).toInt, 0, 0, 0⟩)) s.host =
          (write w s.Manager v (((s.upperLoaded rd v).Registers r).setWidth (8 * w.bytes))).map fun m =>
            CPUState.host { s.upperLoaded rd v with
              PC := s.PC + 8#32
              Manager := m } := by
  refine ⟨jalr_runs s rd, fun v => ⟨lui_addi_runs s rd v, auipc_jalr_runs s rd v, ?_, ?_⟩⟩
  · intro k w d hk
    exact lui_load_runs s rd v d hk
  · intro k w r hk
    exact lui_store_runs s rd v r hk

end DBTranslator.Riscv
