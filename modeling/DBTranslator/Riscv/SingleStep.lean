import DBTranslator.Lib.CodeCache
import DBTranslator.Riscv.Translator

/-! Single-step execution of the guest: fetch the word at `PC` from current memory and run the
code that is emitted for it alone. Conditions under which a step has no undefined behaviour. -/
namespace DBTranslator.Riscv
open Lib Lib.Ssa Lib.CodeCache Lib.LittleEndian

/-- The guest as a machine that fetches words. -/
def guest : Machine CPUState (BitVec 32) (BitVec 32) where
  pc := CPUState.PC
  next PC := PC + 4#32
  fetch s Addr := (read32 s.Manager Addr).toOption
  ends w := isTerminator (decode w)
  exec w s t := RunsTo (generate (decode w) w) s t

/-- The bytes of an access and of a word do not overlap. -/
def apart (Addr : BitVec 32) (n : Nat) (Word : BitVec 32) : Prop :=
  Addr.toNat + n ≤ Word.toNat ∨ Word.toNat + 4 ≤ Addr.toNat

def Instr.loadWidth? : Instr → Option Width
  | .LB | .LBU => some .byte
  | .LH | .LHU => some .half
  | .LW => some .word
  | _ => none

def Instr.storeWidth? : Instr → Option Width
  | .SB => some .byte
  | .SH => some .half
  | .SW => some .word
  | _ => none

def Instr.isRegShift : Instr → Bool
  | .SLL | .SRL | .SRA => true
  | _ => false

def loadAddress (w : BitVec 32) (s : CPUState) : BitVec 32 :=
  s.Registers (RiscvFormat.rs1 w) + immediate w

def storeAddress (w : BitVec 32) (s : CPUState) : BitVec 32 :=
  s.Registers (RiscvFormat.rs1 w) + storeOffset w

/-- What is asked of a word before it executes: it is decoded to an instruction other than
`ECALL`, its data access is inside a segment, a store avoids the words fetched so far and a
register shift is by less than 32. -/
structure Defined (fetched : BitVec 32 → Prop) (w : BitVec 32) (s : CPUState) : Prop where
  known : decode w ≠ .UNKNOWN
  noEcall : decode w ≠ .ECALL
  load : ∀ width ∈ (decode w).loadWidth?, accessible s.Manager (loadAddress w s) width.bytes
  store : ∀ width ∈ (decode w).storeWidth?, accessible s.Manager (storeAddress w s) width.bytes ∧
    ∀ a, fetched a → apart (storeAddress w s) width.bytes a
  shift : (decode w).isRegShift = true → (s.Registers (RiscvFormat.rs2 w)).toNat < 32

/-- A load from a place inside a segment writes some value to its destination. -/
theorem load_of_accessible {width : Width} {w x : BitVec 32} {σ : HostState}
    (ext : BitVec (8 * width.bytes) → BitVec 32) (hx : σ.rs1 w = some x)
    (hin : accessible σ.Manager (x + immediate w) width.bytes) :
    ∃ v, loadEffect width ext w σ = .ok (σ.writeRd w (some v)) := by
  obtain ⟨v, hv⟩ := read_of_accessible hin
  refine ⟨ext v, ?_⟩
  rw [loadEffect, hx]
  dsimp only
  rw [hv, ok_map]

theorem store_of_accessible {width : Width} {w x y : BitVec 32} {σ : HostState}
    (hx : σ.rs1 w = some x) (hy : σ.rs2 w = some y)
    (hin : accessible σ.Manager (x + storeOffset w) width.bytes) :
    ∃ m, write width σ.Manager (x + storeOffset w) (y.setWidth (8 * width.bytes)) = .ok m ∧
      storeEffect width w σ = .ok (HostState.advance { σ with Manager := m }) := by
  obtain ⟨m, hm⟩ := write_of_accessible hin (y.setWidth (8 * width.bytes))
  refine ⟨m, hm, ?_⟩
  rw [storeEffect, hx, hy]
  dsimp only
  rw [hm, ok_map]

/-- The bytes of two mapped accesses share a buffer byte only when they share a guest byte. -/
private theorem overlap_of_mapped {m : MemoryManager} {Addr a : BitVec 32} {p q : HostPtr}
    (hp : mapAddress m Addr = some p) (hq : mapAddress m a = some q) (hobj : q.obj = p.obj)
    {n i : Nat} (hlo : p.off ≤ q.off + i) (hhi : q.off + i < p.off + n) :
    Addr.toNat ≤ a.toNat + i ∧ a.toNat + i < Addr.toNat + n := by
  obtain ⟨I, Seg, hI, hin, -, rfl⟩ := (mapAddress_eq_some_iff m Addr p).mp hp
  obtain ⟨J, Seg', hJ, hin', -, rfl⟩ := (mapAddress_eq_some_iff m a q).mp hq
  obtain rfl : J = I := HostObject.Memory.inj hobj
  obtain rfl : Seg = Seg' := Option.some.inj (hI.symm.trans hJ)
  have hle := ((SegmentManager.inRange_iff Seg Addr).mp hin).1
  have hle' := ((SegmentManager.inRange_iff Seg a).mp hin').1
  dsimp only at hlo hhi
  omega

/-- A write leaves a word apart from it as it was, whatever segments the two lie in. -/
theorem read32_of_write {m m' : MemoryManager} {Addr a : BitVec 32} {width : Width}
    {v : BitVec (8 * width.bytes)} (h : write width m Addr v = .ok m')
    (hapart : apart Addr width.bytes a) : read32 m' a = read32 m a := by
  rw [write_eq, writeMapped] at h
  cases hp : mapAddress m Addr with
  | none =>
    rw [hp] at h
    cases h
  | some p =>
    rw [hp] at h
    obtain ⟨m'', hm, hlayout, hbytes⟩ := MemoryManager.store_of_fits (MemoryManager.fits_of_store h) v
    obtain rfl : m'' = m' := Except.ok.inj (hm.symm.trans h)
    show readMapped 4 m'' a = readMapped 4 m a
    rw [readMapped, readMapped, mapAddress_of_layout hlayout]
    cases hq : mapAddress m a with
    | none => rfl
    | some q =>
      refine MemoryManager.load_congr hlayout fun i hi => ?_
      rw [hbytes, if_neg]
      rintro ⟨hobj, hlo, hhi⟩
      obtain ⟨hge, hlt⟩ := overlap_of_mapped hp hq hobj hlo hhi
      rcases hapart with hle | hle
      · exact absurd hlt (Nat.not_lt.mpr (Nat.le_add_right_of_le hle))
      · exact absurd (Nat.lt_of_lt_of_le (Nat.add_lt_add_left hi _) hle) (Nat.not_lt.mpr hge)

/-- Shifts by less than the width and the other operations give a value. -/
theorem eval_some (Op : BinOp) (x y : BitVec 32) (hOp : Op ≠ .addNUWNSW)
    (hshift : Op = .shl ∨ Op = .lshr ∨ Op = .ashr → y.toNat < 32) : ∃ v, Op.eval x y = some v := by
  cases Op
  case addNUWNSW => exact absurd rfl hOp
  case shl => exact ⟨_, if_pos (hshift (.inl rfl))⟩
  case lshr => exact ⟨_, if_pos (hshift (.inr (.inl rfl)))⟩
  case ashr => exact ⟨_, if_pos (hshift (.inr (.inr rfl)))⟩
  all_goals exact ⟨_, rfl⟩

theorem shamt_lt (w : BitVec 32) : (shamt w).toNat < 32 := by
  rw [shamt, BitField.toNat_field w 20 5 0x1F#32 rfl]
  exact Nat.mod_lt _ (by decide)

section Progress
variable (w : BitVec 32) (s : CPUState)

private theorem imm_concrete {Op : BinOp} {imm : BitVec 32}
    (h : ∃ v, Op.eval (s.Registers (RiscvFormat.rs1 w)) imm = some v) :
    ∃ t : CPUState, immEffect Op imm w s.host = .ok t.host := by
  obtain ⟨v, hv⟩ := h
  rw [immEffect, HostState.rs1, CPUState.host_Registers, Option.bind_some, hv, CPUState.host_writeRd]
  exact ⟨_, rfl⟩

private theorem reg_concrete {Op : BinOp}
    (h : ∃ v, Op.eval (s.Registers (RiscvFormat.rs1 w)) (s.Registers (RiscvFormat.rs2 w)) = some v) :
    ∃ t : CPUState, regEffect Op w s.host = .ok t.host := by
  obtain ⟨v, hv⟩ := h
  rw [regEffect, HostState.rs1, HostState.rs2, CPUState.host_Registers, CPUState.host_Registers,
    Option.bind_some, Option.bind_some, hv, CPUState.host_writeRd]
  exact ⟨_, rfl⟩

private theorem branch_concrete (Cmp : Pred) :
    ∃ t : CPUState, branchEffect Cmp w s.host = .ok t.host := by
  rw [branchEffect, HostState.rs1, HostState.rs2]
  simp only [CPUState.host_Registers, CPUState.host_PC, Option.map_some, Option.bind_some]
  split
  · exact ⟨{ s with PC := s.PC + branchOffset w }, rfl⟩
  · exact ⟨{ s with PC := s.PC + 4#32 }, rfl⟩

private theorem link_concrete (v v' : BitVec 32) : ∃ t : CPUState,
    Except.ok (ε := Fault) ((s.host.setReg (RiscvFormat.rd w) (some v)).setPC (some v')) = .ok t.host := by
  rw [CPUState.host_setReg, CPUState.host_setPC]
  exact ⟨_, rfl⟩

private theorem writeRd_concrete (v : BitVec 32) : ∃ t : CPUState,
    Except.ok (ε := Fault) (s.host.writeRd w (some v)) = .ok t.host := by
  rw [CPUState.host_writeRd]
  exact ⟨_, rfl⟩

private theorem load_concrete {width : Width} (ext : BitVec (8 * width.bytes) → BitVec 32)
    (h : accessible s.Manager (loadAddress w s) width.bytes) :
    ∃ t : CPUState, loadEffect width ext w s.host = .ok t.host := by
  obtain ⟨v, hv⟩ := load_of_accessible (σ := s.host) ext rfl h
  rw [hv, CPUState.host_writeRd]
  exact ⟨_, rfl⟩

private theorem store_concrete {width : Width}
    (h : accessible s.Manager (storeAddress w s) width.bytes) :
    ∃ (t : CPUState) (v : _), storeEffect width w s.host = .ok t.host ∧
      write width s.Manager (storeAddress w s) v = .ok t.Manager := by
  obtain ⟨m, hm, heff⟩ := store_of_accessible (σ := s.host) rfl rfl h
  exact ⟨{ s with PC := s.PC + 4#32, Manager := m }, _, heff, hm⟩

end Progress

section Step
variable {fetched : BitVec 32 → Prop} {w : BitVec 32} {s t : CPUState}

theorem runsTo_iff : RunsTo (generate (decode w) w) s t ↔
    effect (decode w) w s.host = .ok t.host := by
  rw [RunsTo, runIr_of_simulates (generate_simulates (decode w) w)]

theorem RunsTo.unique {b : IRBuilder Unit} {t' : CPUState} (h : RunsTo b s t) (h' : RunsTo b s t') :
    t = t' := CPUState.host_inj.mp (Except.ok.inj (h.symm.trans h'))

/-- A word that meets the conditions executes without undefined behaviour or poison. -/
theorem Defined.runs (h : Defined fetched w s) : ∃ t, RunsTo (generate (decode w) w) s t := by
  simp only [runsTo_iff]
  obtain ⟨hknown, hecall, hload, hstore, hshift⟩ := h
  generalize decode w = k at *
  cases k
  case UNKNOWN => exact absurd rfl hknown
  case ECALL => exact absurd rfl hecall
  case FENCE | FENCETSO | PAUSE | EBREAK => exact ⟨{ s with PC := s.PC + 4#32 }, rfl⟩
  case LUI | AUIPC => exact writeRd_concrete w s _
  case JAL | JALR => exact link_concrete w s _ _
  case BEQ | BNE | BLT | BGE | BLTU | BGEU => exact branch_concrete w s _
  case LB | LH | LW | LBU | LHU => exact load_concrete w s _ (hload _ rfl)
  case SB | SH | SW =>
    obtain ⟨t, -, ht, -⟩ := store_concrete w s (hstore _ rfl).1
    exact ⟨t, ht⟩
  case ADDI | XORI | ORI | ANDI => exact imm_concrete w s ⟨_, rfl⟩
  case SLLI | SRLI | SRAI =>
    exact imm_concrete w s (eval_some _ _ _ (by decide) fun _ => shamt_lt w)
  case SLTI | SLTIU => exact writeRd_concrete w s _
  case ADD | SUB | XOR | OR | AND => exact reg_concrete w s ⟨_, rfl⟩
  case SLL | SRL | SRA =>
    exact reg_concrete w s (eval_some _ _ _ (by decide) fun _ => hshift rfl)
  case SLT | SLTU => exact writeRd_concrete w s _

theorem Defined.load_of_runs (h : Defined fetched w s) (hrun : RunsTo (generate (decode w) w) s t)
    (a : BitVec 32) (ha : fetched a) : read32 t.Manager a = read32 s.Manager a := by
  have heff := runsTo_iff.mp hrun
  have hout := effect_outcome heff
  have hstore := h.store
  generalize decode w = k at heff hout hstore
  cases k
  case SB | SH | SW =>
    obtain ⟨hin, hapart⟩ := hstore _ rfl
    obtain ⟨t', v, ht', hwrite⟩ := store_concrete w s hin
    obtain rfl : t' = t := CPUState.host_inj.mp (Except.ok.inj (ht'.symm.trans heff))
    exact read32_of_write hwrite (hapart a ha)
  all_goals exact congrArg (read32 · a) (effect_Manager heff (by decide))

theorem Defined.PC_of_runs (h : Defined fetched w s) (hrun : RunsTo (generate (decode w) w) s t)
    (hterm : isTerminator (decode w) = false) : t.PC = s.PC + 4#32 := by
  have hpc := effect_PC (runsTo_iff.mp hrun) hterm fun hidle => hidle.elim h.known h.noEcall
  exact Option.some.inj hpc

end Step

end DBTranslator.Riscv
