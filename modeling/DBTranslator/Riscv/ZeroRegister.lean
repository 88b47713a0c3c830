import DBTranslator.Riscv.Dispatch

/-! Register `x0`. No body guards its destination, so `x0` stays zero only through words that
do not name it or happen to write zero. -/
namespace DBTranslator.Riscv
open Lib Lib.Ssa Lib.BitField

/-- The operands on which an operation gives zero; a shift by 32 or more gives poison. -/
def zeroOn : BinOp → BitVec 32 → BitVec 32 → Prop
  | .add, x, y => x = -y
  | .addNUWNSW, x, y => x = 0#32 ∧ y = 0#32
  | .sub, x, y => x = y
  | .and, x, y => x &&& y = 0#32
  | .or, x, y => x = 0#32 ∧ y = 0#32
  | .xor, x, y => x = y
  | .shl, x, y => y.toNat < 32 ∧ 2 ^ (32 - y.toNat) ∣ x.toNat
  | .lshr, x, y => y.toNat < 32 ∧ x.toNat < 2 ^ y.toNat
  | .ashr, x, y => y.toNat < 32 ∧ x.toNat < 2 ^ y.toNat

private theorem shift_zero_iff {y : BitVec 32} {v : BitVec 32} {P : Prop}
    (h : y.toNat < 32 → (v = 0#32 ↔ P)) :
    (if y.toNat < 32 then some v else none) = some 0#32 ↔ y.toNat < 32 ∧ P := by
  by_cases hy : y.toNat < 32
  · rw [if_pos hy, Option.some.injEq, h hy]
    exact (and_iff_right hy).symm
  · rw [if_neg hy]
    constructor
    · intro hnone
      cases hnone
    · intro hand
      exact absurd hand.1 hy

theorem eval_eq_zero_iff (Op : BinOp) (x y : BitVec 32) (hOp : Op ≠ .addNUWNSW) :
    Op.eval x y = some 0#32 ↔ zeroOn Op x y := by
  cases Op
  case addNUWNSW => exact absurd rfl hOp
  case shl => exact shift_zero_iff fun hy => shiftLeft_eq_zero_iff x y.toNat (Nat.le_of_lt hy)
  case lshr => exact shift_zero_iff fun _ => ushiftRight_eq_zero_iff x y.toNat
  case ashr => exact shift_zero_iff fun hy => sshiftRight_eq_zero_iff x y.toNat hy
  all_goals rw [BinOp.eval, Option.some.injEq, zeroOn]
  case add => exact eq_neg_iff_add_eq_zero.symm
  case sub => exact sub_eq_zero
  case or => exact BitVec.or_eq_zero_iff
  case xor => exact BitVec.xor_eq_zero_iff

private theorem map_add_eq_zero_iff (o : Option (BitVec 32)) (x : BitVec 32) :
    o.map (x + ·) = some 0#32 ↔ o = some (-x) := by
  rw [Option.map_eq_some_iff]
  constructor
  · rintro ⟨y, hy, hsum⟩
    rw [hy, eq_neg_of_add_eq_zero_right hsum]
  · intro hy
    exact ⟨_, hy, add_neg_cancel x⟩

/-- The states in which a word that names a destination writes zero to it. -/
def zeroResult (w : BitVec 32) (σ : HostState) : Instr → Prop
  | .LUI => upperImmediate w = 0#32
  | .AUIPC => σ.PC = some (-upperImmediate w)
  | .JAL | .JALR => σ.PC = some (-4#32)
  | .LB | .LBU => ∀ x ∈ σ.rs1 w, ∀ v, read .byte σ.Manager (x + immediate w) = .ok v → v = 0
  | .LH | .LHU => ∀ x ∈ σ.rs1 w, ∀ v, read .half σ.Manager (x + immediate w) = .ok v → v = 0
  | .LW => ∀ x ∈ σ.rs1 w, ∀ v, read .word σ.Manager (x + immediate w) = .ok v → v = 0
  | .ADDI => ∃ x, σ.rs1 w = some x ∧ zeroOn .add x (immediate w)
  | .XORI => ∃ x, σ.rs1 w = some x ∧ zeroOn .xor x (immediate w)
  | .ORI => ∃ x, σ.rs1 w = some x ∧ zeroOn .or x (immediate w)
  | .ANDI => ∃ x, σ.rs1 w = some x ∧ zeroOn .and x (immediate w)
  | .SLLI => ∃ x, σ.rs1 w = some x ∧ zeroOn .shl x (shamt w)
  | .SRLI => ∃ x, σ.rs1 w = some x ∧ zeroOn .lshr x (shamt w)
  | .SRAI => ∃ x, σ.rs1 w = some x ∧ zeroOn .ashr x (shamt w)
  | .SLTI => ∃ x, σ.rs1 w = some x ∧ ¬ x.slt (immediate w)
  | .SLTIU => ∃ x, σ.rs1 w = some x ∧ ¬ x.ult (immediate w)
  | .ADD => ∃ x y, σ.rs1 w = some x ∧ σ.rs2 w = some y ∧ zeroOn .add x y
  | .SUB => ∃ x y, σ.rs1 w = some x ∧ σ.rs2 w = some y ∧ zeroOn .sub x y
  | .XOR => ∃ x y, σ.rs1 w = some x ∧ σ.rs2 w = some y ∧ zeroOn .xor x y
  | .OR => ∃ x y, σ.rs1 w = some x ∧ σ.rs2 w = some y ∧ zeroOn .or x y
  | .AND => ∃ x y, σ.rs1 w = some x ∧ σ.rs2 w = some y ∧ zeroOn .and x y
  | .SLL => ∃ x y, σ.rs1 w = some x ∧ σ.rs2 w = some y ∧ zeroOn .shl x y
  | .SRL => ∃ x y, σ.rs1 w = some x ∧ σ.rs2 w = some y ∧ zeroOn .lshr x y
  | .SRA => ∃ x y, σ.rs1 w = some x ∧ σ.rs2 w = some y ∧ zeroOn .ashr x y
  | .SLT | .SLTU => ∃ x, σ.rs1 w = some x
  | _ => True

/-- The exact condition for a word to keep `x0` at zero. -/
def keepsZero (w : BitVec 32) (σ : HostState) : Prop :=
  RiscvFormat.rd w ≠ 0 ∨ zeroResult w σ (decode w)

/-- Wherever an execution ends, `x0` is zero there. -/
def ZeroAfter (r : Except Fault HostState) : Prop :=
  ∀ σ', r = .ok σ' → σ'.Registers 0 = some 0#32

theorem zeroAfter_ok {σ : HostState} : ZeroAfter (.ok σ) ↔ σ.Registers 0 = some 0#32 := by
  constructor
  · intro h
    exact h σ rfl
  · rintro h σ' ⟨⟩
    exact h

section Word
variable {w : BitVec 32} {σ : HostState} (h0 : σ.Registers 0 = some 0#32)
include h0

private theorem setReg_zero_iff (v : Option (BitVec 32)) :
    (σ.setReg (RiscvFormat.rd w) v).Registers 0 = some 0#32 ↔
      RiscvFormat.rd w ≠ 0 ∨ v = some 0#32 := by
  rw [HostState.setReg_Registers]
  by_cases hrd : RiscvFormat.rd w = 0
  · rw [hrd, Function.update_self]
    exact ⟨.inr, fun h => h.elim (absurd rfl) id⟩
  · rw [Function.update_of_ne (Ne.symm hrd)]
    exact ⟨fun _ => .inl hrd, fun _ => h0⟩

private theorem write_iff {v : Option (BitVec 32)} {P : Prop} (hv : v = some 0#32 ↔ P) :
    ZeroAfter (.ok (σ.writeRd w v)) ↔ RiscvFormat.rd w ≠ 0 ∨ P := by
  rw [zeroAfter_ok, ← hv]
  exact setReg_zero_iff h0 v

private theorem link_iff {v pc : Option (BitVec 32)} {P : Prop} (hv : v = some 0#32 ↔ P) :
    ZeroAfter (.ok ((σ.setReg (RiscvFormat.rd w) v).setPC pc)) ↔ RiscvFormat.rd w ≠ 0 ∨ P := by
  rw [zeroAfter_ok, ← hv]
  exact setReg_zero_iff h0 v

private theorem imm_iff {Op : BinOp} {imm : BitVec 32} (hOp : Op ≠ .addNUWNSW) :
    ZeroAfter (immEffect Op imm w σ) ↔
      RiscvFormat.rd w ≠ 0 ∨ ∃ x, σ.rs1 w = some x ∧ zeroOn Op x imm := by
  refine write_iff h0 ?_
  simp only [Option.bind_eq_some_iff, eval_eq_zero_iff Op _ _ hOp]

private theorem reg_iff {Op : BinOp} (hOp : Op ≠ .addNUWNSW) :
    ZeroAfter (regEffect Op w σ) ↔ RiscvFormat.rd w ≠ 0 ∨
      ∃ x y, σ.rs1 w = some x ∧ σ.rs2 w = some y ∧ zeroOn Op x y := by
  refine write_iff h0 ?_
  simp only [Option.bind_eq_some_iff, eval_eq_zero_iff Op _ _ hOp, exists_and_left]

private theorem setLessImm_iff (Cmp : Pred) :
    ZeroAfter (setLessImmEffect Cmp w σ) ↔
      RiscvFormat.rd w ≠ 0 ∨ ∃ x, σ.rs1 w = some x ∧ ¬ Cmp.holds x (immediate w) := by
  refine write_iff h0 ?_
  simp only [Option.map_eq_some_iff]
  refine exists_congr fun x => and_congr_right fun _ => ?_
  cases Cmp.holds x (immediate w) <;> decide

private theorem load_iff {width : Width} {ext : BitVec (8 * width.bytes) → BitVec 32}
    (hext : ∀ v, ext v = 0#32 ↔ v = 0) :
    ZeroAfter (loadEffect width ext w σ) ↔ RiscvFormat.rd w ≠ 0 ∨
      ∀ x ∈ σ.rs1 w, ∀ v, read width σ.Manager (x + immediate w) = .ok v → v = 0 := by
  rw [loadEffect]
  cases hx : σ.rs1 w with
  | none =>
    constructor
    · rintro -
      exact .inr fun x hx => absurd hx (Option.not_mem_none x)
    · rintro - σ' ⟨⟩
  | some x =>
    dsimp only
    cases hv : read width σ.Manager (x + immediate w) with
    | error e =>
      constructor
      · rintro -
        refine .inr fun y hy v hread => ?_
        obtain rfl : x = y := Option.some.inj hy
        rw [hv] at hread
        cases hread
      · rintro - σ' ⟨⟩
    | ok v =>
      rw [ok_map, write_iff h0 (Option.some.injEq _ _ ▸ hext v)]
      refine or_congr_right ⟨?_, fun hzero => hzero x rfl v hv⟩
      rintro rfl y hy v' hread
      obtain rfl : x = y := Option.some.inj hy
      exact Except.ok.inj (hread.symm.trans hv)

private theorem other_iff {k : Instr} (hkind : k.kind ≠ .write ∧ k.kind ≠ .link)
    (hresult : zeroResult w σ k) :
    ZeroAfter (effect k w σ) ↔ RiscvFormat.rd w ≠ 0 ∨ zeroResult w σ k := by
  refine ⟨fun _ => .inr hresult, fun _ σ' heff => ?_⟩
  have hout := effect_outcome heff
  cases hk : k.kind with
  | write => exact absurd hk hkind.1
  | link => exact absurd hk hkind.2
  | idle =>
    rw [hk] at hout
    rwa [show σ' = σ from hout]
  | advance =>
    rw [hk] at hout
    rwa [show σ' = σ.advance from hout]
  | branch | store =>
    rw [hk] at hout
    obtain ⟨_, rfl⟩ := hout
    exact h0

/-- From a state where `x0` is zero, the code of a word ends with `x0` zero exactly under its
condition. -/
theorem zeroAfter_iff : ZeroAfter (runIr (generate (decode w) w) σ) ↔ keepsZero w σ := by
  rw [runIr_of_simulates (generate_simulates (decode w) w), keepsZero]
  generalize decode w = k
  cases k
  case LUI => exact write_iff h0 (by rw [Option.some.injEq, zeroResult])
  case AUIPC => exact write_iff h0 (map_add_eq_zero_iff σ.PC _)
  case JAL => exact link_iff h0 (map_add_eq_zero_iff σ.PC _)
  case JALR =>
    refine link_iff h0 ?_
    simp only [BitVec.add_comm _ 4#32]
    exact map_add_eq_zero_iff σ.PC _
  case LB | LH | LW => exact load_iff h0 fun v => signExtend_eq_zero_iff v (by decide)
  case LBU | LHU => exact load_iff h0 fun v => setWidth_eq_zero_iff v (by decide)
  case ADDI | XORI | ORI | ANDI | SLLI | SRLI | SRAI => exact imm_iff h0 (by decide)
  case SLTI | SLTIU => exact setLessImm_iff h0 _
  case ADD | SUB | XOR | OR | AND | SLL | SRL | SRA => exact reg_iff h0 (by decide)
  case SLT | SLTU =>
    refine write_iff h0 ?_
    simp only [zeroResult, Option.map_eq_some_iff]
    exact exists_congr fun x => and_iff_left (by simp [Pred.holds, BitVec.slt, BitVec.ult])
  all_goals exact other_iff h0 (by decide) trivial

end Word

/-- The data access of a word has operands that are not poison and lies wholly inside the
segment picked for it. -/
def accessDefined (w : BitVec 32) (σ : HostState) : Prop :=
  (∀ width ∈ (decode w).loadWidth?, ∃ x, σ.rs1 w = some x ∧
    accessible σ.Manager (x + immediate w) width.bytes) ∧
  ∀ width ∈ (decode w).storeWidth?, ∃ x y, σ.rs1 w = some x ∧ σ.rs2 w = some y ∧
    accessible σ.Manager (x + storeOffset w) width.bytes

/-- Only data accesses can be undefined. -/
theorem effect_ok {w : BitVec 32} {σ : HostState} (h : accessDefined w σ) :
    ∃ σ', effect (decode w) w σ = .ok σ' := by
  obtain ⟨hload, hstore⟩ := h
  generalize decode w = k at *
  cases k
  case LB | LH | LW | LBU | LHU =>
    obtain ⟨x, hx, hin⟩ := hload _ rfl
    obtain ⟨v, heff⟩ := load_of_accessible _ hx hin
    exact ⟨_, heff⟩
  case SB | SH | SW =>
    obtain ⟨x, y, hx, hy, hin⟩ := hstore _ rfl
    obtain ⟨m, -, heff⟩ := store_of_accessible hx hy hin
    exact ⟨_, heff⟩
  all_goals exact ⟨_, rfl⟩

/-- Every word of a block that execution reaches has a defined access and keeps `x0`. -/
def Dispatcher.keepsZero (d : Dispatcher) (b : Block) : Prop :=
  ∀ k w, b.words[k]? = some w → ∀ σ, ReachedAt b.words d.State k σ →
    accessDefined w σ ∧ Riscv.keepsZero w σ

section Run
variable {call : List (Inst MemoryFunction) → CPUState → CPUState → Prop} {Threshold n : Nat}
  {d : Dispatcher} {b : Block} {s₀ s : CPUState}

/-- Execution gets to the end of such a block, with `x0` zero before every word. -/
theorem Dispatcher.keepsZero.reached (h : d.keepsZero b) (h0 : d.State.Registers 0 = 0#32) (k : Nat)
    (hk : k ≤ b.words.length) :
    ∃ σ, ReachedAt b.words d.State k σ ∧ σ.Registers 0 = some 0#32 := by
  induction k with
  | zero => exact ⟨d.State.host, reachedAt_zero.mpr rfl, congrArg some h0⟩
  | succ k ih =>
    have hw := List.getElem?_eq_getElem (Nat.lt_of_succ_le hk)
    obtain ⟨σ, hσ, hzero⟩ := ih (Nat.le_of_succ_le hk)
    obtain ⟨haccess, hkeeps⟩ := h k _ hw σ hσ
    obtain ⟨σ', heff⟩ := effect_ok haccess
    refine ⟨σ', (reachedAt_succ hw).mpr ⟨σ, hσ, heff⟩, ?_⟩
    refine (zeroAfter_iff hzero).mpr hkeeps σ' ?_
    rw [runIr_of_simulates (generate_simulates _ _), heff]

theorem Dispatcher.keepsZero.zero_of_call (hcall : Compiles call) (h : d.keepsZero b)
    (h0 : d.State.Registers 0 = 0#32) (hcalled : call b.code d.State s) : s.Registers 0 = 0#32 := by
  obtain ⟨σ, hσ, hzero⟩ := h.reached h0 b.words.length (Nat.le_refl _)
  rw [ReachedAt, List.take_length] at hσ
  obtain ⟨fr, hfr, rfl⟩ := map_eq_ok.mp hσ
  exact (hcall b.code d.State s fr hfr hcalled).1 0 _ hzero

/-- In a run from a state where `x0` is zero whose blocks keep it, `x0` stays zero. -/
theorem Run.zero (hcall : Compiles call) (h0 : s₀.Registers 0 = 0#32)
    (hrun : Run call Threshold Dispatcher.keepsZero s₀ d n) :
    d.Linked ∧ d.State.Registers 0 = 0#32 := by
  induction hrun with
  | start => exact ⟨Dispatcher.start_linked s₀, h0⟩
  | block _ htranslate hkeeps hcalled ih =>
    obtain ⟨hlinked, hzero⟩ := ih
    rw [← Dispatcher.translate_state hlinked htranslate] at hzero
    exact ⟨(Dispatcher.translate_linked hlinked htranslate).with_state _,
      hkeeps.zero_of_call hcall hzero hcalled⟩

end Run

theorem mainState_zero (EntryPoint : BitVec 32) (Manager : MemoryManager) :
    (mainState EntryPoint Manager).Registers 0 = 0#32 := by
  rw [mainState]
  dsimp only
  rw [Function.update_of_ne (by decide)]

/-- The code of a word keeps `x0` at zero exactly under its condition. In every run from the
state that `main` sets up whose words meet it, `x0` is zero after every block and before every
word of the next one. -/
theorem zero_register_iff (call : List (Inst MemoryFunction) → CPUState → CPUState → Prop)
    (hcall : Compiles call) :
    (∀ w σ, σ.Registers 0 = some 0#32 →
      (ZeroAfter (runIr (generate (decode w) w) σ) ↔ keepsZero w σ)) ∧
    ∀ EntryPoint Manager Threshold d n,
      Run call Threshold Dispatcher.keepsZero (mainState EntryPoint Manager) d n →
        d.State.Registers 0 = 0#32 ∧ ∀ b d₁, translate d Threshold = .ok (b, d₁) → d₁.keepsZero b →
          ∀ k ≤ b.words.length, ∀ σ, ReachedAt b.words d₁.State k σ → σ.Registers 0 = some 0#32 := by
  constructor
  · intro w σ h0
    exact zeroAfter_iff h0
  · intro EntryPoint Manager Threshold d n hrun
    obtain ⟨hlinked, hzero⟩ := hrun.zero hcall (mainState_zero EntryPoint Manager)
    refine ⟨hzero, fun b d₁ htranslate hkeeps k hk σ hσ => ?_⟩
    rw [← Dispatcher.translate_state hlinked htranslate] at hzero
    obtain ⟨σ', hσ', hzero'⟩ := hkeeps.reached hzero k hk
    obtain rfl : σ' = σ := Except.ok.inj (hσ'.symm.trans hσ)
    exact hzero'

section Example

/-- A program of one word at address 0. -/
private def oneWord (bytes : Fin 4 → BitVec 8) : MemoryManager :=
  ⟨[⟨4, 0, Vector.ofFn bytes⟩], 1, rfl⟩

private theorem nop_keeps (d : Dispatcher) (h0 : d.State.Registers 0 = 0#32) :
    d.keepsZero ⟨0, [0x13#32]⟩ := by
  have hdecode : decode 0x13#32 = .ADDI := by decide
  intro k w hw σ hσ
  have hmem : w ∈ [0x13#32] := List.mem_of_getElem? hw
  obtain rfl : w = 0x13#32 := List.mem_singleton.mp hmem
  have hk : k = 0 := by
    have hlt := (List.getElem?_eq_some_iff.mp hw).1
    exact Nat.lt_one_iff.mp hlt
  subst hk
  obtain rfl := reachedAt_zero.mp hσ
  constructor
  · constructor <;> rw [hdecode] <;> rintro width ⟨⟩
  · rw [keepsZero, hdecode]
    exact .inr ⟨0#32, congrArg some h0, rfl⟩

private theorem nop_run : ∃ d, Run interpret 1 Dispatcher.keepsZero
    (mainState 0 (oneWord ![0x13, 0, 0, 0])) d 1 := by
  have hfetch : fetchLoop (oneWord ![0x13, 0, 0, 0]) 1 0 = .ok [0x13#32] := by decide
  have htranslate := Dispatcher.translate_of_fetch
    (Dispatcher.start_linked (mainState 0 (oneWord ![0x13, 0, 0, 0]))) rfl hfetch
  have hzero := mainState_zero 0 (oneWord ![0x13, 0, 0, 0])
  refine ⟨_, Run.block Run.start htranslate (nop_keeps _ hzero) (interpret_of_runsTo (t := {
    mainState 4 (oneWord ![0x13, 0, 0, 0]) with
      Registers := Function.update (mainState 0 (oneWord ![0x13, 0, 0, 0])).Registers 0 0 }) ?_)⟩
  rw [RunsTo, runIr_generateAll, effectAll, show decode 0x13#32 = .ADDI by decide, effect, immEffect,
    HostState.rs1, CPUState.host_Registers, Option.bind_some, BinOp.eval, CPUState.host_writeRd]
  rfl

theorem zero_register_nop : ∃ d, Run interpret 1 Dispatcher.keepsZero
    (mainState 0 (oneWord ![0x13, 0, 0, 0])) d 1 ∧ d.State.Registers 0 = 0#32 := by
  obtain ⟨d, hrun⟩ := nop_run
  exact ⟨d, hrun, ((zero_register_iff interpret interpret_compiles).2 0 _ 1 d 1 hrun).1⟩

/-- After `jal x0, 0` at address 0 the register holds the return address. -/
theorem zero_register_jump : ∃ d, Run interpret 1 (fun _ _ => True)
    (mainState 0 (oneWord ![0x6F, 0, 0, 0])) d 1 ∧ d.State.Registers 0 ≠ 0#32 := by
  have hfetch : fetchLoop (oneWord ![0x6F, 0, 0, 0]) 1 0 = .ok [0x6F#32] := by decide
  have htranslate := Dispatcher.translate_of_fetch
    (Dispatcher.start_linked (mainState 0 (oneWord ![0x6F, 0, 0, 0]))) rfl hfetch
  refine ⟨_, Run.block Run.start htranslate trivial (interpret_of_runsTo (t := {
    mainState 0 (oneWord ![0x6F, 0, 0, 0]) with
      Registers := Function.update (mainState 0 (oneWord ![0x6F, 0, 0, 0])).Registers 0 4 }) ?_), ?_⟩
  · rw [RunsTo, runIr_generateAll, effectAll, show decode 0x6F#32 = .JAL by decide, effect, jalEffect,
      CPUState.host_PC, Option.map_some, CPUState.host_setReg]
    rfl
  · dsimp only
    rw [Function.update_self]
    decide

end Example

end DBTranslator.Riscv
