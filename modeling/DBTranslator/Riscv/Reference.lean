import DBTranslator.Riscv.Alu
import DBTranslator.Riscv.GuestBytes
import DBTranslator.Riscv.HostAlignment
import DBTranslator.Riscv.LoadStore
import DBTranslator.Riscv.Reading

/-! The emitted code of one word against the hart of the manual: on which words and states the two
take the same step. -/
namespace DBTranslator.Riscv
open Lib Lib.Ssa Lib.LittleEndian Lib.Rv32i

/-- The hart after an instruction when nothing is raised: a jump goes to any target, a breakpoint is
passed and an environment call is not. -/
def unraised (h : Hart) : Instruction → Hart
  | .jal rd offset => { h.set rd (h.pc + 4#32) with pc := h.pc + offset.signExtend 32 }
  | .jalr rd rs1 offset =>
    { h.set rd (h.pc + 4#32) with pc := (h.x rs1 + offset.signExtend 32) &&& ~~~1#32 }
  | .branch c rs1 rs2 offset =>
    if c.holds (h.x rs1) (h.x rs2) then { h with pc := h.pc + offset.signExtend 32 } else h.next
  | .ebreak => h.next
  | i => (i.exec h).getD h

/-- Where the manual has a step it is that one. -/
theorem unraised_of_exec {h h' : Hart} {i : Instruction} (hexec : i.exec h = some h') : unraised h i = h' := by
  cases i with
  | jal | jalr =>
    obtain ⟨-, rfl⟩ := Hart.jump_eq_some _ hexec
    rfl
  | branch c rs1 rs2 offset =>
    rw [Instruction.exec] at hexec
    show (if c.holds (h.x rs1) (h.x rs2) then _ else _) = h'
    split at hexec
    · rename_i hc
      obtain ⟨-, rfl⟩ := Hart.jump_eq_some _ hexec
      exact if_pos hc
    · rename_i hc
      obtain rfl := Option.some.inj hexec
      exact if_neg hc
  | ecall | ebreak => cases hexec
  | _ =>
    obtain rfl := Option.some.inj hexec
    rfl

/-- The words and states on which the emitted code leaves something else than the manual says: far
jumps, register comparisons that hold and register shifts by 32 or more. -/
def Miscompiled (h : Hart) : Instruction → Prop
  | .jal _ offset => ¬ (-2 ^ 19 ≤ offset.toInt ∧ offset.toInt < 2 ^ 19)
  | .reg op rd rs1 rs2 => rd ≠ 0 ∧
      ((op = .slt ∨ op = .sltu) ∧ op.eval (h.x rs1) (h.x rs2) = 1 ∨
        op.isShift = true ∧ 32 ≤ (h.x rs2).toNat)
  | _ => False

/-- The register that the emitted code of an instruction writes and what it leaves there; `none` is
poison. -/
def emitted (h : Hart) : Instruction → Option (BitVec 5 × Option (BitVec 32))
  | .reg op rd rs1 rs2 => some (rd,
      if op = .slt ∨ op = .sltu then some 0
      else if op.isShift = true ∧ 32 ≤ (h.x rs2).toNat then none
      else some (op.eval (h.x rs1) (h.x rs2)))
  | i => (i.result h).map fun write => (write.1, some write.2)

/-- The word in the place of `x0` after an instruction, given the one before. -/
def zeroSlot (h : Hart) (i : Instruction) (z : Option (BitVec 32)) : Option (BitVec 32) :=
  match emitted h i with
  | some (rd, v) => if rd = 0 then v else z
  | none => z

/-- A host state holds the state of a hart: the program counter, the registers other than `x0`,
which the host keeps as an ordinary word, and the bytes of all mapped addresses. -/
structure HostState.Realizes (σ : HostState) (h : Hart) : Prop where
  pc : σ.PC = some h.pc
  x : ∀ r, r ≠ 0 → σ.Registers r = some (h.x r)
  mem : ∀ Addr, mapAddress σ.Manager Addr ≠ none → σ.Manager.bytes Addr = h.mem Addr

namespace HostState.Realizes
variable {σ : HostState} {h h' : Hart} {w : BitVec 32}

/-- A register that is not `x0`, or `x0` while it holds zero, is the hart's. -/
theorem source (hσ : σ.Realizes h) {rs : List (BitVec 5)} (hzero : (0 : BitVec 5) ∈ rs → σ.Registers 0 = some 0)
    {r : BitVec 5} (hr : r ∈ rs) : σ.Registers r = some (h.x r) := by
  by_cases h0 : r = 0
  · subst h0
    rw [hzero hr, h.x_zero]
  · exact hσ.x r h0

/-- A write to `rd` is seen when `rd` is not `x0`. -/
theorem link_iff (hσ : σ.Realizes h) (v pc : Option (BitVec 32)) (x target : BitVec 32) :
    ((σ.setReg (RiscvFormat.rd w) v).setPC pc).Realizes { h.set (RiscvFormat.rd w) x with pc := target } ↔
      pc = some target ∧ (RiscvFormat.rd w ≠ 0 → v = some x) := by
  constructor
  · intro hlink
    refine ⟨hlink.pc, fun hrd => ?_⟩
    have hx := hlink.x (RiscvFormat.rd w) hrd
    rwa [setPC_Registers, setReg_Registers, Function.update_self, show Hart.x _ _ = _ from h.set_x x hrd,
      if_pos rfl] at hx
  · rintro ⟨rfl, hv⟩
    refine ⟨rfl, fun r hr => ?_, hσ.mem⟩
    rw [setPC_Registers, setReg_Registers, show Hart.x _ _ = _ from h.set_x x hr]
    by_cases heq : r = RiscvFormat.rd w
    · rw [heq, Function.update_self, if_pos rfl, hv (heq ▸ hr)]
    · rw [Function.update_of_ne heq, if_neg heq, hσ.x r hr]

theorem writeRd_iff (hσ : σ.Realizes h) (v : Option (BitVec 32)) (x : BitVec 32) :
    (σ.writeRd w v).Realizes (h.set (RiscvFormat.rd w) x).next ↔ (RiscvFormat.rd w ≠ 0 → v = some x) := by
  have hpc : σ.PC.map (· + 4#32) = some (h.pc + 4#32) := by rw [hσ.pc, Option.map_some]
  exact (hσ.link_iff v _ x _).trans ⟨And.right, fun hv => ⟨hpc, hv⟩⟩

theorem setPC (hσ : σ.Realizes h) (target : BitVec 32) :
    (σ.setPC (some target)).Realizes { h with pc := target } := ⟨rfl, hσ.x, hσ.mem⟩

theorem advance (hσ : σ.Realizes h) : σ.advance.Realizes h.next := by
  rw [HostState.advance, hσ.pc]
  exact hσ.setPC _

section Memory
variable {width : Width} {Addr : BitVec 32}

/-- A served read gives what the hart loads. -/
theorem read (hσ : σ.Realizes h) (hin : served σ.Manager Addr width.bytes) :
    Riscv.read width σ.Manager Addr = .ok (h.load width.bytes Addr) := by
  rw [read_eq, readMapped_of_served width.bytes_pos hin]
  congr 1
  apply ofBytes_congr
  intro i hi
  obtain ⟨p, -, -, hmap⟩ := served_fits width.bytes_pos hin
  exact hσ.mem _ (by rw [hmap i hi]; exact Option.some_ne_none _)

/-- A served write leaves the memory of the hart's store. -/
theorem write (hσ : σ.Realizes h) (hin : served σ.Manager Addr width.bytes) (v : BitVec (8 * width.bytes)) :
    ∃ m, Riscv.write width σ.Manager Addr v = .ok m ∧ m.layout = σ.Manager.layout ∧
      ({ σ with Manager := m } : HostState).Realizes (h.store width.bytes Addr v) := by
  obtain ⟨m, hwrite, hlayout, hbytes⟩ := writeMapped_of_served width.bytes_pos hin v
  refine ⟨m, by rw [write_eq, hwrite], hlayout, hσ.pc, hσ.x, fun a ha => ?_⟩
  dsimp only at ha
  rw [mapAddress_of_layout hlayout] at ha
  show m.bytes a = if (a - Addr).toNat < width.bytes then byte v (a - Addr).toNat else h.mem a
  rw [hbytes, hσ.mem a ha]

end Memory

end HostState.Realizes

section Forms
variable {σ : HostState} {h h' : Hart} {w x y : BitVec 32}

private theorem reg_form (Op : BinOp) (hx : σ.rs1 w = some x) (hy : σ.rs2 w = some y) :
    regEffect Op w σ = .ok (σ.writeRd w (Op.eval x y)) := by
  rw [regEffect, hx, hy, Option.bind_some, Option.bind_some]

/-- A register comparison compares the first register with itself. -/
private theorem setLess_form {Cmp : Pred} (hx : σ.rs1 w = some x) (hirr : ∀ a : BitVec 32, Cmp.holds a a = false) :
    setLessEffect Cmp w σ = .ok (σ.writeRd w (some 0#32)) := by
  rw [setLessEffect, hx, Option.map_some, hirr]
  rfl

private theorem branch_form {c : Condition} (hσ : σ.Realizes h) (hx : σ.rs1 w = some x) (hy : σ.rs2 w = some y) :
    branchEffect (predOf c) w σ = .ok (σ.setPC (some (if c.holds x y then
      h.pc + (RiscvFormat.branchImm w).signExtend 32 else h.pc + 4#32))) := by
  rw [branchEffect, hx, hy, hσ.pc, branchOffset_eq, Option.bind_some, Option.map_some, Option.bind_some,
    predOf_holds]
  by_cases hc : c.holds x y <;> simp [hc]

end Forms

private theorem not_compare {op : AluOp} (hshift : op.isShift = true) : ¬ (op = .slt ∨ op = .sltu) := by
  rintro (rfl | rfl) <;> cases hshift

private theorem shift_value {Op : BinOp} {op : AluOp} (hop : aluOf Op = some op) (hshift : op.isShift = true)
    (x y : BitVec 32) : Op.eval x y = if op = .slt ∨ op = .sltu then some 0
      else if op.isShift = true ∧ 32 ≤ y.toNat then none else some (op.eval x y) := by
  rw [if_neg (not_compare hshift)]
  by_cases hy : 32 ≤ y.toNat
  · rw [if_pos ⟨hshift, hy⟩]
    cases Op
    case shl | lshr | ashr => exact if_neg (Nat.not_lt.mpr hy)
    case addNUWNSW => cases hop
    all_goals
      cases hop
      cases hshift
  · rw [if_neg fun hand => hy hand.2]
    exact eval_aluOf hop x y fun _ => Nat.lt_of_not_le hy

private theorem shift_iff {Op : BinOp} {op : AluOp} (hop : aluOf Op = some op) (hshift : op.isShift = true)
    (x y : BitVec 32) : Op.eval x y = some (op.eval x y) ↔
      ¬ ((op = .slt ∨ op = .sltu) ∧ op.eval x y = 1 ∨ op.isShift = true ∧ 32 ≤ y.toNat) := by
  have hcompare := not_compare hshift
  rw [shift_value hop hshift, if_neg hcompare]
  by_cases hy : 32 ≤ y.toNat <;> simp [hcompare, hshift, hy]

private theorem compare_iff {op : AluOp} (hop : op = .slt ∨ op = .sltu) (x y : BitVec 32) :
    (some 0#32 : Option (BitVec 32)) = some (op.eval x y) ↔
      ¬ ((op = .slt ∨ op = .sltu) ∧ op.eval x y = 1 ∨ op.isShift = true ∧ 32 ≤ y.toNat) := by
  have hshift : op.isShift = false := by
    rcases hop with rfl | rfl <;> rfl
  have hbool : op.eval x y = 0 ∨ op.eval x y = 1 := by
    rcases hop with rfl | rfl
    · exact (ite_eq_or_eq _ _ _).symm
    · exact (ite_eq_or_eq _ _ _).symm
  simp only [hop, hshift, true_and, Bool.false_eq_true, false_and, or_false, Option.some.injEq]
  rcases hbool with h0 | h1
  · simp [h0]
  · simp [h1]

theorem HostState.writeRd_zero (σ : HostState) (w : BitVec 32) (v : Option (BitVec 32)) :
    (σ.writeRd w v).Registers 0 = if RiscvFormat.rd w = 0 then v else σ.Registers 0 := by
  show Function.update σ.Registers (RiscvFormat.rd w) v 0 = _
  rw [Function.update_apply]
  simp only [eq_comm]

section Word
variable {σ : HostState} {h h' : Hart} {w : BitVec 32} {k : Instr} {i : Instruction}

/-- A fault-free step to the hart's next state, with a word in the place of `x0`. -/
private def StepsTo (h' : Hart) (e : Except Fault HostState) (z : Option (BitVec 32)) : Prop :=
  ∃ σ', e = .ok σ' ∧ σ'.Realizes h' ∧ σ'.Registers 0 = z

private theorem step_exact {e : Except Fault HostState} {z : Option (BitVec 32)} {P : Prop}
    (he : StepsTo h' e z) (hP : ¬ P) :
    ∃ σ', e = .ok σ' ∧ (σ'.Realizes h' ↔ ¬ P) ∧ σ'.Registers 0 = z := by
  obtain ⟨σ', hok, hσ', hz⟩ := he
  exact ⟨σ', hok, iff_of_true hσ' hP, hz⟩

private theorem writes_value (hσ : σ.Realizes h) (x : BitVec 32) :
    StepsTo (h.set (RiscvFormat.rd w) x).next (.ok (σ.writeRd w (some x)))
      (if RiscvFormat.rd w = 0 then some x else σ.Registers 0) :=
  ⟨_, rfl, (hσ.writeRd_iff _ x).mpr fun _ => rfl, σ.writeRd_zero w _⟩

private theorem branch_exact (c : Condition) (hσ : σ.Realizes h)
    (hx : σ.rs1 w = some (h.x (RiscvFormat.rs1 w))) (hy : σ.rs2 w = some (h.x (RiscvFormat.rs2 w))) :
    StepsTo (unraised h (.branch c (RiscvFormat.rs1 w) (RiscvFormat.rs2 w) (RiscvFormat.branchImm w)))
      (branchEffect (predOf c) w σ) (σ.Registers 0) := by
  refine ⟨_, branch_form hσ hx hy, ?_, rfl⟩
  show HostState.Realizes _ (if c.holds _ _ then _ else _)
  by_cases hc : c.holds (h.x (RiscvFormat.rs1 w)) (h.x (RiscvFormat.rs2 w))
  · rw [if_pos hc, if_pos hc]
    exact hσ.setPC _
  · rw [if_neg hc, if_neg hc]
    exact hσ.setPC _

private abbrev loaded (h : Hart) (w : BitVec 32) (bytes : Nat) (signed : Bool) : BitVec 32 :=
  extend signed (h.load bytes (h.x (RiscvFormat.rs1 w) + (RiscvFormat.imm12 w).signExtend 32))

private theorem load_exact (width : Width) (signed : Bool) (hσ : σ.Realizes h)
    (hx : σ.rs1 w = some (h.x (RiscvFormat.rs1 w)))
    (hin : served σ.Manager (h.x (RiscvFormat.rs1 w) + (RiscvFormat.imm12 w).signExtend 32) width.bytes) :
    StepsTo (h.set (RiscvFormat.rd w) (loaded h w width.bytes signed)).next
      (loadEffect width (extend signed) w σ)
      (if RiscvFormat.rd w = 0 then some (loaded h w width.bytes signed) else σ.Registers 0) := by
  rw [loadEffect, hx, immediate_eq]
  dsimp only
  rw [hσ.read hin, ok_map]
  exact writes_value hσ _

private theorem store_exact (width : Width) (hσ : σ.Realizes h)
    (hx : σ.rs1 w = some (h.x (RiscvFormat.rs1 w))) (hy : σ.rs2 w = some (h.x (RiscvFormat.rs2 w)))
    (hin : served σ.Manager (h.x (RiscvFormat.rs1 w) + (RiscvFormat.storeImm w).signExtend 32) width.bytes) :
    StepsTo (h.store width.bytes (h.x (RiscvFormat.rs1 w) + (RiscvFormat.storeImm w).signExtend 32)
      ((h.x (RiscvFormat.rs2 w)).setWidth (8 * width.bytes))).next (storeEffect width w σ) (σ.Registers 0) := by
  obtain ⟨m, hwrite, -, hm⟩ := hσ.write hin ((h.x (RiscvFormat.rs2 w)).setWidth (8 * width.bytes))
  refine ⟨_, ?_, hm.advance, rfl⟩
  rw [storeEffect, hx, hy, storeOffset_eq]
  dsimp only
  rw [hwrite, ok_map]

private abbrev immResult (h : Hart) (w : BitVec 32) (op : AluOp) : BitVec 32 :=
  op.eval (h.x (RiscvFormat.rs1 w)) (immValue op w)

private theorem imm_exact {Op : BinOp} {op : AluOp} (hop : aluOf Op = some op) (hnot : op.isShift = false)
    (hσ : σ.Realizes h) (hx : σ.rs1 w = some (h.x (RiscvFormat.rs1 w))) :
    StepsTo (h.set (RiscvFormat.rd w) (immResult h w op)).next (immEffect Op (immediate w) w σ)
      (if RiscvFormat.rd w = 0 then some (immResult h w op) else σ.Registers 0) := by
  rw [immEffect, hx, Option.bind_some, eval_aluOf hop _ _ (by rw [hnot]; rintro ⟨⟩), immediate_eq,
    immResult, immValue, hnot]
  exact writes_value hσ _

private theorem shiftImm_exact {Op : BinOp} {op : AluOp} (hop : aluOf Op = some op) (hshift : op.isShift = true)
    (hσ : σ.Realizes h) (hx : σ.rs1 w = some (h.x (RiscvFormat.rs1 w))) :
    StepsTo (h.set (RiscvFormat.rd w) (immResult h w op)).next (immEffect Op (shamt w) w σ)
      (if RiscvFormat.rd w = 0 then some (immResult h w op) else σ.Registers 0) := by
  rw [immEffect, hx, Option.bind_some, eval_aluOf hop _ _ fun _ => shamt_lt w, shamt_eq, immResult, immValue,
    hshift]
  exact writes_value hσ _

private theorem setLessImm_exact {Cmp : Pred} {op : AluOp} (hCmp : ∀ a b : BitVec 32,
      (BitVec.ofBool (Cmp.holds a b)).setWidth 32 = op.eval a b) (hnot : op.isShift = false)
    (hσ : σ.Realizes h) (hx : σ.rs1 w = some (h.x (RiscvFormat.rs1 w))) :
    StepsTo (h.set (RiscvFormat.rd w) (immResult h w op)).next (setLessImmEffect Cmp w σ)
      (if RiscvFormat.rd w = 0 then some (immResult h w op) else σ.Registers 0) := by
  rw [setLessImmEffect, hx, Option.map_some, hCmp, immediate_eq, immResult, immValue, hnot]
  exact writes_value hσ _

private theorem reg_exact {v z : Option (BitVec 32)} {x : BitVec 32} {P : Prop} (hσ : σ.Realizes h)
    (hv : v = some x ↔ ¬ P) (hz : v = z) : ∃ σ', (.ok (σ.writeRd w v) : Except Fault HostState) = .ok σ' ∧
      (σ'.Realizes (h.set (RiscvFormat.rd w) x).next ↔ ¬ (RiscvFormat.rd w ≠ 0 ∧ P)) ∧
      σ'.Registers 0 = if RiscvFormat.rd w = 0 then z else σ.Registers 0 := by
  refine ⟨_, rfl, (hσ.writeRd_iff v x).trans ?_, hz ▸ σ.writeRd_zero w v⟩
  rw [not_and]
  exact imp_congr_right fun _ => hv

/-- The effect of a word is a fault-free step, to the state of the hart unless it is miscompiled. -/
theorem effect_realizes_iff (hreads : readAs w k = some i) (hσ : σ.Realizes h)
    (hzero : (0 : BitVec 5) ∈ i.sources → σ.Registers 0 = some 0)
    (haccess : ∀ a n, i.access h = some (a, n) → served σ.Manager a n) :
    ∃ σ', effect k w σ = .ok σ' ∧ (σ'.Realizes (unraised h i) ↔ ¬ Miscompiled h i) ∧
      σ'.Registers 0 = zeroSlot h i (σ.Registers 0) := by
  have hsource {r : BitVec 5} (hr : r ∈ i.sources) := hσ.source hzero hr
  cases k
  case UNKNOWN => cases hreads
  case ECALL =>
    obtain rfl := Option.some.inj hreads
    exact step_exact ⟨_, rfl, hσ, rfl⟩ not_false
  case EBREAK =>
    obtain rfl := Option.some.inj hreads
    exact step_exact ⟨_, rfl, hσ.advance, rfl⟩ not_false
  case FENCE | FENCETSO | PAUSE =>
    obtain rfl := Option.some.inj hreads
    exact step_exact ⟨_, rfl, hσ.advance, rfl⟩ not_false
  case LUI =>
    obtain rfl := Option.some.inj hreads
    rw [effect, luiEffect, upperImmediate_eq]
    exact step_exact (writes_value hσ _) not_false
  case AUIPC =>
    obtain rfl := Option.some.inj hreads
    rw [effect, auipcEffect, upperImmediate_eq, hσ.pc, Option.map_some, BitVec.add_comm]
    exact step_exact (writes_value hσ _) not_false
  case JAL =>
    obtain rfl := Option.some.inj hreads
    refine ⟨_, rfl, (hσ.link_iff _ _ _ _).trans ?_, ?_⟩
    · rw [hσ.pc, Option.map_some, Option.map_some, Option.some.injEq, BitVec.add_comm 4#32,
        BitVec.add_comm (jalOffset w), BitVec.add_right_inj, jalOffset_eq_iff]
      exact ⟨fun hin => not_not.mpr hin.1, fun hnot => ⟨not_not.mp hnot, fun _ => rfl⟩⟩
    · rw [hσ.pc, Option.map_some, BitVec.add_comm]
      exact σ.writeRd_zero w _
  case JALR =>
    obtain rfl := Option.some.inj hreads
    refine step_exact ⟨_, rfl, (hσ.link_iff _ _ _ _).mpr ⟨?_, fun _ => ?_⟩, ?_⟩ not_false
    · rw [HostState.rs1, hsource List.mem_cons_self, Option.map_some, immediate_eq]
    · rw [hσ.pc, Option.map_some]
    · rw [hσ.pc, Option.map_some]
      exact σ.writeRd_zero w _
  case BEQ | BNE | BLT | BGE | BLTU | BGEU =>
    obtain rfl := Option.some.inj hreads
    have hx := hsource List.mem_cons_self
    have hy := hsource (List.mem_cons_of_mem _ List.mem_cons_self)
    exact step_exact (branch_exact _ hσ hx hy) not_false
  case LB =>
    obtain rfl := Option.some.inj hreads
    exact step_exact (load_exact .byte true hσ (hsource List.mem_cons_self) (haccess _ _ rfl)) not_false
  case LH =>
    obtain rfl := Option.some.inj hreads
    exact step_exact (load_exact .half true hσ (hsource List.mem_cons_self) (haccess _ _ rfl)) not_false
  case LW =>
    obtain rfl := Option.some.inj hreads
    exact step_exact (load_exact .word true hσ (hsource List.mem_cons_self) (haccess _ _ rfl)) not_false
  case LBU =>
    obtain rfl := Option.some.inj hreads
    exact step_exact (load_exact .byte false hσ (hsource List.mem_cons_self) (haccess _ _ rfl)) not_false
  case LHU =>
    obtain rfl := Option.some.inj hreads
    exact step_exact (load_exact .half false hσ (hsource List.mem_cons_self) (haccess _ _ rfl)) not_false
  case SB =>
    obtain rfl := Option.some.inj hreads
    have hy := hsource (List.mem_cons_of_mem _ List.mem_cons_self)
    exact step_exact (store_exact .byte hσ (hsource List.mem_cons_self) hy (haccess _ _ rfl)) not_false
  case SH =>
    obtain rfl := Option.some.inj hreads
    have hy := hsource (List.mem_cons_of_mem _ List.mem_cons_self)
    exact step_exact (store_exact .half hσ (hsource List.mem_cons_self) hy (haccess _ _ rfl)) not_false
  case SW =>
    obtain rfl := Option.some.inj hreads
    have hy := hsource (List.mem_cons_of_mem _ List.mem_cons_self)
    exact step_exact (store_exact .word hσ (hsource List.mem_cons_self) hy (haccess _ _ rfl)) not_false
  case ADDI | XORI | ORI | ANDI =>
    obtain rfl := Option.some.inj hreads
    exact step_exact (imm_exact rfl rfl hσ (hsource List.mem_cons_self)) not_false
  case SLTI =>
    obtain rfl := Option.some.inj hreads
    exact step_exact (setLessImm_exact ofBool_slt rfl hσ (hsource List.mem_cons_self)) not_false
  case SLTIU =>
    obtain rfl := Option.some.inj hreads
    exact step_exact (setLessImm_exact ofBool_ult rfl hσ (hsource List.mem_cons_self)) not_false
  case SLLI | SRLI | SRAI =>
    obtain rfl := Option.some.inj hreads
    exact step_exact (shiftImm_exact rfl rfl hσ (hsource List.mem_cons_self)) not_false
  case ADD | SUB | XOR | OR | AND =>
    obtain rfl := Option.some.inj hreads
    have hy := hsource (List.mem_cons_of_mem _ List.mem_cons_self)
    rw [effect, reg_form _ (hsource List.mem_cons_self) hy]
    refine reg_exact hσ (iff_of_true rfl ?_) rfl
    rintro (⟨⟨⟨⟩⟩ | ⟨⟨⟩⟩, -⟩ | ⟨⟨⟩, -⟩)
  case SLL | SRL | SRA =>
    obtain rfl := Option.some.inj hreads
    have hy := hsource (List.mem_cons_of_mem _ List.mem_cons_self)
    rw [effect, reg_form _ (hsource List.mem_cons_self) hy]
    exact reg_exact hσ (shift_iff rfl rfl _ _) (shift_value rfl rfl _ _)
  case SLT =>
    obtain rfl := Option.some.inj hreads
    rw [effect, setLess_form (hsource List.mem_cons_self) fun a => by simp [Pred.holds, BitVec.slt]]
    exact reg_exact hσ (compare_iff (.inl rfl) _ _) rfl
  case SLTU =>
    obtain rfl := Option.some.inj hreads
    rw [effect, setLess_form (hsource List.mem_cons_self) fun a => by simp [Pred.holds, BitVec.ult]]
    exact reg_exact hσ (compare_iff (.inr rfl) _ _) rfl

/-- The access of the code is that of the instruction. -/
theorem access_of_reads (hreads : readAs w k = some i) (hσ : σ.Realizes h)
    (hzero : (0 : BitVec 5) ∈ i.sources → σ.Registers 0 = some 0) :
    (σ.access w k).map (fun a => (a.2, a.1.bytes)) = (i.access h).map fun a => (some a.1, a.2) := by
  have hsource {r : BitVec 5} (hr : r ∈ i.sources) := hσ.source hzero hr
  cases k
  case UNKNOWN => cases hreads
  case LB | LH | LW | LBU | LHU =>
    obtain rfl := Option.some.inj hreads
    rw [HostState.access, HostState.access.loadAddress, HostState.rs1, hsource List.mem_cons_self,
      immediate_eq]
    rfl
  case SB | SH | SW =>
    obtain rfl := Option.some.inj hreads
    rw [HostState.access, HostState.access.storeAddress, HostState.rs1, HostState.rs2,
      hsource List.mem_cons_self, hsource (List.mem_cons_of_mem _ List.mem_cons_self), storeOffset_eq]
    rfl
  all_goals
    obtain rfl := Option.some.inj hreads
    rfl

theorem checkCall_alignment_iff (hreads : readAs w k = some i) (hσ : σ.Realizes h)
    (hzero : (0 : BitVec 5) ∈ i.sources → σ.Registers 0 = some 0) :
    checkCall alignment k w σ = .ok () ↔ ∀ a n, i.access h = some (a, n) → HostAligned σ.Manager a n := by
  have haccess := access_of_reads hreads hσ hzero
  rw [checkCall_alignment]
  cases hk : σ.access w k with
  | none =>
    rw [hk, Option.map_none, eq_comm, Option.map_eq_none_iff] at haccess
    rw [haccess]
    exact iff_of_true rfl fun _ _ => nofun
  | some x =>
    rw [hk, Option.map_some, eq_comm, Option.map_eq_some_iff] at haccess
    obtain ⟨⟨Addr, n⟩, hi, heq⟩ := haccess
    obtain ⟨ha, rfl⟩ := Prod.mk.inj heq
    dsimp only at ha
    rw [hi]
    dsimp only
    rw [accessCheck_eq_ok_iff, ← ha]
    simp

end Word

/-- The hart that a state of the translator stands for. -/
def CPUState.hart (s : CPUState) : Hart := ⟨s.PC, s.x, if_pos rfl, s.Manager.bytes⟩

theorem CPUState.host_realizes (s : CPUState) : s.host.Realizes s.hart := by
  refine ⟨rfl, fun r hr => ?_, fun _ _ => rfl⟩
  rw [CPUState.host_Registers]
  exact congrArg some (if_neg hr).symm

section Example

end Example

end DBTranslator.Riscv
