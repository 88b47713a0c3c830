import DBTranslator.Riscv.Memory
import DBTranslator.Lib.SsaBuilder
import Mathlib.Data.Fin.VecNotation

/-! The host objects of the runtime as generated code addresses them: `CPUState`,
`MemoryManager`, the segment table and the buffers, by the layout of their structs. -/
namespace DBTranslator.Riscv
open Lib.Ssa

/-- `CPUState` as the C++ side holds it. `Registers` is indexed by the 5-bit register
numbers, one for each of the 32 array elements. -/
structure CPUState where
  Registers : BitVec 5 → BitVec 32
  PC : BitVec 32
  Manager : MemoryManager

/-- `CPUState` while a block runs: a word of it may be poison, written `none`. -/
structure HostState where
  Registers : BitVec 5 → Option (BitVec 32)
  PC : Option (BitVec 32)
  Manager : MemoryManager

def CPUState.host (s : CPUState) : HostState :=
  ⟨fun r => some (s.Registers r), some s.PC, s.Manager⟩

namespace HostState

def setReg (σ : HostState) (r : BitVec 5) (v : Option (BitVec 32)) : HostState :=
  { σ with Registers := Function.update σ.Registers r v }

def setPC (σ : HostState) (v : Option (BitVec 32)) : HostState := { σ with PC := v }

variable (σ : HostState) (r : BitVec 5) (v : Option (BitVec 32))

@[simp] theorem setReg_Registers : (σ.setReg r v).Registers = Function.update σ.Registers r v := rfl
@[simp] theorem setReg_PC : (σ.setReg r v).PC = σ.PC := rfl
@[simp] theorem setReg_Manager : (σ.setReg r v).Manager = σ.Manager := rfl
@[simp] theorem setPC_Registers : (σ.setPC v).Registers = σ.Registers := rfl
@[simp] theorem setPC_PC : (σ.setPC v).PC = v := rfl
@[simp] theorem setPC_Manager : (σ.setPC v).Manager = σ.Manager := rfl

/-- A C++ state that the host memory can hold after a block: equal to every word that is
not poison. -/
def Concretises (σ : HostState) (s : CPUState) : Prop :=
  (∀ r, ∀ v ∈ σ.Registers r, s.Registers r = v) ∧ (∀ v ∈ σ.PC, s.PC = v) ∧ s.Manager = σ.Manager

end HostState

/-- A state without poison has one concrete form. -/
theorem CPUState.host_concretises (s s' : CPUState) : s.host.Concretises s' ↔ s' = s := by
  constructor
  · rintro ⟨hr, hpc, hm⟩
    rcases s' with ⟨regs, pc, m⟩
    obtain rfl : regs = s.Registers := funext fun r => hr r _ rfl
    obtain rfl : pc = s.PC := hpc _ rfl
    obtain rfl : m = s.Manager := hm
    rfl
  · rintro rfl
    exact ⟨fun r v hv => Option.some.inj hv, fun v hv => Option.some.inj hv, rfl⟩

theorem CPUState.host_inj {s s' : CPUState} : s.host = s'.host ↔ s = s' := by
  constructor
  · intro h
    exact (s'.host_concretises s).mp (h ▸ (s.host_concretises s).mpr rfl)
  · rintro rfl
    rfl

section Concrete
variable (s : CPUState) (r : BitVec 5) (v : BitVec 32)

@[simp] theorem CPUState.host_Registers : s.host.Registers r = some (s.Registers r) := rfl
@[simp] theorem CPUState.host_PC : s.host.PC = some s.PC := rfl
@[simp] theorem CPUState.host_Manager : s.host.Manager = s.Manager := rfl

@[simp] theorem CPUState.host_setReg : s.host.setReg r (some v) =
    CPUState.host { s with Registers := Function.update s.Registers r v } := by
  simp only [HostState.setReg, CPUState.host, HostState.mk.injEq, and_true]
  funext r'
  by_cases h : r' = r <;> simp [h]

@[simp] theorem CPUState.host_setPC : s.host.setPC (some v) = CPUState.host { s with PC := v } := rfl

end Concrete

/-- The functions of the memory interface that blocks call. -/
inductive MemoryFunction where
  | read (w : Width)
  | write (w : Width)
  deriving DecidableEq, Repr

/-- The table `MemoryFunctions` that `addMemoryInterface` fills. -/
def addMemoryInterface : Fin 6 → MemoryFunction :=
  ![.read .byte, .read .half, .read .word, .write .byte, .write .half, .write .word]

def MemoryFunction.width : MemoryFunction → Width
  | .read w | .write w => w

/-- Calls take the manager's address, and no argument may be poison (`noundef`). -/
def MemoryFunction.call (m : MemoryManager) :
    MemoryFunction → List (Val HostPtr) → Except Fault (MemoryManager × Option (Val HostPtr))
  | .read w, [.ptr (some ⟨.MemoryManager, 0⟩), .int 32 (some Addr)] => do
    return (m, some (.int (8 * w.bytes) (some (← Riscv.read w m Addr))))
  | .write w, [.ptr (some ⟨.MemoryManager, 0⟩), .int 32 (some Addr), .int n (some Data)] =>
    if h : n = 8 * w.bytes then do
      return (← Riscv.write w m Addr (Data.cast h), none)
    else .error .type
  | _, _ => .error .poison

/-- Allocation sizes of the host objects. -/
def MemoryManager.objectSize (m : MemoryManager) : HostObject → Nat
  | .CPUState => 144
  | .MemoryManager => 16
  | .SegmentData => 16 * m.SegmentData.length
  | .Memory I => (m.SegmentData[I]?).elim 0 fun Seg => Seg.MemorySize.toNat

/-- In-bounds pointer arithmetic: leaving the object gives poison. -/
def MemoryManager.offset (m : MemoryManager) (p : HostPtr) (d : Int) : Option HostPtr :=
  if 0 ≤ p.off + d ∧ p.off + d ≤ m.objectSize p.obj then some ⟨p.obj, (p.off + d).toNat⟩ else none

theorem MemoryManager.offset_eq {m : MemoryManager} {obj : HostObject} {off : Nat} {d : Int} (k : Nat)
    (hd : off + d = k) (hk : k ≤ m.objectSize obj) : m.offset ⟨obj, off⟩ d = some ⟨obj, k⟩ := by
  rw [MemoryManager.offset]
  dsimp only
  rw [hd, if_pos ⟨Int.natCast_nonneg k, Int.ofNat_le.mpr hk⟩, Int.toNat_natCast]

/-- Typed loads from the memory manager's objects: `SegmentData` at 0 and `NumSegments` at 8;
in a table row `Memory` at 0, `MemorySize` at 8 and `GuestAddress` at 12. -/
def MemoryManager.loadTyped (m : MemoryManager) (p : HostPtr) : Ty → Except Fault (Val HostPtr)
  | .ptr =>
    match p.obj with
    | .MemoryManager =>
      if p.off = 0 then .ok (.ptr (some ⟨.SegmentData, 0⟩)) else .error (.access p 8)
    | .SegmentData =>
      if p.off % 16 = 0 ∧ p.off / 16 < m.SegmentData.length then
        .ok (.ptr (some ⟨.Memory (p.off / 16), 0⟩))
      else .error (.access p 8)
    | _ => .error (.access p 8)
  | .int w =>
    match p.obj with
    | .MemoryManager =>
      if w = 32 ∧ p.off = 8 then .ok (.int 32 (some m.NumSegments)) else .error (.access p (w / 8))
    | .SegmentData =>
      match m.SegmentData[p.off / 16]? with
      | some Seg =>
        if w = 32 ∧ p.off % 16 = 8 then .ok (.int 32 (some Seg.MemorySize))
        else if w = 32 ∧ p.off % 16 = 12 then .ok (.int 32 (some Seg.GuestAddress))
        else .error (.access p (w / 8))
      | none => .error (.access p (w / 8))
    | .Memory _ =>
      if 8 * (w / 8) = w then do return .int (8 * (w / 8)) (some (← m.load p (w / 8)))
      else .error .type
    | .CPUState => .error (.access p (w / 8))

/-- Typed stores to a buffer; the manager and its table are never written. -/
def MemoryManager.storeTyped (m : MemoryManager) (p : HostPtr) :
    Val HostPtr → Except Fault MemoryManager
  | .int w (some v) =>
    if h : w = 8 * (w / 8) then m.store p (w / 8) (v.cast h) else .error .type
  | _ => .error .poison

/-- The host that the functions of the memory implementation run on. -/
def memoryHost : Host HostPtr Empty MemoryManager where
  offset m := m.offset
  load m ty p := m.loadTyped p ty
  store m p v := m.storeTyped p v
  call _ f _ := f.elim

/-- The host that translated blocks run on: `Registers` at 0, `PC` at 128 and `Manager` at 136
of `CPUState`, everything else as the memory manager lays it out. -/
def cpuHost : Host HostPtr MemoryFunction HostState where
  offset σ := σ.Manager.offset
  load σ ty p :=
    match p.obj, ty with
    | .CPUState, .int w =>
      if p.off < 128 ∧ p.off % 4 = 0 ∧ w ≤ 32 then
        .ok (.int w ((σ.Registers (BitVec.ofNat 5 (p.off / 4))).map (·.setWidth w)))
      else if p.off = 128 ∧ w = 32 then .ok (.int 32 σ.PC)
      else .error (.access p (w / 8))
    | .CPUState, .ptr =>
      if p.off = 136 then .ok (.ptr (some ⟨.MemoryManager, 0⟩)) else .error (.access p 8)
    | _, _ => σ.Manager.loadTyped p ty
  store σ p v :=
    match p.obj, v with
    | .CPUState, .int 32 v =>
      if p.off < 128 ∧ p.off % 4 = 0 then .ok (σ.setReg (BitVec.ofNat 5 (p.off / 4)) v)
      else if p.off = 128 then .ok (σ.setPC v)
      else .error (.access p 4)
    | .CPUState, _ => .error .type
    | _, _ => do return { σ with Manager := ← σ.Manager.storeTyped p v }
  call σ f args := do
    let (m, v) ← f.call σ.Manager args
    return ({ σ with Manager := m }, v)

/-- The address of a register inside `CPUState`. -/
abbrev regPtr (r : BitVec 5) : HostPtr := ⟨.CPUState, 4 * r.toNat⟩
abbrev pcPtr : HostPtr := ⟨.CPUState, 128⟩
abbrev managerPtrPtr : HostPtr := ⟨.CPUState, 136⟩

section Access
variable (σ : HostState) (r : BitVec 5)

private theorem regPtr_index : BitVec.ofNat 5 (4 * r.toNat / 4) = r := by
  apply BitVec.eq_of_toNat_eq
  rw [Nat.mul_div_cancel_left _ (by decide), BitVec.toNat_ofNat, Nat.mod_eq_of_lt r.isLt]

/-- A narrow load of a register gives its low bits: the host is little-endian. -/
theorem load_reg (w : Nat) (hw : w ≤ 32) : cpuHost.load σ (.int w) (regPtr r) =
    .ok (.int w ((σ.Registers r).map (·.setWidth w))) := by
  have hr := r.isLt
  simp only [cpuHost, regPtr_index]
  exact if_pos ⟨by omega, by omega, hw⟩

@[simp] theorem load_reg_word : cpuHost.load σ (.int 32) (regPtr r) =
    .ok (.int 32 (σ.Registers r)) := by
  rw [load_reg σ r 32 (Nat.le_refl 32)]
  simp

@[simp] theorem load_pc : cpuHost.load σ (.int 32) pcPtr = .ok (.int 32 σ.PC) := rfl

@[simp] theorem load_manager :
    cpuHost.load σ .ptr managerPtrPtr = .ok (.ptr (some ⟨.MemoryManager, 0⟩)) := rfl

@[simp] theorem store_reg (v : Option (BitVec 32)) :
    cpuHost.store σ (regPtr r) (.int 32 v) = .ok (σ.setReg r v) := by
  have hr := r.isLt
  simp only [cpuHost, regPtr_index]
  exact if_pos ⟨by omega, by omega⟩

@[simp] theorem store_pc (v : Option (BitVec 32)) :
    cpuHost.store σ pcPtr (.int 32 v) = .ok (σ.setPC v) := rfl

/-- Indexing the register array stays inside `CPUState`. -/
@[simp] theorem offset_reg : cpuHost.offset σ ⟨.CPUState, 0⟩ ((4 : Nat) * (r.setWidth 32).toInt) =
    some (regPtr r) := by
  have hr := r.isLt
  refine MemoryManager.offset_eq _ ?_ (show 4 * r.toNat ≤ 144 by omega)
  rw [Lib.BitField.toInt_setWidth_of_lt r (by decide)]
  omega

section Calls
variable (w : Width) (Addr : BitVec 32)

@[simp] theorem call_read :
    cpuHost.call σ (.read w) [.ptr (some ⟨.MemoryManager, 0⟩), .int 32 (some Addr)] =
      (read w σ.Manager Addr).map fun v => (σ, some (.int (8 * w.bytes) (some v))) := by
  simp only [cpuHost, MemoryFunction.call]
  cases read w σ.Manager Addr <;> rfl

@[simp] theorem call_read_poison :
    cpuHost.call σ (.read w) [.ptr (some ⟨.MemoryManager, 0⟩), .int 32 none] = .error .poison := rfl

@[simp] theorem call_write (Data : BitVec (8 * w.bytes)) :
    cpuHost.call σ (.write w) [.ptr (some ⟨.MemoryManager, 0⟩), .int 32 (some Addr),
        .int (8 * w.bytes) (some Data)] =
      (write w σ.Manager Addr Data).map fun m => ({ σ with Manager := m }, none) := by
  simp only [cpuHost, MemoryFunction.call, dif_pos, BitVec.cast_eq]
  cases write w σ.Manager Addr Data <;> rfl

@[simp] theorem call_write_poison (n : Nat) (a : Option (BitVec 32)) (b : Option (BitVec n))
    (h : a = none ∨ b = none) :
    cpuHost.call σ (.write w) [.ptr (some ⟨.MemoryManager, 0⟩), .int 32 a, .int n b] =
      .error .poison := by
  rcases h with rfl | rfl
  · rfl
  · cases a <;> rfl

end Calls
end Access
end DBTranslator.Riscv
