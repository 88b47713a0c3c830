import DBTranslator.Lib.ByteMemory
import DBTranslator.Lib.SsaSimulation
import DBTranslator.Lib.StructLayout
import DBTranslator.Riscv.GuestBytes
import DBTranslator.Riscv.Link

/-! The host objects byte for byte, laid out by the struct types of `CPU.cpp` and `Memory.cpp`, and the
blocks linked with `Memory.ll` on them. -/
namespace DBTranslator.Riscv
open Lib Lib.Ssa Lib.ByteMemory Lib.LittleEndian Lib.StructLayout

/-- `Memory`, `MemorySize` and `GuestAddress`, in the order of the struct of `Memory.h`. -/
def getSegmentType : List Shape := [.ptr, .int 32, .int 32]

/-- `SegmentData` and `NumSegments`, in the order of the struct of `Memory.h`. -/
def getMemoryType : List Shape := [.ptr, .int 32]

/-- `Registers`, `PC` and `Manager`, in the order of the struct of `CPU.h`. -/
def getCPUStateType : List Shape := [(Shape.int 32).array 32, .int 32, .ptr]

/-- The sizes of the objects that the runtime allocates. -/
def MemoryManager.allocated (m : MemoryManager) : HostObject → Nat
  | .CPUState => (Shape.struct getCPUStateType).size
  | .MemoryManager => (Shape.struct getMemoryType).size
  | .SegmentData => ((Shape.struct getSegmentType).array m.SegmentData.length).size
  | .Memory I => (m.SegmentData[I]?).elim 0 fun Seg => Seg.MemorySize.toNat

theorem MemoryManager.allocated_eq (m : MemoryManager) : m.allocated = m.objectSize := by
  funext o
  cases o <;> rfl

/-- Where a register is in `CPUState`. -/
def regOffset (r : BitVec 5) : Nat := structOffset getCPUStateType 0 + (Shape.int 32).size * r.toNat

abbrev HostBytes := Bytes HostObject HostPtr

/-- The cells of a row of the segment table, from its base on. -/
structure HoldsRow (c : Nat → Cell HostPtr) (base I : Nat) (Seg : SegmentManager) : Prop where
  memory : HoldsPtr c (base + structOffset getSegmentType 0) ⟨.Memory I, 0⟩
  size : Holds c (base + structOffset getSegmentType 1) (some Seg.MemorySize)
  guest : Holds c (base + structOffset getSegmentType 2) (some Seg.GuestAddress)

/-- The bytes of the host hold the state. Padding may be anything. -/
structure Represents (M : HostBytes) (σ : HostState) : Prop where
  size : M.size = σ.Manager.allocated
  registers : ∀ r, Holds (M.cell .CPUState) (regOffset r) (σ.Registers r)
  pc : Holds (M.cell .CPUState) (structOffset getCPUStateType 1) σ.PC
  manager : HoldsPtr (M.cell .CPUState) (structOffset getCPUStateType 2) ⟨.MemoryManager, 0⟩
  table : HoldsPtr (M.cell .MemoryManager) (structOffset getMemoryType 0) ⟨.SegmentData, 0⟩
  count : Holds (M.cell .MemoryManager) (structOffset getMemoryType 1) (some σ.Manager.NumSegments)
  rows : ∀ I Seg, σ.Manager.SegmentData[I]? = some Seg →
    HoldsRow (M.cell .SegmentData) ((Shape.struct getSegmentType).size * I) I Seg
  buffers : ∀ I, I < σ.Manager.SegmentData.length →
    ∀ j, M.cell (.Memory I) j = .byte (some (σ.Manager.byteAt ⟨.Memory I, j⟩))

def HostObject.isBuffer : HostObject → Bool
  | .Memory _ => true
  | _ => false

def shapeOf : Ty → Shape
  | .int w => .int w
  | .ptr => .ptr

def bitsOf : Ty → Nat
  | .int w => w
  | .ptr => 64

/-- An access lies inside its object. One to a struct is aligned; a buffer is accessed where the guest
wants. -/
def allows (M : HostBytes) (p : HostPtr) (ty : Ty) : Prop :=
  8 * p.off + bitsOf ty ≤ 8 * M.size p.obj ∧ (p.obj.isBuffer ∨ (shapeOf ty).align ∣ p.off)

instance (M : HostBytes) (p : HostPtr) (ty : Ty) : Decidable (allows M p ty) :=
  inferInstanceAs (Decidable (_ ∧ _))

/-- The host whose memory is bytes. Code of the translator stores no pointers. -/
def byteHost {F : Type} : Host HostPtr F HostBytes where
  offset M p d :=
    if 0 ≤ p.off + d ∧ p.off + d ≤ M.size p.obj then some ⟨p.obj, (p.off + d).toNat⟩ else none
  load M ty p :=
    if allows M p ty then
      match ty with
      | .int w => loadInt (M.cell p.obj) p.off w
      | .ptr => loadPtr (M.cell p.obj) p.off
    else .error (.access p (shapeOf ty).size)
  store M p v :=
    match v with
    | .int w v =>
      if allows M p (.int w) then
        .ok (M.store p.obj p.off v)
      else .error (.access p (Shape.int w).size)
    | .ptr _ => .error .type
  call _ _ _ := .error .type

theorem bits_le (ty : Ty) : bitsOf ty ≤ 8 * (shapeOf ty).size := by
  cases ty with
  | ptr => decide
  | int w => exact Shape.int_bits w

section Allows
variable {M : HostBytes} {o : HostObject} {ty : Ty} (fields : List Shape) (i : Nat)

/-- A field of a struct is accessed as what it is. -/
theorem allows_field (hsize : M.size o = (Shape.struct fields).size)
    (hi : fields[i]? = some (shapeOf ty)) : allows M ⟨o, structOffset fields i⟩ ty := by
  have hbits := bits_le ty
  have hinside := struct_inside hi
  refine ⟨?_, .inr ?_⟩
  · dsimp only
    rw [hsize]
    omega
  · exact struct_aligned hi

theorem allows_row {I n : Nat} (hsize : M.size o = ((Shape.struct fields).array n).size)
    (hI : I < n) (hi : fields[i]? = some (shapeOf ty)) :
    allows M ⟨o, (Shape.struct fields).size * I + structOffset fields i⟩ ty := by
  have hbits := bits_le ty
  have hinside := row_inside hi hI
  refine ⟨?_, .inr (row_aligned hi I)⟩
  dsimp only
  rw [hsize]
  omega

/-- So is a register, or a part of it. -/
theorem allows_register (hsize : M.size .CPUState = (Shape.struct getCPUStateType).size) (r : BitVec 5) {w : Nat}
    (hw : w ≤ 32) : allows M ⟨.CPUState, regOffset r⟩ (.int w) := by
  have hr := r.isLt
  have hfield : getCPUStateType[0]? = some ((Shape.int 32).array 32) := rfl
  have hinside := struct_inside hfield
  have harray : ((Shape.int 32).array 32).size = 4 * 32 := rfl
  have hreg : regOffset r = structOffset getCPUStateType 0 + 4 * r.toNat := rfl
  have hbase : ((Shape.int 32).array 32).align ∣ structOffset getCPUStateType 0 := struct_aligned hfield
  have haligned : (Shape.int 32).align ∣ regOffset r := Nat.dvd_add hbase ((Shape.int 32).whole.mul_right r.toNat)
  refine ⟨?_, .inr ((intAlign_dvd hw).trans haligned)⟩
  change 8 * regOffset r + w ≤ 8 * M.size .CPUState
  omega

end Allows

/-- The loads that the memory manager allows. -/
inductive Loads (m : MemoryManager) : HostPtr → Ty → Val HostPtr → Prop
  | table : Loads m ⟨.MemoryManager, 0⟩ .ptr (.ptr (some ⟨.SegmentData, 0⟩))
  | count : Loads m ⟨.MemoryManager, 8⟩ (.int 32) (.int 32 (some m.NumSegments))
  | memory {I : Nat} {Seg : SegmentManager} : m.SegmentData[I]? = some Seg →
      Loads m ⟨.SegmentData, 16 * I⟩ .ptr (.ptr (some ⟨.Memory I, 0⟩))
  | size {I : Nat} {Seg : SegmentManager} : m.SegmentData[I]? = some Seg →
      Loads m ⟨.SegmentData, 16 * I + 8⟩ (.int 32) (.int 32 (some Seg.MemorySize))
  | guest {I : Nat} {Seg : SegmentManager} : m.SegmentData[I]? = some Seg →
      Loads m ⟨.SegmentData, 16 * I + 12⟩ (.int 32) (.int 32 (some Seg.GuestAddress))
  | buffer {I off n : Nat} {x : BitVec (8 * n)} : m.load ⟨.Memory I, off⟩ n = .ok x →
      Loads m ⟨.Memory I, off⟩ (.int (8 * n)) (.int (8 * n) (some x))

section Loads
variable {m : MemoryManager} {ty : Ty} {v : Val HostPtr} {off w : Nat}

private theorem loads_manager (h : m.loadTyped ⟨.MemoryManager, off⟩ ty = .ok v) : Loads m ⟨.MemoryManager, off⟩ ty v := by
  cases ty with
  | ptr =>
    rw [MemoryManager.loadTyped] at h
    dsimp only at h
    split at h
    · rename_i hoff
      rw [hoff, ← Except.ok.inj h]
      exact .table
    · cases h
  | int w =>
    rw [MemoryManager.loadTyped] at h
    dsimp only at h
    split at h
    · rename_i hoff
      rw [hoff.1, hoff.2, ← Except.ok.inj h]
      exact .count
    · cases h

private theorem loads_table (h : m.loadTyped ⟨.SegmentData, off⟩ ty = .ok v) : Loads m ⟨.SegmentData, off⟩ ty v := by
  cases ty with
  | ptr =>
    rw [MemoryManager.loadTyped] at h
    dsimp only at h
    split at h
    · rename_i hrow
      have hoff : off = 16 * (off / 16) := by omega
      have hload := Loads.memory (List.getElem?_eq_getElem hrow.2)
      rwa [← hoff, Except.ok.inj h] at hload
    · cases h
  | int w =>
    rw [MemoryManager.loadTyped] at h
    dsimp only at h
    split at h
    · rename_i Seg hget
      split at h
      · rename_i hoff
        have hplace : off = 16 * (off / 16) + 8 := by omega
        rw [hoff.1, ← Except.ok.inj h, hplace]
        exact .size hget
      · split at h
        · rename_i hoff
          have hplace : off = 16 * (off / 16) + 12 := by omega
          rw [hoff.1, ← Except.ok.inj h, hplace]
          exact .guest hget
        · cases h
    · cases h

private theorem loads_of_loadTyped {p : HostPtr} (h : m.loadTyped p ty = .ok v) : Loads m p ty v := by
  obtain ⟨o, off⟩ := p
  cases o with
  | CPUState => cases ty <;> cases h
  | MemoryManager => exact loads_manager h
  | SegmentData => exact loads_table h
  | Memory I =>
    cases ty with
    | ptr => cases h
    | int w =>
      rw [MemoryManager.loadTyped] at h
      dsimp only at h
      split at h
      · rename_i hw
        obtain ⟨x, hx, hrest⟩ := bind_eq_ok.mp h
        have hload := Loads.buffer hx
        rwa [Except.ok.inj hrest, hw] at hload
      · cases h

end Loads

section Bytes
variable {F : Type} {M : HostBytes} {σ : HostState} {ty : Ty} {v : Val HostPtr} {w : Nat}

private theorem load_int {p : HostPtr} (hallows : allows M p (.int w)) :
    (byteHost (F := F)).load M (.int w) p = loadInt (M.cell p.obj) p.off w := if_pos hallows

private theorem load_ptr {p q : HostPtr} (hallows : allows M p .ptr) (hholds : HoldsPtr (M.cell p.obj) p.off q) :
    (byteHost (F := F)).load M .ptr p = .ok (.ptr (some q)) := (if_pos hallows).trans (loadPtr_of_holds hholds)

private theorem load_word {p : HostPtr} {x : Option (BitVec 32)} (hallows : allows M p (.int 32))
    (hholds : Holds (M.cell p.obj) p.off x) : (byteHost (F := F)).load M (.int 32) p = .ok (.int 32 x) := by
  rw [load_int hallows, loadInt_of_holds hholds (by decide) (Nat.le_refl 32)]
  cases x with
  | none => rfl
  | some x => rw [Option.map_some, BitVec.setWidth_eq]

private theorem allows_buffer (hM : Represents M σ) {I off n : Nat} (hfits : σ.Manager.fits ⟨.Memory I, off⟩ n) :
    I < σ.Manager.SegmentData.length ∧ allows M ⟨.Memory I, off⟩ (.int (8 * n)) := by
  obtain ⟨Seg, hseg, hle⟩ := hfits
  have hI : σ.Manager.SegmentData[I]? = some Seg := hseg
  refine ⟨(List.getElem?_eq_some_iff.mp hI).1, ?_, .inl rfl⟩
  rw [bitsOf, hM.size, MemoryManager.allocated, hI, Option.elim_some, ← Nat.mul_add]
  exact Nat.mul_le_mul_left 8 hle

private theorem load_bytes (hM : Represents M σ) {p : HostPtr} (hload : Loads σ.Manager p ty v) :
    (byteHost (F := F)).load M ty p = .ok v := by
  have hmanager := congrFun hM.size .MemoryManager
  have htable := congrFun hM.size .SegmentData
  cases hload with
  | table => exact load_ptr (allows_field getMemoryType 0 hmanager rfl) hM.table
  | count => exact load_word (allows_field getMemoryType 1 hmanager rfl) hM.count
  | memory hI =>
    have hlt := (List.getElem?_eq_some_iff.mp hI).1
    exact load_ptr (allows_row getSegmentType 0 htable hlt rfl) (hM.rows _ _ hI).memory
  | size hI =>
    have hlt := (List.getElem?_eq_some_iff.mp hI).1
    exact load_word (allows_row getSegmentType 1 htable hlt rfl) (hM.rows _ _ hI).size
  | guest hI =>
    have hlt := (List.getElem?_eq_some_iff.mp hI).1
    exact load_word (allows_row getSegmentType 2 htable hlt rfl) (hM.rows _ _ hI).guest
  | @buffer I off n x hx =>
    have hfits := MemoryManager.fits_of_load hx
    obtain ⟨hI, hallows⟩ := allows_buffer hM hfits
    rw [MemoryManager.load_of_fits hfits] at hx
    rw [load_int hallows, ← Except.ok.inj hx]
    exact loadInt_bytes fun i => hM.buffers I hI (off + i)

section Layout
variable {m m' : MemoryManager} (h : m'.layout = m.layout)
include h

private theorem length_of_layout : m'.SegmentData.length = m.SegmentData.length := by
  have hlen := congrArg List.length h
  rwa [MemoryManager.layout, MemoryManager.layout, List.length_map, List.length_map] at hlen

private theorem count_of_layout : m'.NumSegments = m.NumSegments := by
  apply BitVec.eq_of_toNat_eq
  rw [← m'.counted, ← m.counted, length_of_layout h]

private theorem allocated_of_layout : m'.allocated = m.allocated := by
  have hlen := length_of_layout h
  funext o
  cases o with
  | CPUState => rfl
  | MemoryManager => rfl
  | SegmentData => rw [MemoryManager.allocated, MemoryManager.allocated, hlen]
  | Memory I =>
    rw [MemoryManager.allocated, MemoryManager.allocated]
    cases hI : m.SegmentData[I]? with
    | none => rw [List.getElem?_eq_none (hlen ▸ List.getElem?_eq_none_iff.mp hI)]
    | some Seg =>
      obtain ⟨Seg', hI', -, hsize⟩ := MemoryManager.segment_of_layout h hI
      rw [hI', Option.elim_some, Option.elim_some, hsize]

end Layout

private theorem int_cast {w w' : Nat} (h : w = w') (x : BitVec w) :
    (Val.int w (some x) : Val HostPtr) = .int w' (some (x.cast h)) := by
  subst h
  rfl

private theorem buffer_of_storeTyped {m m' : MemoryManager} {p : HostPtr} (h : m.storeTyped p v = .ok m') :
    ∃ I off n, ∃ x : BitVec (8 * n), p = ⟨.Memory I, off⟩ ∧ v = .int (8 * n) (some x) ∧
      m.store ⟨.Memory I, off⟩ n x = .ok m' := by
  unfold MemoryManager.storeTyped at h
  split at h
  · rename_i w x
    split at h
    · rename_i hw
      obtain ⟨Seg, hseg, -⟩ := MemoryManager.fits_of_store h
      obtain ⟨o, off⟩ := p
      cases o with
      | Memory I => exact ⟨I, off, w / 8, x.cast hw, rfl, int_cast hw x, h⟩
      | _ => cases hseg
    · cases h
  · cases h

private theorem store_buffer (hM : Represents M σ) {I off n : Nat} {x : BitVec (8 * n)} {m' : MemoryManager}
    (hstore : σ.Manager.store ⟨.Memory I, off⟩ n x = .ok m') :
    ∃ M', (byteHost (F := F)).store M ⟨.Memory I, off⟩ (.int (8 * n) (some x)) = .ok M' ∧
      Represents M' { σ with Manager := m' } := by
  have hfits := MemoryManager.fits_of_store hstore
  obtain ⟨hI, hallows⟩ := allows_buffer hM hfits
  obtain ⟨m₁, hm₁, hlayout, hbytes⟩ := MemoryManager.store_of_fits hfits x
  obtain rfl : m₁ = m' := Except.ok.inj (hm₁.symm.trans hstore)
  refine ⟨_, if_pos hallows, ?_⟩
  constructor
  case size => exact hM.size.trans (allocated_of_layout hlayout).symm
  case registers => exact hM.registers
  case pc => exact hM.pc
  case manager => exact hM.manager
  case table => exact hM.table
  case count => 
    rw [count_of_layout hlayout]
    exact hM.count
  case rows =>
    intro J Seg hJ
    obtain ⟨Seg', hJ', hguest, hsize⟩ := MemoryManager.segment_of_layout hlayout.symm hJ
    obtain ⟨hmemory, hsizes, hguests⟩ := hM.rows J Seg' hJ'
    exact ⟨hmemory, hsize ▸ hsizes, hguest ▸ hguests⟩
  case buffers =>
    intro J hJ j
    rw [length_of_layout hlayout] at hJ
    have hcell := hM.buffers J hJ j
    rw [hbytes]
    dsimp only
    by_cases hobj : J = I
    · subst hobj
      rw [Bytes.store_cell, storeInt, hcell]
      simp only [true_and]
      split_ifs <;> first | rfl | omega
    · rw [Bytes.store_other _ _ _ _ fun h => hobj (HostObject.Memory.inj h), hcell,
        if_neg fun h => hobj (HostObject.Memory.inj h.1)]

theorem offset_bytes (hM : Represents M σ) : (byteHost (F := F)).offset M = σ.Manager.offset := by
  funext p d
  simp only [byteHost, MemoryManager.offset, hM.size, MemoryManager.allocated_eq]

/-- The functions of `Memory.ll` do on bytes what they do on the memory manager. -/
theorem memory_bytes (σ : HostState) :
    SameAccesses (fun m M => Represents M { σ with Manager := m }) memoryHost byteHost where
  offset hM := offset_bytes hM
  load hM hload := load_bytes hM (loads_of_loadTyped hload)
  store hM hstore := by
    obtain ⟨I, off, n, x, rfl, rfl, hbuffer⟩ := buffer_of_storeTyped hstore
    exact store_buffer hM hbuffer

theorem regOffset_eq (r : BitVec 5) : regOffset r = 4 * r.toNat := Nat.zero_add _

private theorem offset_eq_regOffset {off : Nat} (h : off < 128 ∧ off % 4 = 0) :
    off = regOffset (BitVec.ofNat 5 (off / 4)) := by
  rw [regOffset_eq, BitVec.toNat_ofNat]
  omega

private theorem register_apart (r : BitVec 5) {i : Nat} {s : Shape} (hi : getCPUStateType[i]? = some s) (hne : i ≠ 0) :
    regOffset r + 4 ≤ structOffset getCPUStateType i ∨ structOffset getCPUStateType i + s.size ≤ regOffset r := by
  have hr := r.isLt
  have hfield : getCPUStateType[0]? = some ((Shape.int 32).array 32) := rfl
  have harray : ((Shape.int 32).array 32).size = 4 * 32 := rfl
  have hreg : regOffset r = structOffset getCPUStateType 0 + 4 * r.toNat := rfl
  rcases struct_apart hfield hi (Ne.symm hne) with hbefore | hafter
  · exact .inl (by omega)
  · exact .inr (by omega)

private theorem setReg_bytes (hM : Represents M σ) (r : BitVec 5) (v : Option (BitVec 32)) :
    Represents (M.store .CPUState (regOffset r) v) (σ.setReg r v) := by
  constructor
  case size => exact hM.size
  case registers =>
    intro r'
    rw [Bytes.store_cell, HostState.setReg_Registers]
    by_cases hr : r' = r
    · subst hr
      rw [Function.update_self]
      exact storeInt_holds _ _ v
    · have hne : r'.toNat ≠ r.toNat := fun h => hr (BitVec.eq_of_toNat_eq h)
      rw [Function.update_of_ne hr]
      refine (hM.registers r').of_store ?_
      rw [regOffset_eq, regOffset_eq]
      omega
  case pc =>
    rw [Bytes.store_cell]
    exact hM.pc.of_store (register_apart r (i := 1) rfl (by decide))
  case manager =>
    rw [Bytes.store_cell]
    exact hM.manager.of_store (register_apart r (i := 2) rfl (by decide))
  case table => exact hM.table
  case count => exact hM.count
  case rows => exact hM.rows
  case buffers => exact hM.buffers

private theorem setPC_bytes (hM : Represents M σ) (v : Option (BitVec 32)) :
    Represents (M.store .CPUState (structOffset getCPUStateType 1) v) (σ.setPC v) := by
  constructor
  case size => exact hM.size
  case registers =>
    intro r
    rw [Bytes.store_cell]
    exact (hM.registers r).of_store (register_apart r (i := 1) rfl (by decide)).symm
  case pc =>
    rw [Bytes.store_cell]
    exact storeInt_holds _ _ v
  case manager =>
    rw [Bytes.store_cell]
    have hpc : getCPUStateType[1]? = some (Shape.int 32) := rfl
    have hmanager : getCPUStateType[2]? = some Shape.ptr := rfl
    exact hM.manager.of_store (struct_apart hpc hmanager (by decide))
  case table => exact hM.table
  case count => exact hM.count
  case rows => exact hM.rows
  case buffers => exact hM.buffers

private theorem load_cpu (hM : Represents M σ) {p : HostPtr} (hload : cpuHost.load σ ty p = .ok v) :
    (byteHost (F := F)).load M ty p = .ok v := by
  have hsize := congrFun hM.size .CPUState
  obtain ⟨o, off⟩ := p
  cases o with
  | CPUState =>
    cases ty with
    | int w =>
      simp only [cpuHost] at hload
      split at hload
      · rename_i hreg
        have hallows := allows_register hsize (BitVec.ofNat 5 (off / 4)) hreg.2.2
        have hholds := hM.registers (BitVec.ofNat 5 (off / 4))
        rw [← offset_eq_regOffset ⟨hreg.1, hreg.2.1⟩] at hallows hholds
        rw [load_int hallows, loadInt_of_holds hholds (by decide) hreg.2.2]
        exact hload
      · split at hload
        · rename_i hpc
          obtain ⟨rfl, rfl⟩ := hpc
          exact (load_word (allows_field getCPUStateType 1 hsize rfl) hM.pc).trans hload
        · cases hload
    | ptr =>
      simp only [cpuHost] at hload
      split at hload
      · rename_i hoff
        rw [hoff, ← Except.ok.inj hload]
        exact load_ptr (allows_field getCPUStateType 2 hsize rfl) hM.manager
      · cases hload
  | MemoryManager => exact load_bytes hM (loads_of_loadTyped hload)
  | SegmentData => exact load_bytes hM (loads_of_loadTyped hload)
  | Memory I => exact load_bytes hM (loads_of_loadTyped hload)

private theorem store_cpu (hM : Represents M σ) {p : HostPtr} {σ' : HostState} (hstore : cpuHost.store σ p v = .ok σ') :
    ∃ M', (byteHost (F := F)).store M p v = .ok M' ∧ Represents M' σ' := by
  have hsize := congrFun hM.size .CPUState
  obtain ⟨o, off⟩ := p
  simp only [cpuHost] at hstore
  split at hstore
  · rename_i x
    split at hstore
    · rename_i hreg
      have hallows := allows_register hsize (BitVec.ofNat 5 (off / 4)) (Nat.le_refl 32)
      have hbytes := setReg_bytes hM (BitVec.ofNat 5 (off / 4)) x
      rw [← offset_eq_regOffset hreg] at hallows hbytes
      exact ⟨_, if_pos hallows, Except.ok.inj hstore ▸ hbytes⟩
    · split at hstore
      · rename_i hpc
        subst hpc
        have hallows : allows M ⟨.CPUState, 128⟩ (.int 32) := allows_field getCPUStateType 1 hsize rfl
        exact ⟨_, if_pos hallows, Except.ok.inj hstore ▸ setPC_bytes hM x⟩
      · cases hstore
  · cases hstore
  · obtain ⟨m', hm, hrest⟩ := bind_eq_ok.mp hstore
    obtain ⟨I, off', n, x, hp, rfl, hbuffer⟩ := buffer_of_storeTyped hm
    rw [hp, ← Except.ok.inj hrest]
    exact store_buffer hM hbuffer

/-- Blocks do on bytes what they do on the state. -/
theorem block_bytes : SameAccesses (fun σ M => Represents M σ) cpuHost (byteHost (F := MemoryFunction)) where
  offset hM := offset_bytes hM
  load hM hload := load_cpu hM hload
  store hM hstore := store_cpu hM hstore

end Bytes

/-- The cells that belong to the host alone: the manager, the segment table and what follows `PC` in
`CPUState`. -/
def hostOnly : HostObject → Nat → Prop
  | .CPUState, k => structOffset getCPUStateType 1 + (Shape.int 32).size ≤ k
  | .MemoryManager, _ | .SegmentData, _ => True
  | .Memory _, _ => False

def Untouched (M M' : HostBytes) : Prop := ∀ o k, hostOnly o k → M'.cell o k = M.cell o k

section Untouched
variable {F : Type} {M₀ M M' : HostBytes} {p : HostPtr} {v : Val HostPtr}

private theorem Untouched.store (h : Untouched M₀ M) {w : Nat} {x : Option (BitVec w)}
    (hp : p.obj.isBuffer = true ∨ p.obj = .CPUState ∧ p.off + (w + 7) / 8 ≤ 132)
    (hstore : (byteHost (F := F)).store M p (.int w x) = .ok M') : Untouched M₀ M' := by
  have hM' : M' = M.store p.obj p.off x := by
    simp only [byteHost] at hstore
    split at hstore
    · exact (Except.ok.inj hstore).symm
    · cases hstore
  intro o k hk
  rw [← h o k hk, hM']
  by_cases ho : o = p.obj
  · subst ho
    rw [Bytes.store_cell]
    rcases hp with hbuffer | ⟨hcpu, hend⟩
    · cases hobj : p.obj <;> rw [hobj] at hbuffer hk
      case Memory => exact hk.elim
      all_goals cases hbuffer
    · rw [hcpu] at hk
      exact storeInt_other (.inr (hend.trans hk))
  · rw [Bytes.store_other _ _ _ _ ho]

private theorem buffer_untouched {m m' : MemoryManager} (h : Untouched M₀ M) (hm : m.storeTyped p v = .ok m')
    (hstore : (byteHost (F := F)).store M p v = .ok M') : Untouched M₀ M' := by
  obtain ⟨I, off, n, x, rfl, rfl, -⟩ := buffer_of_storeTyped hm
  exact h.store (.inl rfl) hstore

private theorem block_untouched {σ σ' : HostState} (h : Untouched M₀ M) (hσ : cpuHost.store σ p v = .ok σ')
    (hstore : (byteHost (F := F)).store M p v = .ok M') : Untouched M₀ M' := by
  obtain ⟨o, off⟩ := p
  simp only [cpuHost] at hσ
  split at hσ
  · refine h.store (.inr ⟨rfl, ?_⟩) hstore
    dsimp only
    split at hσ
    · omega
    · split at hσ
      · omega
      · cases hσ
  · cases hσ
  · obtain ⟨m', hm, -⟩ := bind_eq_ok.mp hσ
    exact buffer_untouched h hm hstore

end Untouched

/-- The functions of `Memory.ll` work on the same bytes as the blocks. -/
def byteLinkage : Linkage HostPtr MemoryFunction HostBytes HostBytes where
  func := MemoryLl.func
  host := byteHost
  get M := M
  set _ M := M

def linkedBytes (rounds : Nat) : Host HostPtr MemoryFunction HostBytes := byteHost.link byteLinkage rounds

/-- Linked blocks do on bytes what they do on the state, and leave the rest of the host alone. -/
theorem linked_bytes (M₀ : HostBytes) (rounds : Nat) :
    SameHost (fun σ M => Represents M σ ∧ Untouched M₀ M) (linkedHost rounds) (linkedBytes rounds) := by
  have hblock := block_bytes.keeping (Q := Untouched M₀) fun _ _ _ _ _ _ h hσ hstore => block_untouched h hσ hstore
  refine hblock.link rfl (fun σ M hM => ?_) rounds
  have hmemory := (memory_bytes σ).keeping (Q := Untouched M₀) fun _ _ _ _ _ _ h hm hstore =>
    buffer_untouched h hm hstore
  exact ⟨_, hmemory.sameHost, hM, fun m M h => h⟩

/-- The memory after a block. -/
def runBytes (rounds : Nat) (code : List (Inst MemoryFunction)) (M : HostBytes) : Except Fault HostBytes :=
  (exec (linkedBytes rounds) code ⟨blockEnv, M⟩).map (·.mem)

end DBTranslator.Riscv
