import DBTranslator.Riscv.Bytes
import DBTranslator.Riscv.Program

/-! The bytes of a state: every state has some, no others hold it too, and the blocks keep to them. -/
namespace DBTranslator.Riscv
open Lib Lib.Ssa Lib.ByteMemory Lib.LittleEndian Lib.StructLayout

/-- The bytes of a state, with poison for padding. -/
def HostState.cells (σ : HostState) : HostObject → Nat → Cell HostPtr
  | .CPUState, k =>
    if k < 128 then .byte ((σ.Registers (BitVec.ofNat 5 (k / 4))).map (byte · (k % 4)))
    else if k < 132 then .byte (σ.PC.map (byte · (k - 128)))
    else if k < 136 then .byte none
    else .part ⟨.MemoryManager, 0⟩ (k - 136)
  | .MemoryManager, k =>
    if k < 8 then .part ⟨.SegmentData, 0⟩ k
    else if k < 12 then .byte (some (byte σ.Manager.NumSegments (k - 8)))
    else .byte none
  | .SegmentData, k =>
    match σ.Manager.SegmentData[k / 16]? with
    | some Seg =>
      if k % 16 < 8 then .part ⟨.Memory (k / 16), 0⟩ (k % 16)
      else if k % 16 < 12 then .byte (some (byte Seg.MemorySize (k % 16 - 8)))
      else .byte (some (byte Seg.GuestAddress (k % 16 - 12)))
    | none => .byte none
  | .Memory I, k => .byte (some (σ.Manager.byteAt ⟨.Memory I, k⟩))

def HostState.bytes (σ : HostState) : HostBytes := ⟨σ.Manager.allocated, σ.cells⟩

private theorem row_cells {σ : HostState} {I k : Nat} {Seg : SegmentManager} (hI : σ.Manager.SegmentData[I]? = some Seg)
    (hk : k < 16) : σ.cells .SegmentData (16 * I + k) =
      if k < 8 then .part ⟨.Memory I, 0⟩ k
      else if k < 12 then .byte (some (byte Seg.MemorySize (k - 8)))
      else .byte (some (byte Seg.GuestAddress (k - 12))) := by
  have hdiv : (16 * I + k) / 16 = I := by omega
  have hmod : (16 * I + k) % 16 = k := by omega
  simp only [HostState.cells, hdiv, hmod, hI]

theorem HostState.bytes_represent (σ : HostState) : Represents σ.bytes σ := by
  constructor
  case size => rfl
  case registers =>
    intro r i hi
    have hr := r.isLt
    have hlt : 4 * r.toNat + i < 128 := by omega
    have hdiv : (4 * r.toNat + i) / 4 = r.toNat := by omega
    have hmod : (4 * r.toNat + i) % 4 = i := by omega
    rw [regOffset_eq]
    simp only [HostState.bytes, HostState.cells, if_pos hlt, hdiv, hmod, BitVec.ofNat_toNat, BitVec.setWidth_eq]
  case pc =>
    intro i hi
    change σ.cells .CPUState (128 + i) = _
    rw [HostState.cells, if_neg (by omega), if_pos (by omega), Nat.add_sub_cancel_left]
  case manager =>
    intro i hi
    change σ.cells .CPUState (136 + i) = _
    rw [HostState.cells, if_neg (by omega), if_neg (by omega), if_neg (by omega), Nat.add_sub_cancel_left]
  case table =>
    intro i hi
    change σ.cells .MemoryManager (0 + i) = _
    rw [Nat.zero_add, HostState.cells, if_pos hi]
  case count =>
    intro i hi
    change σ.cells .MemoryManager (8 + i) = _
    rw [HostState.cells, if_neg (by omega), if_pos (by omega), Nat.add_sub_cancel_left]
    rfl
  case rows =>
    intro I Seg hI
    constructor
    case memory =>
      intro i hi
      change σ.cells .SegmentData (16 * I + 0 + i) = _
      rw [Nat.add_zero, row_cells hI (by omega), if_pos hi]
    case size =>
      intro i hi
      change σ.cells .SegmentData (16 * I + 8 + i) = _
      rw [Nat.add_assoc, row_cells hI (by omega), if_neg (by omega), if_pos (by omega), Nat.add_sub_cancel_left]
      rfl
    case guest =>
      intro i hi
      change σ.cells .SegmentData (16 * I + 12 + i) = _
      rw [Nat.add_assoc, row_cells hI (by omega), if_neg (by omega), if_neg (by omega), Nat.add_sub_cancel_left]
      rfl
  case buffers =>
    intro I hI j
    rfl

section Unique
variable {M : HostBytes} {σ σ' : HostState}

private theorem segment_ext {Seg Seg' : SegmentManager} (hsize : Seg.MemorySize = Seg'.MemorySize)
    (hguest : Seg.GuestAddress = Seg'.GuestAddress) (hbytes : ∀ j, Seg.byteAt j = Seg'.byteAt j) : Seg = Seg' := by
  obtain ⟨size, guest, memory⟩ := Seg
  obtain ⟨size', guest', memory'⟩ := Seg'
  obtain rfl : size = size' := hsize
  obtain rfl : guest = guest' := hguest
  have hmemory : memory = memory' := by
    apply Vector.ext
    intro j hj
    have hbyte := hbytes j
    simpa only [SegmentManager.byteAt, Vector.getElem?_eq_getElem hj, Option.getD_some] using hbyte
  rw [hmemory]

private theorem manager_ext {m m' : MemoryManager} (hrows : m.SegmentData = m'.SegmentData)
    (hcount : m.NumSegments = m'.NumSegments) : m = m' := by
  obtain ⟨rows, count, counted⟩ := m
  obtain ⟨rows', count', counted'⟩ := m'
  obtain rfl : rows = rows' := hrows
  obtain rfl : count = count' := hcount
  rfl

/-- Bytes hold one state. -/
theorem Represents.unique (h : Represents M σ) (h' : Represents M σ') : σ = σ' := by
  have hcount : σ.Manager.NumSegments = σ'.Manager.NumSegments := Option.some.inj (h.count.unique h'.count (by decide))
  have hlen : σ.Manager.SegmentData.length = σ'.Manager.SegmentData.length := by
    rw [σ.Manager.counted, σ'.Manager.counted, hcount]
  have hrows : σ.Manager.SegmentData = σ'.Manager.SegmentData := by
    apply List.ext_getElem hlen
    intro I hI hI'
    have hrow := h.rows I _ (List.getElem?_eq_getElem hI)
    have hrow' := h'.rows I _ (List.getElem?_eq_getElem hI')
    refine segment_ext (Option.some.inj (hrow.size.unique hrow'.size (by decide)))
      (Option.some.inj (hrow.guest.unique hrow'.guest (by decide))) fun j => ?_
    have hbyte := (h.buffers I hI j).symm.trans (h'.buffers I hI' j)
    simpa [MemoryManager.byteAt, MemoryManager.segment?, hI, hI'] using hbyte
  obtain ⟨regs, pc, m⟩ := σ
  obtain ⟨regs', pc', m'⟩ := σ'
  obtain rfl : m = m' := manager_ext hrows hcount
  obtain rfl : pc = pc' := h.pc.unique h'.pc (by decide)
  obtain rfl : regs = regs' := funext fun r => (h.registers r).unique (h'.registers r) (by decide)
  rfl

end Unique

/-- The bytes of a state hold it, padding aside, and whatever bytes hold it hold no other. -/
theorem bytes_hold_state (M : HostBytes) (σ σ' : HostState) (hM : Represents M σ) :
    Represents σ'.bytes σ' ∧ (Represents M σ' ↔ σ' = σ) := by
  refine ⟨σ'.bytes_represent, fun h => h.unique hM, ?_⟩
  rintro rfl
  exact hM

theorem untouched_self (M : HostBytes) : Untouched M M := fun _ _ _ => rfl

/-- Code that runs to its end on the state and the memory functions does so on any bytes that hold the state,
linked with `Memory.ll` on the same bytes. They hold the state after it, and nothing else has changed. -/
theorem code_on_bytes (code : List (Inst MemoryFunction)) (σ : HostState) (fr : Frame HostPtr HostState)
    (hrun : exec cpuHost code ⟨blockEnv, σ⟩ = .ok fr) (M : HostBytes) (hM : Represents M σ) :
    ∃ M', Represents M' fr.mem ∧ Untouched M M' ∧ (∃ n, ∀ rounds, n ≤ rounds → runBytes rounds code M = .ok M') ∧
      ∀ rounds M'', runBytes rounds code M = .ok M'' → M'' = M' := by
  have hstart : Represents M σ ∧ Untouched M M := ⟨hM, untouched_self M⟩
  obtain ⟨n, hn⟩ := exec_link memory_implements hrun
  obtain ⟨M', hbytes, hM', huntouched⟩ := (linked_bytes M n).exec_same hstart (hn n (Nat.le_refl n))
  refine ⟨M', hM', huntouched, ⟨n, fun rounds hle => ?_⟩, fun rounds M'' hM'' => ?_⟩
  · obtain ⟨M₁, hlater, -⟩ := (linked_bytes M rounds).exec_same hstart (hn rounds hle)
    rw [runBytes, hlater, ok_map, ← exec_link_unique hbytes hlater]
  · obtain ⟨fr', hfr', rfl⟩ := map_eq_ok.mp hM''
    rw [exec_link_unique hfr' hbytes]

/-- What compiled code may do to the bytes of the state. -/
def CompilesBytes (call : List (Inst MemoryFunction) → CPUState → CPUState → Prop) : Prop :=
  ∀ (code : List (Inst MemoryFunction)) s s' rounds M, runBytes rounds code s.host.bytes = .ok M →
    call code s s' → ∃ M', M.Concretises M' ∧ Represents M' s'.host

private theorem bytes_of_linked {code : List (Inst MemoryFunction)} {s : CPUState} {fr : Frame HostPtr HostState}
    {rounds : Nat} (hrun : exec (linkedHost rounds) code ⟨blockEnv, s.host⟩ = .ok fr) :
    ∃ M, runBytes rounds code s.host.bytes = .ok M ∧ Represents M fr.mem := by
  obtain ⟨M, hbytes, hM, -⟩ :=
    (linked_bytes s.host.bytes rounds).exec_same ⟨s.host.bytes_represent, untouched_self _⟩ hrun
  exact ⟨M, map_eq_ok.mpr ⟨_, hbytes, rfl⟩, hM⟩

/-- Only registers and `PC` can be poison. -/
private theorem represents_of_concretises {M M' : HostBytes} {σ : HostState} (hM : Represents M σ)
    (hconc : M.Concretises M') {regs : BitVec 5 → Option (BitVec 32)} {pc : Option (BitVec 32)}
    (hregs : ∀ r, Holds (M'.cell .CPUState) (regOffset r) (regs r))
    (hpc : Holds (M'.cell .CPUState) (structOffset getCPUStateType 1) pc) : Represents M' ⟨regs, pc, σ.Manager⟩ := by
  constructor
  case size => exact hconc.1.trans hM.size
  case registers => exact hregs
  case pc => exact hpc
  case manager => exact hM.manager.of_concretises hconc
  case table => exact hM.table.of_concretises hconc
  case count => exact hM.count.of_concretises hconc
  case rows =>
    intro I Seg hI
    have hrow := hM.rows I Seg hI
    exact ⟨hrow.memory.of_concretises hconc, hrow.size.of_concretises hconc, hrow.guest.of_concretises hconc⟩
  case buffers =>
    intro I hI j
    exact hconc.cell_eq (hM.buffers I hI j) (by simp)

private theorem concretises_of_bytes {M M' : HostBytes} {σ : HostState} {s : CPUState} (hM : Represents M σ)
    (hconc : M.Concretises M') (hM' : Represents M' s.host) : σ.Concretises s := by
  have hmanager := represents_of_concretises hM hconc hM'.registers hM'.pc
  refine ⟨fun r v hv => ?_, fun v hv => ?_, congrArg HostState.Manager (hM'.unique hmanager)⟩
  · have hreg := hM.registers r
    rw [hv] at hreg
    exact Option.some.inj ((hM'.registers r).unique (hreg.of_concretises hconc) (by decide))
  · have hpc := hM.pc
    rw [hv] at hpc
    exact Option.some.inj (hM'.pc.unique (hpc.of_concretises hconc) (by decide))

/-- A compiler that is right about bytes is right about the states that they hold. -/
theorem compiles_of_bytes (call : List (Inst MemoryFunction) → CPUState → CPUState → Prop)
    (hcall : CompilesBytes call) : CompilesLinked call ∧ Compiles call := by
  have hlinked : CompilesLinked call := by
    intro code s s' fr rounds hrun hcalled
    obtain ⟨M, hbytes, hM⟩ := bytes_of_linked hrun
    obtain ⟨M', hconc, hM'⟩ := hcall code s s' rounds M hbytes hcalled
    exact concretises_of_bytes hM hconc hM'
  exact ⟨hlinked, hlinked.compiles⟩

/-- A compiler that emits an interpreter of code on bytes. -/
def interpretBytes (code : List (Inst MemoryFunction)) (s s' : CPUState) : Prop :=
  ∃ rounds M M', runBytes rounds code s.host.bytes = .ok M ∧ M.Concretises M' ∧ Represents M' s'.host

theorem interpretBytes_compiles : CompilesBytes interpretBytes := by
  rintro code s s' rounds M hM ⟨rounds', M₁, M', hM₁, hconc, hM'⟩
  obtain ⟨fr, hfr, rfl⟩ := map_eq_ok.mp hM
  obtain ⟨fr', hfr', rfl⟩ := map_eq_ok.mp hM₁
  rw [exec_link_unique hfr hfr']
  exact ⟨M', hconc, hM'⟩

/-- Bytes whose poison comes out as in a C++ state. -/
private def settle (M : HostBytes) (s : CPUState) : HostBytes :=
  ⟨M.size, fun o k => if M.cell o k = .byte none then s.host.bytes.cell o k else M.cell o k⟩

section Settle
variable {M : HostBytes} {σ : HostState} {s : CPUState}

private theorem settle_concretises (M : HostBytes) (s : CPUState) : M.Concretises (settle M s) :=
  ⟨rfl, fun _ _ hne => if_neg hne⟩

private theorem settle_holds {o : HostObject} {off : Nat} {v : Option (BitVec 32)} {x : BitVec 32}
    (h : Holds (M.cell o) off v) (hx : ∀ y ∈ v, x = y) (hs : Holds (s.host.bytes.cell o) off (some x)) :
    Holds ((settle M s).cell o) off (some x) := by
  cases v with
  | some y =>
    obtain rfl : x = y := hx y rfl
    exact h.of_concretises (settle_concretises M s)
  | none =>
    intro i hi
    exact (if_pos (h i hi)).trans (hs i hi)

private theorem settle_represents (hM : Represents M σ) (hs : σ.Concretises s) : Represents (settle M s) s.host := by
  obtain ⟨hregs, hpc, hmanager⟩ := hs
  have hbytes := s.host.bytes_represent
  have hstate : s.host = ⟨s.host.Registers, s.host.PC, σ.Manager⟩ := by
    rw [← hmanager]
    rfl
  rw [hstate]
  exact represents_of_concretises hM (settle_concretises M s)
    (fun r => settle_holds (hM.registers r) (hregs r) (hbytes.registers r)) (settle_holds hM.pc hpc hbytes.pc)

end Settle

/-- It has a state to leave wherever the linked code has. -/
theorem interpretBytes_calls : CallsLinked interpretBytes := by
  intro code s fr rounds hrun
  obtain ⟨M, hbytes, hM⟩ := bytes_of_linked hrun
  obtain ⟨s', hs'⟩ := fr.mem.exists_concretises
  exact ⟨s', rounds, M, settle M s', hbytes, settle_concretises M s', settle_represents hM hs'⟩

section Example

/-- `sw x1, 4(x0)` at address 0, in a segment of eight bytes. -/
private def storing : CPUState :=
  ⟨Function.update (fun _ => 0) 1 0x12345678, 0, ⟨[⟨8, 0, Vector.ofFn ![0x23, 0x22, 0x10, 0, 0, 0, 0, 0]⟩], 1, rfl⟩⟩

/-- The bytes of a state do not hold one with another `x5`. -/
theorem bytes_hold_state_storing : ¬ Represents storing.host.bytes (storing.host.setReg 5 (some 1)) := by
  intro h
  have heq := (bytes_hold_state _ _ _ storing.host.bytes_represent).2.mp h
  have hreg := congrArg (fun σ : HostState => σ.Registers 5) heq
  revert hreg
  decide

/-- The store leaves the bytes of its word in the buffer, the lowest first. -/
theorem code_on_bytes_storing : ∃ n M, runBytes n (Block.code ⟨0, [0x00102223#32]⟩) storing.host.bytes = .ok M ∧
    M.cell (.Memory 0) 4 = .byte (some 0x78) ∧ M.cell (.Memory 0) 7 = .byte (some 0x12) := by
  obtain ⟨σ', hrun, hlen, hfirst, hlast⟩ : ∃ σ', runIr (generateAll [0x00102223#32]) storing.host = .ok σ' ∧
      σ'.Manager.SegmentData.length = 1 ∧ σ'.Manager.byteAt ⟨.Memory 0, 4⟩ = 0x78 ∧
        σ'.Manager.byteAt ⟨.Memory 0, 7⟩ = 0x12 := by
    simp only [runIr_generateAll]
    exact ⟨_, rfl, rfl, rfl, rfl⟩
  obtain ⟨fr, hfr, rfl⟩ := map_eq_ok.mp hrun
  obtain ⟨M, hM, -, ⟨n, hn⟩, -⟩ := code_on_bytes _ storing.host fr hfr _ storing.host.bytes_represent
  refine ⟨n, M, hn n (Nat.le_refl n), ?_, ?_⟩
  · rw [hM.buffers 0 (by omega), hfirst]
  · rw [hM.buffers 0 (by omega), hlast]

/-- The interpreter of bytes is such a compiler, and it has a state to leave wherever the contracts say
something. -/
theorem compiles_of_bytes_interpret :
    (CompilesLinked interpretBytes ∧ Compiles interpretBytes) ∧ CallsLinked interpretBytes :=
  ⟨compiles_of_bytes interpretBytes interpretBytes_compiles, interpretBytes_calls⟩

end Example

end DBTranslator.Riscv
