import DBTranslator.Riscv.Translator

/-! Blocks on hosts that check the calls of memory functions, and the host that checks the alignment which
`Memory.ll` promises for the accesses of these functions. -/
namespace DBTranslator.Riscv
open Lib Lib.Ssa

section Checked
variable (check : CallCheck)

/-- The effect of a word after the check of its call. -/
def checkedEffect (k : Instr) (w : BitVec 32) (σ : HostState) : Except Fault HostState :=
  checkCall check k w σ >>= fun _ => effect k w σ

def checkedAll : List (BitVec 32) → HostState → Except Fault HostState
  | [], σ => .ok σ
  | w :: ws, σ => checkedEffect check (decode w) w σ >>= checkedAll ws

def runChecked (b : IRBuilder Unit) (σ : HostState) : Except Fault HostState :=
  (exec (cpuHost.guard check) (b.code 1) ⟨blockEnv, σ⟩).map Frame.mem

theorem runChecked_generateAll (ws : List (BitVec 32)) (σ : HostState) :
    runChecked check (generateAll ws) σ = checkedAll check ws σ := by
  have hsimulates : Builder.Simulates (cpuHost.guard check) cpuArg (generateAll ws) (checkedAll check ws) := by
    induction ws with
    | nil => exact Builder.Simulates.nil
    | cons w ws ih => exact Builder.Simulates.seq (generate_guarded check (decode w) w) ih
  exact hsimulates.exec_mem Nat.zero_lt_one rfl σ

/-- What compiled code may do to the state when it is right about the code that is defined on a host with
the check. -/
def CompilesOn (call : List (Inst MemoryFunction) → CPUState → CPUState → Prop) : Prop :=
  ∀ (code : List (Inst MemoryFunction)) s s' fr, exec (cpuHost.guard check) code ⟨blockEnv, s.host⟩ = .ok fr →
    call code s s' → fr.mem.Concretises s'

/-- Some state can be left by a call of any code that is defined on it. -/
def CallsOn (call : List (Inst MemoryFunction) → CPUState → CPUState → Prop) : Prop :=
  ∀ (code : List (Inst MemoryFunction)) s fr, exec (cpuHost.guard check) code ⟨blockEnv, s.host⟩ = .ok fr →
    ∃ s', call code s s'

/-- A compiler that is right about all code of `cpuHost` is right about what a check leaves of it. -/
theorem Compiles.on {call : List (Inst MemoryFunction) → CPUState → CPUState → Prop} (hcall : Compiles call) :
    CompilesOn check call := fun code s s' fr hfr => hcall code s s' fr (exec_of_guard _ _ hfr)

/-- The block runs to its end on the host with the check. -/
def Dispatcher.faultlessOn (d : Dispatcher) (b : Block) : Prop :=
  ∃ fr, exec (cpuHost.guard check) b.code ⟨blockEnv, d.State.host⟩ = .ok fr

end Checked

/-- What an address maps to, when that is no multiple of the width. The bases of the buffers are aligned for
every width. -/
def misaligned? (m : MemoryManager) (width : Width) (Addr : BitVec 32) : Option HostPtr :=
  (mapAddress m Addr).filter fun p => p.off % width.bytes != 0

/-- The check of an access; one to a poison address does not come to pass. -/
def accessCheck (m : MemoryManager) (width : Width) (a : Option (BitVec 32)) : Except Fault Unit :=
  match a.bind (misaligned? m width) with
  | some p => .error (.misaligned p width.bytes)
  | none => .ok ()

/-- The address of a call is aligned on the host. -/
def alignment : CallCheck := fun σ f args =>
  match f, args with
  | .read width, [_, .int 32 a] => accessCheck σ.Manager width a
  | .write width, [_, .int 32 a, .int _ (some _)] => accessCheck σ.Manager width a
  | _, _ => .ok ()

def alignedHost : Host HostPtr MemoryFunction HostState := cpuHost.guard alignment

/-- The access to an address is aligned in the buffer that has it. -/
def HostAligned (m : MemoryManager) (Addr : BitVec 32) (n : Nat) : Prop :=
  ∀ p, mapAddress m Addr = some p → p.off % n = 0

section Aligned
variable {m : MemoryManager} {width : Width} {Addr : BitVec 32} {p : HostPtr} {k : Instr} {w : BitVec 32}
  {σ : HostState} {f : Fault}

theorem misaligned?_eq_some_iff : misaligned? m width Addr = some p ↔ mapAddress m Addr = some p ∧
    p.off % width.bytes ≠ 0 := by
  rw [misaligned?, Option.filter_eq_some_iff, bne_iff_ne]

theorem misaligned?_eq_none_iff : misaligned? m width Addr = none ↔ HostAligned m Addr width.bytes := by
  rw [misaligned?, Option.filter_eq_none_iff]
  simp only [bne_iff_ne, ne_eq, not_not, HostAligned]

/-- The data access of a word in a state: its width and its address, poison when a register that the
access needs is. -/
def HostState.access (σ : HostState) (w : BitVec 32) : Instr → Option (Width × Option (BitVec 32))
  | .LB | .LBU => some (.byte, loadAddress)
  | .LH | .LHU => some (.half, loadAddress)
  | .LW => some (.word, loadAddress)
  | .SB => some (.byte, storeAddress)
  | .SH => some (.half, storeAddress)
  | .SW => some (.word, storeAddress)
  | _ => none
where
  loadAddress := (σ.rs1 w).map (· + immediate w)
  storeAddress := (σ.rs2 w).bind fun _ => (σ.rs1 w).map (· + storeOffset w)

/-- The check of the call of a word is that of its access. -/
theorem checkCall_alignment (k : Instr) (w : BitVec 32) (σ : HostState) : checkCall alignment k w σ =
    match σ.access w k with
    | some (width, a) => accessCheck σ.Manager width a
    | none => .ok () := by
  have hstore (width : Width) : alignment σ (.write width) [.ptr (some ⟨.MemoryManager, 0⟩),
      .int 32 ((σ.rs1 w).map (· + storeOffset w)),
      .int (8 * width.bytes) ((σ.rs2 w).map (·.setWidth (8 * width.bytes)))] =
        accessCheck σ.Manager width (HostState.access.storeAddress σ w) := by
    rw [HostState.access.storeAddress]
    cases σ.rs2 w <;> rfl
  cases k
  case SB => exact hstore .byte
  case SH => exact hstore .half
  case SW => exact hstore .word
  all_goals rfl

theorem accessCheck_eq_ok_iff {a : Option (BitVec 32)} : accessCheck m width a = .ok () ↔
    ∀ Addr ∈ a, HostAligned m Addr width.bytes := by
  rw [accessCheck]
  cases a with
  | none => simp
  | some Addr =>
    rw [Option.bind_some]
    simp only [Option.mem_def, Option.some.injEq, forall_eq', ← misaligned?_eq_none_iff]
    cases misaligned? m width Addr <;> simp

theorem accessCheck_eq_error_iff {a : Option (BitVec 32)} : accessCheck m width a = .error f ↔
    ∃ Addr p, a = some Addr ∧ mapAddress m Addr = some p ∧ p.off % width.bytes ≠ 0 ∧ f = .misaligned p width.bytes := by
  rw [accessCheck]
  cases a with
  | none => simp
  | some Addr =>
    rw [Option.bind_some]
    cases hp : misaligned? m width Addr with
    | none =>
      have haligned := misaligned?_eq_none_iff.mp hp
      constructor
      · rintro ⟨⟩
      · rintro ⟨_, p, ⟨⟩, hmap, hoff, -⟩
        exact absurd (haligned p hmap) hoff
    | some p =>
      obtain ⟨hmap, hoff⟩ := misaligned?_eq_some_iff.mp hp
      constructor
      · intro h
        exact ⟨Addr, p, rfl, hmap, hoff, (Except.error.inj h).symm⟩
      · rintro ⟨_, p', ⟨⟩, hmap', -, rfl⟩
        rw [Option.some.inj (hmap.symm.trans hmap')]

end Aligned

end DBTranslator.Riscv
