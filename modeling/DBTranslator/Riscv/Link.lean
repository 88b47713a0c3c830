import DBTranslator.Lib.SsaLink
import DBTranslator.Riscv.Dispatch
import DBTranslator.Riscv.MemoryLl

/-! Blocks linked with the functions of `Memory.ll`, as the JIT runs them, do what the blocks do on the
host whose memory functions are those of `Memory.cpp`. -/
namespace DBTranslator.Riscv
open Lib Lib.Ssa Lib.CodeCache

/-- The functions of `Memory.ll` work on the manager that a state points to. -/
def memoryLinkage : Linkage HostPtr MemoryFunction HostState MemoryManager where
  func := MemoryLl.func
  host := memoryHost
  get := HostState.Manager
  set σ m := { σ with Manager := m }

/-- The host of blocks with the module of `Memory.ll` added to the JIT. -/
def linkedHost (rounds : Nat) : Host HostPtr MemoryFunction HostState := cpuHost.link memoryLinkage rounds

/-- Only a call with the manager, an address and a word of the width of the function succeeds. -/
theorem MemoryFunction.args_of_call {m : MemoryManager} {f : MemoryFunction} {args : List (Val HostPtr)}
    {x : MemoryManager × Option (Val HostPtr)} (h : f.call m args = .ok x) :
    ∃ Addr Data, args = MemoryLl.callArgs Addr f Data := by
  unfold MemoryFunction.call at h
  split at h
  · exact ⟨_, 0, rfl⟩
  · split at h
    · rename_i hn
      subst hn
      exact ⟨_, _, rfl⟩
    · cases h
  · cases h

theorem memory_implements : memoryLinkage.Implements cpuHost := by
  intro σ f args x hx
  obtain ⟨⟨m, v⟩, hcall, rfl⟩ : ∃ y, f.call σ.Manager args = .ok y ∧ x = ({ σ with Manager := y.1 }, y.2) := by
    obtain ⟨y, hy, hrest⟩ := bind_eq_ok.mp hx
    exact ⟨y, hy, (Except.ok.inj hrest).symm⟩
  obtain ⟨Addr, Data, rfl⟩ := MemoryFunction.args_of_call hcall
  cases hp : mapAddress σ.Manager Addr with
  | none =>
    rw [f.call_unmapped Data hp] at hcall
    cases hcall
  | some p =>
    have hreturns : (memoryLinkage.func f).Returns memoryLinkage.host (MemoryLl.callArgs Addr f Data)
        (memoryLinkage.get σ) (.ok (m, v)) := by
      rw [← hcall]
      exact MemoryLl.call_returns hp f Data
    exact Linkage.call_of_returns hreturns

/-- What compiled code may do when its calls run the code of `Memory.ll`. -/
def CompilesLinked (call : List (Inst MemoryFunction) → CPUState → CPUState → Prop) : Prop :=
  ∀ (code : List (Inst MemoryFunction)) s s' fr rounds, exec (linkedHost rounds) code ⟨blockEnv, s.host⟩ = .ok fr →
    call code s s' → fr.mem.Concretises s'

/-- Code that runs to its end in the model of the blocks does so with the functions of `Memory.ll`, and a
compiler that is right about the linked code is right in that model. -/
theorem linked_code (code : List (Inst MemoryFunction)) (σ : HostState) (fr : Frame HostPtr HostState)
    (hrun : exec cpuHost code ⟨blockEnv, σ⟩ = .ok fr) :
    (∃ n, ∀ rounds, n ≤ rounds → exec (linkedHost rounds) code ⟨blockEnv, σ⟩ = .ok fr) ∧
    ∀ rounds fr', exec (linkedHost rounds) code ⟨blockEnv, σ⟩ = .ok fr' → fr' = fr := by
  obtain ⟨n, hn⟩ := exec_link memory_implements hrun
  exact ⟨⟨n, hn⟩, fun rounds fr' hfr' => exec_link_unique hfr' (hn n (Nat.le_refl n))⟩

theorem CompilesLinked.compiles {call : List (Inst MemoryFunction) → CPUState → CPUState → Prop}
    (h : CompilesLinked call) : Compiles call := by
  intro code s s' fr hrun hcalled
  obtain ⟨n, hn⟩ := exec_link memory_implements hrun
  exact h code s s' fr n (hn n (Nat.le_refl n)) hcalled

/-- A compiler that emits an interpreter of the linked code. -/
def interpretLinked (code : List (Inst MemoryFunction)) (s s' : CPUState) : Prop :=
  ∃ rounds fr, exec (linkedHost rounds) code ⟨blockEnv, s.host⟩ = .ok fr ∧ fr.mem.Concretises s'

theorem interpretLinked_compiles : CompilesLinked interpretLinked := by
  rintro code s s' fr rounds hfr ⟨rounds', fr', hfr', hconc⟩
  obtain rfl : fr = fr' := exec_link_unique hfr hfr'
  exact hconc

section Example

/-- `lw x1, 8(x0)` at address 0 and the word that it loads. -/
private def loading : CPUState :=
  ⟨fun _ => 0, 0, ⟨[⟨12, 0, Vector.ofFn ![0x83, 0x20, 0x80, 0, 0, 0, 0, 0, 0x78, 0x56, 0x34, 0x12]⟩], 1, rfl⟩⟩

/-- The load runs the loop of `read32` to the word. -/
theorem linked_code_loading : ∃ rounds fr,
    exec (linkedHost rounds) (Block.code ⟨0, [0x00802083#32]⟩) ⟨blockEnv, loading.host⟩ = .ok fr ∧
      fr.mem.Registers 1 = some 0x12345678#32 := by
  obtain ⟨σ', hrun, hword⟩ : ∃ σ', runIr (generateAll [0x00802083#32]) loading.host = .ok σ' ∧
      σ'.Registers 1 = some 0x12345678#32 := by
    simp only [runIr_generateAll]
    exact ⟨_, rfl, rfl⟩
  obtain ⟨fr, hfr, rfl⟩ := map_eq_ok.mp hrun
  obtain ⟨n, hn⟩ := (linked_code _ loading.host fr hfr).1
  exact ⟨n, fr, hn n (Nat.le_refl n), hword⟩

end Example

end DBTranslator.Riscv
