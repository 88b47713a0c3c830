import DBTranslator.Riscv.Decode
import DBTranslator.Riscv.Effect

/-! The block builder and the dispatcher loop of `Main.cpp`. -/
namespace DBTranslator.Riscv
open Lib Lib.Ssa

/-- The instructions that end a block. -/
def isTerminator : Instr → Bool
  | .BEQ | .BNE | .BLT | .BGE | .BLTU | .BGEU | .JAL | .JALR => true
  | _ => false

private theorem kind_of_straight {k : Instr} (hterm : isTerminator k = false)
    (hidle : ¬ (k = .UNKNOWN ∨ k = .ECALL)) :
    k.kind = .advance ∨ k.kind = .write ∨ k.kind = .store := by
  cases k <;> simp_all [isTerminator, Instr.kind]

/-- A word that is no terminator and does not leave `PC` alone moves it to the next word. -/
theorem effect_PC {k : Instr} {w : BitVec 32} {σ σ' : HostState} (h : effect k w σ = .ok σ')
    (hterm : isTerminator k = false) (hidle : ¬ (k = .UNKNOWN ∨ k = .ECALL)) :
    σ'.PC = σ.PC.map (· + 4#32) := by
  have hout := effect_outcome h
  rcases kind_of_straight hterm hidle with hk | hk | hk
  · rw [hk] at hout
    obtain rfl : σ' = σ.advance := hout
    rfl
  · rw [hk] at hout
    obtain ⟨v, rfl⟩ := hout
    rfl
  · rw [hk] at hout
    obtain ⟨m, rfl⟩ := hout
    rfl

/-- The words that the loop of `generateFunc` fetches in at most the given number of rounds. -/
def fetchLoop (Manager : MemoryManager) : Nat → BitVec 32 → Except Fault (List (BitVec 32))
  | 0, _ => .ok []
  | rounds + 1, TempPC => do
    let InstructionData ← read32 Manager TempPC
    if isTerminator (decode InstructionData) then
      return [InstructionData]
    else
      return InstructionData :: (← fetchLoop Manager rounds (TempPC + 4#32))

/-- The calls of `generate` in that loop, in fetch order. -/
def generateAll : List (BitVec 32) → IRBuilder Unit
  | [] => pure ()
  | w :: ws => do
    generate (decode w) w
    generateAll ws

/-- The address of word `k` of a block: `TempPC` after `k` rounds. -/
def wordAddr (start : BitVec 32) (k : Nat) : BitVec 32 := start + BitVec.ofNat 32 (4 * k)

@[simp] theorem wordAddr_zero (start : BitVec 32) : wordAddr start 0 = start := by
  rw [wordAddr, Nat.mul_zero, BitVec.add_zero]

theorem wordAddr_succ (start : BitVec 32) (k : Nat) :
    wordAddr start (k + 1) = wordAddr start k + 4#32 := by
  rw [wordAddr, wordAddr, Nat.mul_succ, BitVec.ofNat_add, BitVec.add_assoc]

theorem wordAddr_next (start : BitVec 32) (k : Nat) :
    wordAddr (start + 4#32) k = wordAddr start (k + 1) := by
  rw [wordAddr_succ, wordAddr, wordAddr, BitVec.add_assoc, BitVec.add_assoc, BitVec.add_comm 4#32]

section Fetch
variable {Manager : MemoryManager} {rounds : Nat} {start : BitVec 32} {ws : List (BitVec 32)}

private theorem fetchLoop_cases {w : BitVec 32}
    (h : fetchLoop Manager (rounds + 1) start = .ok (w :: ws)) :
    read32 Manager start = .ok w ∧ (isTerminator (decode w) = true ∧ ws = [] ∨
      isTerminator (decode w) = false ∧ fetchLoop Manager rounds (start + 4#32) = .ok ws) := by
  rw [fetchLoop] at h
  obtain ⟨v, hread, hrest⟩ := bind_eq_ok.mp h
  cases hterm : isTerminator (decode v) with
  | true =>
    rw [if_pos hterm] at hrest
    obtain ⟨rfl, rfl⟩ := List.cons.inj (Except.ok.inj hrest)
    exact ⟨hread, .inl ⟨hterm, rfl⟩⟩
  | false =>
    rw [if_neg (by rw [hterm]; exact Bool.false_ne_true)] at hrest
    obtain ⟨vs, hvs, hrest⟩ := bind_eq_ok.mp hrest
    obtain ⟨rfl, rfl⟩ := List.cons.inj (Except.ok.inj hrest)
    exact ⟨hread, .inr ⟨hterm, hvs⟩⟩

/-- The words of a block are those in memory from its start on. -/
theorem fetchLoop_read (h : fetchLoop Manager rounds start = .ok ws) {k : Nat} {w : BitVec 32}
    (hk : ws[k]? = some w) : read32 Manager (wordAddr start k) = .ok w := by
  induction ws generalizing rounds start k with
  | nil => cases hk
  | cons v ws ih =>
    cases rounds with
    | zero => cases h
    | succ rounds =>
      obtain ⟨hread, hrest⟩ := fetchLoop_cases h
      cases k with
      | zero =>
        obtain rfl : v = w := by simpa using hk
        rwa [wordAddr_zero]
      | succ k =>
        rcases hrest with ⟨-, rfl⟩ | ⟨-, hrest⟩
        · cases hk
        · rw [← wordAddr_next]
          exact ih hrest hk

/-- Only the last word of a block can be a terminator. -/
theorem fetchLoop_terminator (h : fetchLoop Manager rounds start = .ok ws) {k : Nat}
    {w : BitVec 32} (hk : ws[k]? = some w) (hlast : k + 1 < ws.length) :
    isTerminator (decode w) = false := by
  induction ws generalizing rounds start k with
  | nil => cases hk
  | cons v ws ih =>
    cases rounds with
    | zero => cases h
    | succ rounds =>
      obtain ⟨-, hrest⟩ := fetchLoop_cases h
      rcases hrest with ⟨-, rfl⟩ | ⟨hterm, hrest⟩
      · exact absurd hlast (Nat.not_lt.mpr (Nat.succ_le_succ (Nat.zero_le k)))
      · cases k with
        | zero =>
          obtain rfl : v = w := by simpa using hk
          exact hterm
        | succ k => exact ih hrest hk (Nat.lt_of_succ_lt_succ hlast)

end Fetch

section Execution

/-- The effects of words one after another. -/
def effectAll : List (BitVec 32) → HostState → Except Fault HostState
  | [], σ => .ok σ
  | w :: ws, σ => effect (decode w) w σ >>= effectAll ws

theorem generateAll_simulates (ws : List (BitVec 32)) :
    Builder.Simulates cpuHost cpuArg (generateAll ws) (effectAll ws) := by
  induction ws with
  | nil => exact Builder.Simulates.nil
  | cons w ws ih => exact Builder.Simulates.seq (generate_simulates (decode w) w) ih

theorem runIr_generateAll (ws : List (BitVec 32)) (σ : HostState) :
    runIr (generateAll ws) σ = effectAll ws σ := runIr_of_simulates (generateAll_simulates ws) σ

/-- Running one word more. -/
theorem effectAll_take_succ {ws : List (BitVec 32)} {k : Nat} {w : BitVec 32}
    (hk : ws[k]? = some w) (σ : HostState) :
    effectAll (ws.take (k + 1)) σ = effectAll (ws.take k) σ >>= effect (decode w) w := by
  induction ws generalizing k σ with
  | nil => cases hk
  | cons v ws ih =>
    cases k with
    | zero =>
      obtain rfl : v = w := by simpa using hk
      rw [List.take_succ_cons, List.take_zero, List.take_zero, effectAll]
      exact bind_pure _
    | succ k =>
      rw [List.take_succ_cons, List.take_succ_cons, effectAll, effectAll, bind_assoc]
      congr 1
      funext σ'
      exact ih hk σ'

/-- The state before word `k` of a block, when execution gets there. -/
def ReachedAt (ws : List (BitVec 32)) (s : CPUState) (k : Nat) (σ : HostState) : Prop :=
  runIr (generateAll (ws.take k)) s.host = .ok σ

theorem reachedAt_zero {ws : List (BitVec 32)} {s : CPUState} {σ : HostState} :
    ReachedAt ws s 0 σ ↔ σ = s.host := by
  rw [ReachedAt, List.take_zero, runIr_generateAll, effectAll, Except.ok.injEq, eq_comm]

/-- Reaching the word after `k` means to reach `k` and execute it. -/
theorem reachedAt_succ {ws : List (BitVec 32)} {s : CPUState} {k : Nat} {w : BitVec 32}
    {σ' : HostState} (hk : ws[k]? = some w) :
    ReachedAt ws s (k + 1) σ' ↔ ∃ σ, ReachedAt ws s k σ ∧ effect (decode w) w σ = .ok σ' := by
  simp only [ReachedAt, runIr_generateAll, effectAll_take_succ hk, bind_eq_ok]

end Execution

/-- A block function, by the address and the words it was built from. -/
structure Block where
  start : BitVec 32
  words : List (BitVec 32)

def Block.code (b : Block) : List (Inst MemoryFunction) := (generateAll b.words).code 1

def blockName (PC : BitVec 32) : String := "block_" ++ toString PC.toNat

/-- The variables of `main`'s loop. -/
structure Dispatcher where
  State : CPUState
  PCToFunc : BitVec 32 → Option String
  JIT : String → Option Block

inductive TranslateError where
  | fault (f : Fault)
  | duplicateDefinition (name : String)
  | symbolNotFound (name : String)

/-- `insert` of a map keeps an entry that is there. -/
def insertNew {K V : Type} [DecidableEq K] (m : K → Option V) (k : K) (v : V) : K → Option V :=
  match m k with
  | some _ => m
  | none => Function.update m k (some v)

/-- A second definition of a symbol is an error. -/
def addIRModule (JIT : String → Option Block) (name : String) (b : Block) :
    Except TranslateError (String → Option Block) :=
  match JIT name with
  | some _ => .error (.duplicateDefinition name)
  | none => .ok (Function.update JIT name (some b))

def generateFunc (d : Dispatcher) (Threshold : Nat) : Except TranslateError (String × Dispatcher) := do
  let FuncName := blockName d.State.PC
  let PCToFunc := insertNew d.PCToFunc d.State.PC FuncName
  let words ← (fetchLoop d.State.Manager Threshold d.State.PC).mapError .fault
  let JIT ← addIRModule d.JIT FuncName ⟨d.State.PC, words⟩
  return (FuncName, { d with PCToFunc, JIT })

/-- A generated block holds the words fetched from `PC` on, under a symbol that was free. -/
theorem generateFunc_ok {d d' : Dispatcher} {Threshold : Nat} {name : String}
    (h : generateFunc d Threshold = .ok (name, d')) :
    ∃ ws, fetchLoop d.State.Manager Threshold d.State.PC = .ok ws ∧ name = blockName d.State.PC ∧
      d.JIT name = none ∧ d' = { d with
        PCToFunc := insertNew d.PCToFunc d.State.PC name
        JIT := Function.update d.JIT name (some ⟨d.State.PC, ws⟩) } := by
  unfold generateFunc at h
  obtain ⟨ws, hws, h⟩ := bind_eq_ok.mp h
  obtain ⟨JIT, hJIT, h⟩ := bind_eq_ok.mp h
  obtain ⟨rfl, rfl⟩ := Prod.mk.inj (Except.ok.inj h)
  cases hf : fetchLoop d.State.Manager Threshold d.State.PC with
  | error e =>
    rw [hf] at hws
    cases hws
  | ok vs =>
    rw [hf] at hws
    obtain rfl : vs = ws := Except.ok.inj hws
    unfold addIRModule at hJIT
    split at hJIT
    · cases hJIT
    · rename_i hfree
      exact ⟨vs, rfl, rfl, hfree, by rw [← Except.ok.inj hJIT]⟩

theorem generateFunc_of_fetch {d : Dispatcher} {Threshold : Nat} {ws : List (BitVec 32)}
    (hws : fetchLoop d.State.Manager Threshold d.State.PC = .ok ws)
    (hfree : d.JIT (blockName d.State.PC) = none) :
    generateFunc d Threshold = .ok (blockName d.State.PC, { d with
      PCToFunc := insertNew d.PCToFunc d.State.PC (blockName d.State.PC)
      JIT := Function.update d.JIT (blockName d.State.PC) (some ⟨d.State.PC, ws⟩) }) := by
  simp only [generateFunc, hws, addIRModule, hfree]
  rfl

/-- The lookup of `PC` in `PCToFunc` and, on a miss, the new block. -/
def findOrGenerate (d : Dispatcher) (Threshold : Nat) : Except TranslateError Dispatcher :=
  match d.PCToFunc d.State.PC with
  | some _ => .ok d
  | none => do
    let (GeneratedFuncName, d) ← generateFunc d Threshold
    return { d with PCToFunc := insertNew d.PCToFunc d.State.PC GeneratedFuncName }

/-- `JIT->lookup(PCToFunc[State.PC])`: `operator[]` of a missing key gives an empty name. -/
def lookup (d : Dispatcher) : Except TranslateError Block :=
  let name := (d.PCToFunc d.State.PC).getD ""
  match d.JIT name with
  | some b => .ok b
  | none => .error (.symbolNotFound name)

/-- One round of the loop up to the call of the block. -/
def translate (d : Dispatcher) (Threshold : Nat) : Except TranslateError (Block × Dispatcher) := do
  let d ← findOrGenerate d Threshold
  let Fn ← lookup d
  return (Fn, d)

/-- `main` before its loop. -/
def start (State : CPUState) : Dispatcher := ⟨State, fun _ => none, fun _ => none⟩

def mainState (EntryPoint : BitVec 32) (Manager : MemoryManager) : CPUState :=
  ⟨Function.update (fun _ => 0#32) 2 (-16#32), EntryPoint, Manager⟩

/-- What compiled code may do to the state: code without undefined behaviour does what the
language says, a word left as poison may come out as anything. -/
def Compiles (call : List (Inst MemoryFunction) → CPUState → CPUState → Prop) : Prop :=
  ∀ (code : List (Inst MemoryFunction)) s s' fr, exec cpuHost code ⟨blockEnv, s.host⟩ = .ok fr →
    call code s s' → fr.mem.Concretises s'

/-- A compiler that emits an interpreter of the code. -/
def interpret (code : List (Inst MemoryFunction)) (s s' : CPUState) : Prop :=
  ∃ fr, exec cpuHost code ⟨blockEnv, s.host⟩ = .ok fr ∧ fr.mem.Concretises s'

theorem interpret_compiles : Compiles interpret := by
  rintro code s s' fr hfr ⟨fr', hfr', hconc⟩
  obtain rfl : fr = fr' := Except.ok.inj (hfr.symm.trans hfr')
  exact hconc

theorem interpret_of_runsTo {b : Block} {s t : CPUState}
    (h : RunsTo (generateAll b.words) s t) : interpret b.code s t := by
  obtain ⟨fr, hfr, hmem⟩ := map_eq_ok.mp h
  exact ⟨fr, hfr, hmem ▸ (t.host_concretises t).mpr rfl⟩

/-- A run of the loop in which every executed block is allowed, with the number of instructions
that it has executed. -/
inductive Run (call : List (Inst MemoryFunction) → CPUState → CPUState → Prop) (Threshold : Nat)
    (allowed : Dispatcher → Block → Prop) (State : CPUState) : Dispatcher → Nat → Prop
  | start : Run call Threshold allowed State (start State) 0
  | block {d d₁ : Dispatcher} {n : Nat} {b : Block} {s : CPUState} :
      Run call Threshold allowed State d n → translate d Threshold = .ok (b, d₁) → allowed d₁ b →
      call b.code d₁.State s → Run call Threshold allowed State { d₁ with State := s } (n + b.words.length)

end DBTranslator.Riscv
