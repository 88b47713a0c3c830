import DBTranslator.Riscv.Translator

/-! The program counter inside a block, against the addresses its words were fetched at. -/
namespace DBTranslator.Riscv
open Lib Lib.Ssa

/-- The words whose code leaves `PC` alone. -/
def leavesPC (w : BitVec 32) : Prop := decode w = .UNKNOWN ∨ decode w = .ECALL

section Block
variable {Manager : MemoryManager} {Threshold : Nat} {ws : List (BitVec 32)} {s : CPUState}

/-- `PC` is the address of every word that executes, and a block that was cut or ends without a
terminator leaves `PC` at the word after it. -/
def PCFollows (b : Block) (s : CPUState) : Prop :=
  (∀ k < b.words.length, ∀ σ, ReachedAt b.words s k σ → σ.PC = some (wordAddr b.start k)) ∧
    ∀ w, b.words.getLast? = some w → isTerminator (decode w) = false →
      ∀ σ, ReachedAt b.words s b.words.length σ → σ.PC = some (wordAddr b.start b.words.length)

private theorem getLast?_of_length {k : Nat} {w : BitVec 32} (hk : ws[k]? = some w)
    (hlen : k + 1 = ws.length) : ws.getLast? = some w := by
  rw [List.getLast?_eq_getElem?, ← hlen, Nat.add_sub_cancel, hk]

private theorem pc_of_moves
    (hmove : ∀ k w, ws[k]? = some w → ∀ σ, ReachedAt ws s k σ → ¬ leavesPC w) (k : Nat)
    (hk : k ≤ ws.length) (hterm : ∀ j < k, ∀ w, ws[j]? = some w → isTerminator (decode w) = false)
    (σ : HostState) (hσ : ReachedAt ws s k σ) : σ.PC = some (wordAddr s.PC k) := by
  induction k generalizing σ with
  | zero =>
    obtain rfl := reachedAt_zero.mp hσ
    rw [wordAddr_zero, CPUState.host_PC]
  | succ k ih =>
    have hw := List.getElem?_eq_getElem (Nat.lt_of_succ_le hk)
    obtain ⟨σ₀, hσ₀, heff⟩ := (reachedAt_succ hw).mp hσ
    have hpc₀ : σ₀.PC = some (wordAddr s.PC k) :=
      ih (Nat.le_of_succ_le hk) (fun j hj => hterm j (Nat.lt_succ_of_lt hj)) σ₀ hσ₀
    rw [effect_PC heff (hterm k (Nat.lt_succ_self k) _ hw) (hmove k _ hw σ₀ hσ₀), hpc₀, wordAddr_succ]
    rfl

/-- A word that leaves `PC` alone puts the word after it, or the next block, one word back. -/
private theorem not_follows_of_idle {k : Nat} {w : BitVec 32} {σ : HostState}
    (hw : ws[k]? = some w) (hσ : ReachedAt ws s k σ) (hidle : leavesPC w) : ¬ PCFollows ⟨s.PC, ws⟩ s := by
  rintro ⟨hinside, hend⟩
  have hlt : k < ws.length := (List.getElem?_eq_some_iff.mp hw).1
  have hsame : effect (decode w) w σ = .ok σ := by
    rcases hidle with hk | hk <;> rw [hk] <;> rfl
  have hnext : ReachedAt ws s (k + 1) σ := (reachedAt_succ hw).mpr ⟨σ, hσ, hsame⟩
  have hpc := hinside k hlt σ hσ
  have hpc' : σ.PC = some (wordAddr s.PC (k + 1)) := by
    by_cases hlast : k + 1 < ws.length
    · exact hinside (k + 1) hlast σ hnext
    · have hlen : k + 1 = ws.length := Nat.le_antisymm hlt (Nat.le_of_not_lt hlast)
      have hterm : isTerminator (decode w) = false := by
        rcases hidle with hk | hk <;> rw [hk] <;> rfl
      rw [hlen]
      rw [hlen] at hnext
      exact hend w (getLast?_of_length hw hlen) hterm σ hnext
  rw [hpc, Option.some.injEq, wordAddr_succ] at hpc'
  have hzero := BitVec.add_right_eq_self.mp hpc'.symm
  exact absurd hzero (by decide)

private theorem follows_of_moves
    (hterm : ∀ k w, ws[k]? = some w → k + 1 < ws.length → isTerminator (decode w) = false)
    (hmove : ∀ k w, ws[k]? = some w → ∀ σ, ReachedAt ws s k σ → ¬ leavesPC w) :
    PCFollows ⟨s.PC, ws⟩ s := by
  constructor
  · intro k hk σ hσ
    refine pc_of_moves hmove k (Nat.le_of_lt hk) (fun j hj w hw => ?_) σ hσ
    exact hterm j w hw (Nat.lt_of_le_of_lt hj hk)
  · intro v hv hlast σ hσ
    refine pc_of_moves hmove ws.length (Nat.le_refl _) (fun j hj w hw => ?_) σ hσ
    by_cases hend : j + 1 < ws.length
    · exact hterm j w hw hend
    · have hlen : j + 1 = ws.length := Nat.le_antisymm hj (Nat.le_of_not_lt hend)
      obtain rfl : v = w := Option.some.inj (hv.symm.trans (getLast?_of_length hw hlen))
      exact hlast

end Block

/-- In every block that is built and from every state at its start, `PC` is the address of the
word that executes, and no word is left to the next block again, exactly when no word that is
reached leaves `PC` alone. -/
theorem block_pc_iff (d d' : Dispatcher) (Threshold : Nat) (name : String)
    (hgen : generateFunc d Threshold = .ok (name, d')) :
    ∃ b, d'.JIT name = some b ∧ b.start = d.State.PC ∧
      (∀ k w, b.words[k]? = some w → read32 d.State.Manager (wordAddr b.start k) = .ok w) ∧
      ∀ s : CPUState, s.PC = b.start → (PCFollows b s ↔
        ∀ k w, b.words[k]? = some w → ∀ σ, ReachedAt b.words s k σ → ¬ leavesPC w) := by
  obtain ⟨ws, hws, -, -, rfl⟩ := generateFunc_ok hgen
  refine ⟨⟨d.State.PC, ws⟩, Function.update_self .., rfl, fun k w => fetchLoop_read hws, ?_⟩
  intro s hs
  change s.PC = d.State.PC at hs
  rw [← hs]
  constructor
  · intro hfollows k w hw σ hσ hidle
    exact not_follows_of_idle hw hσ hidle hfollows
  · exact follows_of_moves fun k w => fetchLoop_terminator hws

/-- A program of two words at address 0, the second one `nop`. -/
private def twoWords (opcode : BitVec 8) : CPUState :=
  ⟨fun _ => 0, 0, ⟨[⟨8, 0, Vector.ofFn ![opcode, 0, 0, 0, 0x13, 0, 0, 0]⟩], 1, rfl⟩⟩

private theorem nop_fetch : fetchLoop (twoWords 0x13).Manager 2 0 = .ok [0x13#32, 0x13#32] := by
  decide

private theorem ecall_fetch : fetchLoop (twoWords 0x73).Manager 2 0 = .ok [0x73#32, 0x13#32] := by
  decide

theorem block_pc_nop : ∃ name d', generateFunc (start (twoWords 0x13)) 2 = .ok (name, d') ∧
    ∃ b, d'.JIT name = some b ∧ PCFollows b (twoWords 0x13) := by
  have hgen := generateFunc_of_fetch (d := start (twoWords 0x13)) nop_fetch rfl
  obtain ⟨b, hb, hstart, -, hiff⟩ := block_pc_iff _ _ _ _ hgen
  refine ⟨_, _, hgen, b, hb, (hiff _ hstart.symm).mpr fun k w hw σ _ => ?_⟩
  simp only [Function.update_self, Option.some.injEq] at hb
  subst hb
  have hmem : w ∈ [0x13#32, 0x13#32] := List.mem_of_getElem? hw
  obtain rfl : w = 0x13#32 := by simpa using hmem
  unfold leavesPC
  decide

/-- After `ecall` the word at address 4 executes with `PC` still 0. -/
theorem block_pc_ecall : ∃ name d', generateFunc (start (twoWords 0x73)) 2 = .ok (name, d') ∧
    ∃ b, d'.JIT name = some b ∧ ¬ PCFollows b (twoWords 0x73) := by
  have hgen := generateFunc_of_fetch (d := start (twoWords 0x73)) ecall_fetch rfl
  refine ⟨_, _, hgen, ⟨0, [0x73#32, 0x13#32]⟩, ?_, ?_⟩
  · simp only [Function.update_self]
    rfl
  · exact not_follows_of_idle (k := 0) (s := twoWords 0x73) rfl rfl (.inr (by decide))

end DBTranslator.Riscv
