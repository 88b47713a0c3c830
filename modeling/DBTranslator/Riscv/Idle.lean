import DBTranslator.Riscv.BlockPC
import DBTranslator.Riscv.Translations

/-! Runs over words whose code leaves `PC` alone: where the loop goes on after a block with such words, and
when it goes on nowhere. -/
namespace DBTranslator.Riscv
open Lib Lib.Ssa Relation

instance (w : BitVec 32) : Decidable (leavesPC w) := inferInstanceAs (Decidable (_ ∨ _))

/-- The number of words that move `PC`. -/
def moving (ws : List (BitVec 32)) : Nat := ws.countP fun w => ¬ leavesPC w

section Block
variable {ws : List (BitVec 32)} {w : BitVec 32} {σ σ' : HostState} {d d₁ : Dispatcher} {b : Block} {s : CPUState}
  {Threshold : Nat} {call : List (Inst MemoryFunction) → CPUState → CPUState → Prop} {PC : BitVec 32}

theorem effect_of_leavesPC (hw : leavesPC w) : effect (decode w) w σ = .ok σ := by
  rcases hw with hk | hk
  · rw [hk]
    rfl
  · rw [hk]
    rfl

/-- Straight-line words move `PC` by one word for each of them that moves it. -/
theorem effectAll_PC (hstraight : ∀ w ∈ ws, isTerminator (decode w) = false) (hPC : σ.PC = some PC)
    (hrun : effectAll ws σ = .ok σ') : σ'.PC = some (wordAddr PC (moving ws)) := by
  induction ws generalizing σ PC with
  | nil =>
    obtain rfl := Except.ok.inj hrun
    rw [hPC, moving, List.countP_nil, wordAddr_zero]
  | cons w ws ih =>
    obtain ⟨σ₁, heff, hrest⟩ := bind_eq_ok.mp hrun
    have hstraight' (v : BitVec 32) (hv : v ∈ ws) := hstraight v (List.mem_cons_of_mem w hv)
    by_cases hw : leavesPC w
    · rw [effect_of_leavesPC hw] at heff
      obtain rfl := Except.ok.inj heff
      rw [ih hstraight' hPC hrest, moving, moving, List.countP_cons_of_neg (by simpa using hw)]
    · have hPC₁ : σ₁.PC = some (PC + 4#32) := by
        rw [effect_PC heff (hstraight w List.mem_cons_self) hw, hPC]
        rfl
      rw [ih hstraight' hPC₁ hrest, moving, moving, List.countP_cons_of_pos (by simpa using hw), wordAddr_next]

theorem effectAll_of_leavesPC (hidle : ∀ w ∈ ws, leavesPC w) : effectAll ws σ = .ok σ := by
  induction ws with
  | nil => rfl
  | cons w ws ih =>
    rw [effectAll, effect_of_leavesPC (hidle w List.mem_cons_self), ok_bind]
    exact ih fun v hv => hidle v (List.mem_cons_of_mem w hv)

/-- A round of words that all leave `PC` alone changes nothing but the tables. -/
theorem round_idle (hcall : Compiles call) (hlinked : d.Linked)
    (htranslate : translate d Threshold = .ok (b, d₁)) (hidle : ∀ w ∈ b.words, leavesPC w)
    (hcalled : call b.code d₁.State s) : s = d.State := by
  rw [Dispatcher.translate_state hlinked htranslate] at hcalled
  refine hcall.eq_of_runsTo ?_ hcalled
  rw [RunsTo, runIr_generateAll]
  exact effectAll_of_leavesPC hidle

end Block

/-- After a block that was cut before a terminator the loop goes on at the word whose index is the number
of its words that move `PC`: as many words as do not are executed again. -/
theorem cut_block_goes_on (call : List (Inst MemoryFunction) → CPUState → CPUState → Prop) (hcall : Compiles call)
    (Threshold : Nat) (s₀ : CPUState) (d d₁ : Dispatcher) (b : Block) (s : CPUState)
    (hreach : ReflTransGen (Round call Threshold) (start s₀) d) (htranslate : translate d Threshold = .ok (b, d₁))
    (hstraight : ∀ w ∈ b.words, isTerminator (decode w) = false) (hfaultless : d₁.faultless b)
    (hcalled : call b.code d₁.State s) : s.PC = wordAddr d.State.PC (moving b.words) := by
  obtain ⟨fr, hfr⟩ := hfaultless
  obtain ⟨-, hPC, -⟩ := hcall _ _ _ _ hfr hcalled
  have hrun : effectAll b.words d₁.State.host = .ok fr.mem := by
    rw [← runIr_generateAll, runIr]
    exact map_eq_ok.mpr ⟨fr, hfr, rfl⟩
  refine hPC _ ?_
  rw [effectAll_PC hstraight rfl hrun, Dispatcher.translate_state (rounds_linked hreach) htranslate]
  rfl

/-- A program that comes to a block of words none of which moves `PC` stays there: the loop goes on for
ever in one and the same state, whatever the threshold. -/
theorem idle_for_ever (call : List (Inst MemoryFunction) → CPUState → CPUState → Prop) (hcall : Compiles call)
    (Threshold : Nat) (s₀ : CPUState) (d d₁ : Dispatcher) (b : Block)
    (hreach : ReflTransGen (Round call Threshold) (start s₀) d) (htranslate : translate d Threshold = .ok (b, d₁))
    (hidle : ∀ w ∈ b.words, leavesPC w) (d' : Dispatcher) (hlater : ReflTransGen (Round call Threshold) d d') :
    d'.State = d.State ∧ ∃ d₂, translate d' Threshold = .ok (b, d₂) := by
  have hlinked := rounds_linked hreach
  induction hlater with
  | refl => exact ⟨rfl, d₁, htranslate⟩
  | @tail d' d'' hbefore hround ih =>
    obtain ⟨hstate, d₂, htranslate₂⟩ := ih
    have hlinked' := (round_memoizes call Threshold).invariant hlinked hbefore
    obtain ⟨b', d₃, s, htranslate₃, hcalled, rfl⟩ := hround
    obtain ⟨rfl, rfl⟩ := Prod.mk.inj (Except.ok.inj (htranslate₂.symm.trans htranslate₃))
    obtain rfl := round_idle hcall hlinked' htranslate₂ hidle hcalled
    have hcache := (Dispatcher.translate_serves hlinked' htranslate₂).1
    have hstart := Dispatcher.translate_start hlinked' htranslate₂
    have hlinked₂ := (Dispatcher.translate_linked hlinked' htranslate₂).with_state d'.State
    have hnext : translate { d₂ with State := d'.State } Threshold =
        .ok (⟨d'.State.PC, b.words⟩, { d₂ with State := d'.State }) :=
      Dispatcher.translate_of_cache hlinked₂ hcache
    rw [← hstart] at hnext
    exact ⟨hstate, _, hnext⟩

section Example

/-- A word at address 0, `ecall` or 0, and `fence` or 0 after it. -/
private def twoIdle (opcode opcode' : BitVec 8) (PC : BitVec 32) : CPUState :=
  ⟨fun _ => 0, PC, ⟨[⟨8, 0, Vector.ofFn ![opcode, 0, 0, 0, opcode', 0, 0, 0]⟩], 1, rfl⟩⟩

/-- `ecall` and `fence` in one block: the next block begins with the `fence` again. -/
theorem cut_block_ecall : ∃ d₁, translate (start (twoIdle 0x73 0x0F 0)) 2 = .ok (⟨0, [0x73#32, 0x0F#32]⟩, d₁) ∧
    ∀ s, interpret (Block.code ⟨0, [0x73#32, 0x0F#32]⟩) d₁.State s → s.PC = 4 := by
  have hfetch : fetchLoop (twoIdle 0x73 0x0F 0).Manager 2 0 = .ok [0x73#32, 0x0F#32] := by decide
  have htranslate := Dispatcher.translate_of_fetch (Dispatcher.start_linked (twoIdle 0x73 0x0F 0)) rfl hfetch
  have hruns : RunsTo (generateAll [0x73#32, 0x0F#32]) (twoIdle 0x73 0x0F 0) (twoIdle 0x73 0x0F 4) := by
    rw [RunsTo, runIr_generateAll]
    rfl
  obtain ⟨fr, hfr, -⟩ := map_eq_ok.mp hruns
  have hstraight : ∀ w ∈ [0x73#32, 0x0F#32], isTerminator (decode w) = false := by
    rw [List.forall_mem_cons, List.forall_mem_singleton]
    exact ⟨by decide, by decide⟩
  refine ⟨_, htranslate, fun s hs => ?_⟩
  exact cut_block_goes_on interpret interpret_compiles 2 _ _ _ _ s .refl htranslate hstraight ⟨fr, hfr⟩ hs

/-- In memory full of zeros the loop never leaves its first state. -/
theorem idle_for_ever_zeros : ∃ d, ReflTransGen (Round interpret 2) (start (twoIdle 0 0 0)) d ∧
    d.cache 0 = some [0#32, 0#32] ∧ d.State = twoIdle 0 0 0 := by
  have hfetch : fetchLoop (twoIdle 0 0 0).Manager 2 0 = .ok [0#32, 0#32] := by decide
  have hlinked := Dispatcher.start_linked (twoIdle 0 0 0)
  have htranslate := Dispatcher.translate_of_fetch hlinked rfl hfetch
  have hruns : RunsTo (generateAll [0#32, 0#32]) (twoIdle 0 0 0) (twoIdle 0 0 0) := by
    rw [RunsTo, runIr_generateAll]
    rfl
  have hround : ReflTransGen (Round interpret 2) (start (twoIdle 0 0 0)) _ :=
    .single ⟨_, _, _, htranslate, interpret_of_runsTo hruns, rfl⟩
  have hidle : ∀ w ∈ [0#32, 0#32], leavesPC w := by
    rw [List.forall_mem_cons, List.forall_mem_singleton]
    exact ⟨.inl (by decide), .inl (by decide)⟩
  exact ⟨_, hround, (Dispatcher.translate_serves hlinked htranslate).1,
    (idle_for_ever interpret interpret_compiles 2 _ _ _ _ .refl htranslate hidle _ hround).1⟩

end Example

end DBTranslator.Riscv
