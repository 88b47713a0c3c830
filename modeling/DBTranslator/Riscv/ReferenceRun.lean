import DBTranslator.Riscv.Reference
import DBTranslator.Riscv.Translations

/-! The dispatcher loop against the hart of the manual: a run of the loop, whatever its blocks and its
threshold, is a run of the hart, and it can go on as long as the hart can. -/
namespace DBTranslator.Riscv
open Lib Lib.Ssa Lib.CodeCache Lib.Rv32i

/-- A hart and what is known of the word in the place of its `x0`. -/
structure Traced where
  hart : Hart
  zero : Option (BitVec 32)

/-- What the translator needs of an instruction. `code` are the addresses of the words that may
execute; `m` gives the segment table. -/
structure Supported (m : MemoryManager) (code : BitVec 32 → Prop) (t : Traced) (i : Instruction) : Prop where
  here : code t.hart.pc
  decoded : Rv32i.decode (t.hart.load 4 t.hart.pc) = some i
  compiled : ¬ Miscompiled t.hart i
  zero : (0 : BitVec 5) ∈ i.sources → t.zero = some 0
  access : ∀ a n, i.access t.hart = some (a, n) → served m a n
  apart : ∀ a n, i.stored t.hart = some (a, n) → ∀ c, code c → Riscv.apart a n c

/-- A supported step of the hart. -/
def supportedStep (m : MemoryManager) (code : BitVec 32 → Prop) (t t' : Traced) : Prop :=
  ∃ i, Supported m code t i ∧ i.exec t.hart = some t'.hart ∧ t'.zero = zeroSlot t.hart i t.zero

/-- A supported step whose access is aligned in the buffer that has it. -/
def alignedStep (m : MemoryManager) (code : BitVec 32 → Prop) (t t' : Traced) : Prop :=
  supportedStep m code t t' ∧ ∀ i, Rv32i.decode (t.hart.load 4 t.hart.pc) = some i →
    ∀ a n, i.access t.hart = some (a, n) → HostAligned m a n

/-- The step of the hart, as a relation. -/
def hartStep (h h' : Hart) : Prop := h.step = some h'

/-- The state holds the hart, in the buffers of the table, and the known word in the place of `x0`. -/
structure HostState.Traces (σ : HostState) (m : MemoryManager) (t : Traced) : Prop where
  realizes : σ.Realizes t.hart
  layout : σ.Manager.layout = m.layout
  zero : ∀ v, t.zero = some v → σ.Registers 0 = some v

section Step
variable {m : MemoryManager} {code : BitVec 32 → Prop} {t t' : Traced} {σ σ' : HostState} {w : BitVec 32}
  {k : Instr} {i : Instruction} {h h' : Hart}

/-- A word that does not end a block passes control to the next. -/
theorem exec_pc (hreads : readAs w k = some i) (hterm : isTerminator k = false) (hexec : i.exec h = some h') :
    h'.pc = h.pc + 4#32 := by
  cases k
  case UNKNOWN => cases hreads
  case JAL | JALR | BEQ | BNE | BLT | BGE | BLTU | BGEU => cases hterm
  case ECALL | EBREAK =>
    obtain rfl := Option.some.inj hreads
    cases hexec
  all_goals
    obtain rfl := Option.some.inj hreads
    obtain rfl := Option.some.inj hexec
    rfl

private theorem zeroSlot_mono {z z' : Option (BitVec 32)} (hz : ∀ v, z = some v → z' = some v)
    (v : BitVec 32) (hv : zeroSlot h i z = some v) : zeroSlot h i z' = some v := by
  unfold zeroSlot at hv ⊢
  split at hv
  · split at hv
    · rename_i hrd
      rw [if_pos hrd, hv]
    · rename_i hrd
      rw [if_neg hrd, hz v hv]
  · exact hz v hv

/-- The code of a supported word takes the step of the hart. -/
theorem HostState.Traces.step (hσ : σ.Traces m t) (hsupp : Supported m code t i)
    (hexec : i.exec t.hart = some h') (hw : w = t.hart.load 4 t.hart.pc) :
    ∃ σ', effect (decode w) w σ = .ok σ' ∧ σ'.Traces m ⟨h', zeroSlot t.hart i t.zero⟩ := by
  subst hw
  have haccess (a : BitVec 32) (n : Nat) (ha : i.access t.hart = some (a, n)) : served σ.Manager a n :=
    (served_of_layout hσ.layout).mpr (hsupp.access a n ha)
  obtain ⟨σ', heff, hσ', hz⟩ := effect_realizes_iff (reads_decode hsupp.decoded) hσ.realizes
    (fun h0 => hσ.zero 0 (hsupp.zero h0)) haccess
  rw [unraised_of_exec hexec] at hσ'
  refine ⟨σ', heff, hσ'.mpr hsupp.compiled, (effect_layout heff).trans hσ.layout, fun v hv => ?_⟩
  rw [hz]
  exact zeroSlot_mono hσ.zero v hv

/-- Supported stores leave the words of the code as they are. -/
theorem supportedStep.load_code (hcode : ∀ c, code c → served m c 4) (hstep : supportedStep m code t t')
    {c : BitVec 32} (hc : code c) : t'.hart.load 4 c = t.hart.load 4 c := by
  obtain ⟨i, hsupp, hexec, -⟩ := hstep
  refine Hart.load_congr fun j hj => i.exec_mem hexec _ fun a n ha => ?_
  have hc4 := served_bound (by decide) (hcode c hc)
  have hapart := hsupp.apart a n ha c hc
  have hbound : a.toNat + n ≤ 2 ^ 32 := by
    rcases Nat.eq_zero_or_pos n with rfl | hn
    · exact Nat.le_of_lt a.isLt
    · exact Nat.le_of_lt (served_bound hn (hsupp.access a n (Instruction.access_of_stored ha)))
  have hsum : (c + BitVec.ofNat 32 j).toNat = c.toNat + j := by
    rw [BitVec.toNat_add, BitVec.toNat_ofNat]
    omega
  have hlt := a.isLt
  rw [BitVec.toNat_sub, hsum]
  unfold apart at hapart
  omega

end Step

/-- A relation of supported steps in code that can be fetched, whose calls pass a check in every host state
that holds the hart. -/
structure Passing (check : CallCheck) (m : MemoryManager) (code : BitVec 32 → Prop)
    (R : Traced → Traced → Prop) : Prop where
  fetched : ∀ c, code c → served m c 4
  supported : ∀ t t', R t t' → supportedStep m code t t'
  passes : ∀ t t' w σ, R t t' → HostState.Traces σ m t → w = t.hart.load 4 t.hart.pc →
    checkCall check (decode w) w σ = .ok ()

section Passing
variable {m : MemoryManager} {code : BitVec 32 → Prop}

theorem supportedStep_passing (hcode : ∀ c, code c → served m c 4) : Passing pass m code (supportedStep m code) :=
  ⟨hcode, fun _ _ hstep => hstep, fun _ _ w σ _ _ _ => checkCall_pass (decode w) w σ⟩

theorem alignedStep_passing (hcode : ∀ c, code c → served m c 4) : Passing alignment m code (alignedStep m code) := by
  refine ⟨hcode, fun _ _ hstep => hstep.1, ?_⟩
  rintro t t' w σ ⟨⟨i, hsupp, -⟩, haligned⟩ hσ rfl
  rw [checkCall_alignment_iff (reads_decode hsupp.decoded) hσ.realizes fun h0 => hσ.zero 0 (hsupp.zero h0)]
  intro a n ha p hp
  rw [mapAddress_of_layout hσ.layout] at hp
  exact haligned i hsupp.decoded a n ha p hp

end Passing

section Block
variable {check : CallCheck} {m : MemoryManager} {code : BitVec 32 → Prop} {R : Traced → Traced → Prop}
  {t u : Traced} {s : CPUState} {σ : HostState} {N : Nat}

/-- The straight-line words at the program counter of a hart that can go on for as many steps run to
where the hart is after these steps. -/
theorem block_traces (hR : Passing check m code R) {ws : List (BitVec 32)} (hσ : σ.Traces m t)
    (hmem : ∀ c, code c → read32 s.Manager c = .ok (t.hart.load 4 c)) (hholds : guest.Holds s t.hart.pc ws)
    (hstraight : guest.Straight ws) (htraj : Steps R N t u) (hlen : ws.length ≤ N) :
    ∃ σ' t', checkedAll check ws σ = .ok σ' ∧ σ'.Traces m t' ∧ Steps R ws.length t t' ∧
      Steps R (N - ws.length) t' u ∧ ∀ k < ws.length, code (guest.address t.hart.pc k) := by
  induction ws generalizing t σ N with
  | nil => exact ⟨σ, t, rfl, hσ, .refl t, htraj, fun k hk => absurd hk (Nat.not_lt_zero k)⟩
  | cons w ws ih =>
    cases htraj with
    | refl => exact absurd hlen (Nat.not_succ_le_zero _)
    | @head N _ t₁ _ hstep hrest =>
      have hmem' (c : BitVec 32) (hc : code c) : read32 s.Manager c = .ok (t₁.hart.load 4 c) := by
        rw [hmem c hc, (hR.supported _ _ hstep).load_code hR.fetched hc]
      obtain ⟨i, hsupp, hexec, hzero⟩ := hR.supported _ _ hstep
      have hw : w = t.hart.load 4 t.hart.pc := by
        have hread : (read32 s.Manager t.hart.pc).toOption = some w := hholds.1
        rw [hmem _ hsupp.here] at hread
        exact (Option.some.inj hread).symm
      obtain ⟨σ₁, heff, hσ₁⟩ := hσ.step hsupp hexec hw
      have hcheck := hR.passes _ _ w σ hstep hσ hw
      rw [← hzero] at hσ₁
      -- a word that another one follows is no terminator
      have hpc (v : BitVec 32) (vs : List (BitVec 32)) (hws : ws = v :: vs) :
          t₁.hart.pc = t.hart.pc + 4#32 := by
        subst hws
        exact exec_pc (hw ▸ reads_decode hsupp.decoded) hstraight.1 hexec
      have hnext : guest.Holds s t₁.hart.pc ws ∧ guest.Straight ws := by
        cases ws with
        | nil => exact ⟨trivial, trivial⟩
        | cons v vs => exact ⟨by rw [hpc v vs rfl]; exact hholds.2, hstraight.2⟩
      obtain ⟨σ', t', hrun, hσ', hsteps, htail, hall⟩ :=
        ih hσ₁ hmem' hnext.1 hnext.2 hrest (Nat.le_of_succ_le_succ hlen)
      refine ⟨σ', t', ?_, hσ', .head hstep hsteps, ?_, ?_⟩
      · rw [checkedAll, checkedEffect, hcheck, ok_bind, heff, ok_bind, hrun]
      · rwa [List.length_cons, Nat.add_sub_add_right]
      · intro k hk
        cases k with
        | zero => exact hsupp.here
        | succ k =>
          cases ws with
          | nil => exact absurd hk (Nat.not_lt.mpr (Nat.le_add_left 1 k))
          | cons v vs =>
            have haddr := hall k (Nat.lt_of_succ_lt_succ hk)
            rw [hpc v vs rfl] at haddr
            exact haddr

end Block

section Traces
variable {check : CallCheck} {m : MemoryManager} {code : BitVec 32 → Prop} {R : Traced → Traced → Prop}
  {t t' : Traced} {s : CPUState} {σ : HostState} {n : Nat}

/-- A concrete state that the host can hold after a block holds the same hart. -/
theorem HostState.Traces.concretises (hσ : σ.Traces m t) (hs : σ.Concretises s) : s.host.Traces m t := by
  obtain ⟨hregs, hpc, hmem⟩ := hs
  refine ⟨⟨?_, fun r hr => ?_, ?_⟩, ?_, fun v hv => ?_⟩
  · rw [CPUState.host_PC, hpc _ hσ.realizes.pc]
  · rw [CPUState.host_Registers, hregs r _ (hσ.realizes.x r hr)]
  · rw [CPUState.host_Manager, hmem]
    exact hσ.realizes.mem
  · rw [CPUState.host_Manager, hmem]
    exact hσ.layout
  · rw [CPUState.host_Registers, hregs 0 _ (hσ.zero v hv)]

theorem HostState.Traces.pc_eq (hs : s.host.Traces m t) : s.PC = t.hart.pc := Option.some.inj hs.realizes.pc

/-- The words of the code are read as the hart loads them. -/
theorem HostState.Traces.read_code (hs : s.host.Traces m t) (hcode : ∀ c, code c → served m c 4)
    {c : BitVec 32} (hc : code c) : read32 s.Manager c = .ok (t.hart.load 4 c) := by
  have hin : served s.host.Manager c Width.word.bytes := (served_of_layout hs.layout).mpr (hcode c hc)
  exact hs.realizes.read hin

theorem load_code_steps (hR : Passing check m code R) (hsteps : Steps R n t t')
    {c : BitVec 32} (hc : code c) : t'.hart.load 4 c = t.hart.load 4 c := by
  induction hsteps with
  | refl => rfl
  | head hstep _ ih => rw [ih, (hR.supported _ _ hstep).load_code hR.fetched hc]

end Traces

/-- The loop is where the hart is: its tables hold words of the code that are still in memory, in
blocks that fit the threshold. -/
structure Follows (m : MemoryManager) (code : BitVec 32 → Prop) (Threshold : Nat) (d : Dispatcher)
    (t : Traced) : Prop where
  linked : d.Linked
  valid : Cache.Valid guest d.cache d.State
  fetched : ∀ a, Cache.fetched guest d.cache a → code a
  sized : ∀ PC ws, d.cache PC = some ws → ws.length ≤ Threshold ∧ (0 < Threshold → 0 < ws.length)
  traces : d.State.host.Traces m t

section Round
variable {check : CallCheck} {m : MemoryManager} {code : BitVec 32 → Prop} {R : Traced → Traced → Prop}
  {call : List (Inst MemoryFunction) → CPUState → CPUState → Prop} {Threshold N : Nat} {d d₁ : Dispatcher} {b : Block} {s : CPUState} {t u : Traced}

/-- A block served to the loop fits the threshold. -/
theorem Follows.sized_served (h : Follows m code Threshold d t) (htranslate : translate d Threshold = .ok (b, d₁)) :
    ∀ PC ws, d₁.cache PC = some ws → ws.length ≤ Threshold ∧ (0 < Threshold → 0 < ws.length) := by
  have hserves := Dispatcher.translate_serves h.linked htranslate
  intro PC ws hws
  rcases hserves.2 PC with heq | ⟨rfl, -⟩
  · exact h.sized PC ws (heq ▸ hws)
  · obtain rfl : b.words = ws := Option.some.inj (hserves.1.symm.trans hws)
    rcases Dispatcher.translate_cases h.linked htranslate with ⟨hfind, hb, rfl⟩ | ⟨ws, hfetch, rfl, -, -⟩
    · exact h.sized _ _ (Dispatcher.cache_of hfind hb)
    · obtain ⟨-, hle, hended⟩ := fetchLoop_ok_iff.mp hfetch
      refine ⟨hle, fun hpos => List.length_pos_iff.mpr ?_⟩
      rintro rfl
      exact not_ended_nil (hended hpos)

/-- The block at the program counter runs without a fault as far as the hart goes. -/
theorem Follows.block (hR : Passing check m code R) (h : Follows m code Threshold d t)
    (htranslate : translate d Threshold = .ok (b, d₁)) (htraj : Steps R N t u) (hlen : b.words.length ≤ N) :
    ∃ σ' t', runChecked check (generateAll b.words) d₁.State.host = .ok σ' ∧ σ'.Traces m t' ∧
      Steps R b.words.length t t' ∧ Steps R (N - b.words.length) t' u ∧
      ∀ k < b.words.length, code (guest.address t.hart.pc k) := by
  have hserves := Dispatcher.translate_serves h.linked htranslate
  obtain ⟨hstraight, hholds⟩ := hserves.valid h.valid _ _ hserves.1
  rw [show guest.pc d.State = t.hart.pc from h.traces.pc_eq] at hholds
  rw [Dispatcher.translate_state h.linked htranslate]
  simp only [runChecked_generateAll]
  exact block_traces hR h.traces (fun c hc => h.traces.read_code hR.fetched hc) hholds hstraight htraj hlen

/-- One round of the loop takes as many steps of the hart as the block has words. -/
theorem Follows.round (hR : Passing check m code R) (hcall : CompilesOn check call)
    (h : Follows m code Threshold d t) (htranslate : translate d Threshold = .ok (b, d₁))
    (hcalled : call b.code d₁.State s) (htraj : Steps R N t u) (hlen : b.words.length ≤ N) :
    ∃ t', Steps R b.words.length t t' ∧ Steps R (N - b.words.length) t' u ∧
      Follows m code Threshold { d₁ with State := s } t' := by
  have hserves := Dispatcher.translate_serves h.linked htranslate
  obtain ⟨σ', t', hrun, hσ', hsteps, hrest, hall⟩ := h.block hR htranslate htraj hlen
  obtain ⟨fr, hfr, rfl⟩ := map_eq_ok.mp hrun
  have hs := hσ'.concretises (hcall _ _ _ _ hfr hcalled)
  have hfetched (a : BitVec 32) (ha : Cache.fetched guest d₁.cache a) : code a := by
    obtain ⟨PC, ws, hws, k, hk, rfl⟩ := ha
    rcases hserves.2 PC with heq | ⟨rfl, -⟩
    · exact h.fetched _ ⟨PC, ws, heq ▸ hws, k, hk, rfl⟩
    · obtain rfl : b.words = ws := Option.some.inj (hserves.1.symm.trans hws)
      rw [show guest.pc d.State = t.hart.pc from h.traces.pc_eq]
      exact hall k hk
  refine ⟨t', hsteps, hrest, (Dispatcher.translate_linked h.linked htranslate).with_state _, ?_, hfetched,
    fun PC ws hws => h.sized_served htranslate PC ws hws, hs⟩
  intro PC ws hws
  obtain ⟨hstraight, hholds⟩ := hserves.valid h.valid PC ws hws
  refine ⟨hstraight, hholds.of_fetch_eq fun k hk => congrArg Except.toOption ?_⟩
  have hc := hfetched _ ⟨PC, ws, hws, k, hk, rfl⟩
  show read32 s.Manager _ = read32 d.State.Manager _
  rw [hs.read_code hR.fetched hc, h.traces.read_code hR.fetched hc, load_code_steps hR hsteps hc]

/-- As long as the hart goes on, the words of a block can be fetched. -/
theorem fetch_of_steps (hR : Passing check m code R) {Manager : MemoryManager} {rounds : Nat}
    (hmem : ∀ c, code c → read32 Manager c = .ok (t.hart.load 4 c)) (htraj : Steps R N t u) (hle : rounds ≤ N) :
    ∃ ws, fetchLoop Manager rounds t.hart.pc = .ok ws := by
  induction rounds generalizing t N with
  | zero => exact ⟨[], rfl⟩
  | succ rounds ih =>
    cases htraj with
    | refl => exact absurd hle (Nat.not_succ_le_zero _)
    | @head N _ t₁ _ hstep hrest =>
      have hmem' (c : BitVec 32) (hc : code c) : read32 Manager c = .ok (t₁.hart.load 4 c) := by
        rw [hmem c hc, (hR.supported _ _ hstep).load_code hR.fetched hc]
      obtain ⟨i, hsupp, hexec, -⟩ := hR.supported _ _ hstep
      have hread := hmem _ hsupp.here
      cases hterm : isTerminator (decode (t.hart.load 4 t.hart.pc)) with
      | true => exact ⟨_, fetchLoop_cons.mpr ⟨hread, .inl ⟨hterm, rfl⟩⟩⟩
      | false =>
        obtain ⟨ws, hws⟩ := ih hmem' hrest (Nat.le_of_succ_le_succ hle)
        rw [exec_pc (reads_decode hsupp.decoded) hterm hexec] at hws
        exact ⟨_, fetchLoop_cons.mpr ⟨hread, .inr ⟨hterm, hws⟩⟩⟩

/-- The loop always has a block for a hart that can go on for as many steps as the threshold. -/
theorem Follows.translates (hR : Passing check m code R) (h : Follows m code Threshold d t)
    (htraj : Steps R N t u) (hle : Threshold ≤ N) : ∃ b d₁, translate d Threshold = .ok (b, d₁) := by
  cases hfind : d.PCToFunc d.State.PC with
  | some name =>
    obtain ⟨b, hb⟩ := Dispatcher.translate_hit h.linked hfind
    exact ⟨b, d, hb⟩
  | none =>
    obtain ⟨ws, hws⟩ := fetch_of_steps hR (fun c hc => h.traces.read_code hR.fetched hc) htraj hle
    rw [← h.traces.pc_eq] at hws
    exact ⟨_, _, Dispatcher.translate_of_fetch h.linked hfind hws⟩

end Round

/-- The hart of a state, with the word that stands in the place of `x0`. -/
def CPUState.traced (s : CPUState) : Traced := ⟨s.hart, some (s.Registers 0)⟩

section Run
variable {check : CallCheck} {m : MemoryManager} {code : BitVec 32 → Prop} {R : Traced → Traced → Prop}
  {call : List (Inst MemoryFunction) → CPUState → CPUState → Prop} {allowed : Dispatcher → Block → Prop}
  {Threshold N n : Nat} {d : Dispatcher} {s₀ : CPUState} {t t' u : Traced}

theorem follows_start : Follows s₀.Manager code Threshold (start s₀) s₀.traced := by
  refine ⟨Dispatcher.start_linked s₀, ?_, ?_, ?_, s₀.host_realizes, rfl, fun v hv => hv⟩
  · rintro PC ws ⟨⟩
  · rintro a ⟨PC, ws, ⟨⟩, -⟩
  · rintro PC ws ⟨⟩

/-- The invariant of the loop over a run of any length. -/
theorem Run.follows (hR : Passing check s₀.Manager code R) (hcall : CompilesOn check call)
    (htraj : Steps R N s₀.traced u) (hrun : Run call Threshold allowed s₀ d n) (hle : n ≤ N) :
    ∃ t, Steps R n s₀.traced t ∧ Steps R (N - n) t u ∧ Follows s₀.Manager code Threshold d t := by
  induction hrun with
  | start => exact ⟨_, .refl _, htraj, follows_start⟩
  | block _ htranslate _ hcalled ih =>
    obtain ⟨t, hsteps, hrest, hfollows⟩ := ih (Nat.le_of_add_right_le hle)
    obtain ⟨t', hblock, hrest', hfollows'⟩ := hfollows.round hR hcall htranslate hcalled hrest (by omega)
    exact ⟨t', hsteps.append hblock, by rwa [← Nat.sub_sub], hfollows'⟩

theorem supportedStep.hartStep (h : supportedStep m code t t') : Riscv.hartStep t.hart t'.hart := by
  obtain ⟨i, hsupp, hexec, -⟩ := h
  rw [Riscv.hartStep, Hart.step, hsupp.decoded]
  exact hexec

theorem hart_steps (hR : Passing check m code R) (h : Steps R n t t') : Steps hartStep n t.hart t'.hart :=
  h.map Traced.hart fun _ _ hstep => (hR.supported _ _ hstep).hartStep

end Run

/-- Some state can be left by a call of any code that runs without a fault. -/
def Calls (call : List (Inst MemoryFunction) → CPUState → CPUState → Prop) : Prop :=
  ∀ (code : List (Inst MemoryFunction)) s fr, exec cpuHost code ⟨blockEnv, s.host⟩ = .ok fr → ∃ s', call code s s'

/-- Poison can come out as any word. -/
theorem HostState.exists_concretises (σ : HostState) : ∃ s, σ.Concretises s := by
  refine ⟨⟨fun r => (σ.Registers r).getD 0, σ.PC.getD 0, σ.Manager⟩, ?_, ?_, rfl⟩
  · intro r v hv
    dsimp only
    rw [hv, Option.getD_some]
  · intro v hv
    dsimp only
    rw [hv, Option.getD_some]

theorem interpret_calls : Calls interpret := by
  intro code s fr hfr
  obtain ⟨s', hs'⟩ := fr.mem.exists_concretises
  exact ⟨s', fr, hfr, hs'⟩

theorem Calls.on {call : List (Inst MemoryFunction) → CPUState → CPUState → Prop} (check : CallCheck)
    (hcalls : Calls call) : CallsOn check call :=
  fun code s fr hfr => hcalls code s fr (exec_of_guard _ _ hfr)

section Progress
variable {check : CallCheck} {call : List (Inst MemoryFunction) → CPUState → CPUState → Prop} {code : BitVec 32 → Prop}
  {R : Traced → Traced → Prop} {N n Threshold : Nat} {s₀ : CPUState} {u : Traced} {d : Dispatcher}

private theorem Run.round (hR : Passing check s₀.Manager code R) (hcall : CompilesOn check call)
    (hcalls : CallsOn check call) (htraj : Steps R N s₀.traced u) (hpos : 0 < Threshold)
    (hrun : Run call Threshold (Dispatcher.faultlessOn check) s₀ d n) (hle : n + Threshold ≤ N) :
    ∃ d' n', n < n' ∧ n' ≤ n + Threshold ∧ Run call Threshold (Dispatcher.faultlessOn check) s₀ d' n' := by
  obtain ⟨t, -, hrest, hfollows⟩ := hrun.follows hR hcall htraj (by omega)
  obtain ⟨b, d₁, htranslate⟩ := hfollows.translates hR hrest (by omega)
  obtain ⟨hlen, hlen_pos⟩ := hfollows.sized_served htranslate _ _
    (Dispatcher.translate_serves hfollows.linked htranslate).1
  have hb := hlen_pos hpos
  obtain ⟨σ', t', hblock, -⟩ := hfollows.block hR htranslate hrest (by omega)
  obtain ⟨fr, hfr, -⟩ := map_eq_ok.mp hblock
  obtain ⟨s, hcalled⟩ := hcalls _ _ _ hfr
  exact ⟨_, _, by omega, by omega, hrun.block htranslate ⟨fr, hfr⟩ hcalled⟩

/-- Rounds follow one another up to the last block. -/
theorem run_reaches (hR : Passing check s₀.Manager code R) (hcall : CompilesOn check call)
    (hcalls : CallsOn check call) (htraj : Steps R N s₀.traced u) (hpos : 0 < Threshold) (hle : n + Threshold ≤ N) :
    ∃ d n', n ≤ n' ∧ n' < n + Threshold ∧ Run call Threshold (Dispatcher.faultlessOn check) s₀ d n' := by
  induction n with
  | zero => exact ⟨_, 0, Nat.le_refl 0, by omega, .start⟩
  | succ n ih =>
    obtain ⟨d, n', hn, hn', hrun⟩ := ih (by omega)
    by_cases hmore : n + 1 ≤ n'
    · exact ⟨d, n', hmore, by omega, hrun⟩
    · obtain rfl : n' = n := by omega
      obtain ⟨d', n'', hlt, hle', hrun'⟩ := hrun.round hR hcall hcalls htraj hpos (by omega)
      exact ⟨d', n'', by omega, by omega, hrun'⟩

/-- The run that gets there is where the hart is. -/
theorem run_reaches_hart (hR : Passing check s₀.Manager code R) (hcall : CompilesOn check call)
    (hcalls : CallsOn check call) (htraj : Steps R N s₀.traced u) (hpos : 0 < Threshold) (hle : n + Threshold ≤ N) :
    ∃ d n', n ≤ n' ∧ n' < n + Threshold ∧ Run call Threshold (Dispatcher.faultlessOn check) s₀ d n' ∧
      ∃ h, Steps hartStep n' s₀.hart h ∧ d.State.host.Realizes h := by
  obtain ⟨d, n', hn, hn', hrun⟩ := run_reaches hR hcall hcalls htraj hpos hle
  obtain ⟨t, hsteps, -, hfollows⟩ := hrun.follows hR hcall htraj (by omega)
  exact ⟨d, n', hn, hn', hrun, t.hart, hart_steps hR hsteps, hfollows.traces.realizes⟩

end Progress

/-- Every run of the loop, with any blocks and threshold, is a run of the hart of the manual, as far as
the hart's own run is supported. -/
theorem loop_realizes_hart (call : List (Inst MemoryFunction) → CPUState → CPUState → Prop)
    (hcall : Compiles call) (s₀ : CPUState) (code : BitVec 32 → Prop) (hcode : ∀ c, code c → served s₀.Manager c 4)
    (N : Nat) (u : Traced) (htraj : Steps (supportedStep s₀.Manager code) N s₀.traced u)
    (allowed : Dispatcher → Block → Prop) (Threshold : Nat) (d : Dispatcher) (n : Nat)
    (hrun : Run call Threshold allowed s₀ d n) (hle : n ≤ N) :
    ∃ h, Steps hartStep n s₀.hart h ∧ d.State.host.Realizes h := by
  obtain ⟨t, hsteps, -, hfollows⟩ := hrun.follows (supportedStep_passing hcode) hcall htraj hle
  exact ⟨t.hart, hart_steps (supportedStep_passing hcode) hsteps, hfollows.traces.realizes⟩

/-- The loop goes on for as long as the hart does: it gets to any number of instructions, short of the
last block, and past it by less than a block. Where the accesses of the hart are aligned on the host, its
blocks are defined on the host that asks for this. -/
theorem loop_progress (call : List (Inst MemoryFunction) → CPUState → CPUState → Prop) (s₀ : CPUState)
    (code : BitVec 32 → Prop) (hcode : ∀ c, code c → served s₀.Manager c 4) (N : Nat) (u : Traced)
    (Threshold : Nat) (hpos : 0 < Threshold) (n : Nat) (hle : n + Threshold ≤ N) :
    (Compiles call → Calls call → Steps (supportedStep s₀.Manager code) N s₀.traced u →
      ∃ d n', n ≤ n' ∧ n' < n + Threshold ∧ Run call Threshold Dispatcher.faultless s₀ d n' ∧
        ∃ h, Steps hartStep n' s₀.hart h ∧ d.State.host.Realizes h) ∧
    (CompilesOn alignment call → CallsOn alignment call → Steps (alignedStep s₀.Manager code) N s₀.traced u →
      ∃ d n', n ≤ n' ∧ n' < n + Threshold ∧ Run call Threshold (Dispatcher.faultlessOn alignment) s₀ d n' ∧
        ∃ h, Steps hartStep n' s₀.hart h ∧ d.State.host.Realizes h) := by
  constructor
  · intro hcall hcalls htraj
    exact run_reaches_hart (supportedStep_passing hcode) hcall hcalls htraj hpos hle
  · intro hcall hcalls htraj
    exact run_reaches_hart (alignedStep_passing hcode) hcall hcalls htraj hpos hle

section Example

/-- `sw x0, 8(x0)` at address 0, `beq x0, x0, -4` after it and four bytes of data. -/
private def looping (PC : BitVec 32) : CPUState :=
  ⟨fun _ => 0, PC, ⟨[⟨12, 0, Vector.ofFn ![0x23, 0x24, 0, 0, 0xE3, 0x0E, 0, 0xFE, 0, 0, 0, 0]⟩], 1, rfl⟩⟩

private theorem looping_served (c : BitVec 32) (hc : c = 0 ∨ c = 4) : served (looping 0).Manager c 4 := by
  rcases hc with rfl | rfl
  · exact ⟨_, rfl, by decide⟩
  · exact ⟨_, rfl, by decide⟩

private theorem looping_stored : (looping 0).hart.store 4 8 0 = (looping 0).hart := by
  have hdata : ∀ i < 4, (looping 0).Manager.bytes (8 + BitVec.ofNat 32 i) = LittleEndian.byte (0#32) i := by
    decide
  have hmem : ((looping 0).hart.store 4 8 0).mem = (looping 0).hart.mem := by
    funext b
    by_cases hb : (b - 8).toNat < 4
    · refine (if_pos hb).trans ((hdata _ hb).symm.trans ?_)
      rw [BitVec.ofNat_toNat, BitVec.setWidth_eq, BitVec.add_comm, BitVec.sub_add_cancel]
      rfl
    · exact if_neg hb
  exact congrArg (fun mem => ({ (looping 0).hart with mem } : Hart)) hmem

private theorem looping_store :
    alignedStep (looping 0).Manager (fun c => c = 0 ∨ c = 4) (looping 0).traced (looping 4).traced := by
  have hdecode : Rv32i.decode ((looping 0).hart.load 4 0) = some (.store 4 0 0 8) := by decide
  refine ⟨⟨.store 4 0 0 8, ⟨.inl rfl, hdecode, not_false, fun _ => rfl, ?_, ?_⟩, ?_, rfl⟩, ?_⟩
  · rintro a n ⟨⟩
    exact ⟨_, rfl, by decide⟩
  · rintro a n ⟨⟩ c (rfl | rfl)
    · exact .inr (by decide)
    · exact .inr (by decide)
  · show some ((looping 0).hart.store 4 8 0).next = _
    rw [looping_stored]
    rfl
  · intro i hi
    obtain rfl := Option.some.inj (hdecode.symm.trans hi)
    rintro a n ⟨⟩ p ⟨⟩
    rfl

private theorem looping_back :
    alignedStep (looping 0).Manager (fun c => c = 0 ∨ c = 4) (looping 4).traced (looping 0).traced := by
  have hdecode : Rv32i.decode ((looping 4).hart.load 4 4) = some (.branch .eq 0 0 (-4)) := by decide
  refine ⟨⟨.branch .eq 0 0 (-4), ⟨.inr rfl, hdecode, not_false, fun _ => rfl, ?_, ?_⟩, rfl, rfl⟩, ?_⟩
  · rintro a n ⟨⟩
  · rintro a n ⟨⟩
  · intro i hi
    obtain rfl := Option.some.inj (hdecode.symm.trans hi)
    rintro a n ⟨⟩

private theorem looping_steps (N : Nat) : ∃ u, Steps (alignedStep (looping 0).Manager fun c => c = 0 ∨ c = 4)
    (2 * N) (looping 0).traced u := by
  induction N with
  | zero => exact ⟨_, .refl _⟩
  | succ N ih =>
    obtain ⟨u, hu⟩ := ih
    exact ⟨u, .head looping_store (.head looping_back hu)⟩

/-- The loop over the endless program gets to a hundred instructions, two in a block. -/
theorem loop_progress_looping : (∃ d n', 100 ≤ n' ∧ n' < 100 + 2 ∧
    Run interpret 2 Dispatcher.faultless (looping 0) d n' ∧
      ∃ h, Steps hartStep n' (looping 0).hart h ∧ d.State.host.Realizes h) ∧
    ∃ d n', 100 ≤ n' ∧ n' < 100 + 2 ∧ Run interpret 2 (Dispatcher.faultlessOn alignment) (looping 0) d n' ∧
      ∃ h, Steps hartStep n' (looping 0).hart h ∧ d.State.host.Realizes h := by
  obtain ⟨u, hu⟩ := looping_steps 51
  obtain ⟨hfaultless, haligned⟩ := loop_progress interpret (looping 0) _ looping_served (2 * 51) u 2
    (by decide) 100 (by decide)
  constructor
  · exact hfaultless interpret_compiles interpret_calls (hu.map id fun _ _ hstep => hstep.1)
  · exact haligned (interpret_compiles.on alignment) (interpret_calls.on alignment) hu

private theorem looping_run : ∃ d, Run interpret 2 Dispatcher.faultless (looping 0) d 2 := by
  have hfetch : fetchLoop (looping 0).Manager 2 0 = .ok [0x00002423#32, 0xFE000EE3#32] := by decide
  have hruns : RunsTo (generateAll [0x00002423#32, 0xFE000EE3#32]) (looping 0) (looping 0) := by
    rw [RunsTo, runIr_generateAll]
    rfl
  obtain ⟨fr, hfr, -⟩ := map_eq_ok.mp hruns
  have htranslate := Dispatcher.translate_of_fetch (Dispatcher.start_linked (looping 0)) rfl hfetch
  exact ⟨_, .block .start htranslate ⟨fr, hfr⟩ (interpret_of_runsTo hruns)⟩

/-- One round of it is two steps of the hart. -/
theorem loop_realizes_looping : ∃ d, Run interpret 2 Dispatcher.faultless (looping 0) d 2 ∧
    ∃ h, Steps hartStep 2 (looping 0).hart h ∧ d.State.host.Realizes h := by
  obtain ⟨u, hu⟩ := looping_steps 1
  obtain ⟨d, hrun⟩ := looping_run
  exact ⟨d, hrun, loop_realizes_hart interpret interpret_compiles (looping 0) _ looping_served _ u
    (hu.map id fun _ _ hstep => hstep.1) Dispatcher.faultless 2 d 2 hrun (Nat.le_refl 2)⟩

end Example

end DBTranslator.Riscv
