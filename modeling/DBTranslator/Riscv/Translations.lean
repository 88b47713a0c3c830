import DBTranslator.Lib.Memo
import DBTranslator.Riscv.Dispatch
import DBTranslator.Riscv.Fetch
import DBTranslator.Riscv.GuestBytes
import Mathlib.Data.Set.Card

/-! What the tables of the dispatcher come to hold, over runs of any program, also one that changes its
own words: the words of the first visit, and no more entries than there are words in memory. -/
namespace DBTranslator.Riscv
open Lib Lib.Ssa Lib.CodeCache Lib.LittleEndian Relation

namespace Dispatcher
variable {d d₁ : Dispatcher} {Threshold : Nat} {b : Block} {PC : BitVec 32} {ws : List (BitVec 32)}

theorem Linked.cache_none (h : d.Linked) : d.cache PC = none ↔ d.PCToFunc PC = none := by
  constructor
  · intro hnone
    cases hfind : d.PCToFunc PC with
    | none => rfl
    | some name =>
      obtain ⟨-, b, hb⟩ := h.named PC name hfind
      rw [cache_of hfind hb] at hnone
      cases hnone
  · intro hnone
    rw [cache, hnone, Option.bind_none]

theorem translate_hit {name : String} (h : d.Linked) (hfind : d.PCToFunc d.State.PC = some name) :
    ∃ b, translate d Threshold = .ok (b, d) := by
  obtain ⟨-, b, hb⟩ := h.named _ _ hfind
  exact ⟨_, translate_of_cache h (cache_of hfind hb)⟩

theorem translate_of_miss (h : d.Linked) (hnone : d.cache d.State.PC = none)
    (hws : fetchLoop d.State.Manager Threshold d.State.PC = .ok ws) :
    ∃ d₁, translate d Threshold = .ok (⟨d.State.PC, ws⟩, d₁) :=
  ⟨_, translate_of_fetch h (h.cache_none.mp hnone) hws⟩

/-- A round that misses fails as the fetch of its words does, and only so. -/
theorem translate_error_iff (h : d.Linked) (hnone : d.cache d.State.PC = none) {e : TranslateError} :
    translate d Threshold = .error e ↔
      ∃ f, e = .fault f ∧ fetchLoop d.State.Manager Threshold d.State.PC = .error f := by
  cases hfetch : fetchLoop d.State.Manager Threshold d.State.PC with
  | ok ws =>
    obtain ⟨d₁, htranslate⟩ := translate_of_miss h hnone hfetch
    rw [htranslate]
    simp
  | error f =>
    have hgenerate : generateFunc d Threshold = .error (.fault f) := by
      rw [generateFunc, hfetch]
      rfl
    have htranslate : translate d Threshold = .error (.fault f) := by
      rw [translate, findOrGenerate, h.cache_none.mp hnone]
      dsimp only
      rw [hgenerate]
      rfl
    rw [htranslate]
    simp [eq_comm]

theorem translate_miss (h : d.Linked) (hnone : d.cache d.State.PC = none)
    (htranslate : translate d Threshold = .ok (b, d₁)) :
    b.start = d.State.PC ∧ fetchLoop d.State.Manager Threshold d.State.PC = .ok b.words := by
  rcases translate_cases h htranslate with ⟨hfind, -, -⟩ | ⟨ws, hws, rfl, -, -⟩
  · rw [h.cache_none.mp hnone] at hfind
    cases hfind
  · exact ⟨rfl, hws⟩

/-- The block of a round starts at the present address. -/
theorem translate_start (h : d.Linked) (htranslate : translate d Threshold = .ok (b, d₁)) :
    b.start = d.State.PC := by
  cases hws : d.cache d.State.PC with
  | none => exact (translate_miss h hws htranslate).1
  | some ws =>
    rw [translate_of_cache h hws] at htranslate
    obtain ⟨rfl, -⟩ := Prod.mk.inj (Except.ok.inj htranslate)
    rfl

end Dispatcher

/-- One round of the loop. -/
def Round (call : List (Inst MemoryFunction) → CPUState → CPUState → Prop) (Threshold : Nat)
    (d d' : Dispatcher) : Prop :=
  ∃ b d₁ s, translate d Threshold = .ok (b, d₁) ∧ call b.code d₁.State s ∧ d' = { d₁ with State := s }

section Rounds
variable {call : List (Inst MemoryFunction) → CPUState → CPUState → Prop} {Threshold : Nat} {d d' : Dispatcher}
  {s₀ : CPUState}

/-- The rounds that the loop makes are its runs. -/
theorem rounds_iff : ReflTransGen (Round call Threshold) (start s₀) d ↔
    ∃ n, Run call Threshold (fun _ _ => True) s₀ d n := by
  constructor
  · intro h
    induction h with
    | refl => exact ⟨0, .start⟩
    | tail _ hround ih =>
      obtain ⟨n, hrun⟩ := ih
      obtain ⟨b, d₁, s, htranslate, hcalled, rfl⟩ := hround
      exact ⟨_, hrun.block htranslate trivial hcalled⟩
  · rintro ⟨n, hrun⟩
    induction hrun with
    | start => exact .refl
    | block _ htranslate _ hcalled ih => exact ih.tail ⟨_, _, _, htranslate, hcalled, rfl⟩

/-- The tables are a memo of `generateFunc`. -/
theorem round_memoizes (call : List (Inst MemoryFunction) → CPUState → CPUState → Prop) (Threshold : Nat) :
    Memo.Memoizes Dispatcher.Linked (Round call Threshold) Dispatcher.cache (fun d => d.State.PC)
      fun d => (fetchLoop d.State.Manager Threshold d.State.PC).toOption := by
  constructor
  · rintro d d' hlinked ⟨b, d₁, s, htranslate, -, rfl⟩
    exact (Dispatcher.translate_linked hlinked htranslate).with_state s
  · rintro d d' PC hlinked ⟨b, d₁, s, htranslate, -, rfl⟩ hne
    rcases (Dispatcher.translate_serves hlinked htranslate).2 PC with heq | ⟨hPC, -⟩
    · exact heq
    · exact absurd hPC hne
  · rintro d d' ws hlinked ⟨b, d₁, s, htranslate, -, rfl⟩ hws
    rw [Dispatcher.translate_of_cache hlinked hws] at htranslate
    obtain ⟨rfl, rfl⟩ := Prod.mk.inj (Except.ok.inj htranslate)
    exact hws
  · rintro d d' hlinked ⟨b, d₁, s, htranslate, -, rfl⟩ hnone
    obtain ⟨-, hfetch⟩ := Dispatcher.translate_miss hlinked hnone htranslate
    refine ⟨b.words, ?_, (Dispatcher.translate_serves hlinked htranslate).1⟩
    rw [hfetch]
    rfl

theorem rounds_linked (h : ReflTransGen (Round call Threshold) (start s₀) d) : d.Linked :=
  (round_memoizes call Threshold).invariant (Dispatcher.start_linked s₀) h

end Rounds

/-- What a round comes to before it calls a block, in every state of the loop: at an address with an
entry, the block of the entry; at another, the words in memory up to a terminator or the threshold, or the
fault of the first word there that cannot be read. -/
theorem translate_outcome (call : List (Inst MemoryFunction) → CPUState → CPUState → Prop) (Threshold : Nat)
    (s₀ : CPUState) (d : Dispatcher) (hreach : ReflTransGen (Round call Threshold) (start s₀) d) :
    (∀ ws, d.cache d.State.PC = some ws → translate d Threshold = .ok (⟨d.State.PC, ws⟩, d)) ∧
    (d.cache d.State.PC = none →
      (∀ b, (∃ d₁, translate d Threshold = .ok (b, d₁)) ↔ b.start = d.State.PC ∧
        StandsAt d.State.Manager d.State.PC b.words ∧ b.words.length ≤ Threshold ∧
          (b.words.length < Threshold → Ended b.words)) ∧
      ∀ e, translate d Threshold = .error e ↔ ∃ f ws, e = .fault f ∧ ws.length < Threshold ∧
        StandsAt d.State.Manager d.State.PC ws ∧ ¬ Ended ws ∧
          read32 d.State.Manager (wordAddr d.State.PC ws.length) = .error f) := by
  have hlinked := rounds_linked hreach
  refine ⟨fun ws hws => Dispatcher.translate_of_cache hlinked hws, fun hnone => ⟨fun b => ?_, fun e => ?_⟩⟩
  · rw [← fetchLoop_ok_iff]
    constructor
    · rintro ⟨d₁, htranslate⟩
      exact Dispatcher.translate_miss hlinked hnone htranslate
    · rintro ⟨hstart, hws⟩
      obtain ⟨PC, ws⟩ := b
      subst hstart
      exact Dispatcher.translate_of_miss hlinked hnone hws
  · rw [Dispatcher.translate_error_iff hlinked hnone]
    constructor
    · rintro ⟨f, rfl, hfault⟩
      obtain ⟨ws, hrest⟩ := fetchLoop_error_iff.mp hfault
      exact ⟨f, ws, rfl, hrest⟩
    · rintro ⟨f, ws, rfl, hrest⟩
      exact ⟨f, rfl, fetchLoop_error_iff.mpr ⟨ws, hrest⟩⟩

/-- An address has the words that memory held from it on when it was first visited. Its block stays what
it is, whatever the program writes there later. -/
theorem translations_stay (call : List (Inst MemoryFunction) → CPUState → CPUState → Prop) (Threshold : Nat)
    (s₀ : CPUState) (d : Dispatcher) (hreach : ReflTransGen (Round call Threshold) (start s₀) d)
    (PC : BitVec 32) (ws : List (BitVec 32)) :
    (d.cache PC = some ws ↔ ∃ d', ReflTransGen (Round call Threshold) (start s₀) d' ∧
      TransGen (Round call Threshold) d' d ∧ d'.State.PC = PC ∧ d'.cache PC = none ∧
        fetchLoop d'.State.Manager Threshold PC = .ok ws) ∧
    (d.cache PC = some ws → ∀ d', ReflTransGen (Round call Threshold) d d' → d'.State.PC = PC →
      translate d' Threshold = .ok (⟨PC, ws⟩, d')) := by
  have hmemo := round_memoizes call Threshold
  have hlinked := rounds_linked hreach
  constructor
  · rw [hmemo.entry_iff (Dispatcher.start_linked s₀) (fun _ => rfl) hreach]
    have hfill (d' : Dispatcher) : (fetchLoop d'.State.Manager Threshold d'.State.PC).toOption = some ws ↔
        fetchLoop d'.State.Manager Threshold d'.State.PC = .ok ws := by
      cases fetchLoop d'.State.Manager Threshold d'.State.PC <;> simp [Except.toOption]
    constructor
    · rintro ⟨d', hbefore, hlater, rfl, hnone, hws⟩
      exact ⟨d', hbefore, hlater, rfl, hnone, (hfill d').mp hws⟩
    · rintro ⟨d', hbefore, hlater, rfl, hnone, hws⟩
      exact ⟨d', hbefore, hlater, rfl, hnone, (hfill d').mpr hws⟩
  · rintro hws d' hlater rfl
    exact Dispatcher.translate_of_cache (hmemo.invariant hlinked hlater) (hmemo.entry_stays hlinked hlater hws)

section Bound
variable {call : List (Inst MemoryFunction) → CPUState → CPUState → Prop} {Threshold n : Nat} {d : Dispatcher}
  {s₀ : CPUState} {w : BitVec 32} {k : Instr} {σ σ' : HostState}

/-- The code of the block runs to its end. -/
def Dispatcher.faultless (d : Dispatcher) (b : Block) : Prop :=
  ∃ fr, exec cpuHost b.code ⟨blockEnv, d.State.host⟩ = .ok fr

private theorem storeEffect_layout {width : Width} (heff : storeEffect width w σ = .ok σ') :
    σ'.Manager.layout = σ.Manager.layout := by
  unfold storeEffect at heff
  split at heff
  · obtain ⟨m', hwrite, rfl⟩ := map_eq_ok.mp heff
    exact write_layout hwrite
  · cases heff

/-- The segment table never changes. -/
theorem effect_layout (heff : effect k w σ = .ok σ') : σ'.Manager.layout = σ.Manager.layout := by
  cases k
  case SB | SH | SW => exact storeEffect_layout heff
  all_goals exact congrArg MemoryManager.layout (effect_Manager heff (by decide))

theorem effectAll_layout {ws : List (BitVec 32)} (heff : effectAll ws σ = .ok σ') :
    σ'.Manager.layout = σ.Manager.layout := by
  induction ws generalizing σ with
  | nil => rw [← Except.ok.inj heff]
  | cons w ws ih =>
    obtain ⟨σ₁, hfirst, hrest⟩ := bind_eq_ok.mp heff
    rw [ih hrest, effect_layout hfirst]

theorem Compiles.layout (hcall : Compiles call) {b : Block} {s : CPUState} (hrun : d.faultless b)
    (hcalled : call b.code d.State s) : s.Manager.layout = d.State.Manager.layout := by
  obtain ⟨fr, hfr⟩ := hrun
  obtain ⟨-, -, hmem⟩ := hcall _ _ _ _ hfr hcalled
  have heff : effectAll b.words d.State.host = .ok fr.mem := by
    rw [← runIr_generateAll, runIr]
    exact map_eq_ok.mpr ⟨fr, hfr, rfl⟩
  rw [hmem, effectAll_layout heff]
  rfl

/-- The addresses at which the rows of a segment table have a whole word. -/
def wordAddresses : List SegmentManager → Finset (BitVec 32)
  | [] => ∅
  | Seg :: Rest => (Finset.range (Seg.MemorySize.toNat - 3)).image (Seg.GuestAddress + BitVec.ofNat 32 ·) ∪
      wordAddresses Rest

theorem card_wordAddresses (Segs : List SegmentManager) :
    (wordAddresses Segs).card ≤ (Segs.map fun Seg => Seg.MemorySize.toNat - 3).sum := by
  induction Segs with
  | nil => exact Nat.le_refl 0
  | cons Seg Rest ih =>
    rw [wordAddresses, List.map_cons, List.sum_cons]
    refine (Finset.card_union_le _ _).trans (Nat.add_le_add ?_ ih)
    exact Finset.card_image_le.trans_eq (Finset.card_range _)

private theorem mem_wordAddresses {Segs : List SegmentManager} {Seg : SegmentManager} {o : Nat} (hSeg : Seg ∈ Segs)
    (ho : o + 4 ≤ Seg.MemorySize.toNat) : Seg.GuestAddress + BitVec.ofNat 32 o ∈ wordAddresses Segs := by
  induction Segs with
  | nil => cases hSeg
  | cons Seg' Rest ih =>
    rw [wordAddresses, Finset.mem_union]
    rcases List.mem_cons.mp hSeg with rfl | hRest
    · exact .inl (Finset.mem_image.mpr ⟨o, Finset.mem_range.mpr (by omega), rfl⟩)
    · exact .inr (ih hRest)

/-- A word is read only at such an address. -/
theorem mem_wordAddresses_of_read {m : MemoryManager} {Addr : BitVec 32} (h : read32 m Addr = .ok w) :
    Addr ∈ wordAddresses m.SegmentData := by
  rw [read32, readMapped] at h
  split at h
  · rename_i p hp
    obtain ⟨I, Seg, hI, hin, -, rfl⟩ := (mapAddress_eq_some_iff m Addr p).mp hp
    obtain ⟨Seg', hSeg', hle⟩ := MemoryManager.fits_of_load h
    obtain rfl : Seg = Seg' := Option.some.inj (hI.symm.trans hSeg')
    have haddr := mem_wordAddresses (List.mem_of_getElem? hI) hle
    have hrange := (Seg.inRange_iff Addr).mp hin
    have hsum : Seg.GuestAddress + BitVec.ofNat 32 (Addr.toNat - Seg.GuestAddress.toNat) = Addr := by
      rw [← SegmentManager.inRange_offset hin, BitVec.ofNat_toNat, BitVec.setWidth_eq, BitVec.add_comm,
        BitVec.sub_add_cancel]
    rwa [hsum] at haddr
  · cases h

theorem wordAddresses_of_layout {Segs Segs' : List SegmentManager}
    (h : (Segs'.map fun Seg => (Seg.GuestAddress, Seg.MemorySize)) = Segs.map fun Seg => (Seg.GuestAddress, Seg.MemorySize)) :
    wordAddresses Segs' = wordAddresses Segs := by
  induction Segs generalizing Segs' with
  | nil => rw [List.map_eq_nil_iff.mp h]
  | cons Seg Rest ih =>
    obtain ⟨Seg', Rest', rfl, hSeg, hRest⟩ := List.map_eq_cons_iff.mp h
    obtain ⟨hguest, hsize⟩ := Prod.mk.inj hSeg
    rw [wordAddresses, wordAddresses, ih hRest, hguest, hsize]

theorem Run.translated (hcall : Compiles call) (hpos : 0 < Threshold)
    (hrun : Run call Threshold Dispatcher.faultless s₀ d n) :
    d.Linked ∧ d.State.Manager.layout = s₀.Manager.layout ∧
      ∀ PC, d.PCToFunc PC ≠ none → PC ∈ wordAddresses s₀.Manager.SegmentData := by
  induction hrun with
  | start => exact ⟨Dispatcher.start_linked s₀, rfl, fun PC hne => absurd rfl hne⟩
  | @block d d₁ n b s _ htranslate hfaultless hcalled ih =>
    obtain ⟨hlinked, hlayout, hall⟩ := ih
    have hstate := Dispatcher.translate_state hlinked htranslate
    have hcalled' := hcall.layout hfaultless hcalled
    rw [hstate] at hcalled'
    refine ⟨(Dispatcher.translate_linked hlinked htranslate).with_state s, hcalled'.trans hlayout, fun PC hne => ?_⟩
    rcases Dispatcher.translate_cases hlinked htranslate with ⟨-, -, rfl⟩ | ⟨ws, hws, rfl, -, rfl⟩
    · exact hall PC hne
    · by_cases hPC : PC = d.State.PC
      · subst hPC
        obtain ⟨hstands, -, hended⟩ := fetchLoop_ok_iff.mp hws
        cases ws with
        | nil => exact absurd (hended hpos) not_ended_nil
        | cons w ws =>
          rw [← wordAddresses_of_layout hlayout]
          exact mem_wordAddresses_of_read (standsAt_cons.mp hstands).1
      · dsimp only at hne
        rw [Function.update_of_ne hPC] at hne
        exact hall PC hne

end Bound

/-- The tables never get more entries than there are words in the segments, at any alignment, as long as
no block runs into a fault. -/
theorem translations_bounded (call : List (Inst MemoryFunction) → CPUState → CPUState → Prop)
    (hcall : Compiles call) (Threshold : Nat) (hpos : 0 < Threshold) (s₀ : CPUState) (d : Dispatcher) (n : Nat)
    (hrun : Run call Threshold Dispatcher.faultless s₀ d n) :
    {PC | d.PCToFunc PC ≠ none}.Finite ∧ {PC | d.PCToFunc PC ≠ none}.ncard ≤
      (s₀.Manager.SegmentData.map fun Seg => Seg.MemorySize.toNat - 3).sum := by
  obtain ⟨-, -, hall⟩ := hrun.translated hcall hpos
  have hsub : {PC | d.PCToFunc PC ≠ none} ⊆ (wordAddresses s₀.Manager.SegmentData : Set (BitVec 32)) := hall
  refine ⟨(Finset.finite_toSet _).subset hsub, ?_⟩
  refine (Set.ncard_le_ncard hsub (Finset.finite_toSet _)).trans ?_
  rw [Set.ncard_coe_finset]
  exact card_wordAddresses _

section Example

/-- `sw x1, 0(x0)` and `beq x0, x0, -4` at address 0, or another first word, with a `fence` in `x1`. -/
private def overwriting (first : BitVec 32) : CPUState :=
  ⟨Function.update (fun _ => 0) 1 0x0F, 0, ⟨[⟨8, 0, Vector.ofFn ![byte first 0, byte first 1, byte first 2,
    byte first 3, 0xE3, 0x0E, 0, 0xFE]⟩], 1, rfl⟩⟩

private theorem overwriting_runs :
    RunsTo (generateAll [0x00102023#32, 0xFE000EE3#32]) (overwriting 0x00102023) (overwriting 0x0F) := by
  rw [RunsTo, runIr_generateAll]
  rfl

private theorem overwriting_translates : ∃ d₁, translate (start (overwriting 0x00102023)) 2 =
      .ok (⟨0, [0x00102023#32, 0xFE000EE3#32]⟩, d₁) ∧ d₁.State = overwriting 0x00102023 ∧
    d₁.cache 0 = some [0x00102023#32, 0xFE000EE3#32] := by
  have hfetch : fetchLoop (overwriting 0x00102023).Manager 2 0 = .ok [0x00102023#32, 0xFE000EE3#32] := by decide
  have hlinked := Dispatcher.start_linked (overwriting 0x00102023)
  have htranslate := Dispatcher.translate_of_fetch hlinked rfl hfetch
  exact ⟨_, htranslate, rfl, (Dispatcher.translate_serves hlinked htranslate).1⟩

private theorem overwriting_rounds : ∃ d, ReflTransGen (Round interpret 2) (start (overwriting 0x00102023)) d ∧
    d.State = overwriting 0x0F ∧ d.cache 0 = some [0x00102023#32, 0xFE000EE3#32] := by
  obtain ⟨d₁, htranslate, hstate, hcache⟩ := overwriting_translates
  refine ⟨{ d₁ with State := overwriting 0x0F }, .single ⟨_, d₁, _, htranslate, ?_, rfl⟩, rfl, hcache⟩
  rw [hstate]
  exact interpret_of_runsTo overwriting_runs

/-- The program that overwrites its first word: the words at 0 are others now, the block is the same. -/
theorem translations_stay_overwriting : ∃ d, ReflTransGen (Round interpret 2) (start (overwriting 0x00102023)) d ∧
    fetchLoop d.State.Manager 2 0 = .ok [0x0F#32, 0xFE000EE3#32] ∧
      translate d 2 = .ok (⟨0, [0x00102023#32, 0xFE000EE3#32]⟩, d) := by
  obtain ⟨d, hreach, hstate, hcache⟩ := overwriting_rounds
  refine ⟨d, hreach, ?_, (translations_stay interpret 2 _ _ hreach 0 _).2 hcache _ .refl (by rw [hstate]; rfl)⟩
  rw [hstate]
  decide

/-- After the program has changed its first word the round at 0 is a hit. At an unmapped address no
round gets to a call. -/
theorem translate_outcome_overwriting : (∃ d, ReflTransGen (Round interpret 2) (start (overwriting 0x00102023)) d ∧
    d.State = overwriting 0x0F ∧ translate d 2 = .ok (⟨0, [0x00102023#32, 0xFE000EE3#32]⟩, d)) ∧
    translate (start { overwriting 0x0F with PC := 8 }) 2 = .error (.fault .null) := by
  constructor
  · obtain ⟨d, hreach, hstate, hcache⟩ := overwriting_rounds
    have hPC : d.State.PC = 0 := by rw [hstate]; rfl
    refine ⟨d, hreach, hstate, ?_⟩
    rw [← hPC]
    exact (translate_outcome interpret 2 _ _ hreach).1 _ (hPC ▸ hcache)
  · refine (((translate_outcome interpret 2 _ _ .refl).2 rfl).2 _).mpr ⟨_, [], rfl, by decide, standsAt_nil, ?_, ?_⟩
    · exact not_ended_nil
    · rfl

/-- One block for the two words of the program, in a segment with room for five. -/
theorem translations_bounded_overwriting : ∃ d, Run interpret 2 Dispatcher.faultless (overwriting 0x00102023) d 2 ∧
    {PC | d.PCToFunc PC ≠ none}.ncard ≤ 5 := by
  obtain ⟨d₁, htranslate, hstate, -⟩ := overwriting_translates
  obtain ⟨fr, hfr, -⟩ := map_eq_ok.mp overwriting_runs
  have hcalled : interpret (Block.code ⟨0, [0x00102023#32, 0xFE000EE3#32]⟩) d₁.State (overwriting 0x0F) := by
    rw [hstate]
    exact interpret_of_runsTo overwriting_runs
  have hrun : Run interpret 2 Dispatcher.faultless (overwriting 0x00102023) { d₁ with State := overwriting 0x0F } 2 :=
    .block .start htranslate ⟨fr, by rw [hstate]; exact hfr⟩ hcalled
  exact ⟨_, hrun, (translations_bounded interpret interpret_compiles 2 (by decide) _ _ _ hrun).2⟩

end Example

end DBTranslator.Riscv
