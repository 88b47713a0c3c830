import DBTranslator.Riscv.SingleStep

/-! The dispatcher loop refines single-step execution: its tables are a cache of the words
still in memory, whatever the threshold that cut them into blocks. -/
namespace DBTranslator.Riscv
open Lib Lib.Ssa Lib.CodeCache

theorem blockName_injective {PC PC' : BitVec 32} (h : blockName PC = blockName PC') : PC = PC' := by
  have hdigits : (Nat.repr PC.toNat).toList = (Nat.repr PC'.toNat).toList :=
    congrArg String.toList (String.append_right_inj "block_" |>.mp h)
  rw [Nat.toList_repr, Nat.toList_repr] at hdigits
  have hnat := congrArg (Nat.ofDigitChars 10 · 0) hdigits
  simp only [Nat.ofDigitChars_ten_toDigits] at hnat
  exact BitVec.eq_of_toNat_eq hnat

namespace Dispatcher

/-- The two tables as one map from addresses to the words of their blocks. -/
def cache (d : Dispatcher) : Cache (BitVec 32) (BitVec 32) := fun PC =>
  (d.PCToFunc PC).bind fun name => (d.JIT name).map Block.words

/-- The addresses of the words that `generateFunc` has fetched. -/
def fetched (d : Dispatcher) (a : BitVec 32) : Prop :=
  ∃ name b, d.JIT name = some b ∧ ∃ k < b.words.length, a = wordAddr b.start k

/-- Every entry is under the name of its address, and the tables have the same entries. -/
structure Linked (d : Dispatcher) : Prop where
  named : ∀ PC name, d.PCToFunc PC = some name → name = blockName PC ∧ ∃ b, d.JIT name = some b
  listed : ∀ name b, d.JIT name = some b →
    name = blockName b.start ∧ d.PCToFunc b.start = some name

theorem start_linked (s : CPUState) : (start s).Linked := by
  constructor
  · rintro PC name ⟨⟩
  · rintro name b ⟨⟩

variable {d d₁ : Dispatcher} {Threshold : Nat} {b : Block}

theorem cache_of {PC : BitVec 32} {name : String} (hname : d.PCToFunc PC = some name)
    (hb : d.JIT name = some b) : d.cache PC = some b.words := by
  rw [cache, hname, Option.bind_some, hb, Option.map_some]

theorem Linked.with_state (h : d.Linked) (s : CPUState) : Linked { d with State := s } :=
  ⟨h.named, h.listed⟩

private theorem insertNew_of_none {K V : Type} [DecidableEq K] {m : K → Option V} {k : K} (v : V)
    (h : m k = none) : insertNew m k v = Function.update m k (some v) := by
  rw [insertNew, h]

private theorem insertNew_of_some {K V : Type} [DecidableEq K] {m : K → Option V} {k : K} {x : V} (v : V)
    (h : m k = some x) : insertNew m k v = m := by
  rw [insertNew, h]

private theorem lookup_of {name : String} (hname : d.PCToFunc d.State.PC = some name)
    (hb : d.JIT name = some b) : lookup d = .ok b := by
  simp only [lookup, hname, Option.getD_some, hb]

/-- What a round does before it calls the block: a hit changes nothing, a miss adds one entry
with freshly fetched words to both tables. -/
theorem translate_cases (hlinked : d.Linked) (h : translate d Threshold = .ok (b, d₁)) :
    d.PCToFunc d.State.PC = some (blockName d.State.PC) ∧
        d.JIT (blockName d.State.PC) = some b ∧ d₁ = d ∨
      ∃ ws, fetchLoop d.State.Manager Threshold d.State.PC = .ok ws ∧ b = ⟨d.State.PC, ws⟩ ∧
        d.PCToFunc d.State.PC = none ∧ d₁ = { d with
          PCToFunc := Function.update d.PCToFunc d.State.PC (some (blockName d.State.PC))
          JIT := Function.update d.JIT (blockName d.State.PC) (some b) } := by
  obtain ⟨d₂, hd₂, h⟩ := bind_eq_ok.mp h
  obtain ⟨b', hb', h⟩ := bind_eq_ok.mp h
  obtain ⟨rfl, rfl⟩ := Prod.mk.inj (Except.ok.inj h)
  unfold findOrGenerate at hd₂
  cases hfind : d.PCToFunc d.State.PC with
  | some name =>
    rw [hfind] at hd₂
    obtain rfl : d = d₂ := Except.ok.inj hd₂
    obtain ⟨rfl, b, hb⟩ := hlinked.named _ _ hfind
    obtain rfl : b = b' := Except.ok.inj ((lookup_of hfind hb).symm.trans hb')
    exact .inl ⟨rfl, hb, rfl⟩
  | none =>
    rw [hfind] at hd₂
    obtain ⟨⟨name, d'⟩, hgen, hd₂⟩ := bind_eq_ok.mp hd₂
    obtain ⟨ws, hws, rfl, hfree, rfl⟩ := generateFunc_ok hgen
    obtain rfl := Except.ok.inj hd₂
    dsimp only at hb'
    rw [insertNew_of_none _ hfind] at hb' ⊢
    rw [insertNew_of_some _ (Function.update_self ..)] at hb' ⊢
    have hfound := lookup_of (d := { d with
      PCToFunc := Function.update d.PCToFunc d.State.PC (some (blockName d.State.PC))
      JIT := Function.update d.JIT (blockName d.State.PC) (some ⟨d.State.PC, ws⟩) })
      (Function.update_self ..) (Function.update_self ..)
    obtain rfl := Except.ok.inj (hfound.symm.trans hb')
    exact .inr ⟨ws, hws, rfl, rfl, rfl⟩

/-- A round that misses succeeds when every word of the new block can be fetched. -/
theorem translate_of_fetch (hlinked : d.Linked) (hnone : d.PCToFunc d.State.PC = none)
    {ws : List (BitVec 32)} (hws : fetchLoop d.State.Manager Threshold d.State.PC = .ok ws) :
    translate d Threshold = .ok (⟨d.State.PC, ws⟩, { d with
      PCToFunc := Function.update d.PCToFunc d.State.PC (some (blockName d.State.PC))
      JIT := Function.update d.JIT (blockName d.State.PC) (some ⟨d.State.PC, ws⟩) }) := by
  have hfree : d.JIT (blockName d.State.PC) = none := by
    cases hJIT : d.JIT (blockName d.State.PC) with
    | none => rfl
    | some b =>
      obtain ⟨hname, hfind⟩ := hlinked.listed _ b hJIT
      rw [← blockName_injective hname, hnone] at hfind
      cases hfind
  have hgenerate : findOrGenerate d Threshold = .ok { d with
      PCToFunc := Function.update d.PCToFunc d.State.PC (some (blockName d.State.PC))
      JIT := Function.update d.JIT (blockName d.State.PC) (some ⟨d.State.PC, ws⟩) } := by
    rw [findOrGenerate, hnone]
    dsimp only
    rw [generateFunc_of_fetch hws hfree, ok_bind]
    dsimp only
    rw [insertNew_of_none _ hnone, insertNew_of_some _ (Function.update_self ..)]
    rfl
  rw [translate, hgenerate, ok_bind, lookup_of (Function.update_self ..) (Function.update_self ..)]
  rfl

/-- The entries of an address are its name and a block that starts there. -/
theorem Linked.cache_some {PC : BitVec 32} {ws : List (BitVec 32)} (h : d.Linked) (hws : d.cache PC = some ws) :
    d.PCToFunc PC = some (blockName PC) ∧ d.JIT (blockName PC) = some ⟨PC, ws⟩ := by
  obtain ⟨name, hname, hmap⟩ := Option.bind_eq_some_iff.mp hws
  obtain ⟨b, hb, rfl⟩ := Option.map_eq_some_iff.mp hmap
  obtain ⟨rfl, -⟩ := h.named PC name hname
  obtain rfl : PC = b.start := blockName_injective (h.listed _ b hb).1
  exact ⟨hname, hb⟩

/-- A round that hits calls the block it finds. -/
theorem translate_of_cache {ws : List (BitVec 32)} (h : d.Linked) (hws : d.cache d.State.PC = some ws) :
    translate d Threshold = .ok (⟨d.State.PC, ws⟩, d) := by
  obtain ⟨hname, hb⟩ := h.cache_some hws
  have hgenerate : findOrGenerate d Threshold = .ok d := by rw [findOrGenerate, hname]
  have hlookup : lookup d = .ok ⟨d.State.PC, ws⟩ := by simp only [lookup, hname, Option.getD_some, hb]
  rw [translate, hgenerate, ok_bind, hlookup]
  rfl

theorem translate_state (hlinked : d.Linked) (h : translate d Threshold = .ok (b, d₁)) :
    d₁.State = d.State := by
  rcases translate_cases hlinked h with ⟨-, -, rfl⟩ | ⟨ws, -, -, -, rfl⟩
  · rfl
  · rfl

theorem translate_linked (hlinked : d.Linked) (h : translate d Threshold = .ok (b, d₁)) :
    d₁.Linked := by
  rcases translate_cases hlinked h with ⟨-, -, rfl⟩ | ⟨ws, -, rfl, hnone, rfl⟩
  · exact hlinked
  · constructor
    · intro PC name hname
      dsimp only at hname ⊢
      by_cases hPC : PC = d.State.PC
      · subst hPC
        rw [Function.update_self] at hname
        obtain rfl := Option.some.inj hname
        exact ⟨rfl, _, Function.update_self ..⟩
      · rw [Function.update_of_ne hPC] at hname
        obtain ⟨rfl, b, hb⟩ := hlinked.named PC name hname
        have hne : blockName PC ≠ blockName d.State.PC := fun heq => hPC (blockName_injective heq)
        exact ⟨rfl, b, by rw [Function.update_of_ne hne, hb]⟩
    · intro name b hb
      dsimp only at hb ⊢
      by_cases hname : name = blockName d.State.PC
      · subst hname
        rw [Function.update_self] at hb
        obtain rfl := Option.some.inj hb
        exact ⟨rfl, Function.update_self ..⟩
      · rw [Function.update_of_ne hname] at hb
        obtain ⟨rfl, hfind⟩ := hlinked.listed name b hb
        have hne : b.start ≠ d.State.PC := fun heq => hname (by rw [heq])
        exact ⟨rfl, by rw [Function.update_of_ne hne, hfind]⟩

private theorem address_eq (a : BitVec 32) (k : Nat) : guest.address a k = wordAddr a k := by
  induction k generalizing a with
  | zero => exact (wordAddr_zero a).symm
  | succ k ih => rw [Machine.address, ih, ← wordAddr_next]; rfl

/-- The fetched words are those of the cache. -/
theorem Linked.fetched_eq (h : d.Linked) : Cache.fetched guest d.cache = d.fetched := by
  funext a
  apply propext
  constructor
  · rintro ⟨PC, ws, hws, k, hk, rfl⟩
    obtain ⟨name, hname, hmap⟩ := Option.bind_eq_some_iff.mp hws
    obtain ⟨b, hb, rfl⟩ := Option.map_eq_some_iff.mp hmap
    have hstart : b.start = PC :=
      blockName_injective ((h.listed name b hb).1.symm.trans (h.named PC name hname).1)
    exact ⟨name, b, hb, k, hk, by rw [address_eq, hstart]⟩
  · rintro ⟨name, b, hb, k, hk, rfl⟩
    exact ⟨b.start, b.words, cache_of (h.listed name b hb).2 hb, k, hk, (address_eq b.start k).symm⟩

/-- A round serves the block of the present `PC` from the cache, filled from present memory. -/
theorem translate_serves (hlinked : d.Linked) (h : translate d Threshold = .ok (b, d₁)) :
    Cache.Serves guest d.cache d₁.cache d.State b.words := by
  rcases translate_cases hlinked h with ⟨hfind, hb, rfl⟩ | ⟨ws, hws, rfl, hnone, rfl⟩
  · exact ⟨cache_of hfind hb, fun a => .inl rfl⟩
  · constructor
    · exact cache_of (Function.update_self ..) (Function.update_self ..)
    · intro PC
      by_cases hPC : PC = d.State.PC
      · subst hPC
        refine .inr ⟨rfl, Machine.straight_of_get fun k w => fetchLoop_terminator hws,
          Machine.holds_of_get fun k w hw => ?_⟩
        rw [address_eq]
        show (read32 d.State.Manager _).toOption = _
        rw [fetchLoop_read hws hw]
        rfl
      · left
        simp only [cache, Function.update_of_ne hPC]
        cases hfind : d.PCToFunc PC with
        | none => rfl
        | some name =>
          obtain ⟨rfl, -⟩ := hlinked.named PC name hfind
          have hne : blockName PC ≠ blockName d.State.PC := fun heq => hPC (blockName_injective heq)
          simp only [Option.bind_some, Function.update_of_ne hne]

end Dispatcher

/-- The conditions on every word of a block as execution meets it. -/
def DefinedAll (fetched : BitVec 32 → Prop) : List (BitVec 32) → CPUState → Prop
  | [], _ => True
  | w :: ws, s => Defined fetched w s ∧
      ∀ t, RunsTo (generate (decode w) w) s t → DefinedAll fetched ws t

/-- A block that meets the conditions runs as its words one after another. -/
theorem DefinedAll.runs {fetched : BitVec 32 → Prop} {ws : List (BitVec 32)} {s : CPUState}
    (h : DefinedAll fetched ws s) : ∃ t, guest.ExecAll (Defined fetched) ws s t ∧
      RunsTo (generateAll ws) s t := by
  induction ws generalizing s with
  | nil => exact ⟨s, .nil s, rfl⟩
  | cons w ws ih =>
    obtain ⟨hw, hws⟩ := h
    obtain ⟨t, ht⟩ := hw.runs
    obtain ⟨u, hexec, hu⟩ := ih (hws t ht)
    refine ⟨u, .cons hw ht hexec, ?_⟩
    rw [RunsTo, runIr_generateAll, effectAll, runsTo_iff.mp ht, ok_bind, ← runIr_generateAll]
    exact hu

/-- The block about to run meets the conditions, its stores avoiding every word fetched so far. -/
def Dispatcher.allowed (d : Dispatcher) (b : Block) : Prop := DefinedAll d.fetched b.words d.State

theorem guest_keeps (fetched : BitVec 32 → Prop) : guest.Keeps (Defined fetched) fetched := by
  intro w s t a hok hexec ha
  exact congrArg Except.toOption (hok.load_of_runs hexec a ha)

theorem guest_advances (fetched : BitVec 32 → Prop) : guest.Advances (Defined fetched) := by
  intro w s t hok hends hexec
  exact hok.PC_of_runs hexec hends

theorem guest_step_unique {s t u : CPUState} (h : guest.step s t) (h' : guest.step s u) : t = u := by
  obtain ⟨w, hw, hexec⟩ := h
  obtain ⟨w', hw', hexec'⟩ := h'
  obtain rfl : w = w' := Option.some.inj (hw.symm.trans hw')
  exact hexec.unique hexec'

section Refinement
variable {call : List (Inst MemoryFunction) → CPUState → CPUState → Prop} {Threshold n : Nat}
  {d d₁ : Dispatcher} {b : Block} {s s₀ t : CPUState}

/-- Compiled code of a block that runs to a concrete state leaves that state. -/
theorem Compiles.eq_of_runsTo (hcall : Compiles call) (hrun : RunsTo (generateAll b.words) s t)
    {s' : CPUState} (hcalled : call b.code s s') : s' = t := by
  obtain ⟨fr, hfr, hmem⟩ := map_eq_ok.mp hrun
  have hconc := hcall b.code s s' fr hfr hcalled
  rw [← hmem] at hconc
  exact (t.host_concretises s').mp hconc

/-- One round of the loop: the executed block is as many single steps as it has words, and the
cache still describes memory. -/
theorem round_refines (hcall : Compiles call) (hlinked : d.Linked)
    (hvalid : Cache.Valid guest d.cache d.State) (htranslate : translate d Threshold = .ok (b, d₁))
    (hallowed : d₁.allowed b) (hcalled : call b.code d₁.State s) :
    Steps guest.step b.words.length d.State s ∧ Cache.Valid guest d₁.cache s := by
  have hstate := Dispatcher.translate_state hlinked htranslate
  have hfetched := (Dispatcher.translate_linked hlinked htranslate).fetched_eq
  obtain ⟨t, hexec, hrun⟩ := DefinedAll.runs hallowed
  obtain rfl : s = t := hcall.eq_of_runsTo hrun hcalled
  rw [hstate, ← hfetched] at hexec
  exact (Dispatcher.translate_serves hlinked htranslate).refines hvalid (guest_advances _)
    (guest_keeps _) hexec

/-- The invariant of the loop, over a run of any length. -/
theorem Run.refines (hcall : Compiles call)
    (hrun : Run call Threshold Dispatcher.allowed s₀ d n) :
    d.Linked ∧ Cache.Valid guest d.cache d.State ∧ Steps guest.step n s₀ d.State := by
  induction hrun with
  | start =>
    refine ⟨Dispatcher.start_linked s₀, ?_, .refl s₀⟩
    rintro PC ws ⟨⟩
  | block _ htranslate hallowed hcalled ih =>
    obtain ⟨hlinked, hvalid, hsteps⟩ := ih
    obtain ⟨hblock, hvalid'⟩ := round_refines hcall hlinked hvalid htranslate hallowed hcalled
    exact ⟨(Dispatcher.translate_linked hlinked htranslate).with_state _, hvalid',
      hsteps.append hblock⟩

end Refinement

/-- Translated execution refines single-step execution: in every run of the loop without
undefined behaviour, whatever the threshold, each executed block takes its state to the one
reached by as many single steps as it has words. Two runs from one state are on one trajectory. -/
theorem dispatch_refines_single_steps (call : List (Inst MemoryFunction) → CPUState → CPUState → Prop)
    (hcall : Compiles call) (s₀ : CPUState) :
    (∀ Threshold d n, Run call Threshold Dispatcher.allowed s₀ d n →
      Steps guest.step n s₀ d.State ∧ ∀ b d₁ s, translate d Threshold = .ok (b, d₁) →
        d₁.allowed b → call b.code d₁.State s → Steps guest.step b.words.length d.State s) ∧
    ∀ Threshold Threshold' d d' n n', Run call Threshold Dispatcher.allowed s₀ d n →
      Run call Threshold' Dispatcher.allowed s₀ d' n' → n ≤ n' →
        Steps guest.step (n' - n) d.State d'.State := by
  constructor
  · intro Threshold d n hrun
    obtain ⟨hlinked, hvalid, hsteps⟩ := hrun.refines hcall
    refine ⟨hsteps, fun b d₁ s htranslate hallowed hcalled => ?_⟩
    exact (round_refines hcall hlinked hvalid htranslate hallowed hcalled).1
  · intro Threshold Threshold' d d' n n' hrun hrun' hle
    obtain ⟨-, -, hsteps⟩ := hrun.refines hcall
    obtain ⟨-, -, hsteps'⟩ := hrun'.refines hcall
    exact hsteps.between (fun s t u => guest_step_unique) hsteps' hle

section Example

/-- `sw x1, 8(x0)` at address 0 and `beq x0, x0, -4` after it, with 5 in `x1` and a byte of data. -/
private def storeLoop (PC : BitVec 32) (v : BitVec 8) : CPUState :=
  ⟨Function.update (fun _ => 0) 1 5, PC,
    ⟨[⟨12, 0, Vector.ofFn ![0x23, 0x24, 0x10, 0, 0xE3, 0x0E, 0, 0xFE, v, 0, 0, 0]⟩], 1, rfl⟩⟩

private def TwoWords (JIT : String → Option Block) : Prop :=
  ∀ name b, JIT name = some b → b.start.toNat + 4 * b.words.length ≤ 8

private theorem twoWords_one {name : String} {b : Block} (hb : b.start.toNat + 4 * b.words.length ≤ 8) :
    TwoWords (Function.update (fun _ => none) name (some b)) := by
  intro name' b' hb'
  by_cases hname : name' = name
  · subst hname
    rw [Function.update_self] at hb'
    rwa [← Option.some.inj hb']
  · rw [Function.update_of_ne hname] at hb'
    cases hb'

private theorem store_defined {d : Dispatcher} (h : TwoWords d.JIT) (v : BitVec 8) :
    Defined d.fetched 0x00102423#32 (storeLoop 0 v) := by
  have hdecode : decode 0x00102423#32 = .SW := by decide
  constructor <;> rw [hdecode]
  · decide
  · decide
  · rintro width ⟨⟩
  · rintro width ⟨⟩
    have haddress : storeAddress 0x00102423#32 (storeLoop 0 v) = 8 := rfl
    rw [haddress]
    refine ⟨⟨_, rfl, _, rfl, by simp [Width.bytes]⟩, ?_⟩
    rintro a ⟨name, b, hb, k, hk, rfl⟩
    have hle := h name b hb
    refine .inr ?_
    change _ ≤ 8
    rw [wordAddr, BitVec.toNat_add, BitVec.toNat_ofNat]
    omega
  · rintro ⟨⟩

private theorem branch_defined (fetched : BitVec 32 → Prop) (s : CPUState) : Defined fetched 0xFE000EE3#32 s := by
  have hdecode : decode 0xFE000EE3#32 = .BEQ := by decide
  constructor <;> rw [hdecode]
  · decide
  · decide
  · rintro width ⟨⟩
  · rintro width ⟨⟩
  · rintro ⟨⟩

private theorem allowed_pair {d : Dispatcher} (h : TwoWords d.JIT) {v : BitVec 8} (hstate : d.State = storeLoop 0 v) :
    d.allowed ⟨0, [0x00102423#32, 0xFE000EE3#32]⟩ := by
  rw [Dispatcher.allowed, hstate]
  exact ⟨store_defined h v, fun t _ => ⟨branch_defined _ t, fun _ _ => trivial⟩⟩

private theorem allowed_store {d : Dispatcher} (h : TwoWords d.JIT) {v : BitVec 8} (hstate : d.State = storeLoop 0 v) :
    d.allowed ⟨0, [0x00102423#32]⟩ := by
  rw [Dispatcher.allowed, hstate]
  exact ⟨store_defined h v, fun _ _ => trivial⟩

private theorem storeLoop_called (v : BitVec 8) (hv : v = 0 ∨ v = 5) :
    interpret (Block.code ⟨0, [0x00102423#32, 0xFE000EE3#32]⟩) (storeLoop 0 v) (storeLoop 0 5) := by
  apply interpret_of_runsTo
  rw [RunsTo, runIr_generateAll]
  rcases hv with rfl | rfl
  · rfl
  · rfl

private theorem storeLoop_run_first : ∃ d, Run interpret 2 Dispatcher.allowed (storeLoop 0 0) d 2 ∧ d.Linked ∧
    d.State = storeLoop 0 5 ∧ d.cache 0 = some [0x00102423#32, 0xFE000EE3#32] ∧ TwoWords d.JIT := by
  have hfetch : fetchLoop (storeLoop 0 0).Manager 2 0 = .ok [0x00102423#32, 0xFE000EE3#32] := by decide
  have hlinked := Dispatcher.start_linked (storeLoop 0 0)
  obtain ⟨d, htranslate, htwo⟩ : ∃ d, translate (start (storeLoop 0 0)) 2 =
      .ok (⟨0, [0x00102423#32, 0xFE000EE3#32]⟩, d) ∧ TwoWords d.JIT :=
    ⟨_, Dispatcher.translate_of_fetch hlinked rfl hfetch, twoWords_one (by decide)⟩
  have hstate := Dispatcher.translate_state hlinked htranslate
  refine ⟨{ d with State := storeLoop 0 5 }, Run.block Run.start htranslate (allowed_pair htwo hstate) ?_,
    (Dispatcher.translate_linked hlinked htranslate).with_state _, rfl,
    (Dispatcher.translate_serves hlinked htranslate).1, htwo⟩
  rw [hstate]
  exact storeLoop_called 0 (.inl rfl)

private theorem storeLoop_run_two : ∃ d, Run interpret 2 Dispatcher.allowed (storeLoop 0 0) d 4 := by
  obtain ⟨d, hrun, hlinked, hstate, hcache, htwo⟩ := storeLoop_run_first
  have hPC : d.State.PC = 0 := by rw [hstate]; rfl
  rw [← hPC] at hcache
  have hcached : translate d 2 = _ := Dispatcher.translate_of_cache hlinked hcache
  rw [hPC] at hcached
  refine ⟨{ d with State := storeLoop 0 5 }, hrun.block hcached (allowed_pair htwo hstate) ?_⟩
  rw [hstate]
  exact storeLoop_called 5 (.inr rfl)

private theorem storeLoop_run_one : ∃ d, Run interpret 1 Dispatcher.allowed (storeLoop 0 0) d 2 := by
  have hfetch : fetchLoop (storeLoop 0 0).Manager 1 0 = .ok [0x00102423#32] := by decide
  have hfetch' : fetchLoop (storeLoop 4 5).Manager 1 4 = .ok [0xFE000EE3#32] := by decide
  have hcalled : interpret (Block.code ⟨0, [0x00102423#32]⟩) (storeLoop 0 0) (storeLoop 4 5) :=
    interpret_of_runsTo (by rw [RunsTo, runIr_generateAll]; rfl)
  have hcalled' : interpret (Block.code ⟨4, [0xFE000EE3#32]⟩) (storeLoop 4 5) (storeLoop 0 5) :=
    interpret_of_runsTo (by rw [RunsTo, runIr_generateAll]; rfl)
  have hlinked := Dispatcher.start_linked (storeLoop 0 0)
  have htranslate := Dispatcher.translate_of_fetch hlinked rfl hfetch
  have hfirst := Run.block Run.start htranslate (allowed_store (twoWords_one (by decide)) rfl) hcalled
  have hlinked' := (Dispatcher.translate_linked hlinked htranslate).with_state (storeLoop 4 5)
  have htranslate' := Dispatcher.translate_of_fetch hlinked' rfl hfetch'
  exact ⟨_, Run.block hfirst htranslate' ⟨branch_defined _ _, fun _ _ => trivial⟩ hcalled'⟩

/-- The loop once in two blocks and twice in one block, the second time from the cache. -/
theorem dispatch_refines_storing : ∃ d d', Run interpret 1 Dispatcher.allowed (storeLoop 0 0) d 2 ∧
    Run interpret 2 Dispatcher.allowed (storeLoop 0 0) d' 4 ∧ Steps guest.step 2 d.State d'.State := by
  obtain ⟨d, hrun⟩ := storeLoop_run_one
  obtain ⟨d', hrun'⟩ := storeLoop_run_two
  refine ⟨d, d', hrun, hrun', ?_⟩
  exact (dispatch_refines_single_steps interpret interpret_compiles (storeLoop 0 0)).2 1 2 d d' 2 4
    hrun hrun' (by decide)

end Example

end DBTranslator.Riscv
