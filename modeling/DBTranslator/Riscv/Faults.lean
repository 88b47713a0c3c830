import DBTranslator.Riscv.GuestBytes
import DBTranslator.Riscv.HostAlignment

/-! The undefined behaviour that a block can run into. Its code is well typed and defines every value
before it is used, so only data accesses are left. -/
namespace DBTranslator.Riscv
open Lib Lib.Ssa

/-- How an access fails: on poison, outside of all segments, where it is not aligned on the host, or past the
end of the first segment that has the address. -/
inductive Fails (m : MemoryManager) (width : Width) : Option (BitVec 32) → Fault → Prop
  | poison : Fails m width none .poison
  | unmapped {Addr : BitVec 32} : mapAddress m Addr = none → Fails m width (some Addr) .null
  | misaligned {Addr : BitVec 32} {p : HostPtr} : mapAddress m Addr = some p → p.off % width.bytes ≠ 0 →
      Fails m width (some Addr) (.misaligned p width.bytes)
  | outside {Addr : BitVec 32} {p : HostPtr} : mapAddress m Addr = some p → p.off % width.bytes = 0 →
      ¬ m.fits p width.bytes → Fails m width (some Addr) (.access p width.bytes)

section Word
variable {m : MemoryManager} {width : Width} {Addr : BitVec 32} {w : BitVec 32} {k : Instr} {σ : HostState} {f : Fault}

/-- How an access fails that is aligned or on poison. -/
private def unserved (m : MemoryManager) (width : Width) (a : Option (BitVec 32)) (f : Fault) : Prop :=
  match a with
  | some Addr => mapAddress m Addr = none ∧ f = .null ∨
      ∃ p, mapAddress m Addr = some p ∧ ¬ m.fits p width.bytes ∧ f = .access p width.bytes
  | none => f = .poison

private theorem fails_iff {a : Option (BitVec 32)} : Fails m width a f ↔
    accessCheck m width a = .error f ∨ accessCheck m width a = .ok () ∧ unserved m width a f := by
  rw [accessCheck_eq_error_iff, accessCheck_eq_ok_iff]
  constructor
  · intro h
    cases h with
    | poison => exact .inr ⟨fun _ => nofun, rfl⟩
    | unmapped hnone =>
      refine .inr ⟨?_, .inl ⟨hnone, rfl⟩⟩
      rintro _ ⟨⟩ p hp
      rw [hnone] at hp
      cases hp
    | misaligned hp hoff => exact .inl ⟨_, _, rfl, hp, hoff, rfl⟩
    | outside hp hoff hout =>
      refine .inr ⟨?_, .inr ⟨_, hp, hout, rfl⟩⟩
      rintro _ ⟨⟩ p' hp'
      rwa [← Option.some.inj (hp.symm.trans hp')]
  · rintro (⟨Addr, p, rfl, hp, hoff, rfl⟩ | ⟨haligned, hrest⟩)
    · exact .misaligned hp hoff
    · cases a with
      | none =>
        obtain rfl : f = .poison := hrest
        exact .poison
      | some Addr =>
        rcases hrest with ⟨hnone, rfl⟩ | ⟨p, hp, hout, rfl⟩
        · exact .unmapped hnone
        · exact .outside hp (haligned Addr rfl p hp) hout

private theorem read_error_iff : read width m Addr = .error f ↔ unserved m width (some Addr) f := by
  rw [unserved, read_eq, readMapped]
  cases hp : mapAddress m Addr with
  | none => simp [eq_comm]
  | some p =>
    by_cases hfit : m.fits p width.bytes
    · simp [MemoryManager.load_of_fits hfit, hfit]
    · simp [MemoryManager.load_of_not_fits hfit, hfit, eq_comm]

private theorem write_error_iff {v : BitVec (8 * width.bytes)} :
    write width m Addr v = .error f ↔ unserved m width (some Addr) f := by
  rw [unserved, write_eq, writeMapped]
  cases hp : mapAddress m Addr with
  | none => simp [eq_comm]
  | some p =>
    by_cases hfit : m.fits p width.bytes
    · obtain ⟨m', hm, -⟩ := MemoryManager.store_of_fits hfit v
      simp [hm, hfit]
    · simp [MemoryManager.store_of_not_fits hfit, hfit, eq_comm]

private theorem load_error_iff {ext : BitVec (8 * width.bytes) → BitVec 32} :
    loadEffect width ext w σ = .error f ↔ unserved σ.Manager width (HostState.access.loadAddress σ w) f := by
  rw [loadEffect, HostState.access.loadAddress]
  cases hx : σ.rs1 w with
  | none => rw [Option.map_none, unserved, Except.error.injEq, eq_comm]
  | some x => rw [Option.map_some, ← read_error_iff, map_eq_error]

private theorem store_error_iff :
    storeEffect width w σ = .error f ↔ unserved σ.Manager width (HostState.access.storeAddress σ w) f := by
  rw [storeEffect, HostState.access.storeAddress]
  cases hy : σ.rs2 w with
  | none =>
    rw [Option.bind_none, unserved]
    cases σ.rs1 w <;> simp [eq_comm]
  | some y =>
    cases hx : σ.rs1 w with
    | none => rw [Option.bind_some, Option.map_none, unserved, Except.error.injEq, eq_comm]
    | some x => rw [Option.bind_some, Option.map_some, ← write_error_iff, map_eq_error]

private theorem effect_error_iff : effect k w σ = .error f ↔
    ∃ width a, σ.access w k = some (width, a) ∧ unserved σ.Manager width a f := by
  have hone (width : Width) (a : Option (BitVec 32)) : unserved σ.Manager width a f ↔
      ∃ width' a', some (width, a) = some (width', a') ∧ unserved σ.Manager width' a' f := by
    constructor
    · intro h
      exact ⟨width, a, rfl, h⟩
    · rintro ⟨width', a', ⟨⟩, h⟩
      exact h
  cases k
  case LB | LH | LW | LBU | LHU => exact load_error_iff.trans (hone _ _)
  case SB | SH | SW => exact store_error_iff.trans (hone _ _)
  all_goals
    constructor
    · rintro ⟨⟩
    · rintro ⟨width, a, ⟨⟩, -⟩

/-- The code of a word fails exactly when its access does, and so. -/
theorem checkedEffect_error_iff : checkedEffect alignment k w σ = .error f ↔
    ∃ width a, σ.access w k = some (width, a) ∧ Fails σ.Manager width a f := by
  rw [checkedEffect, bind_eq_error, checkCall_alignment]
  simp only [effect_error_iff, fails_iff]
  cases haccess : σ.access w k with
  | none => simp
  | some x =>
    obtain ⟨width, a⟩ := x
    simp only [Option.some.injEq, Prod.mk.injEq]
    constructor
    · rintro (hcheck | ⟨_, hcheck, _, _, ⟨rfl, rfl⟩, hrest⟩)
      · exact ⟨width, a, ⟨rfl, rfl⟩, .inl hcheck⟩
      · exact ⟨width, a, ⟨rfl, rfl⟩, .inr ⟨hcheck, hrest⟩⟩
    · rintro ⟨_, _, ⟨rfl, rfl⟩, hcheck | ⟨hcheck, hrest⟩⟩
      · exact .inl hcheck
      · exact .inr ⟨(), hcheck, width, a, ⟨rfl, rfl⟩, hrest⟩

end Word

/-- A block fails exactly at its first word whose access fails, in the state that the words before it
leave. -/
theorem checkedAll_error_iff {check : CallCheck}
    {ws : List (BitVec 32)} {σ : HostState} {f : Fault} :
    checkedAll check ws σ = .error f ↔ ∃ k w σ', ws[k]? = some w ∧ checkedAll check (ws.take k) σ = .ok σ' ∧
      checkedEffect check (decode w) w σ' = .error f := by
  induction ws generalizing σ with
  | nil => simp [checkedAll]
  | cons w ws ih =>
    rw [checkedAll, bind_eq_error]
    constructor
    · rintro (hfirst | ⟨σ₁, hfirst, hrest⟩)
      · exact ⟨0, w, σ, rfl, rfl, hfirst⟩
      · obtain ⟨k, v, σ', hv, hbefore, hfault⟩ := ih.mp hrest
        refine ⟨k + 1, v, σ', hv, ?_, hfault⟩
        rw [List.take_succ_cons, checkedAll, hfirst, ok_bind, hbefore]
    · rintro ⟨k, v, σ', hv, hbefore, hfault⟩
      cases k with
      | zero =>
        obtain rfl := Option.some.inj hv
        obtain rfl := Except.ok.inj hbefore
        exact .inl hfault
      | succ k =>
        rw [List.take_succ_cons, checkedAll] at hbefore
        obtain ⟨σ₁, hfirst, hbefore⟩ := bind_eq_ok.mp hbefore
        exact .inr ⟨σ₁, hfirst, ih.mpr ⟨k, v, σ', hv, hbefore, hfault⟩⟩

/-- The undefined behaviour of a block on a host that asks for aligned accesses, from any state: at some word,
which the words before it get to, the data access is on poison, unmapped or misaligned, or leaves the segment
of its address. There is no other. -/
theorem block_fault_iff (b : Block) (σ : HostState) (f : Fault) :
    exec alignedHost b.code ⟨blockEnv, σ⟩ = .error f ↔ ∃ k w σ' width a, b.words[k]? = some w ∧
      runChecked alignment (generateAll (b.words.take k)) σ = .ok σ' ∧
        σ'.access w (decode w) = some (width, a) ∧ Fails σ'.Manager width a f := by
  rw [← map_eq_error (f := Frame.mem)]
  change runChecked alignment (generateAll b.words) σ = .error f ↔ _
  simp only [runChecked_generateAll, checkedAll_error_iff, checkedEffect_error_iff]
  constructor
  · rintro ⟨k, w, σ', hw, hbefore, width, a, haccess, hfails⟩
    exact ⟨k, w, σ', width, a, hw, hbefore, haccess, hfails⟩
  · rintro ⟨k, w, σ', width, a, hw, hbefore, haccess, hfails⟩
    exact ⟨k, w, σ', hw, hbefore, width, a, haccess, hfails⟩

end DBTranslator.Riscv
