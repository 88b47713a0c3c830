import DBTranslator.Lib.FirstMatch
import DBTranslator.Riscv.Elf
import DBTranslator.Riscv.FlatMemory

/-! The address map at the edges: its test looks at the first byte of an access only, and adds the
size to the base in 32 bits. -/
namespace DBTranslator.Riscv
open Lib.BitField Lib.FirstMatch

/-- Wherever the map sends an access, all its bytes are in the buffer: it is served. -/
def Inside (m : MemoryManager) (w : Width) (Addr : BitVec 32) : Prop :=
  ∀ p, mapAddress m Addr = some p → m.fits p w.bytes ∧ (∃ v, read w m Addr = .ok v) ∧
    ∀ Data, ∃ m', write w m Addr Data = .ok m'

/-- The access starts in the last bytes of the first segment whose test it passes. -/
def NearEnd (m : MemoryManager) (w : Width) (Addr : BitVec 32) : Prop :=
  ∃ I Seg, m.SegmentData[I]? = some Seg ∧ First m.SegmentData (·.inRange Addr) I ∧
    Seg.GuestAddress.toNat + Seg.MemorySize.toNat < Addr.toNat + w.bytes

section Lookup
variable {m : MemoryManager} {Addr : BitVec 32}

/-- The map gives the offset in the first segment whose test the address passes. -/
theorem mapAddress_eq_some_iff_first (p : HostPtr) : mapAddress m Addr = some p ↔
    ∃ I Seg, m.SegmentData[I]? = some Seg ∧ First m.SegmentData (·.inRange Addr) I ∧
      p = ⟨.Memory I, Addr.toNat - Seg.GuestAddress.toNat⟩ := by
  rw [mapAddress_eq_some_iff]
  constructor
  · rintro ⟨I, Seg, hI, hin, hfirst, rfl⟩
    exact ⟨I, Seg, hI, ⟨⟨Seg, hI, hin⟩, hfirst⟩, rfl⟩
  · rintro ⟨I, Seg, hI, hfirst, rfl⟩
    exact ⟨I, Seg, hI, hfirst.satisfies hI, hfirst.2, rfl⟩

theorem mapAddress_eq_none_iff : mapAddress m Addr = none ↔
    ∀ Seg ∈ m.SegmentData, ¬ Seg.inRange Addr := by
  constructor
  · intro hnone Seg hSeg hin
    obtain ⟨I, hI⟩ := exists_first (P := fun Seg : SegmentManager => Seg.inRange Addr) hSeg hin
    obtain ⟨Seg', hget, -⟩ := hI.1
    rw [(mapAddress_eq_some_iff_first _).mpr ⟨I, Seg', hget, hI, rfl⟩] at hnone
    cases hnone
  · intro hall
    cases hmap : mapAddress m Addr with
    | none => rfl
    | some p =>
      obtain ⟨I, Seg, hget, hfirst, -⟩ := (mapAddress_eq_some_iff_first p).mp hmap
      exact absurd (hfirst.satisfies hget) (hall Seg (List.mem_of_getElem? hget))

end Lookup

section Inside
variable {m : MemoryManager} {w : Width} {Addr : BitVec 32}

theorem inside_iff : Inside m w Addr ↔ ¬ NearEnd m w Addr := by
  constructor
  · rintro hinside ⟨I, Seg, hget, hfirst, hend⟩
    obtain ⟨⟨Seg', hget', hfit⟩, -⟩ :=
      hinside _ ((mapAddress_eq_some_iff_first _).mpr ⟨I, Seg, hget, hfirst, rfl⟩)
    obtain rfl : Seg = Seg' := Option.some.inj (hget.symm.trans hget')
    have hle := ((Seg.inRange_iff Addr).mp (hfirst.satisfies hget)).1
    dsimp only at hfit
    omega
  · intro hnear p hp
    obtain ⟨I, Seg, hget, hfirst, rfl⟩ := (mapAddress_eq_some_iff_first p).mp hp
    have hend : ¬ Seg.GuestAddress.toNat + Seg.MemorySize.toNat < Addr.toNat + w.bytes :=
      fun h => hnear ⟨I, Seg, hget, hfirst, h⟩
    have hle := ((Seg.inRange_iff Addr).mp (hfirst.satisfies hget)).1
    have hfit : m.fits ⟨.Memory I, Addr.toNat - Seg.GuestAddress.toNat⟩ w.bytes :=
      ⟨Seg, hget, by dsimp only; omega⟩
    have hacc : accessible m Addr w.bytes := ⟨_, hp, hfit⟩
    exact ⟨hfit, read_of_accessible hacc, write_of_accessible hacc⟩

private theorem nearEnd_of_mapped (hw : w ≠ .byte) {Seg : SegmentManager} (hSeg : Seg ∈ m.SegmentData)
    (hin : Seg.inRange Addr) : ∃ Last, NearEnd m w Last := by
  have hbytes : 2 ≤ w.bytes := by
    cases w with
    | byte => exact absurd rfl hw
    | half | word => decide
  obtain ⟨I, ⟨Seg', hget, a, ha⟩, hfirst⟩ :=
    exists_first (P := fun Seg : SegmentManager => ∃ a, Seg.inRange a) hSeg ⟨Addr, hin⟩
  obtain ⟨hlo, hhi, htop⟩ := (Seg'.inRange_iff a).mp ha
  have hlast : (BitVec.ofNat 32 (Seg'.GuestAddress.toNat + Seg'.MemorySize.toNat - 1)).toNat =
      Seg'.GuestAddress.toNat + Seg'.MemorySize.toNat - 1 := toNat_ofNat_of_lt (by omega)
  refine ⟨BitVec.ofNat 32 (Seg'.GuestAddress.toNat + Seg'.MemorySize.toNat - 1), I, Seg', hget,
    ⟨⟨Seg', hget, ?_⟩, ?_⟩, ?_⟩
  · refine (SegmentManager.inRange_iff _ _).mpr ?_
    rw [hlast]
    omega
  · intro K hK Seg'' hget'' hin''
    exact hfirst K hK Seg'' hget'' ⟨_, hin''⟩
  · rw [hlast]
    omega

private theorem not_nearEnd_byte : ¬ NearEnd m .byte Addr := by
  rintro ⟨I, Seg, hget, hfirst, hend⟩
  have hlt := ((Seg.inRange_iff Addr).mp (hfirst.satisfies hget)).2.1
  rw [Width.bytes] at hend
  omega

end Inside

/-- An access is served inside its segment exactly when it does not start in the last bytes of it,
and accesses of a width are so at every address exactly for bytes, or in a memory without addresses. -/
theorem access_inside_iff (m : MemoryManager) (w : Width) :
    (∀ Addr, Inside m w Addr ↔ ¬ NearEnd m w Addr) ∧
      ((∀ Addr, Inside m w Addr) ↔ w = .byte ∨ ∀ Seg ∈ m.SegmentData, ∀ Addr, ¬ Seg.inRange Addr) := by
  refine ⟨fun Addr => inside_iff, ?_⟩
  constructor
  · intro hall
    by_cases hw : w = .byte
    · exact .inl hw
    · refine .inr fun Seg hSeg Addr hin => ?_
      obtain ⟨Last, hnear⟩ := nearEnd_of_mapped hw hSeg hin
      exact inside_iff.mp (hall Last) hnear
  · rintro (rfl | hnone) Addr
    · exact inside_iff.mpr not_nearEnd_byte
    · apply inside_iff.mpr
      rintro ⟨I, Seg, hget, hfirst, -⟩
      exact hnone Seg (List.mem_of_getElem? hget) Addr (hfirst.satisfies hget)

/-- In the memory of a file without segments, a word at 12 above the stack pointer that `main` sets:
the stack buffer ends after three of its bytes. -/
theorem access_inside_stack_top : ∃ m EntryPoint,
    parseElf ⟨[], 0, by decide⟩ (Vector.replicate _ 0) = .ok (m, EntryPoint) ∧
      ¬ Inside m .word (-16#32 + 12#32) := by
  obtain ⟨m, hparse⟩ := Elfio.parse_ok ⟨[], 0, by decide⟩ (Vector.replicate _ 0) (by decide)
  refine ⟨m, _, hparse, fun hinside => inside_iff.mp hinside ?_⟩
  have hstack := Elfio.stack_of_parse hparse
  exact ⟨0, _, hstack, ⟨⟨_, hstack, by decide, by decide⟩, fun K hK => absurd hK (Nat.not_lt_zero K)⟩,
    by decide⟩

/-- The answers of the map in unbounded integers: null exactly outside all segments, and elsewhere
the offset in the first segment that contains the address. -/
def LookupExact (m : MemoryManager) (Addr : BitVec 32) : Prop :=
  (mapAddress m Addr = none ↔ ∀ Seg ∈ m.SegmentData, ¬ Seg.covers Addr.toNat) ∧
    ∀ I Seg, m.SegmentData[I]? = some Seg → First m.SegmentData (·.covers Addr.toNat) I →
      mapAddress m Addr = some ⟨.Memory I, Addr.toNat - Seg.GuestAddress.toNat⟩

/-- The end of the segment is 2^32, which is 0 in 32 bits. -/
def SegmentManager.endsAtTop (Seg : SegmentManager) : Prop :=
  Seg.GuestAddress.toNat + Seg.MemorySize.toNat = 2 ^ 32

section Exact
variable {m : MemoryManager} {Addr : BitVec 32}
  (hfit : ∀ Seg ∈ m.SegmentData, Seg.GuestAddress.toNat + Seg.MemorySize.toNat ≤ 2 ^ 32)
include hfit

/-- The test is exact on a segment unless its end wraps to zero. -/
private theorem inRange_iff_covers {Seg : SegmentManager} (hSeg : Seg ∈ m.SegmentData) :
    Seg.inRange Addr ↔ Seg.covers Addr.toNat ∧ ¬ Seg.endsAtTop := by
  have hle := hfit Seg hSeg
  rw [SegmentManager.inRange_iff]
  unfold SegmentManager.covers SegmentManager.endsAtTop
  constructor
  · rintro ⟨hlo, hhi, htop⟩
    exact ⟨⟨hlo, hhi⟩, Nat.ne_of_lt htop⟩
  · rintro ⟨⟨hlo, hhi⟩, htop⟩
    exact ⟨hlo, hhi, Nat.lt_of_le_of_ne hle htop⟩

private theorem lookupExact_iff : LookupExact m Addr ↔ ∀ I Seg, m.SegmentData[I]? = some Seg →
    First m.SegmentData (·.covers Addr.toNat) I → ¬ Seg.endsAtTop := by
  constructor
  · rintro ⟨-, hmap⟩ I Seg hget hfirst
    obtain ⟨J, Seg', -, htest, hp⟩ := (mapAddress_eq_some_iff_first _).mp (hmap I Seg hget hfirst)
    obtain rfl : I = J := HostObject.Memory.inj (congrArg HostPtr.obj hp)
    exact ((inRange_iff_covers hfit (List.mem_of_getElem? hget)).mp (htest.satisfies hget)).2
  · intro htop
    have hmap : ∀ I Seg, m.SegmentData[I]? = some Seg → First m.SegmentData (·.covers Addr.toNat) I →
        mapAddress m Addr = some ⟨.Memory I, Addr.toNat - Seg.GuestAddress.toNat⟩ := by
      intro I Seg hget hfirst
      have hcovers := hfirst.satisfies hget
      refine (mapAddress_eq_some_iff_first _).mpr ⟨I, Seg, hget, ⟨⟨Seg, hget, ?_⟩, ?_⟩, rfl⟩
      · exact (inRange_iff_covers hfit (List.mem_of_getElem? hget)).mpr ⟨hcovers, htop I Seg hget hfirst⟩
      · intro K hK Seg' hget'' hin
        exact hfirst.2 K hK Seg' hget'' ((inRange_iff_covers hfit (List.mem_of_getElem? hget'')).mp hin).1
    refine ⟨?_, hmap⟩
    rw [mapAddress_eq_none_iff]
    constructor
    · intro hnone Seg hSeg hcovers
      obtain ⟨I, hI⟩ :=
        exists_first (P := fun Seg : SegmentManager => Seg.covers Addr.toNat) hSeg hcovers
      obtain ⟨Seg', hget, -⟩ := hI.1
      have hmem := mapAddress_eq_none_iff.mpr hnone
      rw [hmap I Seg' hget hI] at hmem
      cases hmem
    · intro hnone Seg hSeg hin
      exact hnone Seg hSeg ((inRange_iff_covers hfit hSeg).mp hin).1

end Exact

/-- The map is exact at an address unless the first segment that contains it ends at 2^32, and exact
everywhere exactly when no segment that takes space does. -/
theorem lookup_exact_iff (m : MemoryManager)
    (hfit : ∀ Seg ∈ m.SegmentData, Seg.GuestAddress.toNat + Seg.MemorySize.toNat ≤ 2 ^ 32) :
    (∀ Addr, LookupExact m Addr ↔ ∀ I Seg, m.SegmentData[I]? = some Seg →
        First m.SegmentData (·.covers Addr.toNat) I → ¬ Seg.endsAtTop) ∧
      ((∀ Addr, LookupExact m Addr) ↔ ∀ Seg ∈ m.SegmentData, ¬ Seg.endsAtTop) := by
  refine ⟨fun Addr => lookupExact_iff hfit, ?_⟩
  constructor
  · intro hall Seg hSeg htop
    have hcovers : Seg.covers (BitVec.ofNat 32 (2 ^ 32 - 1)).toNat := by
      have hlt := Seg.MemorySize.isLt
      have hlt' := Seg.GuestAddress.isLt
      unfold SegmentManager.covers
      unfold SegmentManager.endsAtTop at htop
      rw [toNat_ofNat_of_lt (by decide)]
      omega
    obtain ⟨I, hI⟩ := exists_first
      (P := fun Seg : SegmentManager => Seg.covers (BitVec.ofNat 32 (2 ^ 32 - 1)).toNat) hSeg hcovers
    obtain ⟨Seg', hget, hcovers'⟩ := hI.1
    refine (lookupExact_iff hfit).mp (hall _) I Seg' hget hI ?_
    have hle := hfit Seg' (List.mem_of_getElem? hget)
    unfold SegmentManager.covers at hcovers'
    rw [toNat_ofNat_of_lt (by decide)] at hcovers'
    unfold SegmentManager.endsAtTop
    omega
  · intro hnone Addr
    exact (lookupExact_iff hfit).mpr fun I Seg hget _ => hnone Seg (List.mem_of_getElem? hget)

private def oneSegment (size addr : BitVec 32) : MemoryManager :=
  ⟨[⟨size, addr, Vector.replicate _ 0⟩], 1, rfl⟩

theorem lookup_exact_low : LookupExact (oneSegment 8 0x10) 0x12 :=
  (lookup_exact_iff (oneSegment 8 0x10) (by decide)).2.mpr
    (by unfold SegmentManager.endsAtTop; decide) 0x12

/-- A segment of the last 16 addresses is never found. -/
theorem lookup_exact_top : ¬ LookupExact (oneSegment 16 0xFFFFFFF0) 0xFFFFFFF0 := by
  rintro ⟨hnone, -⟩
  exact absurd (hnone.mp (by decide)) (by unfold SegmentManager.covers; decide)

end DBTranslator.Riscv
