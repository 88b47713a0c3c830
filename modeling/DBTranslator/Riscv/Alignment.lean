import DBTranslator.Riscv.Elf

/-! The alignment that the loads and stores of the memory functions promise, against the bases of
the buffers that `parseElf` sets up. The base of the stack is odd. -/
namespace DBTranslator.Riscv
open Lib.FirstMatch

/-- The row belongs to a loadable segment or to the stack. -/
def Elfio.servesGuest (Reader : Elfio) (I : Nat) : Prop :=
  (∃ Seg, Reader.segments[I]? = some Seg ∧ Seg.type = PT_LOAD) ∨ I = Reader.segments.length

/-- In a loadable segment or the stack the offset of the access is a multiple of its width, and so is
its host address in a buffer that is aligned to 16 bytes. -/
def AlignedAt (Reader : Elfio) (m : MemoryManager) (w : Width) (Addr : BitVec 32) : Prop :=
  ∀ I off, mapAddress m Addr = some ⟨.Memory I, off⟩ → Reader.servesGuest I →
    off % w.bytes = 0 ∧ ∀ buffer, buffer % 16 = 0 → (buffer + off) % w.bytes = 0

namespace Elfio
variable {Reader : Elfio} {m : MemoryManager} {Addr : BitVec 32} {I off : Nat}

private theorem mapAddress_iff (hlayout : m.layout = Reader.table) :
    mapAddress m Addr = some ⟨.Memory I, off⟩ ↔ Owner rowContains Reader.table Addr.toNat I ∧
      ∃ row, Reader.table[I]? = some row ∧ off = Addr.toNat - row.1.toNat := by
  rw [← hlayout, owner_iff, MemoryManager.layout]
  simp only [List.getElem?_map, Option.map_eq_some_iff]
  constructor
  · intro hmap
    obtain ⟨J, Seg, hget, -, -, hp⟩ := (mapAddress_eq_some_iff m Addr _).mp hmap
    obtain ⟨hobj, rfl⟩ := HostPtr.mk.inj hp
    obtain rfl := HostObject.Memory.inj hobj
    exact ⟨⟨Seg, hget, hmap⟩, _, ⟨Seg, hget, rfl⟩, rfl⟩
  · rintro ⟨⟨Seg, hget, hmap⟩, row, ⟨Seg', hget', rfl⟩, rfl⟩
    obtain rfl : Seg = Seg' := Option.some.inj (hget.symm.trans hget')
    exact hmap

private theorem table_segment {Seg : Segment} (hSeg : Reader.segments[I]? = some Seg) :
    Reader.table[I]? = some Seg.row := by
  have hrow : (Reader.segments.map Segment.row)[I]? = some Seg.row := by
    rw [List.getElem?_map, hSeg, Option.map_some]
  exact (List.getElem?_append_left (List.getElem?_eq_some_iff.mp hrow).1).trans hrow

private theorem table_stack :
    Reader.table[Reader.segments.length]? = some (stackAddress, stackSize) := by
  have hlen : (Reader.segments.map Segment.row).length = Reader.segments.length := List.length_map _
  rw [table, ← hlen]
  exact List.getElem?_concat_length

private theorem owner_stack_iff : Owner rowContains Reader.table Addr.toNat Reader.segments.length ↔
    stackArea.has Addr.toNat ∧ ∀ Seg ∈ Reader.segments, ¬ rowContains Seg.row Addr.toNat := by
  constructor
  · rintro ⟨⟨row, hrow, hin⟩, hfirst⟩
    obtain rfl : row = (stackAddress, stackSize) := Option.some.inj (hrow.symm.trans table_stack)
    refine ⟨⟨hin.1, hin.2.1⟩, fun Seg hSeg => ?_⟩
    obtain ⟨K, hK⟩ := List.getElem?_of_mem hSeg
    exact hfirst K (List.getElem?_eq_some_iff.mp hK).1 _ (table_segment hK)
  · rintro ⟨hin, hnone⟩
    refine ⟨⟨_, table_stack, stack_contains hin⟩, ?_⟩
    intro K hK row hrow
    have hget := List.getElem?_eq_getElem hK
    obtain rfl : row = _ := Option.some.inj (hrow.symm.trans (table_segment hget))
    exact hnone _ (List.getElem_mem hK)

end Elfio

private theorem bytes_of_ne {w : Width} (hw : w ≠ .byte) : w.bytes = 2 ∨ w.bytes = 4 := by
  cases w with
  | byte => exact absurd rfl hw
  | half => exact .inl rfl
  | word => exact .inr rfl

section Access
variable {Reader : Elfio} {m : MemoryManager} {w : Width} {Addr : BitVec 32}
  (hlayout : m.layout = Reader.table) (hw : w ≠ .byte) (haddr : Addr.toNat % w.bytes = 0)
include hlayout hw haddr

private theorem not_alignedAt_stack (hstack : stackArea.has Addr.toNat)
    (hnone : ∀ Seg ∈ Reader.segments, ¬ rowContains Seg.row Addr.toNat) : ¬ AlignedAt Reader m w Addr := by
  intro haligned
  have howner := Elfio.owner_stack_iff.mpr ⟨hstack, hnone⟩
  have hmap := (Elfio.mapAddress_iff hlayout).mpr ⟨howner, _, Elfio.table_stack, rfl⟩
  obtain ⟨hoff, -⟩ := haligned _ _ hmap (.inr rfl)
  have hbase : stackAddress.toNat = 0xFEFFFFFF := rfl
  have hlo : stackAddress.toNat ≤ Addr.toNat := hstack.1
  dsimp only at hoff
  rcases bytes_of_ne hw with h | h <;> rw [h] at hoff haddr <;> omega

private theorem offset_aligned {I off : Nat} (hmap : mapAddress m Addr = some ⟨.Memory I, off⟩)
    {Seg : Segment} (hSeg : Reader.segments[I]? = some Seg) (hbase : Seg.virtualAddress.toNat % 4 = 0) :
    off % w.bytes = 0 := by
  obtain ⟨-, row, hrow, rfl⟩ := (Elfio.mapAddress_iff hlayout).mp hmap
  obtain rfl := Option.some.inj (hrow.symm.trans (Elfio.table_segment hSeg))
  have hcut : Seg.row.1.toNat = Seg.virtualAddress.toNat % 2 ^ 32 := BitVec.toNat_setWidth _ _
  rcases bytes_of_ne hw with h | h <;> rw [h] at haddr ⊢ <;> omega

end Access

/-- An aligned access is aligned on the host exactly when it is not served from the stack: outside
the stack, or where a program header contains the address. -/
theorem host_aligned_iff (Reader : Elfio)
    (halign : ∀ Seg ∈ Reader.segments, Seg.type = PT_LOAD → Seg.virtualAddress.toNat % 4 = 0)
    (Stack : Vector (BitVec 8) stackSize.toNat) (m : MemoryManager) (EntryPoint : BitVec 32)
    (hparse : parseElf Reader Stack = .ok (m, EntryPoint)) (m' : MemoryManager)
    (hlater : m'.layout = m.layout) (w : Width) (hw : w ≠ .byte) (Addr : BitVec 32)
    (haddr : Addr.toNat % w.bytes = 0) :
    AlignedAt Reader m' w Addr ↔
      (stackArea.has Addr.toNat → ∃ Seg ∈ Reader.segments, rowContains Seg.row Addr.toNat) := by
  have hlayout := hlater.trans (Elfio.layout_of_parse hparse)
  constructor
  · intro haligned hstack
    by_contra hnone
    exact not_alignedAt_stack hlayout hw haddr hstack (fun Seg hSeg hin => hnone ⟨Seg, hSeg, hin⟩) haligned
  · intro hfree I off hmap hserves
    have hoff : off % w.bytes = 0 := by
      rcases hserves with ⟨Seg, hSeg, htype⟩ | rfl
      · exact offset_aligned hlayout hw haddr hmap hSeg (halign Seg (List.mem_of_getElem? hSeg) htype)
      · obtain ⟨howner, -⟩ := (Elfio.mapAddress_iff hlayout).mp hmap
        obtain ⟨hstack, hnone⟩ := Elfio.owner_stack_iff.mp howner
        obtain ⟨Seg, hSeg, hin⟩ := hfree hstack
        exact absurd hin (hnone Seg hSeg)
    refine ⟨hoff, fun buffer hbuffer => ?_⟩
    rcases bytes_of_ne hw with h | h <;> rw [h] at hoff ⊢ <;> omega

section Example

/-- A file with one word of code at 0x10000. -/
private def wordFile : Elfio := ⟨[⟨PT_LOAD, 5, 0x10000, 4, some [0x13, 0, 0, 0], fun _ => none⟩], 0x10000, by decide⟩

theorem host_aligned_code : ∃ m EntryPoint,
    parseElf wordFile (Vector.replicate _ 0) = .ok (m, EntryPoint) ∧ AlignedAt wordFile m .word 0x10000 := by
  obtain ⟨m, hparse⟩ := Elfio.parse_ok wordFile (Vector.replicate _ 0) (by decide)
  refine ⟨m, _, hparse, ?_⟩
  refine (host_aligned_iff wordFile (by decide) _ m _ hparse m rfl .word (by decide) 0x10000
    (by decide)).mpr fun hstack => ?_
  exact absurd hstack.1 (by decide)

/-- The word at the stack pointer that `main` sets. -/
theorem host_aligned_stack_pointer : ∃ m EntryPoint,
    parseElf wordFile (Vector.replicate _ 0) = .ok (m, EntryPoint) ∧ ¬ AlignedAt wordFile m .word (-16#32) := by
  obtain ⟨m, hparse⟩ := Elfio.parse_ok wordFile (Vector.replicate _ 0) (by decide)
  refine ⟨m, _, hparse, ?_⟩
  exact not_alignedAt_stack (Elfio.layout_of_parse hparse) (by decide) (by decide)
    ⟨by decide, by decide⟩ (by decide)

end Example

end DBTranslator.Riscv
