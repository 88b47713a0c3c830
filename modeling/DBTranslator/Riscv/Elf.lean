import DBTranslator.Riscv.Coherence

/-! The memory that `parseElf` builds: one private buffer for every program header, loadable or
not, and the stack after them. -/
namespace DBTranslator.Riscv
open Lib.Ssa Lib.FirstMatch

def PT_LOAD : BitVec 32 := 1

/-- A program header as ELFIO hands it out. `data` is what `get_data` points to, a buffer with the bytes of
the file; `behind` is what the host has after it, by index in the buffer, where that can be read at all. -/
structure Segment where
  type : BitVec 32
  flags : BitVec 32
  virtualAddress : BitVec 64
  memorySize : BitVec 64
  data : Option (List (BitVec 8))
  behind : Nat → Option (BitVec 8)

/-- A loaded file. The count of program headers is a half-word. -/
structure Elfio where
  segments : List Segment
  entry : BitVec 64
  counted : segments.length < 2 ^ 16

/-- The bytes that can be read from the pointer of `get_data` on. -/
def Segment.source (Seg : Segment) : Option (Nat → Option (BitVec 8)) :=
  Seg.data.map fun bytes i => bytes[i]?.or (Seg.behind i)

inductive CopyFault where
  | null
  | overread
  deriving DecidableEq, Repr

/-- Copy bytes. Nothing can be copied from a null pointer, nor from where the host has nothing. -/
def memcpy (src : Option (Nat → Option (BitVec 8))) (n : Nat) : Except CopyFault (Vector (BitVec 8) n) :=
  match src with
  | some byteAt =>
    if h : ∀ i : Fin n, (byteAt i).isSome then .ok (Vector.ofFn fun i => (byteAt i).get (h i))
    else .error .overread
  | none => if n = 0 then .ok (Vector.ofFn fun _ => 0) else .error .null

/-- The body of the loop over the program headers. Sizes and addresses are cut to 32 bits. -/
def loadSegment (Seg : Segment) : Except CopyFault SegmentManager :=
  if Seg.flags == PT_LOAD || true then do
    let MemorySize := Seg.memorySize.setWidth 32
    let Memory ← memcpy Seg.source MemorySize.toNat
    return ⟨MemorySize, Seg.virtualAddress.setWidth 32, Memory⟩
  else
    return ⟨0, 0, #v[]⟩

/-- The table rows of program headers, one for each. -/
structure Rows (segments : List Segment) where
  Managers : List SegmentManager
  counted : Managers.length = segments.length

private theorem Rows.nil_counted : ([] : List SegmentManager).length = ([] : List Segment).length := rfl

def Rows.nil : Rows [] := ⟨[], Rows.nil_counted⟩

def Rows.cons {Seg : Segment} {segments : List Segment} (Manager : SegmentManager)
    (rows : Rows segments) : Rows (Seg :: segments) :=
  ⟨Manager :: rows.Managers, congrArg Nat.succ rows.counted⟩

def loadSegments : (segments : List Segment) → Except CopyFault (Rows segments)
  | [] => .ok Rows.nil
  | Seg :: segments => do
    let Manager ← loadSegment Seg
    let rows ← loadSegments segments
    return rows.cons Manager

def stackSize : BitVec 32 := 1#32 <<< 24
def stackAddress : BitVec 32 := -1#32 - stackSize

/-- `parseElf`; the buffer of the stack starts with whatever bytes the host gives. -/
def parseElf (Reader : Elfio) (Stack : Vector (BitVec 8) stackSize.toNat) :
    Except CopyFault (MemoryManager × BitVec 32) := do
  let rows ← loadSegments Reader.segments
  let Result : MemoryManager :=
    { SegmentData := rows.Managers ++ [⟨stackSize, stackAddress, Stack⟩]
      NumSegments := BitVec.ofNat 32 (Reader.segments.length + 1)
      counted := by
        have hcount := Reader.counted
        rw [List.length_append, rows.counted, BitVec.toNat_ofNat, List.length_singleton]
        omega }
  return (Result, Reader.entry.setWidth 32)

/-- The row of the segment table that a program header gives. -/
def Segment.row (Seg : Segment) : BitVec 32 × BitVec 32 :=
  (Seg.virtualAddress.setWidth 32, Seg.memorySize.setWidth 32)

/-- What stops the copy of a segment. -/
def Segment.fault? (Seg : Segment) : Option CopyFault :=
  match Seg.source with
  | some byteAt => if ∀ i : Fin Seg.row.2.toNat, (byteAt i).isSome then none else some .overread
  | none => if Seg.row.2.toNat = 0 then none else some .null

def Segment.area (Seg : Segment) : Area :=
  ⟨Seg.virtualAddress.toNat, Seg.virtualAddress.toNat + Seg.memorySize.toNat⟩

def stackArea : Area := ⟨stackAddress.toNat, stackAddress.toNat + stackSize.toNat⟩

namespace Elfio
variable {Reader : Elfio} {Stack : Vector (BitVec 8) stackSize.toNat} {m : MemoryManager}
  {EntryPoint : BitVec 32}

/-- The segment table that a file gives. -/
def table (Reader : Elfio) : List (BitVec 32 × BitVec 32) :=
  Reader.segments.map Segment.row ++ [(stackAddress, stackSize)]

/-- The first copy that fails. -/
def fault? (Reader : Elfio) : Option CopyFault := Reader.segments.findSome? Segment.fault?

/-- The loadable segments and the stack. -/
def areas (Reader : Elfio) : List Area :=
  (Reader.segments.filter (·.type == PT_LOAD)).map Segment.area ++ [stackArea]

/-- The loadable segments are pairwise disjoint, end below 2^32 and leave the stack alone. -/
structure Loadable (Reader : Elfio) : Prop where
  below : ∀ Seg ∈ Reader.segments, Seg.type = PT_LOAD → Seg.area.hi < 2 ^ 32
  disjoint : Reader.segments.Pairwise fun Seg Seg' => Seg.type = PT_LOAD → Seg'.type = PT_LOAD →
    ∀ a, ¬ (Seg.area.has a ∧ Seg'.area.has a)
  stack : ∀ Seg ∈ Reader.segments, Seg.type = PT_LOAD → ∀ a, ¬ (Seg.area.has a ∧ stackArea.has a)

theorem loadSegment_row {Seg : Segment} {Manager : SegmentManager}
    (h : loadSegment Seg = .ok Manager) :
    (Manager.GuestAddress, Manager.MemorySize) = Seg.row := by
  rw [loadSegment, if_pos (Bool.or_true _)] at h
  obtain ⟨Memory, -, h⟩ := bind_eq_ok.mp h
  obtain rfl := Except.ok.inj h
  rfl

private theorem loadSegments_rows {segments : List Segment} {rows : Rows segments}
    (h : loadSegments segments = .ok rows) :
    rows.Managers.map (fun Seg => (Seg.GuestAddress, Seg.MemorySize)) =
      segments.map Segment.row := by
  induction segments with
  | nil =>
    obtain rfl := Except.ok.inj h
    rfl
  | cons Seg segments ih =>
    obtain ⟨Manager, hManager, h⟩ := bind_eq_ok.mp h
    obtain ⟨Rest, hRest, h⟩ := bind_eq_ok.mp h
    obtain rfl := Except.ok.inj h
    rw [Rows.cons, List.map_cons, List.map_cons, loadSegment_row hManager, ih hRest]

/-- Every program header gets a row, in table order, and the stack the last one. -/
theorem layout_of_parse (h : parseElf Reader Stack = .ok (m, EntryPoint)) :
    m.layout = Reader.table := by
  obtain ⟨rows, hrows, h⟩ := bind_eq_ok.mp h
  obtain ⟨rfl, rfl⟩ := Prod.mk.inj (Except.ok.inj h)
  rw [MemoryManager.layout, List.map_append, loadSegments_rows hrows]
  rfl

/-- The stack is the row after the program headers. -/
theorem stack_of_parse (h : parseElf Reader Stack = .ok (m, EntryPoint)) :
    m.SegmentData[Reader.segments.length]? = some ⟨stackSize, stackAddress, Stack⟩ := by
  obtain ⟨rows, hrows, h⟩ := bind_eq_ok.mp h
  obtain ⟨rfl, rfl⟩ := Prod.mk.inj (Except.ok.inj h)
  dsimp only
  rw [← rows.counted]
  exact List.getElem?_concat_length

private theorem load_contains {Seg : Segment} (hbelow : Seg.area.hi < 2 ^ 32) {a : Nat}
    (ha : Seg.area.has a) : rowContains Seg.row a := by
  obtain ⟨hlo, hhi⟩ := ha
  dsimp only [Segment.area] at hbelow hlo hhi
  dsimp only [rowContains, Segment.row]
  rw [BitVec.toNat_setWidth, BitVec.toNat_setWidth, Nat.mod_eq_of_lt (by omega),
    Nat.mod_eq_of_lt (by omega)]
  exact ⟨hlo, hhi, hbelow⟩

theorem stack_contains {a : Nat} (ha : stackArea.has a) :
    rowContains (stackAddress, stackSize) a :=
  ⟨ha.1, ha.2, by decide⟩

private theorem row_of_area (hR : Reader.Loadable) {area : Area} (harea : area ∈ Reader.areas) :
    area.hi < 2 ^ 32 ∧ ∃ row ∈ Reader.table, ∀ a, area.has a → rowContains row a := by
  rcases List.mem_append.mp harea with hload | hstack
  · obtain ⟨Seg, hSeg, rfl⟩ := List.mem_map.mp hload
    obtain ⟨hSeg, htype⟩ := List.mem_filter.mp hSeg
    have hbelow := hR.below Seg hSeg (eq_of_beq htype)
    exact ⟨hbelow, Seg.row, List.mem_append_left _ (List.mem_map_of_mem hSeg),
      fun a => load_contains hbelow⟩
  · obtain rfl := List.mem_singleton.mp hstack
    exact ⟨by decide, _, List.mem_append_right _ (List.mem_singleton_self _), fun a => stack_contains⟩

private theorem coherentOn_area_iff (hR : Reader.Loadable) (hlayout : m.layout = Reader.table)
    {area : Area} (harea : area ∈ Reader.areas) :
    CoherentOn m area ↔ FirstCovers rowContains Reader.table area.lo area.hi := by
  obtain ⟨hhi, row, hrow, hcontains⟩ := row_of_area hR harea
  rw [← hlayout] at hrow ⊢
  exact coherentOn_iff hhi fun a hlo ha => exists_first hrow (hcontains a ⟨hlo, ha⟩)

theorem loadSegment_fault (Seg : Segment) : match Seg.fault? with
    | some e => loadSegment Seg = .error e
    | none => ∃ Manager, loadSegment Seg = .ok Manager := by
  have hload : loadSegment Seg = (memcpy Seg.source Seg.row.2.toNat >>= fun Memory =>
      .ok ⟨Seg.row.2, Seg.row.1, Memory⟩) := if_pos (Bool.or_true _)
  rw [hload, Segment.fault?, memcpy.eq_def]
  cases Seg.source with
  | some byteAt =>
    by_cases h : ∀ i : Fin Seg.row.2.toNat, (byteAt i).isSome
    · simp [h]
    · simp [h]
  | none =>
    by_cases h : Seg.row.2.toNat = 0
    · simp [h]
    · simp [h]

private theorem loadSegments_fault (segments : List Segment) : match segments.findSome? Segment.fault? with
    | some e => loadSegments segments = .error e
    | none => ∃ rows, loadSegments segments = .ok rows := by
  induction segments with
  | nil => exact ⟨_, rfl⟩
  | cons Seg segments ih =>
    have hload := loadSegment_fault Seg
    rw [List.findSome?_cons, loadSegments]
    cases hfault : Seg.fault? with
    | some e =>
      rw [hfault] at hload
      exact congrArg (· >>= _) hload
    | none =>
      rw [hfault] at hload
      obtain ⟨Manager, hManager⟩ := hload
      dsimp only
      cases hrest : segments.findSome? Segment.fault? with
      | some e =>
        rw [hrest] at ih
        rw [hManager, ok_bind, show loadSegments segments = .error e from ih]
        rfl
      | none =>
        rw [hrest] at ih
        obtain ⟨rows, hrows⟩ := ih
        rw [hManager, ok_bind, hrows]
        exact ⟨_, rfl⟩

/-- A file is parsed, or stopped at the first copy that fails. -/
theorem parse_fault (Reader : Elfio) (Stack : Vector (BitVec 8) stackSize.toNat) : match Reader.fault? with
    | some e => parseElf Reader Stack = .error e
    | none => ∃ m, parseElf Reader Stack = .ok (m, Reader.entry.setWidth 32) := by
  have hload := loadSegments_fault Reader.segments
  rw [fault?]
  cases hfault : Reader.segments.findSome? Segment.fault? with
  | some e =>
    rw [hfault] at hload
    exact congrArg (· >>= _) hload
  | none =>
    rw [hfault] at hload
    obtain ⟨rows, hrows⟩ := hload
    dsimp only
    rw [parseElf, hrows]
    exact ⟨_, rfl⟩

theorem parse_ok (Reader : Elfio) (Stack : Vector (BitVec 8) stackSize.toNat) (h : Reader.fault? = none) :
    ∃ m, parseElf Reader Stack = .ok (m, Reader.entry.setWidth 32) := by
  have hparse := parse_fault Reader Stack
  rwa [h] at hparse

end Elfio

/-- The memory of a parsed file, then and at any later time, is coherent exactly when the first
program header that shares an address with a loadable segment or with the stack covers it. -/
theorem elf_coherent_iff (Reader : Elfio) (hR : Reader.Loadable)
    (Stack : Vector (BitVec 8) stackSize.toNat) (m : MemoryManager) (EntryPoint : BitVec 32)
    (hparse : parseElf Reader Stack = .ok (m, EntryPoint)) (m' : MemoryManager)
    (hlater : m'.layout = m.layout) :
    (∀ area ∈ Reader.areas, CoherentOn m' area) ↔
      ∀ area ∈ Reader.areas, FirstCovers rowContains Reader.table area.lo area.hi := by
  have hlayout := hlater.trans (Elfio.layout_of_parse hparse)
  exact forall₂_congr fun area harea => Elfio.coherentOn_area_iff hR hlayout harea

section Example

/-- A segment of 16 zero bytes at 0x10000 and a `PT_PHDR` header over its first half. -/
private def loadHeader : Segment := ⟨PT_LOAD, 5, 0x10000, 16, some (List.replicate 16 0), fun _ => none⟩
private def phdrHeader : Segment := ⟨6, 4, 0x10000, 8, some (List.replicate 8 0), fun _ => none⟩

private def loadFirst : Elfio := ⟨[loadHeader, phdrHeader], 0x10000, by decide⟩
private def phdrFirst : Elfio := ⟨[phdrHeader, loadHeader], 0x10000, by decide⟩

private theorem load_apart (a : Nat) : ¬ (loadHeader.area.has a ∧ stackArea.has a) := by
  rintro ⟨⟨-, hhi⟩, hlo, -⟩
  exact absurd (Nat.lt_of_le_of_lt hlo hhi) (by decide)

private theorem loadFirst_loadable : loadFirst.Loadable := by
  constructor
  · decide
  · refine List.pairwise_pair.mpr fun _ htype => ?_
    exact absurd htype (by decide)
  · intro Seg hSeg htype
    rcases List.mem_pair.mp hSeg with rfl | rfl
    · exact load_apart
    · exact absurd htype (by decide)

private theorem phdrFirst_loadable : phdrFirst.Loadable := by
  constructor
  · decide
  · refine List.pairwise_pair.mpr fun htype => ?_
    exact absurd htype (by decide)
  · intro Seg hSeg htype
    rcases List.mem_pair.mp hSeg with rfl | rfl
    · exact absurd htype (by decide)
    · exact load_apart

private theorem loadFirst_covers :
    ∀ area ∈ loadFirst.areas, FirstCovers rowContains loadFirst.table area.lo area.hi := by
  rw [show loadFirst.areas = [loadHeader.area, stackArea] from rfl, List.forall_mem_cons,
    List.forall_mem_singleton]
  constructor
  · refine FirstCovers.of_first (K := 0) (S := loadHeader.row) ?_ rfl fun a hlo hhi => ?_
    · exact ⟨⟨_, rfl, 0x10000, by decide, by decide, by decide⟩, fun K hK => absurd hK (Nat.not_lt_zero K)⟩
    · exact ⟨hlo, hhi, by decide⟩
  · refine FirstCovers.of_first (K := 2) (S := (stackAddress, stackSize)) ?_ rfl fun a hlo hhi => ?_
    · refine ⟨⟨_, rfl, stackArea.lo, Nat.le_refl _, by decide, by decide⟩, ?_⟩
      rintro K hK row hrow ⟨a, hlo, -, -, hhi, -⟩
      have hmem : row = loadHeader.row ∨ row = phdrHeader.row := by
        match K, hK with
        | 0, _ => exact .inl (Option.some.inj hrow).symm
        | 1, _ => exact .inr (Option.some.inj hrow).symm
      rcases hmem with rfl | rfl <;> exact absurd (Nat.lt_of_le_of_lt hlo hhi) (by decide)
    · exact Elfio.stack_contains ⟨hlo, hhi⟩

theorem elf_coherent_load_first : ∃ m EntryPoint,
    parseElf loadFirst (Vector.replicate _ 0) = .ok (m, EntryPoint) ∧
      ∀ area ∈ loadFirst.areas, CoherentOn m area := by
  obtain ⟨m, hm⟩ := Elfio.parse_ok loadFirst (Vector.replicate _ 0) (by decide)
  refine ⟨m, _, hm, (elf_coherent_iff loadFirst loadFirst_loadable _ m _ hm m rfl).mpr ?_⟩
  exact loadFirst_covers

/-- With the `PT_PHDR` header first, its copy hides half of the segment. -/
theorem elf_coherent_phdr_first : phdrFirst.Loadable ∧ ∃ m EntryPoint,
    parseElf phdrFirst (Vector.replicate _ 0) = .ok (m, EntryPoint) ∧
      ¬ ∀ area ∈ phdrFirst.areas, CoherentOn m area := by
  obtain ⟨m, hm⟩ := Elfio.parse_ok phdrFirst (Vector.replicate _ 0) (by decide)
  refine ⟨phdrFirst_loadable, m, _, hm, fun hcoh => ?_⟩
  have harea : loadHeader.area ∈ phdrFirst.areas := List.mem_cons_self
  have hcovers := (Elfio.coherentOn_area_iff phdrFirst_loadable (Elfio.layout_of_parse hm) harea).mp
    (hcoh _ harea)
  have hfirst : First phdrFirst.table (meets rowContains loadHeader.area.lo loadHeader.area.hi) 0 :=
    ⟨⟨_, rfl, 0x10000, by decide, by decide, by decide⟩, fun K hK => absurd hK (Nat.not_lt_zero K)⟩
  have hlast := hcovers 0 phdrHeader.row rfl hfirst 0x10008 (by decide) (by decide)
  exact absurd hlast (by decide)

end Example

end DBTranslator.Riscv
