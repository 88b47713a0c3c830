import DBTranslator.Riscv.Elf

/-! The image of a segment right after `parseElf`. The copy takes as many bytes from the file data
as the segment has in memory, so a segment with a tail is read past its data. -/
namespace DBTranslator.Riscv
open Lib.Ssa Lib.BitField Lib.LittleEndian

/-- The bytes of the file for a segment, as many as its `p_filesz`. -/
def Segment.fileData (Seg : Segment) : List (BitVec 8) := Seg.data.getD []

/-- The indices of the data that the `memcpy` of a segment reads; `reads_iff` has them from the copy itself. -/
def Segment.reads (Seg : Segment) (i : Nat) : Prop := i < (Seg.memorySize.setWidth 32).toNat

/-- The byte at an offset of the image: the file data and then zeros. -/
def imageByte (fileData : List (BitVec 8)) (i : Nat) : BitVec 8 := fileData.getD i 0

/-- The file with something else of the host behind the buffers of its headers. -/
def Elfio.onHost (Reader : Elfio) (behind : Nat → Nat → Option (BitVec 8)) : Elfio where
  segments := Reader.segments.mapIdx fun I Seg => { Seg with behind := behind I }
  entry := Reader.entry
  counted := by
    rw [List.length_mapIdx]
    exact Reader.counted

/-- Whatever the host has behind the file data, right after `parseElf` every byte of the segment is the byte
of its image, and no byte was read after the file data. -/
def LoadsImage (Reader : Elfio) (Stack : Vector (BitVec 8) stackSize.toNat) (Seg : Segment) : Prop :=
  (∀ behind, ∃ m EntryPoint, parseElf (Reader.onHost behind) Stack = .ok (m, EntryPoint) ∧
    ∀ i < Seg.memorySize.toNat,
      read8 m (BitVec.ofNat 32 (Seg.virtualAddress.toNat + i)) = .ok (imageByte Seg.fileData i)) ∧
  ∀ i, Seg.reads i → i < Seg.fileData.length

/-- No `memcpy` takes more bytes than the file has for its header. -/
def Elfio.Contained (Reader : Elfio) : Prop :=
  ∀ Seg ∈ Reader.segments, (Seg.memorySize.setWidth 32).toNat ≤ Seg.fileData.length

section Copy
variable {Seg : Segment} {Manager : SegmentManager}

theorem loadSegment_copy (h : loadSegment Seg = .ok Manager) : ∃ Memory,
    memcpy Seg.source (Seg.memorySize.setWidth 32).toNat = .ok Memory ∧
      Manager = ⟨Seg.memorySize.setWidth 32, Seg.virtualAddress.setWidth 32, Memory⟩ := by
  rw [loadSegment, if_pos (Bool.or_true _)] at h
  obtain ⟨Memory, hcopy, h⟩ := bind_eq_ok.mp h
  exact ⟨Memory, hcopy, (Except.ok.inj h).symm⟩

/-- What was loaded is what could be read. -/
theorem source_of_load (h : loadSegment Seg = .ok Manager) {i : Nat} (hi : Seg.reads i) :
    ∃ byteAt, Seg.source = some byteAt ∧ byteAt i = some (Manager.byteAt i) := by
  obtain ⟨Memory, hcopy, rfl⟩ := loadSegment_copy h
  have hi : i < (Seg.memorySize.setWidth 32).toNat := hi
  cases hsource : Seg.source with
  | some byteAt =>
    rw [hsource, memcpy] at hcopy
    split at hcopy
    · obtain rfl := Except.ok.inj hcopy
      refine ⟨byteAt, rfl, ?_⟩
      rw [SegmentManager.byteAt, Vector.getElem?_eq_getElem hi, Vector.getElem_ofFn, Option.getD_some,
        Option.some_get]
    · cases hcopy
  | none =>
    rw [hsource, memcpy, if_neg (Nat.ne_of_gt (Nat.lt_of_le_of_lt (Nat.zero_le i) hi))] at hcopy
    cases hcopy

/-- Inside the file data it is the file's. -/
theorem byteAt_of_load (h : loadSegment Seg = .ok Manager) {i : Nat} (hi : Seg.reads i)
    (hfile : i < Seg.fileData.length) : Manager.byteAt i = imageByte Seg.fileData i := by
  obtain ⟨byteAt, hsource, hbyte⟩ := source_of_load h hi
  obtain ⟨bytes, hdata, rfl⟩ := Option.map_eq_some_iff.mp hsource
  rw [Segment.fileData, hdata, Option.getD_some] at hfile ⊢
  dsimp only at hbyte
  rw [List.getElem?_eq_getElem hfile, Option.some_or] at hbyte
  rw [imageByte, List.getD_eq_getElem _ _ hfile]
  exact (Option.some.inj hbyte).symm

/-- The indices that are read are those where a missing byte stops the copy. -/
theorem reads_iff (i : Nat) : Seg.reads i ↔
    loadSegment { Seg with data := some [], behind := fun j => if j = i then none else some 0 } =
      .error .overread := by
  have hload := Elfio.loadSegment_fault { Seg with data := some [], behind := fun j => if j = i then none else some 0 }
  have hfault : Segment.fault? { Seg with data := some [], behind := fun j => if j = i then none else some 0 } =
      if ∀ j : Fin (Seg.memorySize.setWidth 32).toNat, (if j.val = i then none else some (0 : BitVec 8)).isSome
        then none else some .overread := rfl
  rw [hfault] at hload
  by_cases hi : Seg.reads i
  · have hmissing : ¬ ∀ j : Fin (Seg.memorySize.setWidth 32).toNat,
        (if j.val = i then none else some (0 : BitVec 8)).isSome := by
      intro hall
      have hsome := hall ⟨i, hi⟩
      rw [if_pos rfl] at hsome
      cases hsome
    rw [if_neg hmissing] at hload
    exact iff_of_true hi hload
  · have hall (j : Fin (Seg.memorySize.setWidth 32).toNat) :
        (if j.val = i then none else some (0 : BitVec 8)).isSome := by
      rw [if_neg fun hj : j.val = i => hi (hj ▸ j.isLt)]
      rfl
    rw [if_pos hall] at hload
    obtain ⟨Manager, hManager⟩ := hload
    refine iff_of_false hi fun herror => ?_
    rw [hManager] at herror
    cases herror

end Copy

section Table
variable {segments : List Segment} {rows : Rows segments} {Reader : Elfio}
  {Stack : Vector (BitVec 8) stackSize.toNat} {m : MemoryManager} {EntryPoint : BitVec 32}

private theorem loadSegments_get (h : loadSegments segments = .ok rows) {I : Nat} {Seg : Segment}
    (hSeg : segments[I]? = some Seg) :
    ∃ Manager, rows.Managers[I]? = some Manager ∧ loadSegment Seg = .ok Manager := by
  induction segments generalizing I with
  | nil => cases hSeg
  | cons First segments ih =>
    obtain ⟨Manager, hManager, h⟩ := bind_eq_ok.mp h
    obtain ⟨Rest, hRest, h⟩ := bind_eq_ok.mp h
    obtain rfl := Except.ok.inj h
    cases I with
    | zero =>
      obtain rfl := Option.some.inj hSeg
      exact ⟨Manager, rfl, hManager⟩
    | succ I => exact ih hRest hSeg

/-- The row of a program header holds what was loaded for it. -/
theorem segment_of_parse (h : parseElf Reader Stack = .ok (m, EntryPoint)) {I : Nat} {Seg : Segment}
    (hSeg : Reader.segments[I]? = some Seg) :
    ∃ Manager, m.SegmentData[I]? = some Manager ∧ loadSegment Seg = .ok Manager := by
  obtain ⟨rows, hrows, h⟩ := bind_eq_ok.mp h
  obtain ⟨rfl, rfl⟩ := Prod.mk.inj (Except.ok.inj h)
  obtain ⟨Manager, hget, hload⟩ := loadSegments_get hrows hSeg
  obtain ⟨hlt, -⟩ := List.getElem?_eq_some_iff.mp hget
  exact ⟨Manager, (List.getElem?_append_left hlt).trans hget, hload⟩

section Contained
variable {behind : Nat → Nat → Option (BitVec 8)}

theorem onHost_get {I : Nat} (hSeg : Reader.segments[I]? = some Seg) :
    (Reader.onHost behind).segments[I]? = some { Seg with behind := behind I } := by
  rw [Elfio.onHost, List.getElem?_mapIdx, hSeg, Option.map_some]

theorem onHost_get_iff {I : Nat} {Seg' : Segment} : (Reader.onHost behind).segments[I]? = some Seg' ↔
    ∃ Seg, Reader.segments[I]? = some Seg ∧ Seg' = { Seg with behind := behind I } := by
  rw [Elfio.onHost, List.getElem?_mapIdx, Option.map_eq_some_iff]
  simp only [eq_comm]

/-- Copies that stay in the file data do not fail. -/
theorem Elfio.Contained.fault (h : Reader.Contained) : Reader.fault? = none := by
  refine List.findSome?_eq_none_iff.mpr fun Seg hSeg => ?_
  have hsize : Seg.row.2.toNat ≤ Seg.fileData.length := h Seg hSeg
  rw [Segment.fault?, Segment.source]
  rw [Segment.fileData] at hsize
  cases hdata : Seg.data with
  | none =>
    rw [hdata] at hsize
    exact if_pos (Nat.le_zero.mp hsize)
  | some bytes =>
    rw [hdata, Option.getD_some] at hsize
    refine if_pos fun i => ?_
    dsimp only
    rw [List.getElem?_eq_getElem (Nat.lt_of_lt_of_le i.isLt hsize)]
    rfl

theorem Elfio.Contained.onHost (h : Reader.Contained) : (Reader.onHost behind).Contained := by
  intro Seg' hSeg'
  obtain ⟨I, hI⟩ := List.getElem?_of_mem hSeg'
  obtain ⟨Seg, hSeg, rfl⟩ := onHost_get_iff.mp hI
  exact h Seg (List.mem_of_getElem? hSeg)

/-- On a host with nothing behind the buffers only contained files are parsed. -/
theorem contained_of_parse (h : parseElf (Reader.onHost fun _ _ => none) Stack = .ok (m, EntryPoint)) :
    Reader.Contained := by
  intro Seg hSeg
  obtain ⟨I, hI⟩ := List.getElem?_of_mem hSeg
  obtain ⟨Manager, -, hload⟩ := segment_of_parse h (onHost_get hI)
  by_contra hmore
  obtain ⟨byteAt, hsource, hbyte⟩ := source_of_load hload (i := Seg.fileData.length) (Nat.lt_of_not_le hmore)
  obtain ⟨bytes, hdata, rfl⟩ := Option.map_eq_some_iff.mp hsource
  have hdata : Seg.data = some bytes := hdata
  dsimp only at hbyte
  rw [Segment.fileData, hdata, Option.getD_some, List.getElem?_length] at hbyte
  cases hbyte

end Contained

private theorem row_eq {Seg : Segment} (hbelow : Seg.area.hi < 2 ^ 32) :
    (Seg.virtualAddress.setWidth 32).toNat = Seg.virtualAddress.toNat ∧
      (Seg.memorySize.setWidth 32).toNat = Seg.memorySize.toNat := by
  dsimp only [Segment.area] at hbelow
  rw [BitVec.toNat_setWidth, BitVec.toNat_setWidth]
  exact ⟨Nat.mod_eq_of_lt (by omega), Nat.mod_eq_of_lt (by omega)⟩

private theorem read8_of_parse (h : parseElf Reader Stack = .ok (m, EntryPoint)) {I : Nat}
    {Seg : Segment} (hSeg : Reader.segments[I]? = some Seg) (hbelow : Seg.area.hi < 2 ^ 32)
    (hfirst : ∀ K < I, ∀ Seg', Reader.segments[K]? = some Seg' →
      ∀ a, ¬ (rowContains Seg'.row a ∧ Seg.area.has a))
    {i : Nat} (hi : i < Seg.memorySize.toNat) : ∃ Manager, loadSegment Seg = .ok Manager ∧
      read8 m (BitVec.ofNat 32 (Seg.virtualAddress.toNat + i)) = .ok (Manager.byteAt i) := by
  obtain ⟨hguest, hsize⟩ := row_eq hbelow
  obtain ⟨Manager, hget, hload⟩ := segment_of_parse h hSeg
  obtain ⟨hMguest, hMsize⟩ := Prod.mk.inj (Elfio.loadSegment_row hload)
  dsimp only [Segment.area] at hbelow
  have haddr : (BitVec.ofNat 32 (Seg.virtualAddress.toNat + i)).toNat = Seg.virtualAddress.toNat + i :=
    toNat_ofNat_of_lt (by omega)
  have hmap : mapAddress m (BitVec.ofNat 32 (Seg.virtualAddress.toNat + i)) = some ⟨.Memory I, i⟩ := by
    rw [mapAddress_eq_some_iff]
    refine ⟨I, Manager, hget, ?_, ?_, ?_⟩
    · rw [SegmentManager.inRange_iff, hMguest, hMsize]
      omega
    · intro K hK Manager' hget' hin
      obtain ⟨Seg', hSeg'⟩ : ∃ Seg', Reader.segments[K]? = some Seg' :=
        ⟨_, List.getElem?_eq_getElem (Nat.lt_trans hK (List.getElem?_eq_some_iff.mp hSeg).1)⟩
      obtain ⟨Manager'', hget'', hload'⟩ := segment_of_parse h hSeg'
      obtain rfl : Manager'' = Manager' := Option.some.inj (hget''.symm.trans hget')
      refine hfirst K hK Seg' hSeg' (Seg.virtualAddress.toNat + i) ⟨?_, Nat.le_add_right _ _, ?_⟩
      · rw [← Elfio.loadSegment_row hload', ← haddr]
        exact (SegmentManager.inRange_iff _ _).mp hin
      · exact Nat.add_lt_add_left hi _
    · rw [haddr, hMguest, hguest, Nat.add_sub_cancel_left]
  have hread : Seg.reads i := by rwa [Segment.reads, hsize]
  have hfit : m.fits ⟨.Memory I, i⟩ 1 := ⟨Manager, hget, by
    rw [hMsize]
    exact hread⟩
  have hbyte : m.byteAt ⟨.Memory I, i⟩ = Manager.byteAt i := by
    change (m.SegmentData[I]?).elim 0 _ = _
    rw [hget]
    rfl
  refine ⟨Manager, hload, ?_⟩
  rw [read8, readMapped, hmap]
  dsimp only
  rw [MemoryManager.load_of_fits hfit, ← hbyte]
  exact congrArg Except.ok ((byte_zero _).symm.trans (byte_ofBytes 1 _ 0 (by decide)))

end Table

/-- The image of a segment is loaded as the file says exactly when the segment has no tail, and the copies
of all other headers stay in their file data too. -/
theorem image_loaded_iff (Reader : Elfio) (Stack : Vector (BitVec 8) stackSize.toNat) (I : Nat)
    (Seg : Segment) (hSeg : Reader.segments[I]? = some Seg)
    (hsize : Seg.fileData.length ≤ Seg.memorySize.toNat) (hbelow : Seg.area.hi < 2 ^ 32)
    (hfirst : ∀ K < I, ∀ Seg', Reader.segments[K]? = some Seg' →
      ∀ a, ¬ (rowContains Seg'.row a ∧ Seg.area.has a)) :
    LoadsImage Reader Stack Seg ↔ Seg.fileData.length = Seg.memorySize.toNat ∧ Reader.Contained := by
  obtain ⟨-, hcut⟩ := row_eq hbelow
  constructor
  · rintro ⟨hparsed, hreads⟩
    obtain ⟨m, EntryPoint, hparse, -⟩ := hparsed fun _ _ => none
    refine ⟨?_, contained_of_parse hparse⟩
    by_contra hne
    have hread : Seg.reads Seg.fileData.length := by
      rw [Segment.reads, hcut]
      omega
    exact absurd (hreads _ hread) (Nat.lt_irrefl _)
  · rintro ⟨hlen, hcontained⟩
    refine ⟨fun behind => ?_, fun i hi => ?_⟩
    · obtain ⟨m, hparse⟩ := Elfio.parse_ok (Reader.onHost behind) Stack hcontained.onHost.fault
      refine ⟨m, _, hparse, fun i hi => ?_⟩
      have hfirst' : ∀ K < I, ∀ Seg', (Reader.onHost behind).segments[K]? = some Seg' →
          ∀ a, ¬ (rowContains Seg'.row a ∧ Seg.area.has a) := by
        intro K hK Seg' hSeg'
        obtain ⟨Seg'', hSeg'', rfl⟩ := onHost_get_iff.mp hSeg'
        exact hfirst K hK Seg'' hSeg''
      obtain ⟨Manager, hload, hread⟩ := read8_of_parse hparse (onHost_get hSeg) hbelow hfirst' hi
      have hreads : Seg.reads i := by rwa [Segment.reads, hcut]
      have hbyte : Manager.byteAt i = imageByte Seg.fileData i := byteAt_of_load hload hreads (hlen ▸ hi)
      rw [← hbyte]
      exact hread
    · rwa [hlen, ← hcut]

section Example

/-- A file with one word of code, and one whose segment goes on for a byte of zeros. -/
private def codeSegment : Segment := ⟨PT_LOAD, 5, 0x10000, 4, some [0, 1, 2, 3], fun _ => none⟩
private def codeFile : Elfio := ⟨[codeSegment], 0x10000, by decide⟩
private def bssSegment : Segment := ⟨PT_LOAD, 6, 0x10000, 5, some [0, 1, 2, 3], fun _ => none⟩
private def bssFile : Elfio := ⟨[bssSegment], 0x10000, by decide⟩

private theorem first_alone (Reader : Elfio) (Seg : Segment) : ∀ K < 0, ∀ Seg',
    Reader.segments[K]? = some Seg' → ∀ a, ¬ (rowContains Seg'.row a ∧ Seg.area.has a) :=
  fun K hK => absurd hK (Nat.not_lt_zero K)

theorem image_loaded_without_tail : LoadsImage codeFile (Vector.replicate _ 0) codeSegment := by
  refine (image_loaded_iff codeFile _ 0 codeSegment rfl (by decide) (by decide)
    (first_alone codeFile codeSegment)).mpr ⟨rfl, ?_⟩
  unfold Elfio.Contained
  decide

/-- With a byte of zeros after four bytes of data a fifth byte is read. Where the host has nothing there
the copy fails, and where it has a byte, here 4, the guest sees it. -/
theorem image_not_loaded_with_tail : bssSegment.fileData = [0, 1, 2, 3] ∧
    parseElf bssFile (Vector.replicate _ 0) = .error .overread ∧
    (∃ m EntryPoint, parseElf (bssFile.onHost fun _ _ => some 4) (Vector.replicate _ 0) = .ok (m, EntryPoint) ∧
      read8 m 0x10004 = .ok 4) ∧
    ¬ LoadsImage bssFile (Vector.replicate _ 0) bssSegment := by
  refine ⟨rfl, ?_, ?_, ?_⟩
  · have hparse := Elfio.parse_fault bssFile (Vector.replicate _ 0)
    rwa [show bssFile.fault? = some .overread by decide] at hparse
  · obtain ⟨m, hparse⟩ := Elfio.parse_ok (bssFile.onHost fun _ _ => some 4) (Vector.replicate _ 0) (by decide)
    obtain ⟨Manager, hload, hread⟩ := read8_of_parse hparse (I := 0) (i := 4) rfl (by decide)
      (first_alone _ _) (by decide)
    obtain ⟨byteAt, hsource, hbyte⟩ := source_of_load hload (i := 4) (by unfold Segment.reads; decide)
    obtain rfl := Option.some.inj hsource
    obtain hfour : 4 = Manager.byteAt 4 := Option.some.inj hbyte
    exact ⟨m, _, hparse, by rw [hfour]; exact hread⟩
  · rintro ⟨-, hreads⟩
    exact absurd (hreads 4 (by unfold Segment.reads; decide)) (by decide)

end Example

end DBTranslator.Riscv
