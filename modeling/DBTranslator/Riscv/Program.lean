import DBTranslator.Riscv.Image
import DBTranslator.Riscv.Link
import DBTranslator.Riscv.ReferenceRun

/-! The whole translator on a file: the memory that a file gives a program, and the runs of `main` on it
against the hart that starts with this memory. -/
namespace DBTranslator.Riscv
open Lib Lib.Ssa Lib.CodeCache Lib.Rv32i Lib.LittleEndian

section Memory
variable {m : MemoryManager} {Addr : BitVec 32} {Seg : Segment} {Manager : SegmentManager} {segments : List Segment}
  {rows : Rows segments} {Stack : Vector (BitVec 8) stackSize.toNat} {Reader : Elfio} {EntryPoint : BitVec 32}

/-- The byte of a segment at an address that passes its test. -/
def SegmentManager.guestByte? (Seg : SegmentManager) (Addr : BitVec 32) : Option (BitVec 8) :=
  if Seg.inRange Addr then some (Seg.byteAt (Addr.toNat - Seg.GuestAddress.toNat)) else none

/-- The byte that a program header gives an address. -/
def Segment.guestByte? (Seg : Segment) (Addr : BitVec 32) : Option (BitVec 8) :=
  if rowContains Seg.row Addr.toNat then Seg.source.bind (· (Addr.toNat - Seg.row.1.toNat)) else none

/-- The byte that it should give by the file. -/
def Segment.imageByte? (Seg : Segment) (Addr : BitVec 32) : Option (BitVec 8) :=
  if rowContains Seg.row Addr.toNat then some (imageByte Seg.fileData (Addr.toNat - Seg.row.1.toNat)) else none

/-- The byte of a program at an address: that of the first header that has one, else of the stack. -/
def Elfio.guestByte? (Reader : Elfio) (Stack : Vector (BitVec 8) stackSize.toNat) (Addr : BitVec 32) :
    Option (BitVec 8) :=
  (Reader.segments.findSome? (·.guestByte? Addr)).or
    (SegmentManager.guestByte? ⟨stackSize, stackAddress, Stack⟩ Addr)

/-- The byte of the file at an address, in the order of the headers, and that of the stack where there is none. -/
def Elfio.imageByte? (Reader : Elfio) (Stack : Vector (BitVec 8) stackSize.toNat) (Addr : BitVec 32) :
    Option (BitVec 8) :=
  (Reader.segments.findSome? (·.imageByte? Addr)).or
    (SegmentManager.guestByte? ⟨stackSize, stackAddress, Stack⟩ Addr)

/-- The address map finds the byte of the first segment that has one. -/
theorem mapAddress_byteAt (m : MemoryManager) (Addr : BitVec 32) :
    (mapAddress m Addr).map m.byteAt = m.SegmentData.findSome? (·.guestByte? Addr) := by
  cases hp : mapAddress m Addr with
  | none =>
    symm
    rw [Option.map_none, List.findSome?_eq_none_iff]
    intro Seg hSeg
    exact if_neg (MemoryLl.not_inRange_of_unmapped hp Seg hSeg)
  | some p =>
    obtain ⟨I, Seg, hI, hin, hfirst, rfl⟩ := (mapAddress_eq_some_iff m Addr p).mp hp
    symm
    rw [Option.map_some, List.findSome?_eq_some_iff]
    obtain ⟨hlt, hget⟩ := List.getElem?_eq_some_iff.mp hI
    refine ⟨m.SegmentData.take I, Seg, m.SegmentData.drop (I + 1), ?_, ?_, fun Seg' hSeg' => if_neg ?_⟩
    · rw [← hget, ← List.drop_eq_getElem_cons hlt, List.take_append_drop]
    · rw [SegmentManager.guestByte?, if_pos hin]
      change _ = some ((m.SegmentData[I]?).elim 0 _)
      rw [hI]
      rfl
    · obtain ⟨K, hK⟩ := List.getElem?_of_mem hSeg'
      rw [List.getElem?_take] at hK
      split at hK
      · rename_i hKI
        exact hfirst K hKI Seg' hK
      · cases hK

/-- Reading a byte. -/
theorem read8_eq (m : MemoryManager) (Addr : BitVec 32) :
    read8 m Addr = match m.SegmentData.findSome? (·.guestByte? Addr) with
      | some v => .ok v
      | none => .error .null := by
  rw [← mapAddress_byteAt]
  cases hp : mapAddress m Addr with
  | none =>
    rw [read8, readMapped, hp]
    rfl
  | some p =>
    rw [read8, readMapped, hp]
    dsimp only [Option.map_some]
    rw [MemoryManager.load_of_fits (MemoryManager.fits_of_mapped hp)]
    exact congrArg Except.ok ((byte_zero _).symm.trans (byte_ofBytes 1 _ 0 (by decide)))

private theorem guestByte?_of_load (h : loadSegment Seg = .ok Manager) : Manager.guestByte? Addr = Seg.guestByte? Addr := by
  obtain ⟨hguest, hsize⟩ := Prod.mk.inj (Elfio.loadSegment_row h)
  have hin : Manager.inRange Addr ↔ rowContains Seg.row Addr.toNat := by
    rw [SegmentManager.inRange_iff, ← Elfio.loadSegment_row h]
    rfl
  rw [SegmentManager.guestByte?, Segment.guestByte?]
  by_cases hrow : rowContains Seg.row Addr.toNat
  · rw [if_pos hrow, if_pos (hin.mpr hrow), hguest]
    obtain ⟨hlo, hhi, -⟩ := hrow
    have hread : Seg.reads (Addr.toNat - Seg.row.1.toNat) := by
      show Addr.toNat - Seg.row.1.toNat < Seg.row.2.toNat
      omega
    obtain ⟨byteAt, hsource, hbyte⟩ := source_of_load h hread
    rw [hsource, Option.bind_some, hbyte]
    rfl
  · rw [if_neg hrow, if_neg fun hyes => hrow (hin.mp hyes)]

private theorem findSome?_of_loads (h : loadSegments segments = .ok rows) :
    rows.Managers.findSome? (·.guestByte? Addr) = segments.findSome? (·.guestByte? Addr) := by
  induction segments with
  | nil =>
    obtain rfl := Except.ok.inj h
    rfl
  | cons Seg segments ih =>
    obtain ⟨Manager, hManager, h⟩ := bind_eq_ok.mp h
    obtain ⟨Rest, hRest, h⟩ := bind_eq_ok.mp h
    obtain rfl := Except.ok.inj h
    rw [Rows.cons, List.findSome?_cons, List.findSome?_cons, guestByte?_of_load hManager, ih hRest]

theorem findSome?_of_parse (h : parseElf Reader Stack = .ok (m, EntryPoint)) :
    m.SegmentData.findSome? (·.guestByte? Addr) = Reader.guestByte? Stack Addr := by
  obtain ⟨rows, hrows, h⟩ := bind_eq_ok.mp h
  obtain ⟨rfl, rfl⟩ := Prod.mk.inj (Except.ok.inj h)
  rw [Elfio.guestByte?, ← findSome?_of_loads hrows, List.findSome?_append, List.findSome?_singleton]

theorem bytes_of_parse (h : parseElf Reader Stack = .ok (m, EntryPoint)) :
    m.bytes Addr = (Reader.guestByte? Stack Addr).getD 0 := by
  rw [← findSome?_of_parse h, ← mapAddress_byteAt, MemoryManager.bytes]
  cases mapAddress m Addr <;> rfl

private theorem guestByte?_of_contained (h : Reader.Contained) (hSeg : Seg ∈ Reader.segments) (Addr : BitVec 32) :
    Seg.guestByte? Addr = Seg.imageByte? Addr := by
  rw [Segment.guestByte?, Segment.imageByte?]
  by_cases hrow : rowContains Seg.row Addr.toNat
  · rw [if_pos hrow, if_pos hrow]
    obtain ⟨hlo, hhi, -⟩ := hrow
    have hsize : Seg.row.2.toNat ≤ Seg.fileData.length := h Seg hSeg
    have hfile : Addr.toNat - Seg.row.1.toNat < Seg.fileData.length := by omega
    rw [Segment.source]
    rw [Segment.fileData] at hfile ⊢
    cases hdata : Seg.data with
    | none =>
      rw [hdata] at hfile
      exact absurd hfile (Nat.not_lt_zero _)
    | some bytes =>
      rw [hdata, Option.getD_some] at hfile
      rw [Option.map_some, Option.bind_some, imageByte, Option.getD_some, List.getD_eq_getElem _ _ hfile]
      dsimp only
      rw [List.getElem?_eq_getElem hfile, Option.some_or]
  · rw [if_neg hrow, if_neg hrow]

private theorem findSome?_congr {α β : Type} {f g : α → Option β} {l : List α} (h : ∀ a ∈ l, f a = g a) :
    l.findSome? f = l.findSome? g := by
  induction l with
  | nil => rfl
  | cons a l ih =>
    rw [List.findSome?_cons, List.findSome?_cons, h a List.mem_cons_self,
      ih fun b hb => h b (List.mem_cons_of_mem a hb)]

theorem guestByte?_eq_image (h : Reader.Contained) (Addr : BitVec 32) :
    Reader.guestByte? Stack Addr = Reader.imageByte? Stack Addr := by
  rw [Elfio.guestByte?, Elfio.imageByte?, findSome?_congr fun Seg hSeg => guestByte?_of_contained h hSeg Addr]

end Memory

/-- Every file is loaded in full or stopped at the first copy that fails. In the memory of a loaded file an
address has the byte of the first header of any type that covers it, else that of the stack, and nothing
can be read at any other address. Copies that stay in the file data do not fail, and give the bytes of the
file. -/
theorem parsed_memory (Reader : Elfio) (Stack : Vector (BitVec 8) stackSize.toNat) :
    (match Reader.fault? with
      | some e => parseElf Reader Stack = .error e
      | none => ∃ m, parseElf Reader Stack = .ok (m, Reader.entry.setWidth 32) ∧
        ∀ Addr, read8 m Addr = match Reader.guestByte? Stack Addr with
          | some v => .ok v
          | none => .error .null) ∧
    (Reader.Contained → Reader.fault? = none ∧ ∀ Addr, Reader.guestByte? Stack Addr = Reader.imageByte? Stack Addr) := by
  refine ⟨?_, fun hfile => ⟨hfile.fault, guestByte?_eq_image hfile⟩⟩
  have hparse := Elfio.parse_fault Reader Stack
  cases hfault : Reader.fault? with
  | some e => rwa [hfault] at hparse
  | none =>
    rw [hfault] at hparse
    obtain ⟨m, hm⟩ := hparse
    refine ⟨m, hm, fun Addr => ?_⟩
    rw [read8_eq, findSome?_of_parse hm]

/-- The hart that starts with a file: the entry point, the stack pointer and the memory of the file. -/
def Elfio.hart (Reader : Elfio) (Stack : Vector (BitVec 8) stackSize.toNat) : Hart where
  pc := Reader.entry.setWidth 32
  x := Function.update (fun _ => 0) 2 (-16)
  x_zero := rfl
  mem Addr := (Reader.imageByte? Stack Addr).getD 0

section Main
variable {Reader : Elfio} {Stack : Vector (BitVec 8) stackSize.toNat} {m : MemoryManager} {EntryPoint : BitVec 32}
  {call : List (Inst MemoryFunction) → CPUState → CPUState → Prop}

theorem entry_of_parse (h : parseElf Reader Stack = .ok (m, EntryPoint)) : EntryPoint = Reader.entry.setWidth 32 := by
  obtain ⟨rows, -, h⟩ := bind_eq_ok.mp h
  exact (Prod.mk.inj (Except.ok.inj h)).2.symm

/-- `main` starts as the hart of its file. -/
theorem mainState_traced (hfile : Reader.Contained) (h : parseElf Reader Stack = .ok (m, EntryPoint)) :
    (mainState EntryPoint m).traced = ⟨Reader.hart Stack, some 0⟩ := by
  obtain rfl := entry_of_parse h
  have hx : (mainState (Reader.entry.setWidth 32) m).x = Function.update (fun _ => 0) 2 (-16) := by
    funext r
    rw [CPUState.x]
    by_cases hr : r = 0
    · subst hr
      rfl
    · exact if_neg hr
  have hmem : m.bytes = fun Addr => (Reader.imageByte? Stack Addr).getD 0 := by
    funext Addr
    rw [bytes_of_parse h, guestByte?_eq_image hfile]
  have hhart : (mainState (Reader.entry.setWidth 32) m).hart = Reader.hart Stack := by
    unfold CPUState.hart Elfio.hart
    congr 1
  rw [CPUState.traced, hhart]
  rfl

/-- Some state can be left by a call of any linked code that runs without a fault. -/
def CallsLinked (call : List (Inst MemoryFunction) → CPUState → CPUState → Prop) : Prop :=
  ∀ (code : List (Inst MemoryFunction)) s fr rounds, exec (linkedHost rounds) code ⟨blockEnv, s.host⟩ = .ok fr →
    ∃ s', call code s s'

theorem CallsLinked.calls (h : CallsLinked call) : Calls call := by
  intro code s fr hrun
  obtain ⟨n, hn⟩ := exec_link memory_implements hrun
  exact h code s fr n (hn n (Nat.le_refl n))

theorem interpretLinked_calls : CallsLinked interpretLinked := by
  intro code s fr rounds hfr
  obtain ⟨s', hs'⟩ := fr.mem.exists_concretises
  exact ⟨s', rounds, fr, hfr, hs'⟩

end Main

/-- `main` on a file that is copied without a read past its data, the blocks compiled to code that calls
`Memory.ll`: as far as the hart that starts with the file goes on within what is supported, the loop is always
where that hart is, and it gets as far as the hart but for the last block. -/
theorem main_runs_file (call : List (Inst MemoryFunction) → CPUState → CPUState → Prop)
    (hcall : CompilesLinked call) (hcalls : CallsLinked call) (Reader : Elfio) (hfile : Reader.Contained)
    (Stack : Vector (BitVec 8) stackSize.toNat) (m : MemoryManager) (EntryPoint : BitVec 32)
    (hparse : parseElf Reader Stack = .ok (m, EntryPoint)) (code : BitVec 32 → Prop)
    (hcode : ∀ c, code c → served m c 4) (N : Nat) (u : Traced)
    (htraj : Steps (supportedStep m code) N ⟨Reader.hart Stack, some 0⟩ u) (Threshold : Nat) (hpos : 0 < Threshold) :
    (∀ allowed d n, Run call Threshold allowed (mainState EntryPoint m) d n → n ≤ N →
      ∃ h, Steps hartStep n (Reader.hart Stack) h ∧ d.State.host.Realizes h) ∧
    ∀ n, n + Threshold ≤ N → ∃ d n', n ≤ n' ∧ n' < n + Threshold ∧
      Run call Threshold Dispatcher.faultless (mainState EntryPoint m) d n' := by
  have hstart := mainState_traced hfile hparse
  rw [← hstart] at htraj
  constructor
  · intro allowed d n hrun hle
    obtain ⟨t, hsteps, -, hfollows⟩ := hrun.follows (supportedStep_passing hcode) hcall.compiles htraj hle
    have hhart := hart_steps (supportedStep_passing hcode) hsteps
    rw [hstart] at hhart
    exact ⟨t.hart, hhart, hfollows.traces.realizes⟩
  · intro n hle
    exact run_reaches (supportedStep_passing hcode) hcall.compiles hcalls.calls htraj hpos hle

section Example

/-- A file with the words `fence` and `beq x0, x0, -4`. -/
private def loopFile : Elfio :=
  ⟨[⟨PT_LOAD, 5, 0x10000, 8, some [0x0F, 0, 0, 0, 0xE3, 0x0E, 0, 0xFE], fun _ => none⟩], 0x10000, by decide⟩

private theorem loopFile_contained : loopFile.Contained := by
  unfold Elfio.Contained
  decide

private def loopMemory : MemoryManager :=
  ⟨[⟨8, 0x10000, Vector.ofFn ![0x0F, 0, 0, 0, 0xE3, 0x0E, 0, 0xFE]⟩,
    ⟨stackSize, stackAddress, Vector.replicate _ 0⟩], 2, rfl⟩

private theorem loopFile_parsed : ∃ m, parseElf loopFile (Vector.replicate _ 0) = .ok (m, 0x10000) ∧
    m.layout = loopMemory.layout := by
  obtain ⟨m, hm⟩ := Elfio.parse_ok loopFile (Vector.replicate _ 0) loopFile_contained.fault
  exact ⟨m, hm, Elfio.layout_of_parse hm⟩

private def loopHart (PC : BitVec 32) : Traced :=
  ⟨{ loopFile.hart (Vector.replicate _ 0) with pc := PC }, some 0⟩

private theorem loop_fence (m : MemoryManager) :
    supportedStep m (fun c => c = 0x10000 ∨ c = 0x10004) (loopHart 0x10000) (loopHart 0x10004) := by
  refine ⟨.fence, ⟨.inl rfl, rfl, not_false, ?_, ?_, ?_⟩, rfl, rfl⟩
  · rintro ⟨⟩
  · rintro a n ⟨⟩
  · rintro a n ⟨⟩

private theorem loop_back (m : MemoryManager) :
    supportedStep m (fun c => c = 0x10000 ∨ c = 0x10004) (loopHart 0x10004) (loopHart 0x10000) := by
  refine ⟨.branch .eq 0 0 (-4), ⟨.inr rfl, rfl, not_false, fun _ => rfl, ?_, ?_⟩, rfl, rfl⟩
  · rintro a n ⟨⟩
  · rintro a n ⟨⟩

private theorem loop_steps (m : MemoryManager) (N : Nat) :
    ∃ u, Steps (supportedStep m fun c => c = 0x10000 ∨ c = 0x10004) (2 * N) (loopHart 0x10000) u := by
  induction N with
  | zero => exact ⟨_, .refl _⟩
  | succ N ih =>
    obtain ⟨u, hu⟩ := ih
    exact ⟨u, .head (loop_fence m) (.head (loop_back m) hu)⟩

/-- The endless program of the file runs for a thousand instructions. -/
theorem main_runs_loopFile : ∃ m, parseElf loopFile (Vector.replicate _ 0) = .ok (m, 0x10000) ∧
    ∃ d n', 1000 ≤ n' ∧ n' < 1000 + 64 ∧ Run interpretLinked 64 Dispatcher.faultless (mainState 0x10000 m) d n' := by
  obtain ⟨m, hm, hlayout⟩ := loopFile_parsed
  have hcode (c : BitVec 32) (hc : c = 0x10000 ∨ c = 0x10004) : served m c 4 := by
    rw [served_of_layout hlayout]
    rcases hc with rfl | rfl
    · exact ⟨_, rfl, by decide⟩
    · exact ⟨_, rfl, by decide⟩
  obtain ⟨u, hu⟩ := loop_steps m 600
  have hmain := main_runs_file interpretLinked interpretLinked_compiles interpretLinked_calls loopFile
    loopFile_contained _ m _ hm _ hcode _ u hu 64 (by decide)
  exact ⟨m, hm, hmain.2 1000 (by decide)⟩

end Example

end DBTranslator.Riscv
