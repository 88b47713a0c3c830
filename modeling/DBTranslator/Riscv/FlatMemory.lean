import DBTranslator.Riscv.Memory
import DBTranslator.Lib.WriteHistory

/-! Disjoint segments below 2^32 behave as one flat little-endian byte array under any
sequence of typed accesses. -/
namespace DBTranslator.Riscv
open Lib.BitField Lib.LittleEndian Lib.WriteHistory

/-- The segment as an interval of unbounded integers. -/
def SegmentManager.covers (Seg : SegmentManager) (a : Nat) : Prop :=
  Seg.GuestAddress.toNat ≤ a ∧ a < Seg.GuestAddress.toNat + Seg.MemorySize.toNat

/-- All bytes of an access lie inside the segment. -/
def SegmentManager.holds (Seg : SegmentManager) (Addr : BitVec 32) (n : Nat) : Prop :=
  Seg.GuestAddress.toNat ≤ Addr.toNat ∧
    Addr.toNat + n ≤ Seg.GuestAddress.toNat + Seg.MemorySize.toNat

instance (Seg : SegmentManager) (Addr : BitVec 32) (n : Nat) : Decidable (Seg.holds Addr n) :=
  inferInstanceAs (Decidable (_ ∧ _))

namespace MemoryManager

/-- Pairwise disjoint segments that end below 2^32. -/
structure Flat (m : MemoryManager) : Prop where
  below : ∀ Seg ∈ m.SegmentData, Seg.GuestAddress.toNat + Seg.MemorySize.toNat < 2 ^ 32
  disjoint : m.SegmentData.Pairwise fun Seg Seg' => ∀ a, ¬ (Seg.covers a ∧ Seg'.covers a)

/-- The guest byte at an address, as the host buffers hold it. -/
def guestByte (m : MemoryManager) (a : Nat) : BitVec 8 :=
  (mapAddress m (BitVec.ofNat 32 a)).elim 0 m.byteAt

variable {m m' : MemoryManager}

theorem Flat.mapAddress_of_covers (hflat : m.Flat) {I : Nat} {Seg : SegmentManager}
    (hI : m.SegmentData[I]? = some Seg) {Addr : BitVec 32} (hc : Seg.covers Addr.toNat) :
    mapAddress m Addr = some ⟨.Memory I, Addr.toNat - Seg.GuestAddress.toNat⟩ := by
  have hin : Seg.inRange Addr := by
    rw [SegmentManager.inRange_iff]
    exact ⟨hc.1, hc.2, hflat.below Seg (List.mem_of_getElem? hI)⟩
  refine (mapAddress_eq_some_iff m Addr _).mpr ⟨I, Seg, hI, hin, ?_, rfl⟩
  intro K hK Seg' hK' hin'
  obtain ⟨hlt, rfl⟩ := List.getElem?_eq_some_iff.mp hI
  obtain ⟨hlt', rfl⟩ := List.getElem?_eq_some_iff.mp hK'
  have hc' := (SegmentManager.inRange_iff _ _).mp hin'
  exact List.pairwise_iff_getElem.mp hflat.disjoint K I hlt' hlt hK Addr.toNat
    ⟨⟨hc'.1, hc'.2.1⟩, hc⟩

/-- In disjoint segments no two guest bytes share a host byte. -/
theorem Flat.guestByte_eq (hflat : m.Flat) {I : Nat} {Seg : SegmentManager}
    (hI : m.SegmentData[I]? = some Seg) {a : Nat} (hc : Seg.covers a) :
    m.guestByte a = m.byteAt ⟨.Memory I, a - Seg.GuestAddress.toNat⟩ := by
  have hbelow := hflat.below Seg (List.mem_of_getElem? hI)
  have ha : (BitVec.ofNat 32 a).toNat = a := toNat_ofNat_of_lt (Nat.lt_trans hc.2 hbelow)
  rw [guestByte, hflat.mapAddress_of_covers hI (by rwa [ha]), ha, Option.elim_some]

theorem Flat.of_layout (hflat : m.Flat) (h : m'.layout = m.layout) : m'.Flat := by
  constructor
  · intro Seg hSeg
    obtain ⟨I, hI⟩ := List.getElem?_of_mem hSeg
    obtain ⟨Seg₀, hI₀, hg, hs⟩ := segment_of_layout h.symm hI
    rw [← hg, ← hs]
    exact hflat.below Seg₀ (List.mem_of_getElem? hI₀)
  · rw [List.pairwise_iff_getElem]
    intro K I hK hI hlt a hboth
    obtain ⟨Seg₀, hI₀, hg, hs⟩ := segment_of_layout h.symm (List.getElem?_eq_getElem hI)
    obtain ⟨Seg₁, hK₁, hg', hs'⟩ := segment_of_layout h.symm (List.getElem?_eq_getElem hK)
    obtain ⟨hltI, rfl⟩ := List.getElem?_eq_some_iff.mp hI₀
    obtain ⟨hltK, rfl⟩ := List.getElem?_eq_some_iff.mp hK₁
    refine List.pairwise_iff_getElem.mp hflat.disjoint K I hltK hltI hlt a ?_
    unfold SegmentManager.covers at hboth ⊢
    rwa [hg, hs, hg', hs']

theorem Flat.index_unique (hflat : m.Flat) {I J : Nat} {Seg Seg' : SegmentManager}
    (hI : m.SegmentData[I]? = some Seg) (hJ : m.SegmentData[J]? = some Seg') {a : Nat}
    (hc : Seg.covers a) (hc' : Seg'.covers a) : J = I := by
  have hbelow := hflat.below Seg (List.mem_of_getElem? hI)
  have ha : (BitVec.ofNat 32 a).toNat = a := toNat_ofNat_of_lt (Nat.lt_trans hc.2 hbelow)
  have hmap := hflat.mapAddress_of_covers hI (ha.symm ▸ hc)
  have hmap' := hflat.mapAddress_of_covers hJ (ha.symm ▸ hc')
  rw [hmap] at hmap'
  simpa using (congrArg HostPtr.obj (Option.some.inj hmap')).symm

/-- A read inside a segment is the little-endian word of the guest bytes it covers. -/
theorem Flat.readMapped (hflat : m.Flat) {Seg : SegmentManager} (hSeg : Seg ∈ m.SegmentData)
    {Addr : BitVec 32} {n : Nat} (hn : 0 < n) (hin : Seg.holds Addr n) :
    readMapped n m Addr = .ok (ofBytes n fun i => m.guestByte (Addr.toNat + i)) := by
  obtain ⟨I, hI⟩ := List.getElem?_of_mem hSeg
  obtain ⟨hlo, hhi⟩ := hin
  have hc : Seg.covers Addr.toNat := ⟨hlo, by omega⟩
  have hmap := hflat.mapAddress_of_covers hI hc
  have hfit : m.fits ⟨.Memory I, Addr.toNat - Seg.GuestAddress.toNat⟩ n :=
    ⟨Seg, hI, by dsimp only; omega⟩
  rw [Riscv.readMapped, hmap]
  dsimp only
  rw [load_of_fits hfit]
  congr 1
  apply ofBytes_congr
  intro i hi
  rw [hflat.guestByte_eq hI (a := Addr.toNat + i) ⟨by omega, by omega⟩]
  congr 2
  dsimp only
  omega

/-- A write inside a segment changes the flat memory as the write says and nothing else. -/
theorem Flat.writeMapped (hflat : m.Flat) {Seg : SegmentManager} (hSeg : Seg ∈ m.SegmentData)
    {Addr : BitVec 32} {n : Nat} (hn : 0 < n) (hin : Seg.holds Addr n) (v : BitVec (8 * n)) :
    ∃ m', writeMapped n m Addr v = .ok m' ∧ m'.layout = m.layout ∧
      ∀ Seg' ∈ m.SegmentData, ∀ a, Seg'.covers a →
        m'.guestByte a = applyAll [⟨Addr.toNat, n, v⟩] m.guestByte a := by
  obtain ⟨I, hI⟩ := List.getElem?_of_mem hSeg
  obtain ⟨hlo, hhi⟩ := hin
  have hc : Seg.covers Addr.toNat := ⟨hlo, by omega⟩
  have hmap := hflat.mapAddress_of_covers hI hc
  have hfit : m.fits ⟨.Memory I, Addr.toNat - Seg.GuestAddress.toNat⟩ n :=
    ⟨Seg, hI, by dsimp only; omega⟩
  obtain ⟨m', hstore, hlayout, hbytes⟩ := store_of_fits hfit v
  refine ⟨m', by rw [Riscv.writeMapped, hmap]; exact hstore, hlayout, ?_⟩
  intro Seg' hSeg' a hc'
  obtain ⟨J, hJ⟩ := List.getElem?_of_mem hSeg'
  obtain ⟨Seg'', hJ'', hg, hs⟩ := segment_of_layout hlayout hJ
  have hc'' : Seg''.covers a := by
    unfold SegmentManager.covers
    rwa [hg, hs]
  rw [(hflat.of_layout hlayout).guestByte_eq hJ'' hc'', hbytes, applyAll_single,
    hflat.guestByte_eq hJ hc', hg]
  have hlo' := hc'.1
  by_cases hcover : Addr.toNat ≤ a ∧ a < Addr.toNat + n
  · -- the byte is written, so it lies in the segment of the write
    obtain rfl := hflat.index_unique hI hJ (a := a) ⟨by omega, by omega⟩ hc'
    obtain rfl : Seg = Seg' := by simpa [hI] using hJ
    rw [if_pos ⟨rfl, by dsimp only; omega, by dsimp only; omega⟩, if_pos hcover]
    congr 1
    dsimp only
    omega
  · rw [if_neg hcover, if_neg]
    rintro ⟨hobj, hge, hlt⟩
    obtain rfl : J = I := by simpa using hobj
    obtain rfl : Seg = Seg' := by simpa [hI] using hJ
    dsimp only at hge hlt
    omega

end MemoryManager

/-- One call of the memory interface. -/
inductive Call where
  | read (w : Width) (Addr : BitVec 32)
  | write (w : Width) (Addr : BitVec 32) (Data : BitVec (8 * w.bytes))

namespace Call

/-- The memory after a call; a read hands its value to the caller and keeps the memory. -/
def exec (m : MemoryManager) : Call → Except Fault MemoryManager
  | .read w Addr => (Riscv.read w m Addr).map fun _ => m
  | .write w Addr Data => Riscv.write w m Addr Data

def execAll : List Call → MemoryManager → Except Fault MemoryManager
  | [], m => .ok m
  | c :: cs, m => c.exec m >>= execAll cs

/-- The call lies wholly inside one segment of the table. -/
def inside (m : MemoryManager) : Call → Prop
  | .read w Addr | .write w Addr _ => ∃ Seg ∈ m.SegmentData, Seg.holds Addr w.bytes

def write? : Call → Option Write
  | .read _ _ => none
  | .write w Addr Data => some ⟨Addr.toNat, w.bytes, Data⟩

/-- One call keeps the segment table and acts on the flat memory as its write, if any. -/
theorem exec_flat {m : MemoryManager} (hflat : m.Flat) {c : Call} (hin : c.inside m) :
    ∃ m', c.exec m = .ok m' ∧ m'.layout = m.layout ∧ ∀ Seg ∈ m.SegmentData, ∀ a, Seg.covers a →
      m'.guestByte a = applyAll c.write?.toList m.guestByte a := by
  cases c with
  | read w Addr =>
    obtain ⟨Seg, hSeg, hin⟩ := hin
    have hread := hflat.readMapped hSeg w.bytes_pos hin
    exact ⟨m, by rw [exec, read_eq, hread]; rfl, rfl, fun _ _ _ _ => rfl⟩
  | write w Addr Data =>
    obtain ⟨Seg, hSeg, hin⟩ := hin
    obtain ⟨m', hwrite, hrest⟩ :=
      hflat.writeMapped hSeg w.bytes_pos hin Data
    exact ⟨m', by rw [exec, write_eq, hwrite], hrest⟩

theorem inside_of_layout {m m' : MemoryManager} (h : m'.layout = m.layout) {c : Call}
    (hin : c.inside m) : c.inside m' := by
  have hmove {Addr : BitVec 32} {n : Nat} (hh : ∃ Seg ∈ m.SegmentData, Seg.holds Addr n) :
      ∃ Seg ∈ m'.SegmentData, Seg.holds Addr n := by
    obtain ⟨Seg, hSeg, hholds⟩ := hh
    obtain ⟨I, hI⟩ := List.getElem?_of_mem hSeg
    obtain ⟨Seg', hI', hg, hs⟩ := MemoryManager.segment_of_layout h hI
    exact ⟨Seg', List.mem_of_getElem? hI', by rwa [SegmentManager.holds, hg, hs]⟩
  cases c <;> exact hmove hin

/-- A run of calls acts on the flat memory as the history of its writes. -/
theorem execAll_flat {m : MemoryManager} (hflat : m.Flat) (cs : List Call)
    (hin : ∀ c ∈ cs, c.inside m) :
    ∃ m', execAll cs m = .ok m' ∧ m'.layout = m.layout ∧ ∀ Seg ∈ m.SegmentData, ∀ a, Seg.covers a →
      m'.guestByte a = applyAll (cs.filterMap write?) m.guestByte a := by
  induction cs generalizing m with
  | nil => exact ⟨m, rfl, rfl, fun _ _ _ _ => rfl⟩
  | cons c cs ih =>
    obtain ⟨m₁, hstep, hlayout, hbytes⟩ := exec_flat hflat (hin c List.mem_cons_self)
    obtain ⟨m₂, hrun, hlayout', hbytes'⟩ := ih (hflat.of_layout hlayout) fun d hd =>
      inside_of_layout hlayout (hin d (List.mem_cons_of_mem c hd))
    refine ⟨m₂, by rw [execAll, hstep]; exact hrun, hlayout'.trans hlayout, ?_⟩
    intro Seg hSeg a hc
    obtain ⟨I, hI⟩ := List.getElem?_of_mem hSeg
    obtain ⟨Seg', hI', hg, hs⟩ := MemoryManager.segment_of_layout hlayout hI
    have hc' : Seg'.covers a := by
      unfold SegmentManager.covers
      rwa [hg, hs]
    rw [hbytes' Seg' (List.mem_of_getElem? hI') a hc', applyAll_congr _ (hbytes Seg hSeg a hc)]
    cases hw : c.write? with
    | none => simp [hw]
    | some w => rw [List.filterMap_cons_some hw, applyAll_cons w, Option.toList_some]

end Call

/-- Guest memory is one flat little-endian byte array: after any sequence of accesses, each
inside a segment, a read gives for each of its bytes the one last written there, or the byte
the segment's buffer held at the start. -/
theorem flat_memory (m : MemoryManager) (hflat : m.Flat) (cs : List Call)
    (hin : ∀ c ∈ cs, c.inside m) :
    ∃ m', Call.execAll cs m = .ok m' ∧ m'.layout = m.layout ∧
      ∀ Seg ∈ m.SegmentData, ∀ w Addr, Seg.holds Addr w.bytes →
        read w m' Addr = .ok (ofBytes w.bytes fun i =>
          (lastWritten (cs.filterMap Call.write?) (Addr.toNat + i)).getD
            (Seg.byteAt (Addr.toNat + i - Seg.GuestAddress.toNat))) := by
  obtain ⟨m', hrun, hlayout, hbytes⟩ := Call.execAll_flat hflat cs hin
  refine ⟨m', hrun, hlayout, ?_⟩
  intro Seg hSeg w Addr hholds
  obtain ⟨I, hI⟩ := List.getElem?_of_mem hSeg
  obtain ⟨Seg', hI', hg, hs⟩ := MemoryManager.segment_of_layout hlayout hI
  have hpos := w.bytes_pos
  rw [read_eq, (hflat.of_layout hlayout).readMapped (List.mem_of_getElem? hI') hpos
    (by rwa [SegmentManager.holds, hg, hs])]
  congr 1
  apply ofBytes_congr
  intro i hi
  have hc : Seg.covers (Addr.toNat + i) := ⟨by have := hholds.1; omega, by have := hholds.2; omega⟩
  rw [hbytes Seg hSeg _ hc, applyAll, hflat.guestByte_eq hI hc]
  congr 1
  change (m.SegmentData[I]?).elim 0 _ = _
  rw [hI, Option.elim_some]

private def twoSegments : MemoryManager :=
  ⟨[⟨8, 0x10, Vector.replicate _ 0⟩, ⟨4, 0x20, Vector.replicate _ 0⟩], 2, rfl⟩

private theorem twoSegments_flat : twoSegments.Flat := by
  constructor
  · decide
  · refine List.pairwise_pair.mpr fun a => ?_
    rintro ⟨hfirst, hsecond⟩
    exact absurd (Nat.lt_of_le_of_lt hsecond.1 hfirst.2) (by decide)

/-- A word, then a half-word over its upper half: the word read shows both. -/
theorem flat_memory_overlap :
    ∃ m', Call.execAll [.write .word 0x10 0x11223344, .write .half 0x12 0xAABB] twoSegments = .ok m' ∧
      read .word m' 0x10 = .ok 0xAABB3344 := by
  have hin : ∀ c ∈ [Call.write .word 0x10 0x11223344, .write .half 0x12 0xAABB],
      c.inside twoSegments := by
    rw [List.forall_mem_cons, List.forall_mem_singleton]
    exact ⟨⟨_, List.mem_cons_self, by decide⟩, ⟨_, List.mem_cons_self, by decide⟩⟩
  obtain ⟨m', hrun, -, hread⟩ := flat_memory twoSegments twoSegments_flat _ hin
  refine ⟨m', hrun, ?_⟩
  rw [hread _ List.mem_cons_self .word 0x10 (by decide)]
  decide

end DBTranslator.Riscv
