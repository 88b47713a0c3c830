import DBTranslator.Lib.FirstMatch
import DBTranslator.Riscv.Memory

/-! When reads see what was written before, in a memory whose segments may overlap: the first
segment that contains an address owns its byte, and every other copy of it is dead. -/
namespace DBTranslator.Riscv
open Lib.BitField Lib.LittleEndian Lib.FirstMatch

/-- The addresses of a row of the segment table; a row that reaches 2^32 has none. -/
def rowContains (row : BitVec 32 × BitVec 32) (a : Nat) : Prop :=
  row.1.toNat ≤ a ∧ a < row.1.toNat + row.2.toNat ∧ row.1.toNat + row.2.toNat < 2 ^ 32

instance (row : BitVec 32 × BitVec 32) (a : Nat) : Decidable (rowContains row a) :=
  inferInstanceAs (Decidable (_ ∧ _))

/-- A range of guest addresses. -/
structure Area where
  lo : Nat
  hi : Nat

def Area.has (area : Area) (a : Nat) : Prop := area.lo ≤ a ∧ a < area.hi

/-- Every access of the area is mapped, and after a byte is written each read in the area that
covers it shows it, its other bytes being what the read gave before. -/
def CoherentOn (m : MemoryManager) (area : Area) : Prop :=
  ∀ (w : Width) (a b : BitVec 32) (d : BitVec 8), b.toNat ≤ a.toNat → a.toNat < b.toNat + w.bytes →
    area.lo ≤ b.toNat → b.toNat + w.bytes ≤ area.hi →
      ∃ m' v v', write8 m a d = .ok m' ∧ read w m b = .ok v ∧ read w m' b = .ok v' ∧
        ∀ i < w.bytes, byte v' i = if b.toNat + i = a.toNat then d else byte v i

section Owner
variable {m m' : MemoryManager} {Addr : BitVec 32} {I : Nat}

private theorem layout_row (row : BitVec 32 × BitVec 32) : m.layout[I]? = some row ↔
    ∃ Seg, m.SegmentData[I]? = some Seg ∧ row = (Seg.GuestAddress, Seg.MemorySize) := by
  rw [MemoryManager.layout, List.getElem?_map, Option.map_eq_some_iff]
  simp only [eq_comm]

/-- `mapAddress` goes to the row that the address belongs to. -/
theorem owner_iff : Owner rowContains m.layout Addr.toNat I ↔ ∃ Seg, m.SegmentData[I]? = some Seg ∧
    mapAddress m Addr = some ⟨.Memory I, Addr.toNat - Seg.GuestAddress.toNat⟩ := by
  simp only [mapAddress_eq_some_iff, HostPtr.mk.injEq, HostObject.Memory.injEq]
  constructor
  · rintro ⟨⟨row, hrow, hin⟩, hfirst⟩
    obtain ⟨Seg, hSeg, rfl⟩ := (layout_row row).mp hrow
    refine ⟨Seg, hSeg, I, Seg, hSeg, (Seg.inRange_iff Addr).mpr hin, ?_, rfl, rfl⟩
    intro K hK Seg' hSeg' hin'
    exact hfirst K hK _ ((layout_row _).mpr ⟨Seg', hSeg', rfl⟩) ((Seg'.inRange_iff Addr).mp hin')
  · rintro ⟨-, -, J, Seg, hSeg, hin, hfirst, rfl, -⟩
    refine ⟨⟨_, (layout_row _).mpr ⟨Seg, hSeg, rfl⟩, (Seg.inRange_iff Addr).mp hin⟩, ?_⟩
    intro K hK row hrow hin'
    obtain ⟨Seg', hSeg', rfl⟩ := (layout_row row).mp hrow
    exact hfirst K hK Seg' hSeg' ((Seg'.inRange_iff Addr).mpr hin')

/-- A byte written to one segment is not seen through another. -/
theorem readMapped_of_write_other {n : Nat} {a b : BitVec 32} {d : BitVec 8} {p q : HostPtr}
    (hp : mapAddress m a = some p) (hq : mapAddress m b = some q) (hobj : q.obj ≠ p.obj)
    (hwrite : write8 m a d = .ok m') : readMapped n m' b = readMapped n m b := by
  rw [write8, writeMapped, hp] at hwrite
  obtain ⟨m'', hstore, hlayout, hbytes⟩ :=
    MemoryManager.store_of_fits (MemoryManager.fits_of_store hwrite) d
  obtain rfl : m'' = m' := Except.ok.inj (hstore.symm.trans hwrite)
  rw [readMapped, readMapped, mapAddress_of_layout hlayout, hq]
  refine MemoryManager.load_congr hlayout fun i _ => ?_
  rw [hbytes, if_neg]
  rintro ⟨hsame, -⟩
  exact hobj hsame

/-- A byte written to a segment is seen by every read of that segment that covers it. -/
theorem readMapped_of_write_same {n : Nat} {a b : BitVec 32} {Seg : SegmentManager}
    (hSeg : m.SegmentData[I]? = some Seg)
    (ha : mapAddress m a = some ⟨.Memory I, a.toNat - Seg.GuestAddress.toNat⟩)
    (hb : mapAddress m b = some ⟨.Memory I, b.toNat - Seg.GuestAddress.toNat⟩)
    (hle : Seg.GuestAddress.toNat ≤ b.toNat) (hba : b.toNat ≤ a.toNat) (hab : a.toNat < b.toNat + n)
    (hend : b.toNat + n ≤ Seg.GuestAddress.toNat + Seg.MemorySize.toNat) (d : BitVec 8) :
    ∃ m' v v', write8 m a d = .ok m' ∧ readMapped n m b = .ok v ∧ readMapped n m' b = .ok v' ∧
      ∀ i < n, byte v' i = if b.toNat + i = a.toNat then d else byte v i := by
  have hfita : m.fits ⟨.Memory I, a.toNat - Seg.GuestAddress.toNat⟩ 1 :=
    ⟨Seg, hSeg, by dsimp only; omega⟩
  have hfitb : m.fits ⟨.Memory I, b.toNat - Seg.GuestAddress.toNat⟩ n :=
    ⟨Seg, hSeg, by dsimp only; omega⟩
  obtain ⟨m', hstore, hlayout, hbytes⟩ := MemoryManager.store_of_fits hfita d
  have hread : readMapped n m b = .ok (ofBytes n fun i =>
      m.byteAt ⟨.Memory I, b.toNat - Seg.GuestAddress.toNat + i⟩) := by
    rw [readMapped, hb]
    exact MemoryManager.load_of_fits hfitb
  have hread' : readMapped n m' b = .ok (ofBytes n fun i =>
      m'.byteAt ⟨.Memory I, b.toNat - Seg.GuestAddress.toNat + i⟩) := by
    rw [readMapped, mapAddress_of_layout hlayout, hb]
    exact MemoryManager.load_of_fits (MemoryManager.fits_of_layout hlayout hfitb)
  refine ⟨m', _, _, by rw [write8, writeMapped, ha]; exact hstore, hread, hread', ?_⟩
  intro i hi
  rw [byte_ofBytes _ _ i hi, byte_ofBytes _ _ i hi, hbytes]
  dsimp only
  by_cases hi' : b.toNat + i = a.toNat
  · rw [if_pos hi', if_pos ⟨rfl, by omega, by omega⟩,
      show b.toNat - Seg.GuestAddress.toNat + i - (a.toNat - Seg.GuestAddress.toNat) = 0 by omega]
    exact byte_zero d
  · rw [if_neg hi', if_neg]
    rintro ⟨-, hge, hlt⟩
    omega

end Owner

section Area
variable {m : MemoryManager} {area : Area}

/-- In a coherent area two neighbours belong to one segment: a half-word read at the first sees
what is written to the second. -/
private theorem neighbours_of_coherent (hhi : area.hi < 2 ^ 32) (hcoh : CoherentOn m area)
    {a I J : Nat} (hlo : area.lo ≤ a) (ha : a + 1 < area.hi) (hI : Owner rowContains m.layout a I)
    (hJ : Owner rowContains m.layout (a + 1) J) : I = J := by
  by_contra hne
  have hb := toNat_ofNat_of_lt (w := 32) (a := a) (by omega)
  have hnext := toNat_ofNat_of_lt (w := 32) (a := a + 1) (by omega)
  have hpair (d : BitVec 8) := hcoh .half (BitVec.ofNat 32 (a + 1)) (BitVec.ofNat 32 a) d
    (by omega) (by rw [hb, hnext]; exact Nat.lt_succ_self _) (by omega) (by rw [hb]; exact ha)
  rw [← hb] at hI
  rw [← hnext] at hJ
  obtain ⟨Seg, -, hmap⟩ := owner_iff.mp hI
  obtain ⟨Seg', -, hmap'⟩ := owner_iff.mp hJ
  obtain ⟨-, v, -, -, hv, -, -⟩ := hpair 0
  obtain ⟨m', w, v', hwrite, hw, hv', hbytes⟩ := hpair (byte v 1 + 1#8)
  obtain rfl : v = w := Except.ok.inj (hv.symm.trans hw)
  have hsame := readMapped_of_write_other (n := 2) hmap' hmap (by simpa using hne) hwrite
  obtain rfl : v = v' := Except.ok.inj (hv.symm.trans (hsame.symm.trans hv'))
  have hself := hbytes 1 (by decide)
  rw [hb, hnext, if_pos rfl] at hself
  exact absurd (BitVec.add_right_eq_self.mp hself.symm) (by decide)

/-- A mapped area is coherent exactly when the first row that meets it covers it. -/
theorem coherentOn_iff (hhi : area.hi < 2 ^ 32)
    (hmapped : ∀ a, area.lo ≤ a → a < area.hi → ∃ I, Owner rowContains m.layout a I) :
    CoherentOn m area ↔ FirstCovers rowContains m.layout area.lo area.hi := by
  constructor
  · intro hcoh
    exact (neighbours_iff_firstCovers hmapped).mp fun a I J => neighbours_of_coherent hhi hcoh
  · intro hcovers w a b d hba hab hlo hend
    have hpos := w.bytes_pos
    obtain ⟨I, ⟨row, hrow, hin⟩, -⟩ := hmapped b.toNat hlo (by omega)
    obtain ⟨K, hK⟩ := exists_first (P := meets rowContains area.lo area.hi)
      (List.mem_of_getElem? hrow) ⟨b.toNat, hlo, by omega, hin⟩
    obtain ⟨Seg, hSeg, hmapa⟩ := owner_iff.mp (hcovers.owner hK (a := a.toNat) (by omega) (by omega))
    obtain ⟨Seg', hSeg', hmapb⟩ := owner_iff.mp (hcovers.owner hK (a := b.toNat) hlo (by omega))
    obtain rfl : Seg = Seg' := Option.some.inj (hSeg.symm.trans hSeg')
    have hall := hcovers K _ ((layout_row _).mpr ⟨Seg, hSeg, rfl⟩) hK
    have hfirst := hall b.toNat hlo (by omega)
    have hlast := hall (b.toNat + w.bytes - 1) (by omega) (by omega)
    obtain ⟨hge, -, -⟩ := hfirst
    obtain ⟨-, hlt, -⟩ := hlast
    dsimp only at hge hlt
    rw [read_eq]
    exact readMapped_of_write_same hSeg hmapa hmapb hge hba hab (by omega) d

end Area

end DBTranslator.Riscv
