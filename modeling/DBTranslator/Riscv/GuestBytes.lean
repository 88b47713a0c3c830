import DBTranslator.Riscv.Coherence
import DBTranslator.Riscv.FlatMemory

/-! The typed accesses over any segment table, with rows that overlap, wrap around or are empty:
where the bytes of an access are mapped one after another, the table is a memory of bytes. -/
namespace DBTranslator.Riscv
open Lib.BitField Lib.LittleEndian Lib.WriteHistory

/-- The bytes of an access are mapped one after another into one buffer. -/
def served (m : MemoryManager) (Addr : BitVec 32) (n : Nat) : Prop :=
  ∃ p ∈ mapAddress m Addr, ∀ i < n, mapAddress m (Addr + BitVec.ofNat 32 i) = some ⟨p.obj, p.off + i⟩

namespace MemoryManager
variable {m m' : MemoryManager} {Addr a b : BitVec 32} {p q : HostPtr} {n : Nat}

/-- The byte of the guest at an address, 0 where nothing is mapped. -/
def bytes (m : MemoryManager) (Addr : BitVec 32) : BitVec 8 := (mapAddress m Addr).elim 0 m.byteAt

theorem bytes_of_mapped (h : mapAddress m Addr = some p) : m.bytes Addr = m.byteAt p := by
  rw [bytes, h, Option.elim_some]

theorem guestByte_toNat (m : MemoryManager) (Addr : BitVec 32) : m.guestByte Addr.toNat = m.bytes Addr := by
  rw [guestByte, BitVec.ofNat_toNat, BitVec.setWidth_eq, bytes]

/-- A mapped address has a byte in its buffer. -/
theorem fits_of_mapped (h : mapAddress m Addr = some p) : m.fits p 1 := by
  obtain ⟨I, Seg, hI, hin, -, rfl⟩ := (mapAddress_eq_some_iff m Addr p).mp h
  have hrange := (Seg.inRange_iff Addr).mp hin
  exact ⟨Seg, hI, by dsimp only; omega⟩

/-- Two addresses in one buffer are as far apart there as in the guest. -/
theorem distance_of_mapped (ha : mapAddress m a = some p) (hb : mapAddress m b = some q)
    (hobj : q.obj = p.obj) : a.toNat + q.off = b.toNat + p.off := by
  obtain ⟨I, Seg, hI, hin, -, rfl⟩ := (mapAddress_eq_some_iff m a p).mp ha
  obtain ⟨J, Seg', hJ, hin', -, rfl⟩ := (mapAddress_eq_some_iff m b q).mp hb
  obtain rfl : J = I := HostObject.Memory.inj hobj
  obtain rfl : Seg = Seg' := Option.some.inj (hI.symm.trans hJ)
  have hle := ((Seg.inRange_iff a).mp hin).1
  have hle' := ((Seg.inRange_iff b).mp hin').1
  dsimp only
  omega

theorem fits_of_load {v : BitVec (8 * n)} (h : m.load p n = .ok v) : m.fits p n := by
  by_contra hout
  rw [load_of_not_fits hout] at h
  cases h

/-- An access inside a buffer does not wrap around. -/
theorem fits_bound (hp : mapAddress m Addr = some p) (hfit : m.fits p n) : Addr.toNat + n < 2 ^ 32 := by
  obtain ⟨I, Seg, hI, hin, -, rfl⟩ := (mapAddress_eq_some_iff m Addr p).mp hp
  obtain ⟨Seg', hSeg', hle⟩ := hfit
  obtain rfl : Seg = Seg' := Option.some.inj (hI.symm.trans hSeg')
  have hrange := (Seg.inRange_iff Addr).mp hin
  dsimp only at hle
  omega

end MemoryManager
open MemoryManager

theorem write_layout {m m' : MemoryManager} {width : Width} {Addr : BitVec 32} {v : BitVec (8 * width.bytes)}
    (h : write width m Addr v = .ok m') : m'.layout = m.layout := by
  rw [write_eq, writeMapped] at h
  split at h
  · obtain ⟨m'', hstore, hlayout, -⟩ := store_of_fits (fits_of_store h) v
    rwa [← Except.ok.inj (hstore.symm.trans h)]
  · cases h

private theorem toNat_add_of_lt {Addr : BitVec 32} {i : Nat} (h : Addr.toNat + i < 2 ^ 32) :
    (Addr + BitVec.ofNat 32 i).toNat = Addr.toNat + i := by
  rw [BitVec.toNat_add, toNat_ofNat_of_lt (w := 32) (a := i) (by omega), Nat.mod_eq_of_lt h]

section Served
variable {m m' : MemoryManager} {Addr a : BitVec 32} {p : HostPtr} {n : Nat}

theorem served_of_layout (h : m'.layout = m.layout) : served m' Addr n ↔ served m Addr n := by
  simp only [served, mapAddress_of_layout h]

/-- The bytes of a served access lie in the buffer. -/
theorem served_fits (hn : 0 < n) (h : served m Addr n) :
    ∃ p, mapAddress m Addr = some p ∧ m.fits p n ∧
      ∀ i < n, mapAddress m (Addr + BitVec.ofNat 32 i) = some ⟨p.obj, p.off + i⟩ := by
  obtain ⟨p, hp, hmap⟩ := h
  obtain ⟨Seg, hSeg, hfit⟩ := fits_of_mapped (hmap (n - 1) (by omega))
  refine ⟨p, hp, ⟨Seg, hSeg, ?_⟩, hmap⟩
  dsimp only at hfit
  omega

theorem served_bound (hn : 0 < n) (h : served m Addr n) : Addr.toNat + n < 2 ^ 32 := by
  obtain ⟨p, hp, hfit, -⟩ := served_fits hn h
  exact fits_bound hp hfit

private theorem covered_iff {q : HostPtr} (hn : 0 < n) (h : served m Addr n) (hp : mapAddress m Addr = some p)
    (hq : mapAddress m a = some q) :
    (q.obj = p.obj ∧ p.off ≤ q.off ∧ q.off < p.off + n) ↔ (a - Addr).toNat < n := by
  have ha := a.isLt
  have haddr := Addr.isLt
  have hbound := served_bound hn h
  constructor
  · rintro ⟨hobj, hlo, hhi⟩
    have hdist := distance_of_mapped hp hq hobj
    rw [BitVec.toNat_sub]
    omega
  · intro hlt
    obtain ⟨p', hp', -, hmap⟩ := served_fits hn h
    obtain rfl : p = p' := Option.some.inj (hp.symm.trans hp')
    have hsum : Addr + BitVec.ofNat 32 (a - Addr).toNat = a := by
      rw [BitVec.ofNat_toNat, BitVec.setWidth_eq, BitVec.add_comm, BitVec.sub_add_cancel]
    have hcover := hmap _ hlt
    rw [hsum, hq] at hcover
    obtain rfl := Option.some.inj hcover
    exact ⟨rfl, Nat.le_add_right _ _, Nat.add_lt_add_left hlt _⟩

/-- A served read gives the bytes at its addresses. -/
theorem readMapped_of_served (hn : 0 < n) (h : served m Addr n) :
    readMapped n m Addr = .ok (ofBytes n fun i => m.bytes (Addr + BitVec.ofNat 32 i)) := by
  obtain ⟨p, hp, hfit, hmap⟩ := served_fits hn h
  rw [readMapped, hp]
  dsimp only
  rw [load_of_fits hfit]
  congr 1
  apply ofBytes_congr
  intro i hi
  rw [bytes_of_mapped (hmap i hi)]

/-- A served write sets the bytes at its addresses and no others. -/
theorem writeMapped_of_served (hn : 0 < n) (h : served m Addr n) (v : BitVec (8 * n)) :
    ∃ m', writeMapped n m Addr v = .ok m' ∧ m'.layout = m.layout ∧ ∀ a, m'.bytes a =
      if (a - Addr).toNat < n then byte v (a - Addr).toNat else m.bytes a := by
  obtain ⟨p, hp, hfit, hmap⟩ := served_fits hn h
  obtain ⟨m', hstore, hlayout, hbytes⟩ := store_of_fits hfit v
  refine ⟨m', by rw [writeMapped, hp]; exact hstore, hlayout, fun a => ?_⟩
  cases hq : mapAddress m a with
  | none =>
    have hout : ¬ (a - Addr).toNat < n := by
      intro hlt
      have hcover := hmap _ hlt
      rw [BitVec.ofNat_toNat, BitVec.setWidth_eq, BitVec.add_comm, BitVec.sub_add_cancel, hq] at hcover
      cases hcover
    rw [if_neg hout, bytes, bytes, mapAddress_of_layout hlayout, hq]
    rfl
  | some q =>
    have hq' : mapAddress m' a = some q := by rw [mapAddress_of_layout hlayout, hq]
    rw [bytes_of_mapped hq', bytes_of_mapped hq, hbytes]
    by_cases hcover : q.obj = p.obj ∧ p.off ≤ q.off ∧ q.off < p.off + n
    · have hdist := distance_of_mapped hp hq hcover.1
      have haddr := a.isLt
      rw [if_pos hcover, if_pos ((covered_iff hn h hp hq).mp hcover)]
      congr 1
      rw [BitVec.toNat_sub]
      omega
    · rw [if_neg hcover, if_neg fun hlt => hcover ((covered_iff hn h hp hq).mpr hlt)]

/-- An access that is accessible is served exactly when it sees every byte that is written to one of
its addresses. -/
theorem served_iff_coherent (hin : accessible m Addr n) : served m Addr n ↔ ∀ i < n, ∀ d, ∃ m' v,
    write8 m (Addr + BitVec.ofNat 32 i) d = .ok m' ∧ readMapped n m' Addr = .ok v ∧ byte v i = d := by
  obtain ⟨p, hp, hfit⟩ := hin
  constructor
  · intro h i hi d
    have hn : 0 < n := Nat.lt_of_le_of_lt (Nat.zero_le i) hi
    obtain ⟨q, hq, -, hmap⟩ := served_fits hn h
    have hone : served m (Addr + BitVec.ofNat 32 i) 1 := by
      refine ⟨_, hmap i hi, fun j hj => ?_⟩
      obtain rfl : j = 0 := by omega
      rw [show BitVec.ofNat 32 0 = 0#32 from rfl, BitVec.add_zero]
      exact hmap i hi
    obtain ⟨m', hwrite, hlayout, hbytes⟩ := writeMapped_of_served Nat.one_pos hone d
    refine ⟨m', _, hwrite, readMapped_of_served hn ((served_of_layout hlayout).mpr h), ?_⟩
    rw [byte_ofBytes n _ i hi, hbytes, BitVec.sub_self, if_pos (by decide)]
    exact byte_zero d
  · intro h
    refine ⟨p, hp, fun i hi => ?_⟩
    have hread : readMapped n m Addr = .ok (ofBytes n fun i => m.byteAt ⟨p.obj, p.off + i⟩) := by
      rw [readMapped, hp]
      exact load_of_fits hfit
    -- a byte that the access does not show yet
    obtain ⟨m', v, hwrite, hread', hv⟩ := h i hi (m.byteAt ⟨p.obj, p.off + i⟩ + 1#8)
    cases hq : mapAddress m (Addr + BitVec.ofNat 32 i) with
    | none =>
      rw [write8, writeMapped, hq] at hwrite
      cases hwrite
    | some q =>
      by_cases hobj : q.obj = p.obj
      · have hdist := distance_of_mapped hp hq hobj
        have hbound := fits_bound hp hfit
        rw [toNat_add_of_lt (by omega)] at hdist
        rcases p with ⟨obj, off⟩
        rcases q with ⟨obj', off'⟩
        obtain rfl : obj' = obj := hobj
        dsimp only at hdist ⊢
        rw [show off' = off + i by omega]
      · rw [readMapped_of_write_other hq hp (Ne.symm hobj) hwrite, hread] at hread'
        rw [← Except.ok.inj hread', byte_ofBytes n _ i hi] at hv
        exact absurd (BitVec.add_right_eq_self.mp hv.symm) (by decide)

end Served

namespace Call

/-- The bytes of the call's access are mapped one after another. -/
def served (m : MemoryManager) : Call → Prop
  | .read w Addr | .write w Addr _ => Riscv.served m Addr w.bytes

theorem served_of_layout {m m' : MemoryManager} (h : m'.layout = m.layout) {c : Call}
    (hc : c.served m) : c.served m' := by
  cases c <;> exact (Riscv.served_of_layout h).mpr hc

/-- One call acts on the bytes of the guest as its write, if any. -/
theorem exec_served {m : MemoryManager} {c : Call} (hc : c.served m) :
    ∃ m', c.exec m = .ok m' ∧ m'.layout = m.layout ∧ ∀ a : BitVec 32,
      m'.guestByte a.toNat = applyAll c.write?.toList m.guestByte a.toNat := by
  cases c with
  | read w Addr =>
    have hread := readMapped_of_served w.bytes_pos hc
    exact ⟨m, by rw [exec, read_eq, hread]; rfl, rfl, fun _ => rfl⟩
  | write w Addr Data =>
    obtain ⟨m', hwrite, hlayout, hbytes⟩ := writeMapped_of_served w.bytes_pos hc Data
    refine ⟨m', by rw [exec, write_eq, hwrite], hlayout, fun a => ?_⟩
    have hbound := served_bound w.bytes_pos hc
    have ha := a.isLt
    show _ = applyAll [⟨Addr.toNat, w.bytes, Data⟩] m.guestByte a.toNat
    rw [guestByte_toNat, hbytes, applyAll_single, guestByte_toNat]
    dsimp only
    by_cases hcover : Addr.toNat ≤ a.toNat ∧ a.toNat < Addr.toNat + w.bytes
    · have hoff : (a - Addr).toNat = a.toNat - Addr.toNat := by
        rw [BitVec.toNat_sub]
        omega
      rw [if_pos hcover, hoff, if_pos (by omega)]
    · rw [if_neg hcover, if_neg]
      rw [BitVec.toNat_sub]
      omega

/-- A run of calls acts on the bytes of the guest as the history of its writes. -/
theorem execAll_served {m : MemoryManager} (cs : List Call) (hserved : ∀ c ∈ cs, c.served m) :
    ∃ m', execAll cs m = .ok m' ∧ m'.layout = m.layout ∧ ∀ a : BitVec 32,
      m'.guestByte a.toNat = applyAll (cs.filterMap write?) m.guestByte a.toNat := by
  induction cs generalizing m with
  | nil => exact ⟨m, rfl, rfl, fun _ => rfl⟩
  | cons c cs ih =>
    obtain ⟨m₁, hstep, hlayout, hbytes⟩ := exec_served (hserved c List.mem_cons_self)
    obtain ⟨m₂, hrun, hlayout', hbytes'⟩ := ih fun d hd =>
      served_of_layout hlayout (hserved d (List.mem_cons_of_mem c hd))
    refine ⟨m₂, by rw [execAll, hstep]; exact hrun, hlayout'.trans hlayout, fun a => ?_⟩
    rw [hbytes' a, applyAll_congr _ (hbytes a)]
    cases hw : c.write? with
    | none => simp [hw]
    | some w => rw [List.filterMap_cons_some hw, applyAll_cons w, Option.toList_some]

end Call

/-- Over any segment table, after any sequence of served accesses a served read gives for each of
its bytes the one last written there, or the one that the guest saw there at the start. -/
theorem served_memory (m : MemoryManager) (cs : List Call) (hserved : ∀ c ∈ cs, c.served m) :
    ∃ m', Call.execAll cs m = .ok m' ∧ m'.layout = m.layout ∧ ∀ w Addr, served m Addr w.bytes →
      read w m' Addr = .ok (ofBytes w.bytes fun i =>
        (lastWritten (cs.filterMap Call.write?) (Addr.toNat + i)).getD (m.guestByte (Addr.toNat + i))) := by
  obtain ⟨m', hrun, hlayout, hbytes⟩ := Call.execAll_served cs hserved
  refine ⟨m', hrun, hlayout, fun w Addr hin => ?_⟩
  have hbound := served_bound w.bytes_pos hin
  rw [read_eq, readMapped_of_served w.bytes_pos ((served_of_layout hlayout).mpr hin)]
  congr 1
  apply ofBytes_congr
  intro i hi
  rw [← guestByte_toNat, hbytes, toNat_add_of_lt (by omega), applyAll]

section Example

/-- The second row begins inside the first. -/
private def staggered : MemoryManager :=
  ⟨[⟨8, 0x10, Vector.replicate _ 0⟩, ⟨16, 0x14, Vector.replicate _ 0xFF⟩], 2, rfl⟩

/-- A word at the end of the first row and one in the second: both are read back, and the bytes of
the second row under the first stay hidden. -/
theorem served_memory_staggered : ∃ m',
    Call.execAll [.write .word 0x14 0x11223344, .write .word 0x18 0x55667788] staggered = .ok m' ∧
      read .half m' 0x16 = .ok 0x1122 ∧ read .word m' 0x1A = .ok 0xFFFF5566 := by
  have hserved : ∀ c ∈ [Call.write .word 0x14 0x11223344, .write .word 0x18 0x55667788],
      c.served staggered := by
    rw [List.forall_mem_cons, List.forall_mem_singleton]
    exact ⟨⟨_, rfl, by decide⟩, ⟨_, rfl, by decide⟩⟩
  obtain ⟨m', hrun, -, hread⟩ := served_memory staggered _ hserved
  refine ⟨m', hrun, ?_, ?_⟩
  · rw [hread .half 0x16 ⟨_, rfl, by decide⟩]
    decide
  · rw [hread .word 0x1A ⟨_, rfl, by decide⟩]
    decide

/-- The row over its first half begins inside the second: a word across its start. -/
private def hidden : MemoryManager :=
  ⟨[⟨16, 0x14, Vector.replicate _ 0xFF⟩, ⟨8, 0x10, Vector.replicate _ 0⟩], 2, rfl⟩

/-- A word whose upper half is under another row is accessible and misses writes to that half. -/
theorem served_iff_coherent_hidden : accessible hidden 0x12 4 ∧ ¬ ∀ i < 4, ∀ d, ∃ m' v,
    write8 hidden (0x12 + BitVec.ofNat 32 i) d = .ok m' ∧ readMapped 4 m' 0x12 = .ok v ∧ byte v i = d := by
  have hin : accessible hidden 0x12 4 := ⟨⟨.Memory 1, 2⟩, rfl, ⟨_, rfl, by decide⟩⟩
  refine ⟨hin, fun hcoherent => ?_⟩
  obtain ⟨p, hp, hmap⟩ := (served_iff_coherent hin).mpr hcoherent
  obtain rfl : (⟨.Memory 1, 2⟩ : HostPtr) = p := Option.some.inj hp
  exact absurd (hmap 2 (by decide)) (by decide)

end Example

end DBTranslator.Riscv
