import DBTranslator.Lib.BitField
import DBTranslator.Lib.LittleEndian
import DBTranslator.Lib.Ssa

/-! The memory of `Memory.h` and `Memory.cpp`: a table of host buffers, the first-match
address map and the six typed accesses through it. -/
namespace DBTranslator.Riscv
open Lib.LittleEndian

/-- The host objects that generated code and the runtime can point into. -/
inductive HostObject where
  | CPUState
  | MemoryManager
  | SegmentData
  | Memory (I : Nat)
  deriving DecidableEq, Repr

structure HostPtr where
  obj : HostObject
  off : Nat
  deriving DecidableEq, Repr

abbrev Fault := Lib.Ssa.Fault HostPtr

/-- A segment owns a buffer of exactly `MemorySize` bytes. -/
structure SegmentManager where
  MemorySize : BitVec 32
  GuestAddress : BitVec 32
  Memory : Vector (BitVec 8) MemorySize.toNat

/-- `NumSegments` counts the allocated table. -/
structure MemoryManager where
  SegmentData : List SegmentManager
  NumSegments : BitVec 32
  counted : SegmentData.length = NumSegments.toNat

def MemoryManager.empty : MemoryManager := ⟨[], 0, rfl⟩

namespace SegmentManager

/-- The range test of `mapAddress`, in 32-bit arithmetic. -/
def inRange (Seg : SegmentManager) (Addr : BitVec 32) : Prop :=
  Seg.GuestAddress ≤ Addr ∧ Addr < Seg.GuestAddress + Seg.MemorySize

instance (Seg : SegmentManager) (Addr : BitVec 32) : Decidable (Seg.inRange Addr) :=
  inferInstanceAs (Decidable (_ ∧ _))

/-- The buffer byte at an offset. -/
def byteAt (Seg : SegmentManager) (off : Nat) : BitVec 8 := Seg.Memory[off]?.getD 0

def setBytes (Seg : SegmentManager) (off n : Nat) (v : BitVec (8 * n)) : SegmentManager :=
  { Seg with Memory := Vector.ofFn fun k =>
      if off ≤ k.val ∧ k.val < off + n then byte v (k.val - off) else Seg.Memory[k] }

@[simp] theorem setBytes_MemorySize (Seg : SegmentManager) (off n : Nat) (v : BitVec (8 * n)) :
    (Seg.setBytes off n v).MemorySize = Seg.MemorySize := rfl

@[simp] theorem setBytes_GuestAddress (Seg : SegmentManager) (off n : Nat) (v : BitVec (8 * n)) :
    (Seg.setBytes off n v).GuestAddress = Seg.GuestAddress := rfl

theorem setBytes_byteAt (Seg : SegmentManager) (off n : Nat) (v : BitVec (8 * n))
    (hfit : off + n ≤ Seg.MemorySize.toNat) (o : Nat) :
    (Seg.setBytes off n v).byteAt o =
      if off ≤ o ∧ o < off + n then byte v (o - off) else Seg.byteAt o := by
  unfold byteAt setBytes
  by_cases ho : o < Seg.MemorySize.toNat
  · rw [Vector.getElem?_eq_getElem ho, Vector.getElem?_eq_getElem ho, Vector.getElem_ofFn]
    rfl
  · have hge := Nat.le_of_not_lt ho
    rw [Vector.getElem?_eq_none hge, Vector.getElem?_eq_none hge, if_neg (by omega)]

/-- The wrapped end of a segment that reaches 2^32 lies below its start, so such a
segment passes the test nowhere; elsewhere the test is the interval test. -/
theorem inRange_iff (Seg : SegmentManager) (Addr : BitVec 32) :
    Seg.inRange Addr ↔ Seg.GuestAddress.toNat ≤ Addr.toNat ∧
      Addr.toNat < Seg.GuestAddress.toNat + Seg.MemorySize.toNat ∧
      Seg.GuestAddress.toNat + Seg.MemorySize.toNat < 2 ^ 32 := by
  have hg := Seg.GuestAddress.isLt
  have hs := Seg.MemorySize.isLt
  unfold inRange
  rw [BitVec.le_def, BitVec.lt_def, BitVec.toNat_add]
  omega

theorem inRange_offset {Seg : SegmentManager} {Addr : BitVec 32} (h : Seg.inRange Addr) :
    (Addr - Seg.GuestAddress).toNat = Addr.toNat - Seg.GuestAddress.toNat := by
  have hle := ((Seg.inRange_iff Addr).mp h).1
  have ha := Addr.isLt
  rw [BitVec.toNat_sub]
  omega

end SegmentManager

/-- The scan of `mapAddress` from index `I` on. -/
def mapAddressLoop (Addr : BitVec 32) : Nat → List SegmentManager → Option HostPtr
  | _, [] => none
  | I, Seg :: Rest =>
    if Seg.inRange Addr then some ⟨.Memory I, (Addr - Seg.GuestAddress).toNat⟩
    else mapAddressLoop Addr (I + 1) Rest

/-- `mapAddress<T>`: the type only names what the result points to; `none` is `nullptr`. -/
def mapAddress (Managers : MemoryManager) (Addr : BitVec 32) : Option HostPtr :=
  mapAddressLoop Addr 0 Managers.SegmentData

namespace MemoryManager

def segment? (m : MemoryManager) (p : HostPtr) : Option SegmentManager :=
  match p.obj with
  | .Memory I => m.SegmentData[I]?
  | _ => none

/-- The `n` bytes at a pointer lie inside the buffer it points into. -/
def fits (m : MemoryManager) (p : HostPtr) (n : Nat) : Prop :=
  ∃ Seg, m.segment? p = some Seg ∧ p.off + n ≤ Seg.MemorySize.toNat

def byteAt (m : MemoryManager) (p : HostPtr) : BitVec 8 :=
  (m.segment? p).elim 0 (·.byteAt p.off)

/-- Dereference for reading `n` bytes on a little-endian host. -/
def load (m : MemoryManager) (p : HostPtr) (n : Nat) : Except Fault (BitVec (8 * n)) :=
  match m.segment? p with
  | some Seg =>
    if p.off + n ≤ Seg.MemorySize.toNat then .ok (ofBytes n fun i => Seg.byteAt (p.off + i))
    else .error (.access p n)
  | none => .error (.access p n)

def setSegment (m : MemoryManager) (p : HostPtr) (Seg : SegmentManager) : MemoryManager :=
  match p.obj with
  | .Memory I =>
    { m with
      SegmentData := m.SegmentData.set I Seg
      counted := by rw [List.length_set, m.counted] }
  | _ => m

/-- Dereference for writing `n` bytes. -/
def store (m : MemoryManager) (p : HostPtr) (n : Nat) (v : BitVec (8 * n)) :
    Except Fault MemoryManager :=
  match m.segment? p with
  | some Seg =>
    if p.off + n ≤ Seg.MemorySize.toNat then .ok (m.setSegment p (Seg.setBytes p.off n v))
    else .error (.access p n)
  | none => .error (.access p n)

/-- The segment table without the buffers' contents. -/
def layout (m : MemoryManager) : List (BitVec 32 × BitVec 32) :=
  m.SegmentData.map fun Seg => (Seg.GuestAddress, Seg.MemorySize)

end MemoryManager

/-- `T* MappedAddr = mapAddress<T>(Manager, Addr); return *MappedAddr;` at `n = sizeof(T)`. -/
def readMapped (n : Nat) (Manager : MemoryManager) (Addr : BitVec 32) :
    Except Fault (BitVec (8 * n)) :=
  match mapAddress Manager Addr with
  | some MappedAddr => Manager.load MappedAddr n
  | none => .error .null

/-- `T* MappedAddr = mapAddress<T>(Manager, Addr); *MappedAddr = Data;` at `n = sizeof(T)`. -/
def writeMapped (n : Nat) (Manager : MemoryManager) (Addr : BitVec 32) (Data : BitVec (8 * n)) :
    Except Fault MemoryManager :=
  match mapAddress Manager Addr with
  | some MappedAddr => Manager.store MappedAddr n Data
  | none => .error .null

def read8 : MemoryManager → BitVec 32 → Except Fault (BitVec 8) := readMapped 1
def read16 : MemoryManager → BitVec 32 → Except Fault (BitVec 16) := readMapped 2
def read32 : MemoryManager → BitVec 32 → Except Fault (BitVec 32) := readMapped 4
def write8 : MemoryManager → BitVec 32 → BitVec 8 → Except Fault MemoryManager := writeMapped 1
def write16 : MemoryManager → BitVec 32 → BitVec 16 → Except Fault MemoryManager := writeMapped 2
def write32 : MemoryManager → BitVec 32 → BitVec 32 → Except Fault MemoryManager := writeMapped 4

/-- The widths at which the accesses are instantiated. -/
inductive Width where
  | byte
  | half
  | word
  deriving DecidableEq, Repr

def Width.bytes : Width → Nat
  | .byte => 1
  | .half => 2
  | .word => 4

theorem Width.bytes_pos (w : Width) : 0 < w.bytes := by cases w <;> decide

/-- `read8`, `read16` or `read32`. -/
def read : (w : Width) → MemoryManager → BitVec 32 → Except Fault (BitVec (8 * w.bytes))
  | .byte => read8
  | .half => read16
  | .word => read32

/-- `write8`, `write16` or `write32`. -/
def write : (w : Width) → MemoryManager → BitVec 32 → BitVec (8 * w.bytes) →
    Except Fault MemoryManager
  | .byte => write8
  | .half => write16
  | .word => write32

theorem read_eq (w : Width) : read w = readMapped w.bytes := by cases w <;> rfl

theorem write_eq (w : Width) : write w = writeMapped w.bytes := by cases w <;> rfl

section AddressMap

private theorem mapAddressLoop_some (Addr : BitVec 32) (I : Nat) (Segs : List SegmentManager)
    (p : HostPtr) : mapAddressLoop Addr I Segs = some p ↔
      ∃ J Seg, Segs[J]? = some Seg ∧ Seg.inRange Addr ∧
        (∀ K < J, ∀ Seg', Segs[K]? = some Seg' → ¬ Seg'.inRange Addr) ∧
        p = ⟨.Memory (I + J), (Addr - Seg.GuestAddress).toNat⟩ := by
  induction Segs generalizing I with
  | nil => simp [mapAddressLoop]
  | cons Seg Rest ih =>
    rw [mapAddressLoop]
    by_cases hr : Seg.inRange Addr
    · rw [if_pos hr]
      constructor
      · intro h
        exact ⟨0, Seg, rfl, hr, fun K hK => absurd hK (Nat.not_lt_zero K), (Option.some.inj h).symm⟩
      · rintro ⟨J, Seg', hJ, _, hfirst, rfl⟩
        cases J with
        | zero =>
          obtain rfl : Seg = Seg' := by simpa using hJ
          rfl
        | succ J => exact absurd hr (hfirst 0 (Nat.succ_pos J) Seg rfl)
    · rw [if_neg hr, ih]
      constructor
      · rintro ⟨J, Seg', hJ, hr', hfirst, rfl⟩
        refine ⟨J + 1, Seg', hJ, hr', ?_, by rw [Nat.add_right_comm, Nat.add_assoc]⟩
        intro K hK Seg'' hK'
        cases K with
        | zero =>
          obtain rfl : Seg = Seg'' := by simpa using hK'
          exact hr
        | succ K => exact hfirst K (by omega) Seg'' (by simpa using hK')
      · rintro ⟨J, Seg', hJ, hr', hfirst, rfl⟩
        cases J with
        | zero =>
          obtain rfl : Seg = Seg' := by simpa using hJ
          exact absurd hr' hr
        | succ J =>
          refine ⟨J, Seg', by simpa using hJ, hr', ?_, by rw [Nat.add_right_comm, Nat.add_assoc]⟩
          intro K hK Seg'' hK'
          exact hfirst (K + 1) (by omega) Seg'' (by simpa using hK')

/-- The address map gives the offset in the first segment whose test the address passes. -/
theorem mapAddress_eq_some_iff (m : MemoryManager) (Addr : BitVec 32) (p : HostPtr) :
    mapAddress m Addr = some p ↔ ∃ I Seg, m.SegmentData[I]? = some Seg ∧ Seg.inRange Addr ∧
      (∀ K < I, ∀ Seg', m.SegmentData[K]? = some Seg' → ¬ Seg'.inRange Addr) ∧
      p = ⟨.Memory I, Addr.toNat - Seg.GuestAddress.toNat⟩ := by
  rw [mapAddress, mapAddressLoop_some]
  simp only [Nat.zero_add]
  constructor
  · rintro ⟨I, Seg, hI, hr, hfirst, rfl⟩
    exact ⟨I, Seg, hI, hr, hfirst, by rw [SegmentManager.inRange_offset hr]⟩
  · rintro ⟨I, Seg, hI, hr, hfirst, rfl⟩
    exact ⟨I, Seg, hI, hr, hfirst, by rw [SegmentManager.inRange_offset hr]⟩

end AddressMap

namespace MemoryManager
variable {m m' : MemoryManager} {p q : HostPtr} {n : Nat}

theorem load_of_fits (h : m.fits p n) :
    m.load p n = .ok (ofBytes n fun i => m.byteAt ⟨p.obj, p.off + i⟩) := by
  obtain ⟨Seg, hseg, hfit⟩ := h
  have hbyte (i : Nat) : m.byteAt ⟨p.obj, p.off + i⟩ = Seg.byteAt (p.off + i) := by
    rw [byteAt, show m.segment? ⟨p.obj, p.off + i⟩ = m.segment? p from rfl, hseg]
    rfl
  simp only [load, hseg, if_pos hfit, hbyte]

theorem load_of_not_fits (h : ¬ m.fits p n) : m.load p n = .error (.access p n) := by
  unfold load
  cases hseg : m.segment? p with
  | none => rfl
  | some Seg => exact if_neg fun hfit => h ⟨Seg, hseg, hfit⟩

theorem store_of_not_fits (h : ¬ m.fits p n) (v : BitVec (8 * n)) :
    m.store p n v = .error (.access p n) := by
  unfold store
  cases hseg : m.segment? p with
  | none => rfl
  | some Seg => exact if_neg fun hfit => h ⟨Seg, hseg, hfit⟩

private theorem setSegment_layout {Seg Seg' : SegmentManager} (hseg : m.segment? p = some Seg)
    (hg : Seg'.GuestAddress = Seg.GuestAddress) (hs : Seg'.MemorySize = Seg.MemorySize) :
    (m.setSegment p Seg').layout = m.layout := by
  rcases p with ⟨_ | _ | _ | I, off⟩
  case Memory =>
    change m.SegmentData[I]? = some Seg at hseg
    apply List.ext_getElem?
    intro J
    simp only [layout, setSegment, List.getElem?_map, List.getElem?_set]
    by_cases hJ : I = J
    · subst hJ
      obtain ⟨hlt, rfl⟩ := List.getElem?_eq_some_iff.mp hseg
      simp [hlt, hg, hs]
    · simp [hJ]
  all_goals cases hseg

private theorem setSegment_segment? {Seg Seg' : SegmentManager}
    (hseg : m.segment? p = some Seg) (q : HostPtr) :
    (m.setSegment p Seg').segment? q = if q.obj = p.obj then some Seg' else m.segment? q := by
  rcases p with ⟨_ | _ | _ | I, off⟩
  case Memory =>
    change m.SegmentData[I]? = some Seg at hseg
    obtain ⟨hlt, _⟩ := List.getElem?_eq_some_iff.mp hseg
    rcases q with ⟨_ | _ | _ | J, off'⟩
    case Memory =>
      simp only [segment?, setSegment, HostObject.Memory.injEq, List.getElem?_set]
      by_cases hJ : I = J
      · simp [hJ, hJ ▸ hlt]
      · simp [hJ, Ne.symm hJ]
    all_goals simp [segment?]
  all_goals cases hseg

/-- What a write does: it leaves the segment table alone and replaces exactly the bytes
it covers in the one buffer it points into. -/
theorem store_of_fits (h : m.fits p n) (v : BitVec (8 * n)) :
    ∃ m', m.store p n v = .ok m' ∧ m'.layout = m.layout ∧ ∀ q, m'.byteAt q =
      if q.obj = p.obj ∧ p.off ≤ q.off ∧ q.off < p.off + n then byte v (q.off - p.off)
      else m.byteAt q := by
  obtain ⟨Seg, hseg, hfit⟩ := h
  refine ⟨m.setSegment p (Seg.setBytes p.off n v), ?_, setSegment_layout hseg rfl rfl, ?_⟩
  · simp only [store, hseg, if_pos hfit]
  · intro q
    rw [byteAt, setSegment_segment? hseg]
    by_cases hobj : q.obj = p.obj
    · have hq : m.byteAt q = Seg.byteAt q.off := by
        rw [byteAt, show m.segment? q = m.segment? p by rw [segment?, segment?, hobj], hseg]
        rfl
      rw [if_pos hobj, Option.elim_some, SegmentManager.setBytes_byteAt _ _ _ _ hfit, hq]
      simp only [hobj, true_and]
    · simp only [hobj, if_false, false_and]
      rfl

theorem fits_of_store {v : BitVec (8 * n)} (h : m.store p n v = .ok m') : m.fits p n := by
  by_contra hfit
  rw [store_of_not_fits hfit] at h
  cases h

theorem segment_of_layout (h : m'.layout = m.layout) {I : Nat} {Seg : SegmentManager}
    (hI : m.SegmentData[I]? = some Seg) : ∃ Seg', m'.SegmentData[I]? = some Seg' ∧
      Seg'.GuestAddress = Seg.GuestAddress ∧ Seg'.MemorySize = Seg.MemorySize := by
  have hrow := congrArg (fun rows : List (BitVec 32 × BitVec 32) => rows[I]?) h
  simp only [layout, List.getElem?_map, hI, Option.map_some, Option.map_eq_some_iff,
    Prod.mk.injEq] at hrow
  exact hrow

theorem fits_of_layout (h : m'.layout = m.layout) (hfit : m.fits p n) : m'.fits p n := by
  obtain ⟨Seg, hseg, hle⟩ := hfit
  rcases p with ⟨_ | _ | _ | I, off⟩
  case Memory =>
    obtain ⟨Seg', hI, _, hsize⟩ := segment_of_layout h hseg
    exact ⟨Seg', hI, by rw [hsize]; exact hle⟩
  all_goals cases hseg

/-- A load sees the segment table and the bytes it covers. -/
theorem load_congr (h : m'.layout = m.layout)
    (hbytes : ∀ i < n, m'.byteAt ⟨p.obj, p.off + i⟩ = m.byteAt ⟨p.obj, p.off + i⟩) :
    m'.load p n = m.load p n := by
  by_cases hfit : m.fits p n
  · rw [load_of_fits hfit, load_of_fits (fits_of_layout h hfit), ofBytes_congr n hbytes]
  · rw [load_of_not_fits hfit, load_of_not_fits fun hf => hfit (fits_of_layout h.symm hf)]

end MemoryManager

private theorem mapAddress_mono {m m' : MemoryManager} (h : m'.layout = m.layout)
    {Addr : BitVec 32} {p : HostPtr} (hp : mapAddress m Addr = some p) :
    mapAddress m' Addr = some p := by
  rw [mapAddress_eq_some_iff] at hp ⊢
  obtain ⟨I, Seg, hI, hr, hfirst, rfl⟩ := hp
  obtain ⟨Seg', hI', hg, hs⟩ := MemoryManager.segment_of_layout h hI
  refine ⟨I, Seg', hI', by rwa [SegmentManager.inRange, hg, hs], ?_, by rw [hg]⟩
  intro K hK Seg'' hK' hr'
  obtain ⟨Seg₀, hK₀, hg₀, hs₀⟩ := MemoryManager.segment_of_layout h.symm hK'
  exact hfirst K hK Seg₀ hK₀ (by rwa [SegmentManager.inRange, hg₀, hs₀])

/-- The address map reads only the segment table, not the buffers. -/
theorem mapAddress_of_layout {m m' : MemoryManager} (h : m'.layout = m.layout) (Addr : BitVec 32) :
    mapAddress m' Addr = mapAddress m Addr := by
  apply Option.ext
  intro p
  exact ⟨mapAddress_mono h.symm, mapAddress_mono h⟩

/-- An access that is mapped and lies wholly inside the segment picked for it. -/
def accessible (m : MemoryManager) (Addr : BitVec 32) (n : Nat) : Prop :=
  ∃ p, mapAddress m Addr = some p ∧ m.fits p n

theorem read_of_accessible {m : MemoryManager} {Addr : BitVec 32} {width : Width}
    (h : accessible m Addr width.bytes) : ∃ v, read width m Addr = .ok v := by
  obtain ⟨p, hp, hfit⟩ := h
  rw [read_eq, readMapped, hp]
  exact ⟨_, MemoryManager.load_of_fits hfit⟩

theorem write_of_accessible {m : MemoryManager} {Addr : BitVec 32} {width : Width}
    (h : accessible m Addr width.bytes) (v : BitVec (8 * width.bytes)) :
    ∃ m', write width m Addr v = .ok m' := by
  obtain ⟨p, hp, hfit⟩ := h
  obtain ⟨m', hm, -⟩ := MemoryManager.store_of_fits hfit v
  exact ⟨m', by rw [write_eq, writeMapped, hp]; exact hm⟩

end DBTranslator.Riscv
