import DBTranslator.Riscv.FlatMemory
import DBTranslator.Riscv.Immediate
import DBTranslator.Riscv.SingleStep

/-! Loads and stores against the manual, from the word to the state, over a flat guest memory. -/
namespace DBTranslator.Riscv
open Lib Lib.Ssa Lib.LittleEndian Lib.WriteHistory

/-- Which loads extend by the sign; the whole word needs no extension. -/
def Instr.signed : Instr → Bool
  | .LBU | .LHU => false
  | _ => true

/-- The little-endian value of a width at an address. -/
def guestValue (m : MemoryManager) (w : Width) (Addr : BitVec 32) : BitVec (8 * w.bytes) :=
  ofBytes w.bytes fun i => m.guestByte (Addr.toNat + i)

/-- What a load of a width makes of the low part of a word. -/
def lowPart (w : Width) (signed : Bool) (v : BitVec 32) : BitVec 32 :=
  match w with
  | .byte => Rv32i.extend signed (v.setWidth 8)
  | .half => Rv32i.extend signed (v.setWidth 16)
  | .word => v

/-- The memory after a store: the bytes at the address are the low bytes of the word, and all others
are as before. -/
def StoredAt (m m' : MemoryManager) (w : Width) (Addr v : BitVec 32) : Prop :=
  m'.layout = m.layout ∧ ∀ Seg ∈ m.SegmentData, ∀ a, Seg.covers a → m'.guestByte a =
    if Addr.toNat ≤ a ∧ a < Addr.toNat + w.bytes then byte v (a - Addr.toNat) else m.guestByte a

section Memory
variable {m m' : MemoryManager} {w : Width} {Addr v : BitVec 32}

theorem read_of_holds (hflat : m.Flat) (hin : ∃ Seg ∈ m.SegmentData, Seg.holds Addr w.bytes) :
    read w m Addr = .ok (guestValue m w Addr) := by
  obtain ⟨Seg, hSeg, hholds⟩ := hin
  rw [read_eq]
  exact hflat.readMapped hSeg w.bytes_pos hholds

theorem write_of_holds (hflat : m.Flat) (hin : ∃ Seg ∈ m.SegmentData, Seg.holds Addr w.bytes) :
    ∃ m', write w m Addr (v.setWidth (8 * w.bytes)) = .ok m' ∧ StoredAt m m' w Addr v := by
  obtain ⟨Seg, hSeg, hholds⟩ := hin
  obtain ⟨m', hwrite, hlayout, hbytes⟩ :=
    hflat.writeMapped hSeg w.bytes_pos hholds (v.setWidth (8 * w.bytes))
  refine ⟨m', by rw [write_eq, hwrite], hlayout, fun Seg' hSeg' a ha => ?_⟩
  rw [hbytes Seg' hSeg' a ha, applyAll_single]
  dsimp only
  by_cases hcover : Addr.toNat ≤ a ∧ a < Addr.toNat + w.bytes
  · rw [if_pos hcover, if_pos hcover, byte_setWidth v (by omega)]
  · rw [if_neg hcover, if_neg hcover]

/-- Reading back what was stored gives the low part of the word. -/
theorem guestValue_of_stored (hstored : StoredAt m m' w Addr v)
    (hin : ∃ Seg ∈ m.SegmentData, Seg.holds Addr w.bytes) :
    guestValue m' w Addr = v.setWidth (8 * w.bytes) := by
  obtain ⟨Seg, hSeg, hlo, hhi⟩ := hin
  rw [guestValue, ← ofBytes_byte]
  apply ofBytes_congr
  intro i hi
  rw [hstored.2 Seg hSeg (Addr.toNat + i) ⟨by omega, by omega⟩, if_pos ⟨by omega, by omega⟩,
    Nat.add_sub_cancel_left]

private theorem extend_low (w : Width) (signed : Bool) (v : BitVec 32) :
    Rv32i.extend signed (v.setWidth (8 * w.bytes)) = lowPart w signed v := by
  cases w with
  | byte | half => rfl
  | word => exact (Rv32i.extend_word signed _).trans (BitVec.setWidth_eq v)

end Memory

section Encoded
variable {k : Instr} {o : Operands} {w : Width} {s : CPUState}

private theorem effect_load (hk : k.loadWidth? = some w) (word : BitVec 32) :
    effect k word = loadEffect w (Rv32i.extend k.signed) word := by
  cases k <;> cases hk <;> rfl

private theorem effect_store (hk : k.storeWidth? = some w) (word : BitVec 32) :
    effect k word = storeEffect w word := by
  cases k <;> cases hk <;> rfl

private theorem load_fields (hk : k.loadWidth? = some w) (hfit : o.fit k) :
    RiscvFormat.rd (encode k o) = o.rd ∧ RiscvFormat.rs1 (encode k o) = o.rs1 ∧
      immediate (encode k o) = BitVec.ofInt 32 o.imm := by
  cases k
  case LB | LH | LW | LBU | LHU =>
    exact ⟨RiscvFormat.rd_iType _ _ _ _ _, RiscvFormat.rs1_iType _ _ _ _ _,
      immediate_iType _ _ _ _ hfit.1 hfit.2⟩
  all_goals cases hk

private theorem store_fields (hk : k.storeWidth? = some w) (hfit : o.fit k) :
    RiscvFormat.rs1 (encode k o) = o.rs1 ∧ RiscvFormat.rs2 (encode k o) = o.rs2 ∧
      storeOffset (encode k o) = BitVec.ofInt 32 o.imm := by
  cases k
  case SB | SH | SW =>
    exact ⟨RiscvFormat.rs1_sType _ _ _ _ _, RiscvFormat.rs2_sType _ _ _ _ _,
      storeOffset_sType _ _ _ _ hfit.1 hfit.2⟩
  all_goals cases hk

/-- A load takes its base before it writes `rd`, and changes `rd` and `PC` only. -/
theorem runIr_load (hk : k.loadWidth? = some w) (hfit : o.fit k) :
    runIr (generate (decode (encode k o)) (encode k o)) s.host =
      (read w s.Manager (s.Registers o.rs1 + BitVec.ofInt 32 o.imm)).map fun v => CPUState.host { s with
        Registers := Function.update s.Registers o.rd (Rv32i.extend k.signed v)
        PC := s.PC + 4#32 } := by
  obtain ⟨hrd, hrs1, himm⟩ := load_fields hk hfit
  have hdec := decode_encode_of_row Instr.loadWidth? rfl rfl hk hfit
  rw [runIr_of_simulates (generate_simulates _ _), hdec, effect_load hk, loadEffect,
    HostState.rs1, hrs1, CPUState.host_Registers, himm, ← hrd]
  simp only [CPUState.host_Manager, CPUState.host_writeRd]

/-- A store changes the memory and `PC` only. -/
theorem runIr_store (hk : k.storeWidth? = some w) (hfit : o.fit k) :
    runIr (generate (decode (encode k o)) (encode k o)) s.host =
      (write w s.Manager (s.Registers o.rs1 + BitVec.ofInt 32 o.imm)
        ((s.Registers o.rs2).setWidth (8 * w.bytes))).map fun m => CPUState.host { s with
          PC := s.PC + 4#32
          Manager := m } := by
  obtain ⟨hrs1, hrs2, himm⟩ := store_fields hk hfit
  have hdec := decode_encode_of_row Instr.storeWidth? rfl rfl hk hfit
  rw [runIr_of_simulates (generate_simulates _ _), hdec, effect_store hk, storeEffect,
    HostState.rs1, HostState.rs2, hrs1, hrs2, CPUState.host_Registers, CPUState.host_Registers, himm]
  rfl

theorem load_runs (hk : k.loadWidth? = some w) (hfit : o.fit k) (hflat : s.Manager.Flat)
    (hin : ∃ Seg ∈ s.Manager.SegmentData,
      Seg.holds (s.Registers o.rs1 + BitVec.ofInt 32 o.imm) w.bytes) :
    RunsTo (generate (decode (encode k o)) (encode k o)) s { s with
      Registers := Function.update s.Registers o.rd (Rv32i.extend k.signed
        (guestValue s.Manager w (s.Registers o.rs1 + BitVec.ofInt 32 o.imm)))
      PC := s.PC + 4#32 } := by
  rw [RunsTo, runIr_load hk hfit, read_of_holds hflat hin, ok_map]

theorem store_runs (hk : k.storeWidth? = some w) (hfit : o.fit k) (hflat : s.Manager.Flat)
    (hin : ∃ Seg ∈ s.Manager.SegmentData,
      Seg.holds (s.Registers o.rs1 + BitVec.ofInt 32 o.imm) w.bytes) :
    ∃ m, StoredAt s.Manager m w (s.Registers o.rs1 + BitVec.ofInt 32 o.imm) (s.Registers o.rs2) ∧
      RunsTo (generate (decode (encode k o)) (encode k o)) s { s with
        PC := s.PC + 4#32
        Manager := m } := by
  obtain ⟨m, hwrite, hstored⟩ := write_of_holds hflat hin (v := s.Registers o.rs2)
  exact ⟨m, hstored, by rw [RunsTo, runIr_store hk hfit, hwrite, ok_map]⟩

end Encoded

/-- Loads and stores have the manual's effect wherever their access lies inside a segment of a flat
memory, and a load gives back what a store of its width put at its address. -/
theorem load_store_full_effect (s : CPUState) (hflat : s.Manager.Flat) (w : Width) (Addr : BitVec 32)
    (hin : ∃ Seg ∈ s.Manager.SegmentData, Seg.holds Addr w.bytes) :
    (∀ k o, k.loadWidth? = some w → o.fit k → s.Registers o.rs1 + BitVec.ofInt 32 o.imm = Addr →
      RunsTo (generate (decode (encode k o)) (encode k o)) s { s with
        Registers := Function.update s.Registers o.rd
          (Rv32i.extend k.signed (guestValue s.Manager w Addr))
        PC := s.PC + 4#32 }) ∧
    ∀ k o, k.storeWidth? = some w → o.fit k → s.Registers o.rs1 + BitVec.ofInt 32 o.imm = Addr →
      ∃ m, StoredAt s.Manager m w Addr (s.Registers o.rs2) ∧
        let s' := { s with PC := s.PC + 4#32, Manager := m }
        RunsTo (generate (decode (encode k o)) (encode k o)) s s' ∧
        ∀ k' o', k'.loadWidth? = some w → o'.fit k' →
          s'.Registers o'.rs1 + BitVec.ofInt 32 o'.imm = Addr →
          RunsTo (generate (decode (encode k' o')) (encode k' o')) s' { s' with
            Registers := Function.update s'.Registers o'.rd (lowPart w k'.signed (s.Registers o.rs2))
            PC := s'.PC + 4#32 } := by
  constructor
  · rintro k o hk hfit rfl
    exact load_runs hk hfit hflat hin
  · rintro k o hk hfit rfl
    obtain ⟨m, hstored, hrun⟩ := store_runs hk hfit hflat hin
    refine ⟨m, hstored, hrun, ?_⟩
    intro k' o' hk' hfit' haddr
    have hin' := Call.inside_of_layout (c := .read w _) hstored.1 hin
    have hload := load_runs (s := { s with PC := s.PC + 4#32, Manager := m }) hk' hfit'
      (hflat.of_layout hstored.1) (haddr ▸ hin')
    rw [haddr] at hload
    dsimp only at hload
    rw [guestValue_of_stored hstored hin, extend_low] at hload
    exact hload

section Example

/-- 0x14 in `x1`, 0x1280 in the other registers and eight bytes of memory at 0x10. -/
private def byteState : CPUState :=
  ⟨fun r => if r = 1 then 0x14 else 0x1280, 0, ⟨[⟨8, 0x10, Vector.replicate _ 0⟩], 1, rfl⟩⟩

private theorem byteState_flat : byteState.Manager.Flat := ⟨by decide, List.pairwise_singleton _ _⟩

/-- `sb x2, -1(x1)` and then `lb x1, -1(x1)`: the low byte comes back with its sign. -/
theorem load_store_signed_byte : ∃ m,
    RunsTo (generate (decode 0xFE208FA3#32) 0xFE208FA3#32) byteState
      { byteState with PC := byteState.PC + 4#32, Manager := m } ∧
    RunsTo (generate (decode 0xFFF08083#32) 0xFFF08083#32)
      { byteState with PC := byteState.PC + 4#32, Manager := m }
      ⟨Function.update byteState.Registers 1 0xFFFFFF80#32, byteState.PC + 4#32 + 4#32, m⟩ := by
  have hin : ∃ Seg ∈ byteState.Manager.SegmentData, Seg.holds 0x13 Width.byte.bytes :=
    ⟨_, List.mem_cons_self, by decide⟩
  have haddr : byteState.Registers 1 + BitVec.ofInt 32 (-1) = 0x13#32 := by decide
  obtain ⟨m, -, hstore, hload⟩ := (load_store_full_effect byteState byteState_flat .byte 0x13 hin).2
    .SB ⟨0, 1, 2, 0, -1, 0, 0, 0⟩ rfl ⟨by decide, by decide⟩ haddr
  have hrun := hload .LB ⟨1, 1, 0, 0, -1, 0, 0, 0⟩ rfl ⟨by decide, by decide⟩ haddr
  have hword : encode .LB ⟨1, 1, 0, 0, -1, 0, 0, 0⟩ = 0xFFF08083#32 := by decide
  have hvalue : lowPart .byte Instr.LB.signed (byteState.Registers 2) = 0xFFFFFF80#32 := by decide
  rw [hword] at hrun
  dsimp only at hrun
  rw [hvalue] at hrun
  exact ⟨m, hstore, hrun⟩

end Example

end DBTranslator.Riscv
