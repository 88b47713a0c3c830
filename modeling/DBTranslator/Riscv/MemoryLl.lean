import DBTranslator.Lib.FirstMatch
import DBTranslator.Lib.SsaFunc
import DBTranslator.Riscv.Host

/-! The functions of `Memory.ll`, which translated loads and stores call, against those of
`Memory.cpp`, which the block builder calls. -/
namespace DBTranslator.Riscv
open Lib.Ssa Lib.BitField

namespace MemoryLl

/-! The six functions differ in their access and, by the number of their parameters, in the
numbers of their values. Value 26 and label 25 are the same in all. -/

def entryBlock (params : Nat) : BasicBlock Empty where
  phis := []
  code := [
    .assign (params + 1) (.gep 1 (.local 0) (.const 64 8)),
    .assign (params + 2) (.load (.int 32) (.local (params + 1))),
    .assign (params + 3) (.zext 64 (.local (params + 2))),
    .assign (params + 4) (.icmp .ne (.local (params + 2)) (.const 32 0)),
    .assume (.local (params + 4)),
    .assign (params + 5) (.load .ptr (.local 0))]
  exit := .br (params + 6)

def loopBlock (params : Nat) : BasicBlock Empty where
  phis := [⟨params + 7, [(params, .const 64 0), (25, .local 26)]⟩]
  code := [
    .assign (params + 8) (.gep 16 (.local (params + 5)) (.local (params + 7))),
    .assign (params + 9) (.gep 1 (.local (params + 8)) (.const 64 12)),
    .assign (params + 10) (.load (.int 32) (.local (params + 9))),
    .assign (params + 11) (.icmp .ugt (.local (params + 10)) (.local 1))]
  exit := .condBr (.local (params + 11)) 25 (params + 12)

def boundBlock (params : Nat) : BasicBlock Empty where
  phis := []
  code := [
    .assign (params + 13) (.gep 1 (.local (params + 8)) (.const 64 8)),
    .assign (params + 14) (.load (.int 32) (.local (params + 13))),
    .assign (params + 15) (.binary .add (.local (params + 14)) (.local (params + 10))),
    .assign (params + 16) (.icmp .ult (.local 1) (.local (params + 15)))]
  exit := .condBr (.local (params + 16)) (params + 17) 25

def hitBlock (params : Nat) (access : Inst Empty) (exit : Terminator) : BasicBlock Empty where
  phis := []
  code := [
    .assign (params + 18) (.load .ptr (.local (params + 8))),
    .assign (params + 19) (.binary .sub (.local 1) (.local (params + 10))),
    .assign (params + 20) (.zext 64 (.local (params + 19))),
    .assign (params + 21) (.gep 1 (.local (params + 18)) (.local (params + 20))),
    access]
  exit := exit

def nextBlock (params : Nat) : BasicBlock Empty where
  phis := []
  code := [
    .assign 26 (.binary .addNUWNSW (.local (params + 7)) (.const 64 1)),
    .assign 27 (.icmp .ne (.local 26) (.local (params + 3))),
    .assume (.local 27)]
  exit := .br (params + 6)

def scanBlocks (params : Nat) (access : Inst Empty) (exit : Terminator) (label : Nat) :
    Option (BasicBlock Empty) :=
  if label = params then some (entryBlock params)
  else if label = params + 6 then some (loopBlock params)
  else if label = params + 12 then some (boundBlock params)
  else if label = params + 17 then some (hitBlock params access exit)
  else if label = 25 then some (nextBlock params)
  else none

def readFunc (bits : Nat) : Func Empty where
  params := [.ptr, .int 32]
  blocks := scanBlocks 2 (.assign 24 (.load (.int bits) (.local 23))) (.ret (some (.local 24)))

def writeFunc (bits : Nat) : Func Empty where
  params := [.ptr, .int 32, .int bits]
  blocks := scanBlocks 3 (.store (.local 2) (.local 24)) (.ret none)

def read8 : Func Empty := readFunc 8
def read16 : Func Empty := readFunc 16
def read32 : Func Empty := readFunc 32
def write8 : Func Empty := writeFunc 8
def write16 : Func Empty := writeFunc 16
def write32 : Func Empty := writeFunc 32

/-- `read8`, `read16` or `read32`. -/
def read : Width → Func Empty
  | .byte => read8
  | .half => read16
  | .word => read32

/-- `write8`, `write16` or `write32`. -/
def write : Width → Func Empty
  | .byte => write8
  | .half => write16
  | .word => write32

section Layout
variable {m : MemoryManager} {I : Nat} {Seg : SegmentManager}

/-- The rows of the segment table are 16 bytes apart. -/
abbrev rowPtr (I : Nat) : HostPtr := ⟨.SegmentData, 16 * I⟩

private theorem index_lt (hI : m.SegmentData[I]? = some Seg) :
    I < m.SegmentData.length ∧ I < 2 ^ 32 := by
  have hlt := (List.getElem?_eq_some_iff.mp hI).1
  have hcount := m.counted
  have hbound := m.NumSegments.isLt
  exact ⟨hlt, by omega⟩

private theorem offset_row (hI : m.SegmentData[I]? = some Seg) :
    memoryHost.offset m ⟨.SegmentData, 0⟩ ((16 : Nat) * (BitVec.ofNat 64 I).toInt) =
      some (rowPtr I) := by
  obtain ⟨hlt, hbound⟩ := index_lt hI
  refine MemoryManager.offset_eq _ ?_ (Nat.mul_le_mul_left 16 (Nat.le_of_lt hlt))
  rw [toInt_ofNat_of_lt (by omega)]
  omega

private theorem offset_field (hI : m.SegmentData[I]? = some Seg) (d : BitVec 64) (k : Nat)
    (hd : d.toInt = k) (hk : k ≤ 16) :
    memoryHost.offset m (rowPtr I) ((1 : Nat) * d.toInt) = some ⟨.SegmentData, 16 * I + k⟩ := by
  obtain ⟨hlt, -⟩ := index_lt hI
  refine MemoryManager.offset_eq _ ?_ (show 16 * I + k ≤ 16 * m.SegmentData.length by omega)
  rw [hd]
  omega

private theorem load_memory (hI : m.SegmentData[I]? = some Seg) :
    memoryHost.load m .ptr (rowPtr I) = .ok (.ptr (some ⟨.Memory I, 0⟩)) := by
  obtain ⟨hlt, -⟩ := index_lt hI
  have hdiv : 16 * I / 16 = I := Nat.mul_div_cancel_left I (by decide)
  simp [memoryHost, MemoryManager.loadTyped, hdiv, hlt]

private theorem load_MemorySize (hI : m.SegmentData[I]? = some Seg) :
    memoryHost.load m (.int 32) ⟨.SegmentData, 16 * I + 8⟩ = .ok (.int 32 (some Seg.MemorySize)) := by
  have hdiv : (16 * I + 8) / 16 = I := by omega
  have hmod : (16 * I + 8) % 16 = 8 := by omega
  simp [memoryHost, MemoryManager.loadTyped, hdiv, hmod, hI]

private theorem load_GuestAddress (hI : m.SegmentData[I]? = some Seg) :
    memoryHost.load m (.int 32) ⟨.SegmentData, 16 * I + 12⟩ =
      .ok (.int 32 (some Seg.GuestAddress)) := by
  have hdiv : (16 * I + 12) / 16 = I := by omega
  have hmod : (16 * I + 12) % 16 = 12 := by omega
  simp [memoryHost, MemoryManager.loadTyped, hdiv, hmod, hI]

private theorem offset_buffer (hI : m.SegmentData[I]? = some Seg) {Addr : BitVec 32}
    (hin : Seg.inRange Addr) : memoryHost.offset m ⟨.Memory I, 0⟩
      ((1 : Nat) * ((Addr - Seg.GuestAddress).setWidth 64).toInt) =
        some ⟨.Memory I, Addr.toNat - Seg.GuestAddress.toNat⟩ := by
  obtain ⟨hle, hlt, -⟩ := (Seg.inRange_iff Addr).mp hin
  have hsize : m.objectSize (.Memory I) = Seg.MemorySize.toNat := by
    rw [MemoryManager.objectSize, hI, Option.elim_some]
  refine MemoryManager.offset_eq _ ?_ (by rw [hsize]; omega)
  rw [toInt_setWidth_of_lt _ (by decide), SegmentManager.inRange_offset hin]
  omega

private theorem inRange_iff_tests (Addr : BitVec 32) : Seg.inRange Addr ↔
    Addr.ult Seg.GuestAddress = false ∧ Addr.ult (Seg.MemorySize + Seg.GuestAddress) = true := by
  rw [SegmentManager.inRange, ← Bool.not_eq_true, BitVec.ult_iff_lt, BitVec.ult_iff_lt,
    BitVec.not_lt, BitVec.add_comm Seg.MemorySize]

end Layout

section Blocks
variable {params : Nat} (hparams : params = 2 ∨ params = 3) {m : MemoryManager} {Addr : BitVec 32}
  {Data : Val HostPtr} {I : Nat} {Seg : SegmentManager} {env : Nat → Val HostPtr}

/-- The values that stay the same while the table is scanned. -/
structure Scanning (params : Nat) (m : MemoryManager) (Addr : BitVec 32) (Data : Val HostPtr)
    (env : Nat → Val HostPtr) : Prop where
  addr : env 1 = .int 32 (some Addr)
  data : env 2 = Data
  count : env (params + 3) = .int 64 (some (m.NumSegments.setWidth 64))
  table : env (params + 5) = .ptr (some ⟨.SegmentData, 0⟩)

/-- The scan is at row `I`. -/
structure AtRow (params : Nat) (m : MemoryManager) (Addr : BitVec 32) (Data : Val HostPtr) (I : Nat)
    (Seg : SegmentManager) (env : Nat → Val HostPtr) : Prop extends
    Scanning params m Addr Data env where
  index : env (params + 7) = .int 64 (some (BitVec.ofNat 64 I))
  row : env (params + 8) = .ptr (some (rowPtr I))
  guest : env (params + 10) = .int 32 (some Seg.GuestAddress)

/-- Control comes to the loop with index `I`: from the first block or from the step to this row. -/
def Enters (params I pred : Nat) (env : Nat → Val HostPtr) : Prop :=
  pred = params ∧ I = 0 ∨ pred = 25 ∧ env 26 = .int 64 (some (BitVec.ofNat 64 I))

include hparams in
private theorem loop_phis (pred : Nat) (hpred : Enters params I pred env) :
    evalPhis env pred (loopBlock params).phis =
      .ok (Function.update env (params + 7) (.int 64 (some (BitVec.ofNat 64 I)))) := by
  have hne : 25 ≠ params := by omega
  rcases hpred with ⟨rfl, rfl⟩ | ⟨rfl, h26⟩
  · simp [loopBlock, evalPhis, Phi.eval]
  · simp [loopBlock, evalPhis, Phi.eval, List.lookup_cons, beq_eq_false_iff_ne.mpr hne, h26]

include hparams in
private theorem loop_run (hI : m.SegmentData[I]? = some Seg) (hscan : Scanning params m Addr Data env)
    (pred : Nat) (hpred : Enters params I pred env) :
    ∃ env', (loopBlock params).run memoryHost pred ⟨env, m⟩ = .ok (⟨env', m⟩,
        .jump (if Addr.ult Seg.GuestAddress then 25 else params + 12)) ∧
      AtRow params m Addr Data I Seg env' := by
  obtain ⟨haddr, hdata, hcount, htable⟩ := hscan
  rw [BasicBlock.run, loop_phis hparams pred hpred, ok_bind]
  simp (disch := omega) only [loopBlock, exec, exec_assign, Rhs.eval, eval_local, eval_const,
    Function.update_self, Function.update_of_ne, haddr, htable, gep_ptr, offset_row hI,
    offset_field hI 12 12 rfl (by decide), address_ptr, load_GuestAddress hI, icmp_int,
    Option.bind_some, Option.map_some, ok_bind, pure_bind]
  rw [condBr_eval (b := Pred.ugt.holds Seg.GuestAddress Addr) (by simp)]
  refine ⟨_, rfl, ⟨⟨?_, ?_, ?_, ?_⟩, ?_, ?_, ?_⟩⟩
  all_goals simp (disch := omega) only [Function.update_self, Function.update_of_ne, *]

private theorem bound_run (hI : m.SegmentData[I]? = some Seg)
    (hrow : AtRow params m Addr Data I Seg env) (pred : Nat) :
    ∃ env', (boundBlock params).run memoryHost pred ⟨env, m⟩ = .ok (⟨env', m⟩,
        .jump (if Addr.ult (Seg.MemorySize + Seg.GuestAddress) then params + 17 else 25)) ∧
      AtRow params m Addr Data I Seg env' := by
  obtain ⟨⟨haddr, hdata, hcount, htable⟩, hindex, hptr, hguest⟩ := hrow
  rw [BasicBlock.run, boundBlock, evalPhis, ok_bind]
  simp (disch := omega) only [exec, exec_assign, Rhs.eval, eval_local, eval_const,
    Function.update_self, Function.update_of_ne, haddr, hptr, hguest, gep_ptr,
    offset_field hI 8 8 rfl (by decide), address_ptr, load_MemorySize hI, binary_int, eval_add,
    icmp_int, Option.bind_some, Option.map_some, ok_bind, pure_bind]
  rw [condBr_eval (b := Pred.ult.holds Addr (Seg.MemorySize + Seg.GuestAddress)) (by simp)]
  refine ⟨_, rfl, ⟨⟨?_, ?_, ?_, ?_⟩, ?_, ?_, ?_⟩⟩
  all_goals simp (disch := omega) only [Function.update_of_ne, *]

private theorem index_succ (hI : I < m.SegmentData.length) :
    BinOp.addNUWNSW.eval (BitVec.ofNat 64 I) 1 = some (BitVec.ofNat 64 (I + 1)) := by
  have hlen := m.counted
  have hbound := m.NumSegments.isLt
  rw [BitVec.ofNat_add]
  refine eval_addNUWNSW _ _ ?_
  rw [toNat_ofNat_of_lt (by omega), show (1 : BitVec 64).toNat = 1 from rfl]
  omega

include hparams in
/-- The step to the next row. Its assumption holds because the table has not ended. -/
private theorem next_run (hrow : AtRow params m Addr Data I Seg env)
    (hI : I + 1 < m.SegmentData.length) (pred : Nat) :
    ∃ env', (nextBlock params).run memoryHost pred ⟨env, m⟩ = .ok (⟨env', m⟩, .jump (params + 6)) ∧
      Scanning params m Addr Data env' ∧ env' 26 = .int 64 (some (BitVec.ofNat 64 (I + 1))) := by
  obtain ⟨⟨haddr, hdata, hcount, htable⟩, hindex, hptr, hguest⟩ := hrow
  have hlen := m.counted
  have hbound := m.NumSegments.isLt
  have hsum := index_succ (m := m) (I := I) (by omega)
  have hne : Pred.ne.holds (BitVec.ofNat 64 (I + 1)) (m.NumSegments.setWidth 64) = true := by
    rw [Pred.holds, bne_iff_ne, Ne, ← BitVec.toNat_inj, toNat_ofNat_of_lt (by omega),
      BitVec.toNat_setWidth_of_le (by decide)]
    omega
  rw [BasicBlock.run, nextBlock, evalPhis, ok_bind]
  simp (disch := omega) only [exec, exec_assign, Rhs.eval, eval_local, eval_const,
    Function.update_self, Function.update_of_ne, hindex, hcount, binary_int, hsum, hne,
    icmp_int, Option.bind_some, Option.map_some, ok_bind, pure_bind]
  rw [exec_assume _ (by simp), ok_bind]
  refine ⟨_, rfl, ⟨?_, ?_, ?_, ?_⟩, ?_⟩
  all_goals simp (disch := omega) only [Function.update_self, Function.update_of_ne, *]

include hparams in
private theorem last_run (hrow : AtRow params m Addr Data I Seg env)
    (hI : I + 1 = m.SegmentData.length) (pred : Nat) :
    (nextBlock params).run memoryHost pred ⟨env, m⟩ = .error .assumption := by
  obtain ⟨⟨haddr, hdata, hcount, htable⟩, hindex, hptr, hguest⟩ := hrow
  have hlen := m.counted
  have hbound := m.NumSegments.isLt
  have hsum := index_succ (m := m) (I := I) (by omega)
  have hne : Pred.ne.holds (BitVec.ofNat 64 (I + 1)) (m.NumSegments.setWidth 64) = false := by
    rw [Pred.holds, bne_eq_false_iff_eq, ← BitVec.toNat_inj, toNat_ofNat_of_lt (by omega),
      BitVec.toNat_setWidth_of_le (by decide)]
    omega
  rw [BasicBlock.run, nextBlock, evalPhis, ok_bind]
  simp (disch := omega) only [exec, exec_assign, Rhs.eval, eval_local, eval_const,
    Function.update_self, Function.update_of_ne, hindex, hcount, binary_int, hsum, hne,
    icmp_int, Option.bind_some, Option.map_some, ok_bind, pure_bind]
  rw [exec_assume_false _ (by simp), error_bind]
  rfl

include hparams in
/-- The code before the loop. Its assumption holds because the table has a row. -/
private theorem entry_run (hI : m.SegmentData[I]? = some Seg)
    (hmanager : env 0 = .ptr (some ⟨.MemoryManager, 0⟩)) (haddr : env 1 = .int 32 (some Addr))
    (hdata : env 2 = Data) (pred : Nat) :
    ∃ env', (entryBlock params).run memoryHost pred ⟨env, m⟩ = .ok (⟨env', m⟩, .jump (params + 6)) ∧
      Scanning params m Addr Data env' := by
  have hne : Pred.ne.holds m.NumSegments (0 : BitVec 32) = true := by
    have hlt := (index_lt hI).1
    rw [m.counted] at hlt
    rw [Pred.holds, bne_iff_ne, Ne, ← BitVec.toNat_inj]
    exact Nat.ne_of_gt (Nat.lt_of_le_of_lt (Nat.zero_le I) hlt)
  have hoffset : memoryHost.offset m ⟨.MemoryManager, 0⟩ ((1 : Nat) * (8 : BitVec 64).toInt) =
      some ⟨.MemoryManager, 8⟩ := rfl
  have hcount : memoryHost.load m (.int 32) ⟨.MemoryManager, 8⟩ = .ok (.int 32 (some m.NumSegments)) := rfl
  have htable : memoryHost.load m .ptr ⟨.MemoryManager, 0⟩ = .ok (.ptr (some ⟨.SegmentData, 0⟩)) := rfl
  rw [BasicBlock.run, entryBlock, evalPhis, ok_bind]
  simp (disch := omega) only [exec, exec_assign, Rhs.eval, eval_local, eval_const,
    Function.update_self, Function.update_of_ne, hmanager, gep_ptr, hoffset, address_ptr, hcount,
    ext_int, icmp_int, hne, Option.bind_some, Option.map_some, ok_bind, pure_bind]
  rw [exec_assume _ (by simp), ok_bind]
  simp (disch := omega) only [Function.update_of_ne, hmanager, address_ptr, htable, ok_bind, pure_bind]
  refine ⟨_, rfl, ⟨?_, ?_, ?_, ?_⟩⟩
  all_goals simp (disch := omega) only [Function.update_self, Function.update_of_ne, *]

private theorem empty_run (hempty : m.SegmentData = []) (hmanager : env 0 = .ptr (some ⟨.MemoryManager, 0⟩))
    (pred : Nat) : (entryBlock params).run memoryHost pred ⟨env, m⟩ = .error .assumption := by
  have hne : Pred.ne.holds m.NumSegments (0 : BitVec 32) = false := by
    have hlen := m.counted
    rw [hempty, List.length_nil] at hlen
    rw [Pred.holds, bne_eq_false_iff_eq, ← BitVec.toNat_inj, ← hlen]
    rfl
  have hoffset : memoryHost.offset m ⟨.MemoryManager, 0⟩ ((1 : Nat) * (8 : BitVec 64).toInt) =
      some ⟨.MemoryManager, 8⟩ := rfl
  have hcount : memoryHost.load m (.int 32) ⟨.MemoryManager, 8⟩ = .ok (.int 32 (some m.NumSegments)) := rfl
  rw [BasicBlock.run, entryBlock, evalPhis, ok_bind]
  simp (disch := omega) only [exec, exec_assign, Rhs.eval, eval_local, eval_const,
    Function.update_self, Function.update_of_ne, hmanager, gep_ptr, hoffset, address_ptr, hcount,
    ext_int, icmp_int, hne, Option.bind_some, Option.map_some, ok_bind, pure_bind]
  rw [exec_assume_false _ (by simp), error_bind]
  rfl

private theorem hit_run (access : Inst Empty) (exit : Terminator)
    (hI : m.SegmentData[I]? = some Seg) (hrow : AtRow params m Addr Data I Seg env)
    (hin : Seg.inRange Addr) (pred : Nat) :
    ∃ env', (hitBlock params access exit).run memoryHost pred ⟨env, m⟩ = (do
        let fr ← access.exec memoryHost ⟨env', m⟩
        return (fr, ← exit.eval fr.env)) ∧
      env' (params + 21) = .ptr (some ⟨.Memory I, Addr.toNat - Seg.GuestAddress.toNat⟩) ∧
      env' 2 = Data := by
  obtain ⟨⟨haddr, hdata, hcount, htable⟩, hindex, hptr, hguest⟩ := hrow
  have hoffset : memoryHost.offset m ⟨.Memory I, 0⟩
      ((1 : Nat) * ((Addr - Seg.GuestAddress).setWidth 64).toInt) =
      some ⟨.Memory I, Addr.toNat - Seg.GuestAddress.toNat⟩ := offset_buffer hI hin
  have hsub (x y : BitVec 32) : BinOp.sub.eval x y = some (x - y) := rfl
  rw [BasicBlock.run, hitBlock, evalPhis, ok_bind]
  simp (disch := omega) only [exec, exec_assign, Rhs.eval, eval_local, Function.update_self,
    Function.update_of_ne, haddr, hptr, hguest, address_ptr, load_memory hI, binary_int, hsub, ext_int,
    gep_ptr, hoffset, Option.bind_some, Option.map_some, ok_bind, pure_bind]
  refine ⟨_, congrArg (· >>= _) (bind_pure _), ?_, ?_⟩
  all_goals simp (disch := omega) only [Function.update_self, Function.update_of_ne, *]

end Blocks

section Scan
variable {params : Nat} (hparams : params = 2 ∨ params = 3) {m : MemoryManager} {Addr : BitVec 32}
  {Data : Val HostPtr} {I J : Nat} {Seg : SegmentManager} {env : Nat → Val HostPtr} {f : Func Empty}
  {access : Inst Empty} {exit : Terminator} (hf : f.blocks = scanBlocks params access exit)
  {r : Except Fault (MemoryManager × Option (Val HostPtr))}
include hparams hf

private theorem out_ends (hI : m.SegmentData[I]? = some Seg) (hout : ¬ Seg.inRange Addr)
    (hscan : Scanning params m Addr Data env) (pred : Nat) (hpred : Enters params I pred env)
    (hskip : ∀ pred env, AtRow params m Addr Data I Seg env → f.Ends memoryHost ⟨pred, 25, ⟨env, m⟩⟩ r) :
    f.Ends memoryHost ⟨pred, params + 6, ⟨env, m⟩⟩ r := by
  have hloop : f.blocks (params + 6) = some (loopBlock params) := by simp [hf, scanBlocks]
  have hbound : f.blocks (params + 12) = some (boundBlock params) := by simp [hf, scanBlocks]
  obtain ⟨env₁, hrun₁, hrow₁⟩ := loop_run hparams hI hscan pred hpred
  refine Func.ends_of_jump hloop hrun₁ ?_
  cases habove : Addr.ult Seg.GuestAddress with
  | true => exact hskip _ env₁ hrow₁
  | false =>
    obtain ⟨env₂, hrun₂, hrow₂⟩ := bound_run hI hrow₁ (params + 6)
    have hbelow : Addr.ult (Seg.MemorySize + Seg.GuestAddress) = false := by
      by_contra hlt
      exact hout ((inRange_iff_tests Addr).mpr ⟨habove, Bool.eq_true_of_not_eq_false hlt⟩)
    rw [hbelow] at hrun₂
    exact Func.ends_of_jump hbound hrun₂ (hskip _ env₂ hrow₂)

private theorem skip_ends (hI : m.SegmentData[I]? = some Seg) (hout : ¬ Seg.inRange Addr)
    (hnext : I + 1 < m.SegmentData.length) (hscan : Scanning params m Addr Data env) (pred : Nat)
    (hpred : Enters params I pred env)
    (hrest : ∀ env', Scanning params m Addr Data env' →
      env' 26 = .int 64 (some (BitVec.ofNat 64 (I + 1))) →
        f.Ends memoryHost ⟨25, params + 6, ⟨env', m⟩⟩ r) :
    f.Ends memoryHost ⟨pred, params + 6, ⟨env, m⟩⟩ r := by
  have hend : f.blocks 25 = some (nextBlock params) := by
    rcases hparams with rfl | rfl <;> simp [hf, scanBlocks]
  refine out_ends hparams hf hI hout hscan pred hpred fun pred env hrow => ?_
  obtain ⟨env', hrun, hscan', h26⟩ := next_run hparams hrow hnext pred
  exact Func.ends_of_jump hend hrun (hrest env' hscan' h26)

private theorem hit_ends (hI : m.SegmentData[I]? = some Seg) (hin : Seg.inRange Addr)
    (hscan : Scanning params m Addr Data env) (pred : Nat)
    (hpred : Enters params I pred env)
    (hhit : ∀ env', AtRow params m Addr Data I Seg env' →
      f.Ends memoryHost ⟨params + 12, params + 17, ⟨env', m⟩⟩ r) :
    f.Ends memoryHost ⟨pred, params + 6, ⟨env, m⟩⟩ r := by
  have hloop : f.blocks (params + 6) = some (loopBlock params) := by simp [hf, scanBlocks]
  have hbound : f.blocks (params + 12) = some (boundBlock params) := by simp [hf, scanBlocks]
  obtain ⟨env₁, hrun₁, hrow₁⟩ := loop_run hparams hI hscan pred hpred
  obtain ⟨env₂, hrun₂, hrow₂⟩ := bound_run hI hrow₁ (params + 6)
  obtain ⟨habove, hbelow⟩ := (inRange_iff_tests Addr).mp hin
  rw [habove] at hrun₁
  rw [hbelow] at hrun₂
  exact Func.ends_of_jump hloop hrun₁ (Func.ends_of_jump hbound hrun₂ (hhit env₂ hrow₂))

private theorem scan_ends (hJ : m.SegmentData[J]? = some Seg) (hin : Seg.inRange Addr)
    (hfirst : ∀ K < J, ∀ Seg', m.SegmentData[K]? = some Seg' → ¬ Seg'.inRange Addr)
    (hhit : ∀ env', AtRow params m Addr Data J Seg env' →
      f.Ends memoryHost ⟨params + 12, params + 17, ⟨env', m⟩⟩ r) (n I : Nat) (hn : I + n = J)
    (env : Nat → Val HostPtr) (hscan : Scanning params m Addr Data env) (pred : Nat)
    (hpred : Enters params I pred env) :
    f.Ends memoryHost ⟨pred, params + 6, ⟨env, m⟩⟩ r := by
  have hlen := (List.getElem?_eq_some_iff.mp hJ).1
  induction n generalizing I env pred with
  | zero =>
    obtain rfl : I = J := hn
    exact hit_ends hparams hf hJ hin hscan pred hpred hhit
  | succ n ih =>
    have hI := List.getElem?_eq_getElem (l := m.SegmentData) (i := I) (by omega)
    have hout := hfirst I (by omega) _ hI
    refine skip_ends hparams hf hI hout (by omega) hscan pred hpred fun env' hscan' h26 => ?_
    exact ih (I + 1) (by omega) env' hscan' 25 (.inr ⟨rfl, h26⟩)

private theorem call_ends (hJ : m.SegmentData[J]? = some Seg) (hin : Seg.inRange Addr)
    (hfirst : ∀ K < J, ∀ Seg', m.SegmentData[K]? = some Seg' → ¬ Seg'.inRange Addr)
    (hmanager : env 0 = .ptr (some ⟨.MemoryManager, 0⟩)) (haddr : env 1 = .int 32 (some Addr))
    (hdata : env 2 = Data)
    (haccess : ∀ env', env' (params + 21) =
        .ptr (some ⟨.Memory J, Addr.toNat - Seg.GuestAddress.toNat⟩) → env' 2 = Data →
      ∃ out : Except Fault (Frame HostPtr MemoryManager × Option (Val HostPtr)), (do
          let fr ← access.exec memoryHost ⟨env', m⟩
          return (fr, ← exit.eval fr.env)) = out.map (fun x => (x.1, .ret x.2)) ∧
        r = out.map fun x => (x.1.mem, x.2)) :
    f.Ends memoryHost ⟨params, params, ⟨env, m⟩⟩ r := by
  have hentry : f.blocks params = some (entryBlock params) := by simp [hf, scanBlocks]
  have hhit : f.blocks (params + 17) = some (hitBlock params access exit) := by simp [hf, scanBlocks]
  obtain ⟨env₁, hrun₁, hscan⟩ := entry_run hparams hJ hmanager haddr hdata params
  refine Func.ends_of_jump hentry hrun₁ ?_
  refine scan_ends hparams hf hJ hin hfirst (fun env₂ hrow => ?_) J 0 (Nat.zero_add J) env₁ hscan
    params (.inl ⟨rfl, rfl⟩)
  obtain ⟨env₃, hrun₃, hptr, hdata₃⟩ := hit_run access exit hJ hrow hin (params + 12)
  obtain ⟨out, hout, rfl⟩ := haccess env₃ hptr hdata₃
  exact Func.ends_of_ret hhit (hrun₃.trans hout)

private theorem scan_fails (hout : ∀ Seg ∈ m.SegmentData, ¬ Seg.inRange Addr) (n I : Nat)
    (hn : I + n + 1 = m.SegmentData.length) (env : Nat → Val HostPtr) (hscan : Scanning params m Addr Data env)
    (pred : Nat) (hpred : Enters params I pred env) :
    f.Ends memoryHost ⟨pred, params + 6, ⟨env, m⟩⟩ (.error .assumption) := by
  have hend : f.blocks 25 = some (nextBlock params) := by
    rcases hparams with rfl | rfl <;> simp [hf, scanBlocks]
  induction n generalizing I env pred with
  | zero =>
    have hI := List.getElem?_eq_getElem (l := m.SegmentData) (i := I) (by omega)
    refine out_ends hparams hf hI (hout _ (List.mem_of_getElem? hI)) hscan pred hpred fun pred env hrow => ?_
    exact Func.ends_of_ret (r := .error .assumption) hend (last_run hparams hrow hn pred)
  | succ n ih =>
    have hI := List.getElem?_eq_getElem (l := m.SegmentData) (i := I) (by omega)
    refine skip_ends hparams hf hI (hout _ (List.mem_of_getElem? hI)) (by omega) hscan pred hpred
      fun env' hscan' h26 => ?_
    exact ih (I + 1) (by omega) env' hscan' 25 (.inr ⟨rfl, h26⟩)

private theorem call_fails (hout : ∀ Seg ∈ m.SegmentData, ¬ Seg.inRange Addr)
    (hmanager : env 0 = .ptr (some ⟨.MemoryManager, 0⟩)) (haddr : env 1 = .int 32 (some Addr))
    (hdata : env 2 = Data) : f.Ends memoryHost ⟨params, params, ⟨env, m⟩⟩ (.error .assumption) := by
  have hentry : f.blocks params = some (entryBlock params) := by simp [hf, scanBlocks]
  cases hrows : m.SegmentData with
  | nil => exact Func.ends_of_ret (r := .error .assumption) hentry (empty_run hrows hmanager params)
  | cons Seg Rest =>
    have hJ : m.SegmentData[0]? = some Seg := by rw [hrows, List.getElem?_cons_zero]
    obtain ⟨env₁, hrun₁, hscan⟩ := entry_run hparams hJ hmanager haddr hdata params
    refine Func.ends_of_jump hentry hrun₁ ?_
    refine scan_fails hparams hf hout Rest.length 0 ?_ env₁ hscan params (.inl ⟨rfl, rfl⟩)
    rw [hrows, List.length_cons, Nat.zero_add]

end Scan

/-- The host pointer to the manager, the first argument of every call. -/
abbrev managerArg : Val HostPtr := .ptr (some ⟨.MemoryManager, 0⟩)

private theorem load_buffer (m : MemoryManager) (J off n : Nat) :
    memoryHost.load m (.int (8 * n)) ⟨.Memory J, off⟩ =
      (m.load ⟨.Memory J, off⟩ n).map fun v => .int (8 * n) (some v) := by
  have hdiv : 8 * n / 8 = n := Nat.mul_div_cancel_left n (by decide)
  simp only [memoryHost, MemoryManager.loadTyped]
  rw [hdiv, if_pos rfl]
  cases m.load ⟨.Memory J, off⟩ n <;> rfl

private theorem store_buffer (m : MemoryManager) (p : HostPtr) (n : Nat) (v : BitVec (8 * n)) :
    memoryHost.store m p (.int (8 * n) (some v)) = m.store p n v := by
  have hdiv : 8 * n / 8 = n := Nat.mul_div_cancel_left n (by decide)
  have hcast (k : Nat) (h : 8 * n = 8 * k) (hk : k = n) : m.store p k (v.cast h) = m.store p n v := by
    subst hk
    rw [BitVec.cast_eq]
  simp only [memoryHost, MemoryManager.storeTyped]
  rw [dif_pos (congrArg (8 * ·) hdiv.symm)]
  exact hcast _ _ hdiv

/-- A call of a function, with the data word of a write. -/
def callArgs (Addr : BitVec 32) : (f : MemoryFunction) → BitVec (8 * f.width.bytes) → List (Val HostPtr)
  | .read _, _ => [managerArg, .int 32 (some Addr)]
  | .write w, Data => [managerArg, .int 32 (some Addr), .int (8 * w.bytes) (some Data)]

def func : MemoryFunction → Func Empty
  | .read w => read w
  | .write w => write w

section Calls
variable {m : MemoryManager} {Addr : BitVec 32} {p : HostPtr} (hp : mapAddress m Addr = some p)
include hp

/-- The read functions return the bytes that `mapAddress` points to. -/
theorem read_returns (w : Width) : (read w).Returns memoryHost [managerArg, .int 32 (some Addr)] m
    ((m.load p w.bytes).map fun v => (m, some (.int (8 * w.bytes) (some v)))) := by
  obtain ⟨J, Seg, hJ, hin, hfirst, rfl⟩ := (mapAddress_eq_some_iff m Addr p).mp hp
  have hread : read w = readFunc (8 * w.bytes) := by cases w <;> rfl
  rw [hread]
  refine ⟨rfl, call_ends (.inl rfl) rfl hJ hin hfirst rfl rfl rfl fun env' hptr _ => ?_⟩
  refine ⟨(m.load ⟨.Memory J, Addr.toNat - Seg.GuestAddress.toNat⟩ w.bytes).map fun v =>
    (⟨Function.update env' 24 (.int (8 * w.bytes) (some v)), m⟩, some (.int (8 * w.bytes) (some v))),
    ?_, ?_⟩
  · rw [exec_assign, Rhs.eval, eval_local]
    dsimp only
    rw [show env' 23 = _ from hptr, address_ptr, ok_bind, load_buffer]
    cases m.load ⟨.Memory J, Addr.toNat - Seg.GuestAddress.toNat⟩ w.bytes <;> rfl
  · cases m.load ⟨.Memory J, Addr.toNat - Seg.GuestAddress.toNat⟩ w.bytes <;> rfl

/-- The write functions store the bytes where `mapAddress` points to. -/
theorem write_returns (w : Width) (Data : BitVec (8 * w.bytes)) :
    (write w).Returns memoryHost [managerArg, .int 32 (some Addr), .int (8 * w.bytes) (some Data)] m
      ((m.store p w.bytes Data).map fun m' => (m', none)) := by
  obtain ⟨J, Seg, hJ, hin, hfirst, rfl⟩ := (mapAddress_eq_some_iff m Addr p).mp hp
  have hwrite : write w = writeFunc (8 * w.bytes) := by cases w <;> rfl
  rw [hwrite]
  refine ⟨rfl, call_ends (.inr rfl) rfl hJ hin hfirst rfl rfl rfl fun env' hptr hdata => ?_⟩
  refine ⟨(m.store ⟨.Memory J, Addr.toNat - Seg.GuestAddress.toNat⟩ w.bytes Data).map fun m' =>
    (⟨env', m'⟩, none), ?_, ?_⟩
  · replace hdata : env' 2 = .int (8 * w.bytes) (some Data) := hdata
    rw [Inst.exec, eval_local, eval_local]
    dsimp only
    rw [show env' 24 = _ from hptr, hdata, address_ptr, ok_bind, store_buffer]
    cases m.store ⟨.Memory J, Addr.toNat - Seg.GuestAddress.toNat⟩ w.bytes Data <;> rfl
  · cases m.store ⟨.Memory J, Addr.toNat - Seg.GuestAddress.toNat⟩ w.bytes Data <;> rfl

/-- What blocks are given for a call of the memory interface is what `Memory.ll` does. -/
theorem call_returns (f : MemoryFunction) (Data : BitVec (8 * f.width.bytes)) :
    (func f).Returns memoryHost (callArgs Addr f Data) m (f.call m (callArgs Addr f Data)) := by
  cases f with
  | read w =>
    have hcall : (MemoryFunction.read w).call m (callArgs Addr (.read w) Data) =
        (m.load p w.bytes).map fun v => (m, some (.int (8 * w.bytes) (some v))) := by
      simp only [callArgs, MemoryFunction.call]
      rw [read_eq, readMapped, hp]
      dsimp only
      cases m.load p w.bytes <;> rfl
    rw [hcall]
    exact read_returns hp w
  | write w =>
    have hcall (Data : BitVec (8 * w.bytes)) : (MemoryFunction.write w).call m
        [managerArg, .int 32 (some Addr), .int (8 * w.bytes) (some Data)] =
          (m.store p w.bytes Data).map fun m' => (m', none) := by
      simp only [MemoryFunction.call, dif_pos, BitVec.cast_eq]
      rw [write_eq, writeMapped, hp]
      dsimp only
      cases m.store p w.bytes Data <;> rfl
    have hwrite := write_returns hp w Data
    rw [← hcall Data] at hwrite
    exact hwrite

end Calls

theorem mapAddress_of_inRange {m : MemoryManager} {Addr : BitVec 32}
    (h : ∃ Seg ∈ m.SegmentData, Seg.inRange Addr) : ∃ p, mapAddress m Addr = some p := by
  obtain ⟨Seg, hSeg, hin⟩ := h
  obtain ⟨I, ⟨Seg', hSeg', hin'⟩, hfirst⟩ := Lib.FirstMatch.exists_first
    (P := fun Seg => Seg.inRange Addr) hSeg hin
  exact ⟨_, (mapAddress_eq_some_iff m Addr _).mpr ⟨I, Seg', hSeg', hin', hfirst, rfl⟩⟩

theorem not_inRange_of_unmapped {m : MemoryManager} {Addr : BitVec 32} (h : mapAddress m Addr = none) :
    ∀ Seg ∈ m.SegmentData, ¬ Seg.inRange Addr := by
  intro Seg hSeg hin
  obtain ⟨p, hp⟩ := mapAddress_of_inRange ⟨Seg, hSeg, hin⟩
  rw [h] at hp
  cases hp

/-- At an unmapped address every function breaks an assumption. -/
theorem unmapped_returns {m : MemoryManager} {Addr : BitVec 32} (h : mapAddress m Addr = none)
    (f : MemoryFunction) (Data : BitVec (8 * f.width.bytes)) :
    (func f).Returns memoryHost (callArgs Addr f Data) m (.error .assumption) := by
  have hout := not_inRange_of_unmapped h
  cases f with
  | read w =>
    have hread : read w = readFunc (8 * w.bytes) := by cases w <;> rfl
    rw [func, hread]
    exact ⟨rfl, call_fails (.inl rfl) rfl hout rfl rfl rfl⟩
  | write w =>
    have hwrite : write w = writeFunc (8 * w.bytes) := by cases w <;> rfl
    rw [func, hwrite]
    exact ⟨rfl, call_fails (.inr rfl) rfl hout rfl rfl rfl⟩

/-- The call is done after finitely many blocks, with one result, and no assumption that it
meets is false. -/
def EndsWith (f : Func Empty) (args : List (Val HostPtr)) (m : MemoryManager)
    (r : Except Fault (MemoryManager × Option (Val HostPtr))) : Prop :=
  f.Returns memoryHost args m r ∧ ∀ r', f.Returns memoryHost args m r' → r' ≠ .error .assumption

private theorem load_ne_assumption (m : MemoryManager) (p : HostPtr) (n : Nat) {α : Type}
    (f : BitVec (8 * n) → α) : (m.load p n).map f ≠ .error .assumption := by
  by_cases hfit : m.fits p n
  · rw [MemoryManager.load_of_fits hfit]
    rintro ⟨⟩
  · rw [MemoryManager.load_of_not_fits hfit]
    rintro ⟨⟩

private theorem store_ne_assumption (m : MemoryManager) (p : HostPtr) (n : Nat) (v : BitVec (8 * n))
    {α : Type} (f : MemoryManager → α) : (m.store p n v).map f ≠ .error .assumption := by
  by_cases hfit : m.fits p n
  · obtain ⟨m', hm, -⟩ := MemoryManager.store_of_fits hfit v
    rw [hm]
    rintro ⟨⟩
  · rw [MemoryManager.store_of_not_fits hfit]
    rintro ⟨⟩

private theorem endsWith_of_returns {f : Func Empty} {args : List (Val HostPtr)} {m : MemoryManager}
    {r : Except Fault (MemoryManager × Option (Val HostPtr))}
    (hr : f.Returns memoryHost args m r) (hne : r ≠ .error .assumption) : EndsWith f args m r := by
  refine ⟨hr, fun r' hr' => ?_⟩
  rw [hr'.2.unique hr.2]
  exact hne

end MemoryLl

/-- At every address that passes the test of some segment the functions of `Memory.cpp` and of
`Memory.ll` access the bytes at one position of one buffer, with the same value. -/
theorem memory_ll_agrees (m : MemoryManager) (Addr : BitVec 32)
    (hmapped : ∃ Seg ∈ m.SegmentData, Seg.inRange Addr) :
    ∃ p, mapAddress m Addr = some p ∧ ∀ w : Width,
      (read w m Addr = m.load p w.bytes ∧
        MemoryLl.EndsWith (MemoryLl.read w) [MemoryLl.managerArg, .int 32 (some Addr)] m
          ((m.load p w.bytes).map fun v => (m, some (.int (8 * w.bytes) (some v))))) ∧
      ∀ Data, write w m Addr Data = m.store p w.bytes Data ∧
        MemoryLl.EndsWith (MemoryLl.write w)
          [MemoryLl.managerArg, .int 32 (some Addr), .int (8 * w.bytes) (some Data)] m
          ((m.store p w.bytes Data).map fun m' => (m', none)) := by
  obtain ⟨p, hp⟩ := MemoryLl.mapAddress_of_inRange hmapped
  refine ⟨p, hp, fun w => ⟨⟨?_, ?_⟩, fun Data => ⟨?_, ?_⟩⟩⟩
  · rw [read_eq, readMapped, hp]
  · exact MemoryLl.endsWith_of_returns (MemoryLl.read_returns hp w)
      (MemoryLl.load_ne_assumption m p w.bytes _)
  · rw [write_eq, writeMapped, hp]
  · exact MemoryLl.endsWith_of_returns (MemoryLl.write_returns hp w Data)
      (MemoryLl.store_ne_assumption m p w.bytes Data _)

section Example

private def twoRows : MemoryManager :=
  ⟨[⟨8, 0x10, Vector.replicate _ 0⟩, ⟨4, 0x20, Vector.ofFn ![0x11, 0x22, 0x33, 0x44]⟩], 2, rfl⟩

/-- A word read in the second of two segments. -/
theorem memory_ll_second_row : ∃ p, mapAddress twoRows 0x20 = some p ∧
    read .word twoRows 0x20 = twoRows.load p 4 ∧
      MemoryLl.EndsWith MemoryLl.read32 [MemoryLl.managerArg, .int 32 (some 0x20)] twoRows
        (.ok (twoRows, some (.int 32 (some 0x44332211)))) := by
  obtain ⟨p, hp, haccess⟩ := memory_ll_agrees twoRows 0x20
    ⟨_, List.mem_cons_of_mem _ List.mem_cons_self, by decide⟩
  obtain ⟨⟨hread, hends⟩, -⟩ := haccess .word
  obtain rfl : (⟨.Memory 1, 0⟩ : HostPtr) = p := Option.some.inj hp
  exact ⟨_, hp, hread, hends⟩

end Example

namespace MemoryFunction
variable {m : MemoryManager} {Addr : BitVec 32} {w : Width} (f : MemoryFunction) (Data : BitVec (8 * f.width.bytes))

private theorem call_read_eq : (MemoryFunction.read w).call m [MemoryLl.managerArg, .int 32 (some Addr)] =
    (Riscv.read w m Addr).map fun v => (m, some (.int (8 * w.bytes) (some v))) := by
  simp only [call]
  cases Riscv.read w m Addr <;> rfl

private theorem call_write_eq (Data : BitVec (8 * w.bytes)) :
    (MemoryFunction.write w).call m [MemoryLl.managerArg, .int 32 (some Addr), .int (8 * w.bytes) (some Data)] =
      (Riscv.write w m Addr Data).map fun m' => (m', none) := by
  simp only [call, dif_pos, BitVec.cast_eq]
  cases Riscv.write w m Addr Data <;> rfl

/-- A call with an unmapped address dereferences a null pointer. -/
theorem call_unmapped (h : mapAddress m Addr = none) : f.call m (MemoryLl.callArgs Addr f Data) = .error .null := by
  cases f with
  | read w =>
    rw [MemoryLl.callArgs, call_read_eq, read_eq, readMapped, h]
    rfl
  | write w =>
    refine (call_write_eq Data).trans ?_
    rw [write_eq, writeMapped, h]
    rfl

private theorem call_write_mapped {p : HostPtr} (hp : mapAddress m Addr = some p) (Data : BitVec (8 * w.bytes)) :
    (∃ x, (MemoryFunction.write w).call m
      [MemoryLl.managerArg, .int 32 (some Addr), .int (8 * w.bytes) (some Data)] = .ok x) ∨
    (MemoryFunction.write w).call m [MemoryLl.managerArg, .int 32 (some Addr), .int (8 * w.bytes) (some Data)] =
      .error (.access p w.bytes) := by
  rw [call_write_eq, write_eq, writeMapped, hp]
  dsimp only
  by_cases hfit : m.fits p w.bytes
  · obtain ⟨m', hm, -⟩ := MemoryManager.store_of_fits hfit Data
    rw [hm]
    exact .inl ⟨_, rfl⟩
  · rw [MemoryManager.store_of_not_fits hfit]
    exact .inr rfl

/-- A call with a mapped address fails only by leaving the buffer. -/
theorem call_mapped {p : HostPtr} (hp : mapAddress m Addr = some p) :
    (∃ x, f.call m (MemoryLl.callArgs Addr f Data) = .ok x) ∨
      f.call m (MemoryLl.callArgs Addr f Data) = .error (.access p f.width.bytes) := by
  cases f with
  | read w =>
    rw [MemoryLl.callArgs, call_read_eq, read_eq, readMapped, hp]
    dsimp only
    by_cases hfit : m.fits p w.bytes
    · rw [MemoryManager.load_of_fits hfit]
      exact .inl ⟨_, rfl⟩
    · rw [MemoryManager.load_of_not_fits hfit]
      exact .inr rfl
  | write w => exact call_write_mapped hp Data

end MemoryFunction

/-- At every address each function of `Memory.ll` is done after finitely many blocks. It breaks an
assumption exactly where that of `Memory.cpp` dereferences a null pointer, and does the same elsewhere. -/
theorem memory_ll_everywhere (m : MemoryManager) (Addr : BitVec 32) (f : MemoryFunction)
    (Data : BitVec (8 * f.width.bytes)) :
    ∃ r, (MemoryLl.func f).Returns memoryHost (MemoryLl.callArgs Addr f Data) m r ∧
      (r = .error .assumption ↔ f.call m (MemoryLl.callArgs Addr f Data) = .error .null) ∧
      (r ≠ .error .assumption → r = f.call m (MemoryLl.callArgs Addr f Data)) := by
  cases hp : mapAddress m Addr with
  | none =>
    refine ⟨_, MemoryLl.unmapped_returns hp f Data, ?_, fun hne => absurd rfl hne⟩
    rw [f.call_unmapped Data hp]
    exact ⟨fun _ => rfl, fun _ => rfl⟩
  | some p =>
    refine ⟨_, MemoryLl.call_returns hp f Data, ?_, fun _ => rfl⟩
    rcases f.call_mapped Data hp with ⟨x, hx⟩ | hx
    · rw [hx]
      constructor <;> rintro ⟨⟩
    · rw [hx]
      constructor <;> rintro ⟨⟩

end DBTranslator.Riscv
