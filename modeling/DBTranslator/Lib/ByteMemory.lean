import DBTranslator.Lib.LittleEndian
import DBTranslator.Lib.Ssa

/-! Memory as bytes: objects of cells, and the words and pointers that runs of cells hold. -/
namespace DBTranslator.Lib.ByteMemory
open LittleEndian Ssa

/-- One byte of memory: a byte of an integer, where `none` is poison, or a part of a pointer. -/
inductive Cell (P : Type) where
  | byte (b : Option (BitVec 8))
  | part (p : P) (i : Nat)
  deriving DecidableEq

/-- Objects with their sizes. Cells outside an object have no meaning. -/
structure Bytes (O P : Type) where
  size : O → Nat
  cell : O → Nat → Cell P

variable {O P : Type} {c : Nat → Cell P} {off off' w w' : Nat}

/-- The cells from an offset on hold the bytes of a word, the least significant one first. -/
def Holds (c : Nat → Cell P) (off : Nat) {w : Nat} (v : Option (BitVec w)) : Prop :=
  ∀ i, 8 * i < w → c (off + i) = .byte (v.map (byte · i))

/-- The cells from an offset on hold the eight parts of a pointer. -/
def HoldsPtr (c : Nat → Cell P) (off : Nat) (p : P) : Prop := ∀ i < 8, c (off + i) = .part p i

private theorem bits_succ (n : Nat) : 8 + 8 * n = 8 * (n + 1) := by omega

/-- The word in a number of cells, poison as soon as one byte is. -/
def wordAt (c : Nat → Cell P) (off : Nat) : (n : Nat) → Option (Option (BitVec (8 * n)))
  | 0 => some (some 0)
  | n + 1 =>
    match c (off + n), wordAt c off n with
    | .byte b, some v => some (b.bind fun b => v.map fun v => (b ++ v).cast (bits_succ n))
    | _, _ => none

/-- A load of an integer takes as many cells as its width needs, and at least one. -/
def loadInt (c : Nat → Cell P) (off w : Nat) : Except (Fault P) (Val P) :=
  match wordAt c off ((w - 1) / 8 + 1) with
  | some v => .ok (.int w (v.map (·.setWidth w)))
  | none => .error .type

def loadPtr [DecidableEq P] (c : Nat → Cell P) (off : Nat) : Except (Fault P) (Val P) :=
  match c off with
  | .part p _ => if ∀ i : Nat, i < 8 → c (off + i) = .part p i then .ok (.ptr (some p)) else .error .type
  | _ => .error .type

/-- The cells after a store of a word. -/
def storeInt (c : Nat → Cell P) (off : Nat) {w : Nat} (v : Option (BitVec w)) : Nat → Cell P := fun k =>
  if off ≤ k ∧ 8 * (k - off) < w then .byte (v.map (byte · (k - off))) else c k

section Objects
variable [DecidableEq O] (M : Bytes O P) (o : O) (off : Nat) {w : Nat} (v : Option (BitVec w))

def Bytes.store : Bytes O P := { M with cell := Function.update M.cell o (storeInt (M.cell o) off v) }

@[simp] theorem Bytes.store_cell : (M.store o off v).cell o = storeInt (M.cell o) off v :=
  Function.update_self o _ _

@[simp] theorem Bytes.store_other {o' : O} (h : o' ≠ o) : (M.store o off v).cell o' = M.cell o' :=
  Function.update_of_ne h _ _

end Objects

theorem wordAt_bytes {n : Nat} {f : Nat → BitVec 8} (h : ∀ i < n, c (off + i) = .byte (some (f i))) :
    wordAt c off n = some (some (ofBytes n f)) := by
  induction n with
  | zero => rfl
  | succ n ih =>
    rw [wordAt, h n (Nat.lt_succ_self n), ih fun i hi => h i (Nat.lt_succ_of_lt hi)]
    rfl

theorem wordAt_poison {n : Nat} (h : ∀ i < n + 1, c (off + i) = .byte none) :
    wordAt c off (n + 1) = some none := by
  induction n with
  | zero =>
    rw [wordAt, h 0 Nat.one_pos]
    rfl
  | succ n ih =>
    rw [wordAt, h (n + 1) (Nat.lt_succ_self _), ih fun i hi => h i (Nat.lt_succ_of_lt hi)]
    rfl

/-- A load of whole bytes gives the word of them. -/
theorem loadInt_bytes {n : Nat} {f : Nat → BitVec 8} (h : ∀ i, c (off + i) = .byte (some (f i))) :
    loadInt c off (8 * n) = .ok (.int (8 * n) (some (ofBytes n f))) := by
  have hword : (ofBytes ((8 * n - 1) / 8 + 1) f).setWidth (8 * n) = ofBytes n f := by
    cases n with
    | zero => exact BitVec.of_length_zero.trans BitVec.of_length_zero.symm
    | succ n =>
      have hcells : (8 * (n + 1) - 1) / 8 = n := by omega
      rw [hcells, BitVec.setWidth_eq]
  rw [loadInt, wordAt_bytes fun i _ => h i]
  dsimp only
  rw [Option.map_some, hword]

/-- A load from the place of a word gives its low part. -/
theorem loadInt_of_holds {v : Option (BitVec w')} (h : Holds c off v) (hpos : 0 < w') (hle : w ≤ w') :
    loadInt c off w = .ok (.int w (v.map (·.setWidth w))) := by
  have hcells (i : Nat) (hi : i < (w - 1) / 8 + 1) : c (off + i) = .byte (v.map (byte · i)) := h i (by omega)
  rw [loadInt]
  cases v with
  | none =>
    rw [wordAt_poison hcells]
    rfl
  | some v =>
    rw [wordAt_bytes hcells, ofBytes_byte]
    simp only [Option.map_some, BitVec.setWidth_setWidth_of_le v (show w ≤ 8 * ((w - 1) / 8 + 1) by omega)]

theorem loadPtr_of_holds [DecidableEq P] {p : P} (h : HoldsPtr c off p) : loadPtr c off = .ok (.ptr (some p)) := by
  have hfirst : c off = .part p 0 := h 0 (by decide)
  rw [loadPtr, hfirst]
  exact if_pos h

section Store
variable {v : Option (BitVec w)}

theorem storeInt_holds (c : Nat → Cell P) (off : Nat) (v : Option (BitVec w)) : Holds (storeInt c off v) off v := by
  intro i hi
  have hsub : off + i - off = i := Nat.add_sub_cancel_left off i
  rw [storeInt, hsub, if_pos ⟨Nat.le_add_right off i, hi⟩]

theorem storeInt_other {k : Nat} (h : k < off ∨ off + (w + 7) / 8 ≤ k) : storeInt c off v k = c k :=
  if_neg (by omega)

/-- A store leaves the words elsewhere. -/
theorem Holds.of_store {v' : Option (BitVec w')} (h : Holds c off' v')
    (hapart : off + (w + 7) / 8 ≤ off' ∨ off' + (w' + 7) / 8 ≤ off) : Holds (storeInt c off v) off' v' := by
  intro i hi
  rw [storeInt_other (by omega)]
  exact h i hi

theorem HoldsPtr.of_store {p : P} (h : HoldsPtr c off' p)
    (hapart : off + (w + 7) / 8 ≤ off' ∨ off' + 8 ≤ off) : HoldsPtr (storeInt c off v) off' p := by
  intro i hi
  rw [storeInt_other (by omega)]
  exact h i hi

end Store

/-- Poison may become any byte, the rest stays. -/
def Bytes.Concretises (M M' : Bytes O P) : Prop :=
  M'.size = M.size ∧ ∀ o k, M.cell o k ≠ .byte none → M'.cell o k = M.cell o k

section Concretises
variable {M M' : Bytes O P} {o : O}

theorem Bytes.Concretises.cell_eq {k : Nat} {cell : Cell P} (hM : M.Concretises M') (hcell : M.cell o k = cell)
    (hne : cell ≠ .byte none) : M'.cell o k = cell := by
  rw [hM.2 o k (by rwa [hcell]), hcell]

theorem Holds.of_concretises {v : BitVec w} (h : Holds (M.cell o) off (some v)) (hM : M.Concretises M') :
    Holds (M'.cell o) off (some v) := fun i hi => hM.cell_eq (h i hi) (by simp)

theorem HoldsPtr.of_concretises {p : P} (h : HoldsPtr (M.cell o) off p) (hM : M.Concretises M') :
    HoldsPtr (M'.cell o) off p := fun i hi => hM.cell_eq (h i hi) nofun

end Concretises

/-- A place holds one word. -/
theorem Holds.unique {v v' : Option (BitVec w)} (h : Holds c off v) (h' : Holds c off v') (hpos : 0 < w) :
    v = v' := by
  have hbytes (i : Nat) (hi : 8 * i < w) : v.map (byte · i) = v'.map (byte · i) :=
    Cell.byte.inj ((h i hi).symm.trans (h' i hi))
  cases v with
  | none =>
    cases v' with
    | none => rfl
    | some b => cases hbytes 0 hpos
  | some a =>
    cases v' with
    | none => cases hbytes 0 hpos
    | some b =>
      refine congrArg some (BitVec.eq_of_getLsbD_eq fun k hk => ?_)
      have hbyte := Option.some.inj (hbytes (k / 8) (by omega))
      have hsplit : 8 * (k / 8) + k % 8 = k := Nat.div_add_mod k 8
      have hbit := congrArg (BitVec.getLsbD · (k % 8)) hbyte
      have hlt : k % 8 < 8 := Nat.mod_lt k (by decide)
      simpa only [byte, BitVec.getLsbD_extractLsb', hsplit, hlt, decide_true, Bool.true_and] using hbit

end DBTranslator.Lib.ByteMemory
