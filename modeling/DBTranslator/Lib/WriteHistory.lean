import DBTranslator.Lib.LittleEndian
import Mathlib.Data.List.Basic

/-! A flat byte memory and the history of the writes made to it. -/
namespace DBTranslator.Lib.WriteHistory
open LittleEndian

/-- A write of `width` little-endian bytes at an address. -/
structure Write where
  addr : Nat
  width : Nat
  data : BitVec (8 * width)

/-- The byte a write leaves at an address, if it covers the address. -/
def Write.byte? (w : Write) (a : Nat) : Option (BitVec 8) :=
  if w.addr ≤ a ∧ a < w.addr + w.width then some (byte w.data (a - w.addr)) else none

/-- The byte last written at an address by a sequence of writes. -/
def lastWritten (ws : List Write) (a : Nat) : Option (BitVec 8) :=
  (ws.filterMap (·.byte? a)).getLast?

/-- The memory after a sequence of writes. -/
def applyAll (ws : List Write) (mem : Nat → BitVec 8) (a : Nat) : BitVec 8 :=
  (lastWritten ws a).getD (mem a)

@[simp] theorem applyAll_nil (mem : Nat → BitVec 8) : applyAll [] mem = mem := rfl

/-- A first write is overwritten wherever a later one covers the address. -/
theorem applyAll_cons (w : Write) (ws : List Write) (mem : Nat → BitVec 8) :
    applyAll (w :: ws) mem = applyAll ws (applyAll [w] mem) := by
  funext a
  unfold applyAll lastWritten
  cases hw : w.byte? a with
  | none => simp [hw]
  | some b =>
    simp only [List.filterMap_cons, hw, List.getLast?_cons, List.filterMap_nil]
    cases (ws.filterMap (·.byte? a)).getLast? <;> rfl

theorem applyAll_single (w : Write) (mem : Nat → BitVec 8) (a : Nat) :
    applyAll [w] mem a =
      if w.addr ≤ a ∧ a < w.addr + w.width then byte w.data (a - w.addr) else mem a := by
  unfold applyAll lastWritten Write.byte?
  split <;> simp_all

/-- Memories that agree on a set of addresses still agree there after the same writes. -/
theorem applyAll_congr (ws : List Write) {mem mem' : Nat → BitVec 8} {a : Nat}
    (h : mem a = mem' a) : applyAll ws mem a = applyAll ws mem' a := by
  unfold applyAll
  rw [h]

end DBTranslator.Lib.WriteHistory
