import DBTranslator.Lib.RiscvFormat

/-! What the RV32I manual says the base instructions compute: the values of the computational
instructions, the conditions of the branches, and constants split in an upper and a lower part. -/
namespace DBTranslator.Lib.Rv32i
open BitField RiscvFormat

/-- The operations on two words, shared by the register and the immediate forms. -/
inductive AluOp where
  | add | sub | sll | slt | sltu | xor | srl | sra | or | and
  deriving DecidableEq, Repr

/-- Shifts are by the low five bits of the second operand. -/
def AluOp.eval : AluOp → Word → Word → Word
  | .add, x, y => x + y
  | .sub, x, y => x - y
  | .sll, x, y => x <<< (y.toNat % 32)
  | .slt, x, y => if x.toInt < y.toInt then 1 else 0
  | .sltu, x, y => if x.toNat < y.toNat then 1 else 0
  | .xor, x, y => x ^^^ y
  | .srl, x, y => x >>> (y.toNat % 32)
  | .sra, x, y => x.sshiftRight (y.toNat % 32)
  | .or, x, y => x ||| y
  | .and, x, y => x &&& y

def AluOp.isShift : AluOp → Bool
  | .sll | .srl | .sra => true
  | _ => false

/-- A shift sees no more of its amount than the low five bits. -/
theorem AluOp.eval_of_mod {op : AluOp} (hop : op.isShift = true) (x : Word) {y z : Word}
    (h : y.toNat % 32 = z.toNat % 32) : op.eval x y = op.eval x z := by
  cases op
  case sll | srl | sra => simp only [AluOp.eval, h]
  all_goals cases hop

inductive Condition where
  | eq | ne | lt | ge | ltu | geu
  deriving DecidableEq, Repr

def Condition.holds : Condition → Word → Word → Prop
  | .eq, x, y => x = y
  | .ne, x, y => x ≠ y
  | .lt, x, y => x.toInt < y.toInt
  | .ge, x, y => y.toInt ≤ x.toInt
  | .ltu, x, y => x.toNat < y.toNat
  | .geu, x, y => y.toNat ≤ x.toNat

instance (c : Condition) (x y : Word) : Decidable (c.holds x y) :=
  match c with
  | .eq => inferInstanceAs (Decidable (x = y))
  | .ne => inferInstanceAs (Decidable (x ≠ y))
  | .lt => inferInstanceAs (Decidable (x.toInt < y.toInt))
  | .ge => inferInstanceAs (Decidable (y.toInt ≤ x.toInt))
  | .ltu => inferInstanceAs (Decidable (x.toNat < y.toNat))
  | .geu => inferInstanceAs (Decidable (y.toNat ≤ x.toNat))

def Condition.negate : Condition → Condition
  | .eq => .ne
  | .ne => .eq
  | .lt => .ge
  | .ge => .lt
  | .ltu => .geu
  | .geu => .ltu

theorem Condition.negate_holds (c : Condition) (x y : Word) : c.negate.holds x y ↔ ¬ c.holds x y := by
  cases c
  case eq => exact Iff.rfl
  case ne => exact not_not.symm
  case lt => exact Int.not_lt.symm
  case ge => exact Int.not_le.symm
  case ltu => exact Nat.not_lt.symm
  case geu => exact Nat.not_le.symm

/-- The word that a load makes of the value it reads. -/
def extend (signed : Bool) {n : Nat} (v : BitVec n) : Word :=
  match signed with
  | true => v.signExtend 32
  | false => v.setWidth 32

/-- A whole word is not changed by its extension. -/
theorem extend_word (signed : Bool) (v : Word) : extend signed v = v := by
  cases signed with
  | true => exact BitVec.signExtend_eq v
  | false => exact BitVec.setWidth_eq v

/-- The word of an upper immediate. -/
def upper (imm : BitVec 20) : Word := imm ++ 0#12

/-- The upper part of a constant, rounded up when the lower part will count as negative. -/
def hi20 (v : Word) : BitVec 20 := (v + 0x800#32).extractLsb' 12 20
def lo12 (v : Word) : BitVec 12 := v.extractLsb' 0 12

theorem toNat_upper (imm : BitVec 20) : (upper imm).toNat = imm.toNat * 2 ^ 12 := by
  rw [upper, toNat_append, BitVec.toNat_ofNat, Nat.zero_mod, Nat.add_zero]

/-- The upper part is the rounded constant with its low bits cleared. -/
theorem upper_hi20 (v : Word) : upper (hi20 v) = (v + 0x800#32) &&& 0xFFFFF000#32 := by
  rw [hi20]
  generalize v + 0x800#32 = x
  have hx := x.isLt
  apply BitVec.eq_of_toNat_eq
  rw [toNat_and_high x 12 0xFFFFF000#32 rfl (by decide), toNat_upper, toNat_extract]
  omega

/-- The sign of the lower part cancels the rounding of the upper one. -/
theorem upper_hi20_add_lo12 (v : Word) : upper (hi20 v) + (lo12 v).signExtend 32 = v := by
  have hv := v.isLt
  have hlo : (lo12 v).toNat = v.toNat % 2 ^ 12 := by
    rw [lo12, toNat_extract, Nat.pow_zero, Nat.div_one]
  have hhi : (hi20 v).toNat = (v.toNat + 2 ^ 11) % 2 ^ 32 / 2 ^ 12 := by
    rw [hi20, toNat_extract, BitVec.toNat_add, show (0x800#32).toNat = 2 ^ 11 from rfl]
    omega
  have hmsb : (lo12 v).msb = decide (2 ^ 11 ≤ v.toNat % 2 ^ 12) := by
    rw [BitVec.msb_eq_decide, hlo]
  apply BitVec.eq_of_toNat_eq
  rw [BitVec.toNat_add, toNat_upper, hhi, BitVec.toNat_signExtend, BitVec.toNat_setWidth, hlo, hmsb]
  simp only [decide_eq_true_eq]
  split <;> omega

end DBTranslator.Lib.Rv32i
