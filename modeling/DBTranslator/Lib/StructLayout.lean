import Mathlib.Data.Nat.GCD.Basic

/-! Sizes and alignments of types, and the offsets of the fields of a struct. -/
namespace DBTranslator.Lib.StructLayout

/-- The least multiple of an alignment from a number on. -/
def alignUp (n align : Nat) : Nat := n + (align - n % align) % align

section AlignUp
variable {n align : Nat}

theorem le_alignUp : n ≤ alignUp n align := Nat.le_add_right _ _

theorem dvd_alignUp (hpos : 0 < align) : align ∣ alignUp n align := by
  have hlt := Nat.mod_lt n hpos
  have hsplit := Nat.div_add_mod n align
  rw [alignUp]
  by_cases hzero : n % align = 0
  · rw [hzero, Nat.sub_zero, Nat.mod_self]
    exact Nat.dvd_of_mod_eq_zero hzero
  · rw [Nat.mod_eq_of_lt (by omega)]
    refine ⟨n / align + 1, ?_⟩
    rw [Nat.mul_succ]
    omega

end AlignUp

/-- What the layout of a type says. A size is a whole number of alignments, so every element of an
array is aligned where the first one is. -/
structure Shape where
  size : Nat
  align : Nat
  pos : 0 < align
  whole : align ∣ size

/-- The end of fields that follow one another from a position on. -/
def fieldsEnd : Nat → List Shape → Nat
  | start, [] => start
  | start, s :: fields => fieldsEnd (alignUp start s.align + s.size) fields

/-- The offset of a field among fields that follow one another from a position on. -/
def fieldOffset : Nat → List Shape → Nat → Nat
  | start, [], _ => start
  | start, s :: _, 0 => alignUp start s.align
  | start, s :: fields, i + 1 => fieldOffset (alignUp start s.align + s.size) fields i

/-- The offset of a field of a struct. -/
def structOffset (fields : List Shape) (i : Nat) : Nat := fieldOffset 0 fields i

/-- Alignments are powers of two, of which this is the largest. -/
def fieldsAlign : List Shape → Nat
  | [] => 1
  | s :: fields => Nat.lcm s.align (fieldsAlign fields)

theorem fieldsAlign_pos (fields : List Shape) : 0 < fieldsAlign fields := by
  induction fields with
  | nil => exact Nat.one_pos
  | cons s fields ih => exact Nat.lcm_pos s.pos ih

def intAlign (w : Nat) : Nat := if w ≤ 8 then 1 else if w ≤ 16 then 2 else if w ≤ 32 then 4 else if w ≤ 64 then 8 else 16

theorem intAlign_pos (w : Nat) : 0 < intAlign w := by
  unfold intAlign
  split_ifs <;> decide

/-- A narrow integer may stand wherever a wide one may. -/
theorem intAlign_dvd {w w' : Nat} (h : w ≤ w') : intAlign w ∣ intAlign w' := by
  unfold intAlign
  split_ifs <;> first | decide | omega

namespace Shape

def padded (bytes align : Nat) (hpos : 0 < align) : Shape :=
  ⟨alignUp bytes align, align, hpos, dvd_alignUp hpos⟩

/-- Integers have the alignment of the next width that has one of its own. -/
def int (w : Nat) : Shape := padded ((w + 7) / 8) (intAlign w) (intAlign_pos w)

def ptr : Shape := padded 8 8 (by decide)

def array (elem : Shape) (n : Nat) : Shape :=
  ⟨elem.size * n, elem.align, elem.pos, elem.whole.mul_right n⟩

def struct (fields : List Shape) : Shape :=
  padded (fieldsEnd 0 fields) (fieldsAlign fields) (fieldsAlign_pos fields)

theorem int_bits (w : Nat) : w ≤ 8 * (int w).size := by
  have hup : (w + 7) / 8 ≤ (int w).size := le_alignUp
  omega

end Shape

section Fields
variable {fields : List Shape} {start i j : Nat} {s : Shape}

private theorem le_fieldOffset (start : Nat) (fields : List Shape) (i : Nat) :
    start ≤ fieldOffset start fields i := by
  induction fields generalizing start i with
  | nil => rw [fieldOffset]
  | cons s fields ih =>
    cases i with
    | zero => exact le_alignUp
    | succ i =>
      have hfirst : start ≤ alignUp start s.align := le_alignUp
      exact Nat.le_trans (by omega) (ih (alignUp start s.align + s.size) i)

private theorem le_fieldsEnd (start : Nat) (fields : List Shape) : start ≤ fieldsEnd start fields := by
  induction fields generalizing start with
  | nil => exact Nat.le_refl start
  | cons s fields ih =>
    have hfirst : start ≤ alignUp start s.align := le_alignUp
    exact Nat.le_trans (by omega) (ih (alignUp start s.align + s.size))

private theorem field_before (hi : fields[i]? = some s) (hlt : i < j) :
    fieldOffset start fields i + s.size ≤ fieldOffset start fields j := by
  induction fields generalizing start i j with
  | nil => cases hi
  | cons s' fields ih =>
    obtain ⟨j, rfl⟩ := Nat.exists_eq_add_of_lt hlt
    cases i with
    | zero =>
      obtain rfl : s' = s := Option.some.inj hi
      exact le_fieldOffset _ fields _
    | succ i => exact ih hi (by omega)

private theorem field_inside (hi : fields[i]? = some s) :
    fieldOffset start fields i + s.size ≤ fieldsEnd start fields := by
  induction fields generalizing start i with
  | nil => cases hi
  | cons s' fields ih =>
    cases i with
    | zero =>
      obtain rfl : s' = s := Option.some.inj hi
      exact le_fieldsEnd _ fields
    | succ i => exact ih hi

private theorem field_aligned (hi : fields[i]? = some s) : s.align ∣ fieldOffset start fields i := by
  induction fields generalizing start i with
  | nil => cases hi
  | cons s' fields ih =>
    cases i with
    | zero =>
      obtain rfl : s' = s := Option.some.inj hi
      exact dvd_alignUp s'.pos
    | succ i => exact ih hi

private theorem align_dvd (hi : fields[i]? = some s) : s.align ∣ fieldsAlign fields := by
  induction fields generalizing i with
  | nil => cases hi
  | cons s' fields ih =>
    cases i with
    | zero =>
      obtain rfl : s' = s := Option.some.inj hi
      exact Nat.dvd_lcm_left _ _
    | succ i => exact Nat.dvd_trans (ih hi) (Nat.dvd_lcm_right _ _)

theorem struct_inside (hi : fields[i]? = some s) :
    structOffset fields i + s.size ≤ (Shape.struct fields).size := Nat.le_trans (field_inside hi) le_alignUp

/-- No two fields share a byte. -/
theorem struct_apart {t : Shape} (hi : fields[i]? = some s) (hj : fields[j]? = some t) (hne : i ≠ j) :
    structOffset fields i + s.size ≤ structOffset fields j ∨
      structOffset fields j + t.size ≤ structOffset fields i := by
  rcases Nat.lt_or_gt_of_ne hne with hlt | hlt
  · exact .inl (field_before hi hlt)
  · exact .inr (field_before hj hlt)

theorem struct_aligned (hi : fields[i]? = some s) : s.align ∣ structOffset fields i := field_aligned hi

/-- A field lies inside every element of an array of structs. -/
theorem row_inside (hi : fields[i]? = some s) {I n : Nat} (hI : I < n) :
    (Shape.struct fields).size * I + (structOffset fields i + s.size) ≤ ((Shape.struct fields).array n).size := by
  calc (Shape.struct fields).size * I + (structOffset fields i + s.size)
      ≤ (Shape.struct fields).size * I + (Shape.struct fields).size := Nat.add_le_add_left (struct_inside hi) _
    _ = (Shape.struct fields).size * (I + 1) := (Nat.mul_succ _ _).symm
    _ ≤ (Shape.struct fields).size * n := Nat.mul_le_mul_left _ hI

/-- A field is aligned in every element of an array of structs. -/
theorem row_aligned (hi : fields[i]? = some s) (I : Nat) :
    s.align ∣ (Shape.struct fields).size * I + structOffset fields i := by
  have hrow : s.align ∣ (Shape.struct fields).size * I :=
    Nat.dvd_mul_right_of_dvd (Nat.dvd_trans (align_dvd hi) (Shape.struct fields).whole) I
  exact Nat.dvd_add hrow (struct_aligned hi)

end Fields

end DBTranslator.Lib.StructLayout
