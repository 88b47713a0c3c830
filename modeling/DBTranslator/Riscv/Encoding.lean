import DBTranslator.Riscv.Decode

/-! The RV32I encodings of the enumerated instructions against the decoder: which fields it
checks, and which words it reads back. -/
namespace DBTranslator.Riscv
open Lib

/-- Values that an encoding fixes in a word. -/
structure Fixed where
  op : BitVec 7
  f3 : Option (BitVec 3)
  f7 : Option (BitVec 7)
  imm : Option (BitVec 12)
  noRegs : Bool

def Fixed.has (f : Fixed) (w : BitVec 32) : Prop :=
  RiscvFormat.opcode w = f.op ∧ (∀ x ∈ f.f3, RiscvFormat.funct3 w = x) ∧
    (∀ x ∈ f.f7, RiscvFormat.funct7 w = x) ∧ (∀ x ∈ f.imm, RiscvFormat.imm12 w = x) ∧
    (f.noRegs = true → RiscvFormat.rd w = 0 ∧ RiscvFormat.rs1 w = 0)

/-- The fields that the RV32I manual fixes for each instruction. The `rd`, `rs1` and `fm`
fields of a fence are reserved and free. -/
def fixedFields : Instr → Option Fixed
  | .UNKNOWN => none
  | .LUI => some ⟨0x37, none, none, none, false⟩
  | .AUIPC => some ⟨0x17, none, none, none, false⟩
  | .JAL => some ⟨0x6F, none, none, none, false⟩
  | .JALR => some ⟨0x67, some 0, none, none, false⟩
  | .BEQ => some ⟨0x63, some 0, none, none, false⟩
  | .BNE => some ⟨0x63, some 1, none, none, false⟩
  | .BLT => some ⟨0x63, some 4, none, none, false⟩
  | .BGE => some ⟨0x63, some 5, none, none, false⟩
  | .BLTU => some ⟨0x63, some 6, none, none, false⟩
  | .BGEU => some ⟨0x63, some 7, none, none, false⟩
  | .LB => some ⟨0x03, some 0, none, none, false⟩
  | .LH => some ⟨0x03, some 1, none, none, false⟩
  | .LW => some ⟨0x03, some 2, none, none, false⟩
  | .LBU => some ⟨0x03, some 4, none, none, false⟩
  | .LHU => some ⟨0x03, some 5, none, none, false⟩
  | .SB => some ⟨0x23, some 0, none, none, false⟩
  | .SH => some ⟨0x23, some 1, none, none, false⟩
  | .SW => some ⟨0x23, some 2, none, none, false⟩
  | .ADDI => some ⟨0x13, some 0, none, none, false⟩
  | .SLTI => some ⟨0x13, some 2, none, none, false⟩
  | .SLTIU => some ⟨0x13, some 3, none, none, false⟩
  | .XORI => some ⟨0x13, some 4, none, none, false⟩
  | .ORI => some ⟨0x13, some 6, none, none, false⟩
  | .ANDI => some ⟨0x13, some 7, none, none, false⟩
  | .SLLI => some ⟨0x13, some 1, some 0x00, none, false⟩
  | .SRLI => some ⟨0x13, some 5, some 0x00, none, false⟩
  | .SRAI => some ⟨0x13, some 5, some 0x20, none, false⟩
  | .ADD => some ⟨0x33, some 0, some 0x00, none, false⟩
  | .SUB => some ⟨0x33, some 0, some 0x20, none, false⟩
  | .SLL => some ⟨0x33, some 1, some 0x00, none, false⟩
  | .SLT => some ⟨0x33, some 2, some 0x00, none, false⟩
  | .SLTU => some ⟨0x33, some 3, some 0x00, none, false⟩
  | .XOR => some ⟨0x33, some 4, some 0x00, none, false⟩
  | .SRL => some ⟨0x33, some 5, some 0x00, none, false⟩
  | .SRA => some ⟨0x33, some 5, some 0x20, none, false⟩
  | .OR => some ⟨0x33, some 6, some 0x00, none, false⟩
  | .AND => some ⟨0x33, some 7, some 0x00, none, false⟩
  | .FENCE => some ⟨0x0F, some 0, none, none, false⟩
  | .FENCETSO => some ⟨0x0F, some 0, none, some 0x833, false⟩
  | .PAUSE => some ⟨0x0F, some 0, none, some 0x010, true⟩
  | .ECALL => some ⟨0x73, some 0, none, some 0x000, true⟩
  | .EBREAK => some ⟨0x73, some 0, none, some 0x001, true⟩

/-- The R-type instructions whose case in `decode` does not look at `funct7`. -/
def skipsFunct7 : Instr → Bool
  | .SLL | .SLT | .SLTU | .XOR | .OR | .AND => true
  | _ => false

/-- The fields that `decode` checks before it answers with an instruction. -/
def checkedFields (k : Instr) : Option Fixed :=
  (fixedFields k).map fun f =>
    { f with f7 := if skipsFunct7 k then none else f.f7, noRegs := false }

section Rows
variable {w : BitVec 32} {op : BitVec 7} {f3 : BitVec 3} {f7 : BitVec 7} {imm : BitVec 12}

/-- The rows of the table ask for the opcode, most for `funct3` too, and some for one field more. -/
theorem has_op_iff : Fixed.has ⟨op, none, none, none, false⟩ w ↔ RiscvFormat.opcode w = op := by
  simp [Fixed.has]

theorem has_f3_iff : Fixed.has ⟨op, some f3, none, none, false⟩ w ↔
    RiscvFormat.opcode w = op ∧ RiscvFormat.funct3 w = f3 := by
  simp [Fixed.has]

theorem has_f7_iff : Fixed.has ⟨op, some f3, some f7, none, false⟩ w ↔
    RiscvFormat.opcode w = op ∧ RiscvFormat.funct3 w = f3 ∧ RiscvFormat.funct7 w = f7 := by
  simp [Fixed.has]

theorem has_imm_iff : Fixed.has ⟨op, some f3, none, some imm, false⟩ w ↔
    RiscvFormat.opcode w = op ∧ RiscvFormat.funct3 w = f3 ∧ RiscvFormat.imm12 w = imm := by
  simp [Fixed.has]

end Rows

/-- The decoder as a function of the fields of a word. The test for the hint never succeeds. -/
def decodeFields (op : BitVec 7) (f3 : BitVec 3) (f7 : BitVec 7) (imm : BitVec 12) : Instr :=
  match op, f3 with
  | 0x37#7, _ => .LUI
  | 0x17#7, _ => .AUIPC
  | 0x6F#7, _ => .JAL
  | 0x67#7, 0#3 => .JALR
  | 0x63#7, 0#3 => .BEQ
  | 0x63#7, 1#3 => .BNE
  | 0x63#7, 4#3 => .BLT
  | 0x63#7, 5#3 => .BGE
  | 0x63#7, 6#3 => .BLTU
  | 0x63#7, 7#3 => .BGEU
  | 0x03#7, 0#3 => .LB
  | 0x03#7, 1#3 => .LH
  | 0x03#7, 2#3 => .LW
  | 0x03#7, 4#3 => .LBU
  | 0x03#7, 5#3 => .LHU
  | 0x23#7, 0#3 => .SB
  | 0x23#7, 1#3 => .SH
  | 0x23#7, 2#3 => .SW
  | 0x13#7, 0#3 => .ADDI
  | 0x13#7, 1#3 => if f7 = 0x00#7 then .SLLI else .UNKNOWN
  | 0x13#7, 2#3 => .SLTI
  | 0x13#7, 3#3 => .SLTIU
  | 0x13#7, 4#3 => .XORI
  | 0x13#7, 5#3 => if f7 = 0x00#7 then .SRLI else if f7 = 0x20#7 then .SRAI else .UNKNOWN
  | 0x13#7, 6#3 => .ORI
  | 0x13#7, 7#3 => .ANDI
  | 0x33#7, 0#3 => if f7 = 0x00#7 then .ADD else if f7 = 0x20#7 then .SUB else .UNKNOWN
  | 0x33#7, 1#3 => .SLL
  | 0x33#7, 2#3 => .SLT
  | 0x33#7, 3#3 => .SLTU
  | 0x33#7, 4#3 => .XOR
  | 0x33#7, 5#3 => if f7 = 0x00#7 then .SRL else if f7 = 0x20#7 then .SRA else .UNKNOWN
  | 0x33#7, 6#3 => .OR
  | 0x33#7, 7#3 => .AND
  | 0x0F#7, 0#3 => if imm = 0x833#12 then .FENCETSO else .FENCE
  | 0x73#7, 0#3 => if imm = 0x000#12 then .ECALL else if imm = 0x001#12 then .EBREAK else .UNKNOWN
  | _, _ => .UNKNOWN

private theorem decodeFields_unknown {op : BitVec 7}
    (hop : op ∉ [0x37#7, 0x17#7, 0x6F#7, 0x67#7, 0x63#7, 0x03#7, 0x23#7, 0x13#7, 0x33#7, 0x0F#7, 0x73#7])
    (f3 : BitVec 3) (f7 : BitVec 7) (imm : BitVec 12) : decodeFields op f3 f7 imm = .UNKNOWN := by
  unfold decodeFields
  split
  all_goals first | rfl | exact absurd (by decide) hop

private theorem bit3_cases : ∀ x : BitVec 3,
    x = 0 ∨ x = 1 ∨ x = 2 ∨ x = 3 ∨ x = 4 ∨ x = 5 ∨ x = 6 ∨ x = 7 := by
  decide

/-- Each masked test of the decoder is a test of a field, so for every opcode and `funct3` both sides make
the same tests. -/
theorem decode_eq_fields (w : BitVec 32) : decode w = decodeFields (RiscvFormat.opcode w) (RiscvFormat.funct3 w)
    (RiscvFormat.funct7 w) (RiscvFormat.imm12 w) := by
  have hpause := pause_mask w
  unfold decode
  simp (disch := decide) only [funct7_iff, shift25_iff, imm12_iff, fence_iff, funct3_eq, if_neg hpause]
  split
  case h_12 h37 h17 h6F h67 h03 h13 h63 h23 h33 h0F h73 =>
    simp (disch := decide) only [opcode_iff] at h37 h17 h6F h67 h03 h13 h63 h23 h33 h0F h73
    refine (decodeFields_unknown ?_ _ _ _).symm
    simp only [List.mem_cons, List.not_mem_nil, or_false, not_or]
    exact ⟨h37, h17, h6F, h67, h63, h03, h23, h13, h33, h0F, h73⟩
  all_goals
    rename_i hop
    rw [(opcode_iff w _ (by decide)).mp hop]
    rcases bit3_cases (RiscvFormat.funct3 w) with h | h | h | h | h | h | h | h <;> rw [h] <;> rfl

/-- Whatever `decode` answers with, it has checked the fields of the table. -/
theorem decode_checks (w : BitVec 32) (f : Fixed) (hf : checkedFields (decode w) = some f) :
    f.has w := by
  rw [decode_eq_fields] at hf
  unfold decodeFields at hf
  split at hf
  case h_1 hop | h_2 hop | h_3 hop =>
    cases hf
    exact has_op_iff.mpr hop
  case h_20 hop hf3 =>
    split at hf
    · cases hf
      exact has_f7_iff.mpr ⟨hop, hf3, ‹_›⟩
    · cases hf
  case h_24 hop hf3 | h_27 hop hf3 | h_32 hop hf3 =>
    split at hf
    · cases hf
      exact has_f7_iff.mpr ⟨hop, hf3, ‹_›⟩
    · split at hf
      · cases hf
        exact has_f7_iff.mpr ⟨hop, hf3, ‹_›⟩
      · cases hf
  case h_35 hop hf3 =>
    split at hf
    · cases hf
      exact has_imm_iff.mpr ⟨hop, hf3, ‹_›⟩
    · cases hf
      exact has_f3_iff.mpr ⟨hop, hf3⟩
  case h_36 hop hf3 =>
    split at hf
    · cases hf
      exact has_imm_iff.mpr ⟨hop, hf3, ‹_›⟩
    · split at hf
      · cases hf
        exact has_imm_iff.mpr ⟨hop, hf3, ‹_›⟩
      · cases hf
  case h_37 => cases hf
  all_goals
    rename_i hop hf3
    cases hf
    exact has_f3_iff.mpr ⟨hop, hf3⟩

/-- A word with the fields of an instruction is decoded to it; the fence case asks for the
more specific fence first and never reaches its hint. -/
theorem decode_of_fields (k : Instr) (w : BitVec 32) (f : Fixed) (hf : checkedFields k = some f)
    (hw : f.has w) (hpause : k ≠ .PAUSE)
    (hfence : k = .FENCE → RiscvFormat.imm12 w ≠ 0x833) : decode w = k := by
  rw [decode_eq_fields]
  cases k
  case UNKNOWN => cases hf
  case PAUSE => exact absurd rfl hpause
  case LUI | AUIPC | JAL =>
    cases hf
    rw [has_op_iff.mp hw]
    rfl
  case SLLI | SRLI | SRAI | ADD | SUB | SRL | SRA =>
    cases hf
    obtain ⟨hop, hf3, hf7⟩ := has_f7_iff.mp hw
    rw [hop, hf3, hf7]
    rfl
  case FENCETSO | ECALL | EBREAK =>
    cases hf
    obtain ⟨hop, hf3, himm⟩ := has_imm_iff.mp hw
    rw [hop, hf3, himm]
    rfl
  case FENCE =>
    cases hf
    obtain ⟨hop, hf3⟩ := has_f3_iff.mp hw
    rw [hop, hf3]
    exact if_neg (hfence rfl)
  all_goals
    cases hf
    obtain ⟨hop, hf3⟩ := has_f3_iff.mp hw
    rw [hop, hf3]
    rfl

/-- The hint's word is taken for a fence before its own test can succeed. -/
theorem decode_ne_pause (w : BitVec 32) : decode w ≠ .PAUSE := by
  intro h
  have hchecks := decode_checks w ⟨0x0F, some 0, none, some 0x010, false⟩ (by rw [h]; rfl)
  obtain ⟨hop, hf3, -, himm, -⟩ := hchecks
  have himm' : RiscvFormat.imm12 w = 0x010 := himm _ rfl
  have hfence : decode w = .FENCE := by
    refine decode_of_fields .FENCE w _ rfl ⟨hop, hf3, ?_, ?_, ?_⟩ (by decide) fun _ => ?_
    · rintro x ⟨⟩
    · rintro x ⟨⟩
    · rintro ⟨⟩
    · rw [himm']
      decide
  rw [h] at hfence
  cases hfence

/-- The word has every field that the manual fixes for the instruction. -/
def Encodes (k : Instr) (w : BitVec 32) : Prop := ∃ f, fixedFields k = some f ∧ f.has w

/-- An OP word of the six cases without a `funct7` test whose `funct7` is not zero. -/
def funct7Ignored (w : BitVec 32) : Prop :=
  RiscvFormat.opcode w = 0x33 ∧ RiscvFormat.funct3 w ≠ 0 ∧ RiscvFormat.funct3 w ≠ 5 ∧
    RiscvFormat.funct7 w ≠ 0

/-- A SYSTEM word with the immediate of `ECALL` or `EBREAK` and a register field set. -/
def systemRegsIgnored (w : BitVec 32) : Prop :=
  RiscvFormat.opcode w = 0x73 ∧ RiscvFormat.funct3 w = 0 ∧
    (RiscvFormat.imm12 w = 0 ∨ RiscvFormat.imm12 w = 1) ∧
    (RiscvFormat.rd w ≠ 0 ∨ RiscvFormat.rs1 w ≠ 0)

private theorem skipsFunct7_row {k : Instr} {f : Fixed} (hf : fixedFields k = some f)
    (hskip : skipsFunct7 k = true) :
    f.op = 0x33 ∧ f.f7 = some 0 ∧ ∃ x, f.f3 = some x ∧ x ≠ 0 ∧ x ≠ 5 := by
  cases k
  case SLL | SLT | SLTU | XOR | OR | AND =>
    cases hf
    exact ⟨rfl, rfl, _, rfl, by decide, by decide⟩
  all_goals cases hskip

private theorem noRegs_row {k : Instr} {f : Fixed} (hf : fixedFields k = some f)
    (hpause : k ≠ .PAUSE) (hno : f.noRegs = true) :
    f.op = 0x73 ∧ f.f3 = some 0 ∧ (f.imm = some 0 ∨ f.imm = some 1) := by
  cases k
  case PAUSE => exact absurd rfl hpause
  case ECALL =>
    cases hf
    exact ⟨rfl, rfl, .inl rfl⟩
  case EBREAK =>
    cases hf
    exact ⟨rfl, rfl, .inr rfl⟩
  all_goals cases hf
  all_goals cases hno

private theorem encodes_of_checked (w : BitVec 32) (h7 : ¬ funct7Ignored w)
    (hregs : ¬ systemRegsIgnored w) (hk : decode w ≠ .UNKNOWN) : Encodes (decode w) w := by
  obtain ⟨f, hf⟩ : ∃ f, fixedFields (decode w) = some f := by
    cases h : decode w
    case UNKNOWN => exact absurd h hk
    all_goals exact ⟨_, rfl⟩
  obtain ⟨hop, hf3, hf7, himm, -⟩ := decode_checks w _ (by rw [checkedFields, hf, Option.map_some])
  -- The two fields that the row of the decoder may lack are those of the two hypotheses.
  refine ⟨f, hf, hop, hf3, ?_, himm, ?_⟩
  · intro x hx
    by_cases hskip : skipsFunct7 (decode w) = true
    · obtain ⟨h33, hzero, y, hy, h0, h5⟩ := skipsFunct7_row hf hskip
      rw [hzero] at hx
      cases hx
      by_contra hne
      have hy' := hf3 y hy
      exact h7 ⟨hop.trans h33, hy' ▸ h0, hy' ▸ h5, hne⟩
    · exact hf7 x (by rw [if_neg hskip]; exact hx)
  · intro hno
    obtain ⟨h73, h0, himm'⟩ := noRegs_row hf (decode_ne_pause w) hno
    by_contra hne
    refine hregs ⟨hop.trans h73, hf3 0 h0, himm'.imp (himm 0) (himm 1), ?_⟩
    by_contra hregs'
    exact hne (not_or.mp hregs' |>.imp not_not.mp not_not.mp)

private theorem not_encodes_of_funct7 (w : BitVec 32) (h : funct7Ignored w) :
    decode w ≠ .UNKNOWN ∧ ¬ Encodes (decode w) w := by
  obtain ⟨hop, h0, h5, h7⟩ := h
  have hdecode (k : Instr) (x : BitVec 3) (hx : RiscvFormat.funct3 w = x)
      (hk : checkedFields k = some ⟨0x33, some x, none, none, false⟩) : decode w = k := by
    refine decode_of_fields k w _ hk ⟨hop, ?_, ?_, ?_, ?_⟩ ?_ ?_
    · rintro y ⟨⟩
      exact hx
    · rintro y ⟨⟩
    · rintro y ⟨⟩
    · rintro ⟨⟩
    · rintro rfl
      cases hk
    · rintro rfl
      cases hk
  have hbad (k : Instr) (hk : k ≠ .UNKNOWN) (hdec : decode w = k)
      (hfix : ∀ f, fixedFields k = some f → f.f7 = some 0) :
      decode w ≠ .UNKNOWN ∧ ¬ Encodes (decode w) w := by
    rw [hdec]
    refine ⟨hk, ?_⟩
    rintro ⟨f, hf, -, -, hf7, -, -⟩
    exact h7 (hf7 0 (hfix f hf))
  have hcases : ∀ x : BitVec 3, x ≠ 0 → x ≠ 5 → x = 1 ∨ x = 2 ∨ x = 3 ∨ x = 4 ∨ x = 6 ∨ x = 7 := by
    decide
  rcases hcases _ h0 h5 with hx | hx | hx | hx | hx | hx
  · exact hbad .SLL (by decide) (hdecode _ _ hx rfl) fun f hf => by cases hf; rfl
  · exact hbad .SLT (by decide) (hdecode _ _ hx rfl) fun f hf => by cases hf; rfl
  · exact hbad .SLTU (by decide) (hdecode _ _ hx rfl) fun f hf => by cases hf; rfl
  · exact hbad .XOR (by decide) (hdecode _ _ hx rfl) fun f hf => by cases hf; rfl
  · exact hbad .OR (by decide) (hdecode _ _ hx rfl) fun f hf => by cases hf; rfl
  · exact hbad .AND (by decide) (hdecode _ _ hx rfl) fun f hf => by cases hf; rfl

private theorem not_encodes_of_regs (w : BitVec 32) (h : systemRegsIgnored w) :
    decode w ≠ .UNKNOWN ∧ ¬ Encodes (decode w) w := by
  obtain ⟨hop, hf3, himm, hregs⟩ := h
  have hdecode (k : Instr) (x : BitVec 12) (hx : RiscvFormat.imm12 w = x)
      (hk : checkedFields k = some ⟨0x73, some 0, none, some x, false⟩) : decode w = k := by
    refine decode_of_fields k w _ hk ⟨hop, ?_, ?_, ?_, ?_⟩ ?_ ?_
    · rintro y ⟨⟩
      exact hf3
    · rintro y ⟨⟩
    · rintro y ⟨⟩
      exact hx
    · rintro ⟨⟩
    · rintro rfl
      cases hk
    · rintro rfl
      cases hk
  have hbad (k : Instr) (hk : k ≠ .UNKNOWN) (hdec : decode w = k)
      (hfix : ∀ f, fixedFields k = some f → f.noRegs = true) :
      decode w ≠ .UNKNOWN ∧ ¬ Encodes (decode w) w := by
    rw [hdec]
    refine ⟨hk, ?_⟩
    rintro ⟨f, hf, -, -, -, -, hno⟩
    obtain ⟨hd, h1⟩ := hno (hfix f hf)
    exact hregs.elim (· hd) (· h1)
  rcases himm with hx | hx
  · exact hbad .ECALL (by decide) (hdecode _ _ hx rfl) fun f hf => by cases hf; rfl
  · exact hbad .EBREAK (by decide) (hdecode _ _ hx rfl) fun f hf => by cases hf; rfl

/-- The decoder accepts a word as an instruction whose fixed fields it has, except exactly on
the words where it skips a field: `funct7` of six OP cases, the registers of SYSTEM. -/
theorem decode_sound_iff (w : BitVec 32) :
    (∀ k, decode w = k → k ≠ .UNKNOWN → Encodes k w) ↔
      ¬ funct7Ignored w ∧ ¬ systemRegsIgnored w := by
  constructor
  · intro h
    constructor
    · intro h7
      obtain ⟨hk, hbad⟩ := not_encodes_of_funct7 w h7
      exact hbad (h _ rfl hk)
    · intro hregs
      obtain ⟨hk, hbad⟩ := not_encodes_of_regs w hregs
      exact hbad (h _ rfl hk)
  · rintro ⟨h7, hregs⟩ k rfl hk
    exact encodes_of_checked w h7 hregs hk

/-- A multiply word of RV32M is decoded as a base shift. -/
theorem decode_mulh_as_sll :
    decode 0x023110B3#32 = .SLL ∧ ¬ Encodes .SLL 0x023110B3#32 := by
  refine ⟨by decide, ?_⟩
  rintro ⟨f, hf, -, -, h7, -⟩
  cases hf
  exact absurd (h7 0 rfl) (by decide)

/-- The operand fields of the RV32I formats. -/
structure Operands where
  rd : BitVec 5
  rs1 : BitVec 5
  rs2 : BitVec 5
  shamt : BitVec 5
  imm : Int
  fm : BitVec 4
  pred : BitVec 4
  succ : BitVec 4

/-- The immediates that the format of an instruction can hold. -/
def Operands.fit (o : Operands) : Instr → Prop
  | .LUI | .AUIPC => 0 ≤ o.imm ∧ o.imm < 2 ^ 20
  | .JAL => -2 ^ 20 ≤ o.imm ∧ o.imm < 2 ^ 20 ∧ o.imm % 2 = 0
  | .BEQ | .BNE | .BLT | .BGE | .BLTU | .BGEU => -2 ^ 12 ≤ o.imm ∧ o.imm < 2 ^ 12 ∧ o.imm % 2 = 0
  | .JALR | .LB | .LH | .LW | .LBU | .LHU | .SB | .SH | .SW
  | .ADDI | .SLTI | .SLTIU | .XORI | .ORI | .ANDI => -2 ^ 11 ≤ o.imm ∧ o.imm < 2 ^ 11
  | .FENCE => ¬ (o.fm = 8 ∧ o.pred = 3 ∧ o.succ = 3) ∧
      ¬ (o.fm = 0 ∧ o.pred = 1 ∧ o.succ = 0 ∧ o.rd = 0 ∧ o.rs1 = 0)
  | _ => True

/-- The word of an instruction with its operands, by the RV32I formats. -/
def encode (k : Instr) (o : Operands) : BitVec 32 :=
  let i (f3 : BitVec 3) (op : BitVec 7) :=
    RiscvFormat.iType (BitVec.ofInt 12 o.imm) o.rs1 f3 o.rd op
  let s (f3 : BitVec 3) := RiscvFormat.sType (BitVec.ofInt 12 o.imm) o.rs2 o.rs1 f3 0x23
  let b (f3 : BitVec 3) := RiscvFormat.bType (BitVec.ofInt 13 o.imm) o.rs2 o.rs1 f3 0x63
  let sh (f7 : BitVec 7) (f3 : BitVec 3) := RiscvFormat.rType f7 o.shamt o.rs1 f3 o.rd 0x13
  let r (f7 : BitVec 7) (f3 : BitVec 3) := RiscvFormat.rType f7 o.rs2 o.rs1 f3 o.rd 0x33
  match k with
  | .UNKNOWN => 0
  | .LUI => RiscvFormat.uType (BitVec.ofInt 20 o.imm) o.rd 0x37
  | .AUIPC => RiscvFormat.uType (BitVec.ofInt 20 o.imm) o.rd 0x17
  | .JAL => RiscvFormat.jType (BitVec.ofInt 21 o.imm) o.rd 0x6F
  | .JALR => i 0 0x67
  | .BEQ => b 0
  | .BNE => b 1
  | .BLT => b 4
  | .BGE => b 5
  | .BLTU => b 6
  | .BGEU => b 7
  | .LB => i 0 0x03
  | .LH => i 1 0x03
  | .LW => i 2 0x03
  | .LBU => i 4 0x03
  | .LHU => i 5 0x03
  | .SB => s 0
  | .SH => s 1
  | .SW => s 2
  | .ADDI => i 0 0x13
  | .SLTI => i 2 0x13
  | .SLTIU => i 3 0x13
  | .XORI => i 4 0x13
  | .ORI => i 6 0x13
  | .ANDI => i 7 0x13
  | .SLLI => sh 0x00 1
  | .SRLI => sh 0x00 5
  | .SRAI => sh 0x20 5
  | .ADD => r 0x00 0
  | .SUB => r 0x20 0
  | .SLL => r 0x00 1
  | .SLT => r 0x00 2
  | .SLTU => r 0x00 3
  | .XOR => r 0x00 4
  | .SRL => r 0x00 5
  | .SRA => r 0x20 5
  | .OR => r 0x00 6
  | .AND => r 0x00 7
  | .FENCE => RiscvFormat.iType (o.fm ++ (o.pred ++ o.succ)) o.rs1 0 o.rd 0x0F
  | .FENCETSO => RiscvFormat.iType 0x833 o.rs1 0 o.rd 0x0F
  | .PAUSE => RiscvFormat.iType 0x010 0 0 0 0x0F
  | .ECALL => RiscvFormat.iType 0x000 0 0 0 0x73
  | .EBREAK => RiscvFormat.iType 0x001 0 0 0 0x73

/-- An encoded word has the fields fixed for its instruction. -/
theorem encode_has (k : Instr) (o : Operands) (f : Fixed) (hf : fixedFields k = some f) :
    f.has (encode k o) := by
  cases k
  all_goals cases hf
  all_goals simp [Fixed.has, encode, RiscvFormat.sType, RiscvFormat.bType, RiscvFormat.jType]

private theorem checked_has (k : Instr) (w : BitVec 32) (f : Fixed) (hf : fixedFields k = some f)
    (hw : f.has w) : ∃ f', checkedFields k = some f' ∧ f'.has w := by
  obtain ⟨hop, hf3, hf7, himm, -⟩ := hw
  refine ⟨{ f with f7 := if skipsFunct7 k then none else f.f7, noRegs := false },
    by rw [checkedFields, hf, Option.map_some], hop, hf3, ?_, himm, ?_⟩
  · intro x hx
    dsimp only at hx
    split at hx
    · cases hx
    · exact hf7 x hx
  · rintro ⟨⟩

private theorem fence_imm_ne (o : Operands) (h : ¬ (o.fm = 8 ∧ o.pred = 3 ∧ o.succ = 3)) :
    o.fm ++ (o.pred ++ o.succ) ≠ 0x833#12 := by
  intro heq
  have hnat := congrArg BitVec.toNat heq
  simp only [BitField.toNat_append, BitVec.toNat_ofNat] at hnat
  apply h
  simp only [← BitVec.toNat_inj]
  change o.fm.toNat = 8 ∧ o.pred.toNat = 3 ∧ o.succ.toNat = 3
  omega

theorem decode_encode (k : Instr) (o : Operands) (hk : k ≠ .UNKNOWN) (hpause : k ≠ .PAUSE)
    (hfit : o.fit k) : decode (encode k o) = k := by
  cases hf : fixedFields k with
  | none => cases k <;> first | exact absurd rfl hk | cases hf
  | some f =>
    obtain ⟨f', hf', hhas⟩ := checked_has k _ f hf (encode_has k o f hf)
    refine decode_of_fields k _ f' hf' hhas hpause ?_
    rintro rfl
    rw [encode, RiscvFormat.imm12_iType]
    exact fence_imm_ne o hfit.1

/-- A table that has a row for neither says which instructions are decoded back. -/
theorem decode_encode_of_row {α : Type} {k : Instr} {o : Operands} {row : α} (table : Instr → Option α)
    (hunknown : table .UNKNOWN = none) (hpause : table .PAUSE = none) (hrow : table k = some row)
    (hfit : o.fit k) : decode (encode k o) = k := by
  refine decode_encode k o ?_ ?_ hfit
  · rintro rfl
    rw [hunknown] at hrow
    cases hrow
  · rintro rfl
    rw [hpause] at hrow
    cases hrow

/-- Decoding undoes encoding for every instruction but the hint, which no word decodes to. -/
theorem decode_encode_iff (k : Instr) :
    (k ≠ .UNKNOWN → ∀ o : Operands, o.fit k → (decode (encode k o) = k ↔ k ≠ .PAUSE)) ∧
      ((∃ w, decode w = k) ↔ k ≠ .PAUSE) := by
  constructor
  · intro hk o hfit
    constructor
    · rintro hround rfl
      exact decode_ne_pause _ hround
    · intro hpause
      exact decode_encode k o hk hpause hfit
  · constructor
    · rintro ⟨w, hw⟩ rfl
      exact decode_ne_pause w hw
    · intro hpause
      by_cases hk : k = .UNKNOWN
      · exact ⟨0, by rw [hk]; decide⟩
      · have hfit : Operands.fit ⟨0, 0, 0, 0, 0, 0, 0, 0⟩ k := by
          cases k <;> simp [Operands.fit]
        exact ⟨_, decode_encode k _ hk hpause hfit⟩

/-- The one word of the hint is decoded as a fence. -/
theorem decode_pause_as_fence : encode .PAUSE ⟨0, 0, 0, 0, 0, 0, 0, 0⟩ = 0x0100000F#32 ∧
    decode (encode .PAUSE ⟨0, 0, 0, 0, 0, 0, 0, 0⟩) = .FENCE := by
  decide

end DBTranslator.Riscv
