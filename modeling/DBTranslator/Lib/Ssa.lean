import Mathlib.Logic.Function.Basic
import Mathlib.Data.BitVec

/-! Straight-line LLVM code over an arbitrary host memory. Integers carry deferred
poison; immediate undefined behaviour is a fault of the run. -/
namespace DBTranslator.Lib.Ssa

/-- Run-time values. `none` is the poison value of the type. -/
inductive Val (P : Type) where
  | int (w : Nat) (v : Option (BitVec w))
  | ptr (p : Option P)

/-- The ways a run can reach undefined behaviour. Code that is not well formed has a `type` fault, and
`unfinished` is a run that was given up. -/
inductive Fault (P : Type) where
  | assumption
  | null
  | access (p : P) (bytes : Nat)
  | misaligned (p : P) (bytes : Nat)
  | poison
  | type
  | unfinished
  deriving DecidableEq, Repr

inductive Ty where
  | int (w : Nat)
  | ptr
  deriving DecidableEq, Repr

inductive Operand where
  | const (w : Nat) (v : BitVec w)
  | local (n : Nat)
  deriving DecidableEq, Repr

inductive BinOp where
  | add | addNUWNSW | sub | and | or | xor | shl | lshr | ashr
  deriving DecidableEq, Repr

inductive Pred where
  | eq | ne | ult | uge | ugt | slt | sge
  deriving DecidableEq, Repr

inductive Rhs (F : Type) where
  | binary (op : BinOp) (a b : Operand)
  | icmp (p : Pred) (a b : Operand)
  | select (c a b : Operand)
  | zext (w : Nat) (a : Operand)
  | sext (w : Nat) (a : Operand)
  | gep (scale : Nat) (base idx : Operand)
  | load (ty : Ty) (p : Operand)
  | call (f : F) (args : List Operand)

inductive Inst (F : Type) where
  | assign (dest : Nat) (rhs : Rhs F)
  | store (v p : Operand)
  | invoke (f : F) (args : List Operand)
  | assume (c : Operand)

/-- What the host gives the code: pointer arithmetic within objects, typed accesses and
the functions that can be called. -/
structure Host (P F σ : Type) where
  offset : σ → P → Int → Option P
  load : σ → Ty → P → Except (Fault P) (Val P)
  store : σ → P → Val P → Except (Fault P) σ
  call : σ → F → List (Val P) → Except (Fault P) (σ × Option (Val P))

/-- The SSA values defined so far and the host memory. -/
structure Frame (P σ : Type) where
  env : Nat → Val P
  mem : σ

variable {P F σ : Type}

/-- A 32-bit (or any w-bit) shift by the width or more is poison, and so is an add that
breaks its no-wrap promise. -/
def BinOp.eval {w : Nat} : BinOp → BitVec w → BitVec w → Option (BitVec w)
  | .add, a, b => some (a + b)
  | .addNUWNSW, a, b => if a.uaddOverflow b || a.saddOverflow b then none else some (a + b)
  | .sub, a, b => some (a - b)
  | .and, a, b => some (a &&& b)
  | .or, a, b => some (a ||| b)
  | .xor, a, b => some (a ^^^ b)
  | .shl, a, b => if b.toNat < w then some (a <<< b.toNat) else none
  | .lshr, a, b => if b.toNat < w then some (a >>> b.toNat) else none
  | .ashr, a, b => if b.toNat < w then some (a.sshiftRight b.toNat) else none

def Pred.holds {w : Nat} : Pred → BitVec w → BitVec w → Bool
  | .eq, a, b => a == b
  | .ne, a, b => a != b
  | .ult, a, b => a.ult b
  | .uge, a, b => b.ule a
  | .ugt, a, b => b.ult a
  | .slt, a, b => a.slt b
  | .sge, a, b => b.sle a

def Val.poisoned : Val P → Val P
  | .int w _ => .int w none
  | .ptr _ => .ptr none

def Val.binary (op : BinOp) : Val P → Val P → Except (Fault P) (Val P)
  | .int w a, .int w' b =>
    if h : w' = w then .ok (.int w (a.bind fun x => b.bind fun y => op.eval x (y.cast h)))
    else .error .type
  | _, _ => .error .type

def Val.icmp (p : Pred) : Val P → Val P → Except (Fault P) (Val P)
  | .int w a, .int w' b =>
    if h : w' = w then
      .ok (.int 1 (a.bind fun x => b.map fun y => BitVec.ofBool (p.holds x (y.cast h))))
    else .error .type
  | _, _ => .error .type

def Val.select : Val P → Val P → Val P → Except (Fault P) (Val P)
  | .int 1 none, a, _ => .ok a.poisoned
  | .int 1 (some c), a, b => .ok (if c = 1#1 then a else b)
  | _, _, _ => .error .type

def Val.ext (f : {w : Nat} → (w' : Nat) → BitVec w → BitVec w') (w' : Nat) :
    Val P → Except (Fault P) (Val P)
  | .int _ a => .ok (.int w' (a.map (f w')))
  | .ptr _ => .error .type

def Val.gep (offset : P → Int → Option P) (scale : Nat) : Val P → Val P → Except (Fault P) (Val P)
  | .ptr base, .int _ idx =>
    .ok (.ptr (base.bind fun p => idx.bind fun i => offset p (scale * i.toInt)))
  | _, _ => .error .type

/-- A pointer operand of an access: poison or a non-pointer there is undefined behaviour. -/
def Val.address : Val P → Except (Fault P) P
  | .ptr (some p) => .ok p
  | .ptr none => .error .poison
  | .int _ _ => .error .type

def Operand.eval (env : Nat → Val P) : Operand → Val P
  | .const w v => .int w (some v)
  | .local n => env n

def Rhs.eval (h : Host P F σ) (fr : Frame P σ) : Rhs F → Except (Fault P) (σ × Val P)
  | .binary op a b => return (fr.mem, ← (a.eval fr.env).binary op (b.eval fr.env))
  | .icmp p a b => return (fr.mem, ← (a.eval fr.env).icmp p (b.eval fr.env))
  | .select c a b => return (fr.mem, ← (c.eval fr.env).select (a.eval fr.env) (b.eval fr.env))
  | .zext w a => return (fr.mem, ← (a.eval fr.env).ext (fun w' v => v.setWidth w') w)
  | .sext w a => return (fr.mem, ← (a.eval fr.env).ext (fun w' v => v.signExtend w') w)
  | .gep scale base idx =>
    return (fr.mem, ← (base.eval fr.env).gep (h.offset fr.mem) scale (idx.eval fr.env))
  | .load ty p => do
    let addr ← (p.eval fr.env).address
    return (fr.mem, ← h.load fr.mem ty addr)
  | .call f args => do
    match ← h.call fr.mem f (args.map (·.eval fr.env)) with
    | (mem, some v) => return (mem, v)
    | (_, none) => throw .type

def Inst.exec (h : Host P F σ) (fr : Frame P σ) : Inst F → Except (Fault P) (Frame P σ)
  | .assign dest rhs => do
    let (mem, v) ← rhs.eval h fr
    return ⟨Function.update fr.env dest v, mem⟩
  | .store v p => do
    let addr ← (p.eval fr.env).address
    return { fr with mem := ← h.store fr.mem addr (v.eval fr.env) }
  | .invoke f args => do
    let (mem, _) ← h.call fr.mem f (args.map (·.eval fr.env))
    return { fr with mem }
  | .assume c =>
    match c.eval fr.env with
    | .int 1 (some b) => if b = 1 then return fr else throw .assumption
    | .int _ none => throw .poison
    | _ => throw .type

/-- Execute straight-line code from the first instruction to the last. -/
def exec (h : Host P F σ) : List (Inst F) → Frame P σ → Except (Fault P) (Frame P σ)
  | [], fr => .ok fr
  | i :: code, fr => i.exec h fr >>= exec h code

@[simp] theorem exec_nil (h : Host P F σ) (fr : Frame P σ) : exec h [] fr = .ok fr := rfl

@[simp] theorem ok_bind {ε α β : Type} (a : α) (f : α → Except ε β) : (.ok a >>= f) = f a := rfl

@[simp] theorem error_bind {ε α β : Type} (e : ε) (f : α → Except ε β) :
    ((.error e : Except ε α) >>= f) = .error e := rfl

@[simp] theorem ok_map {ε α β : Type} (f : α → β) (a : α) :
    (.ok a : Except ε α).map f = .ok (f a) := rfl

@[simp] theorem error_map {ε α β : Type} (f : α → β) (e : ε) :
    (.error e : Except ε α).map f = .error e := rfl

theorem map_eq_ok {ε α β : Type} {f : α → β} {x : Except ε α} {b : β} :
    x.map f = .ok b ↔ ∃ a, x = .ok a ∧ b = f a := by
  cases x with
  | error e => simp
  | ok a => simp [eq_comm]

theorem bind_eq_ok {ε α β : Type} {f : α → Except ε β} {x : Except ε α} {b : β} :
    x >>= f = .ok b ↔ ∃ a, x = .ok a ∧ f a = .ok b := by
  cases x with
  | error e => simp
  | ok a => simp

theorem map_eq_error {ε α β : Type} {f : α → β} {x : Except ε α} {e : ε} :
    x.map f = .error e ↔ x = .error e := by
  cases x with
  | error e => simp
  | ok a => simp

theorem bind_eq_error {ε α β : Type} {f : α → Except ε β} {x : Except ε α} {e : ε} :
    x >>= f = .error e ↔ x = .error e ∨ ∃ a, x = .ok a ∧ f a = .error e := by
  cases x with
  | error e => simp
  | ok a => simp

theorem exec_assign (h : Host P F σ) (fr : Frame P σ) (dest : Nat) (rhs : Rhs F) :
    (Inst.assign dest rhs).exec h fr =
      rhs.eval h fr >>= fun x => .ok ⟨Function.update fr.env dest x.2, x.1⟩ := rfl

/-- An assumption that holds does nothing. -/
theorem exec_assume (h : Host P F σ) {fr : Frame P σ} {c : Operand}
    (hc : c.eval fr.env = .int 1 (some (BitVec.ofBool true))) :
    (Inst.assume c : Inst F).exec h fr = .ok fr := by
  rw [Inst.exec, hc]
  rfl

/-- An assumption that fails is undefined behaviour. -/
theorem exec_assume_false (h : Host P F σ) {fr : Frame P σ} {c : Operand}
    (hc : c.eval fr.env = .int 1 (some (BitVec.ofBool false))) :
    (Inst.assume c : Inst F).exec h fr = .error .assumption := by
  rw [Inst.exec, hc]
  rfl

/-- Code runs in sequence: a concatenation is the first part and then the second. -/
theorem exec_append (h : Host P F σ) (xs ys : List (Inst F)) (fr : Frame P σ) :
    exec h (xs ++ ys) fr = exec h xs fr >>= exec h ys := by
  induction xs generalizing fr with
  | nil => rfl
  | cons i xs ih =>
    rw [List.cons_append, exec, exec, bind_assoc]
    congr 1
    funext fr'
    exact ih fr'

@[simp] theorem eval_const (env : Nat → Val P) (w : Nat) (v : BitVec w) :
    (Operand.const w v).eval env = .int w (some v) := rfl

@[simp] theorem eval_local (env : Nat → Val P) (n : Nat) : (Operand.local n).eval env = env n := rfl

section Values
variable {w : Nat} (a b : Option (BitVec w))

@[simp] theorem binary_int (op : BinOp) :
    (Val.int w a : Val P).binary op (.int w b) =
      .ok (.int w (a.bind fun x => b.bind fun y => op.eval x y)) := by
  simp [Val.binary]

@[simp] theorem icmp_int (p : Pred) :
    (Val.int w a : Val P).icmp p (.int w b) =
      .ok (.int 1 (a.bind fun x => b.map fun y => BitVec.ofBool (p.holds x y))) := by
  simp [Val.icmp]

@[simp] theorem ext_int (f : {w : Nat} → (w' : Nat) → BitVec w → BitVec w') (w' : Nat) :
    (Val.int w a : Val P).ext f w' = .ok (.int w' (a.map (f w'))) := rfl

@[simp] theorem gep_ptr (offset : P → Int → Option P) (scale : Nat) (p : P) (i : BitVec w) :
    (Val.ptr (some p)).gep offset scale (.int w (some i)) =
      .ok (.ptr (offset p (scale * i.toInt))) := rfl

@[simp] theorem address_ptr (p : P) : (Val.ptr (some p)).address = .ok p := rfl

/-- A select of words: poison when the condition is, else the chosen word. -/
@[simp] theorem select_int (c : Option (BitVec 1)) :
    (Val.int 1 c : Val P).select (.int w a) (.int w b) =
      .ok (.int w (c.bind fun c => if c = 1#1 then a else b)) := by
  cases c with
  | none => rfl
  | some c =>
    rw [Val.select, Option.bind_some]
    by_cases h : c = 1#1 <;> simp [h]

@[simp] theorem ofBool_eq_one (c : Bool) : BitVec.ofBool c = 1#1 ↔ c = true := by
  cases c <;> decide

@[simp] theorem bind_some_fun {α β : Type} (o : Option α) (f : α → β) :
    (o.bind fun x => some (f x)) = o.map f := Option.map_eq_bind.symm

@[simp] theorem eval_add (x y : BitVec w) : BinOp.add.eval x y = some (x + y) := rfl

@[simp] theorem eval_and (x y : BitVec w) : BinOp.and.eval x y = some (x &&& y) := rfl

/-- An add of small numbers keeps both promises. -/
theorem eval_addNUWNSW (x y : BitVec (w + 1)) (h : x.toNat + y.toNat < 2 ^ w) :
    BinOp.addNUWNSW.eval x y = some (x + y) := by
  have hx : x.toInt = x.toNat := BitVec.toInt_eq_toNat_of_lt (by rw [Nat.pow_succ]; omega)
  have hy : y.toInt = y.toNat := BitVec.toInt_eq_toNat_of_lt (by rw [Nat.pow_succ]; omega)
  have hu : x.uaddOverflow y = false := by
    rw [BitVec.uaddOverflow, decide_eq_false_iff_not, Nat.pow_succ]
    omega
  have hs : x.saddOverflow y = false := by
    rw [BitVec.saddOverflow, hx, hy, Nat.add_sub_cancel, Bool.or_eq_false_iff,
      decide_eq_false_iff_not, decide_eq_false_iff_not]
    have hcast : ((2 ^ w : Nat) : Int) = 2 ^ w := Int.natCast_pow 2 w
    omega
  rw [BinOp.eval, hu, hs]
  rfl

end Values

end DBTranslator.Lib.Ssa
