import DBTranslator.Lib.Ssa

/-! Functions of several basic blocks over the straight-line code, with phis and branches, run
block by block. -/
namespace DBTranslator.Lib.Ssa

/-- A value chosen by the block that control comes from. -/
structure Phi where
  dest : Nat
  incoming : List (Nat × Operand)

inductive Terminator where
  | br (label : Nat)
  | condBr (c : Operand) (ifTrue ifFalse : Nat)
  | ret (v : Option Operand)

structure BasicBlock (F : Type) where
  phis : List Phi
  code : List (Inst F)
  exit : Terminator

/-- The parameter types of a function and its blocks by their labels. Parameters are the first
values, numbered from 0. -/
structure Func (F : Type) where
  params : List Ty
  blocks : Nat → Option (BasicBlock F)

/-- Control at the start of a block, with the label of the block it comes from. -/
structure Config (P σ : Type) where
  pred : Nat
  label : Nat
  frame : Frame P σ

/-- Where a block ends: in another block or with the result of the function. -/
inductive Exit (P : Type) where
  | jump (label : Nat)
  | ret (v : Option (Val P))

variable {P F σ : Type}

def Val.ty : Val P → Ty
  | .int w _ => .int w
  | .ptr _ => .ptr

def Phi.eval (env : Nat → Val P) (pred : Nat) (φ : Phi) : Except (Fault P) (Val P) :=
  match φ.incoming.lookup pred with
  | some v => .ok (v.eval env)
  | none => .error .type

/-- All phis of a block see the values from before the block. -/
def evalPhis (env : Nat → Val P) (pred : Nat) : List Phi → Except (Fault P) (Nat → Val P)
  | [] => .ok env
  | φ :: phis => do
    let v ← φ.eval env pred
    return Function.update (← evalPhis env pred phis) φ.dest v

/-- Control that depends on poison is undefined behaviour. -/
def Terminator.eval (env : Nat → Val P) : Terminator → Except (Fault P) (Exit P)
  | .br label => .ok (.jump label)
  | .condBr c ifTrue ifFalse =>
    match c.eval env with
    | .int 1 (some b) => .ok (.jump (if b = 1#1 then ifTrue else ifFalse))
    | .int _ none => .error .poison
    | _ => .error .type
  | .ret none => .ok (.ret none)
  | .ret (some v) => .ok (.ret (some (v.eval env)))

theorem condBr_eval {env : Nat → Val P} {c : Operand} {b : Bool}
    (hc : c.eval env = .int 1 (some (BitVec.ofBool b))) (ifTrue ifFalse : Nat) :
    (Terminator.condBr c ifTrue ifFalse).eval env = .ok (.jump (if b then ifTrue else ifFalse)) := by
  rw [Terminator.eval, hc]
  cases b <;> rfl

/-- Run one block. -/
def BasicBlock.run (h : Host P F σ) (B : BasicBlock F) (pred : Nat) (fr : Frame P σ) :
    Except (Fault P) (Frame P σ × Exit P) := do
  let env ← evalPhis fr.env pred B.phis
  let fr' ← exec h B.code ⟨env, fr.mem⟩
  return (fr', ← B.exit.eval fr'.env)

namespace Func

/-- Run at most the given number of blocks; `none` when the function has not returned by then. -/
def run (h : Host P F σ) (f : Func F) : Nat → Config P σ →
    Option (Except (Fault P) (σ × Option (Val P)))
  | 0, _ => none
  | rounds + 1, c =>
    match f.blocks c.label with
    | none => some (.error .type)
    | some B =>
      match B.run h c.pred c.frame with
      | .error e => some (.error e)
      | .ok (fr, .jump label) => run h f rounds ⟨c.label, label, fr⟩
      | .ok (fr, .ret v) => some (.ok (fr.mem, v))

/-- The function is done with its result, or with its fault, after finitely many blocks. -/
def Ends (h : Host P F σ) (f : Func F) (c : Config P σ)
    (r : Except (Fault P) (σ × Option (Val P))) : Prop := ∃ rounds, run h f rounds c = some r

/-- The first block has the number after the parameters. -/
def start (f : Func F) (args : List (Val P)) (mem : σ) : Config P σ :=
  ⟨f.params.length, f.params.length, ⟨fun n => args.getD n (.ptr none), mem⟩⟩

/-- A call with arguments of the right types is done with a result. -/
def Returns (h : Host P F σ) (f : Func F) (args : List (Val P)) (mem : σ)
    (r : Except (Fault P) (σ × Option (Val P))) : Prop :=
  args.map Val.ty = f.params ∧ f.Ends h (f.start args mem) r

variable {h : Host P F σ} {f : Func F} {c : Config P σ} {B : BasicBlock F}

theorem ends_of_jump {fr : Frame P σ} {label : Nat} {r : Except (Fault P) (σ × Option (Val P))}
    (hB : f.blocks c.label = some B) (hrun : B.run h c.pred c.frame = .ok (fr, .jump label))
    (hrest : f.Ends h ⟨c.label, label, fr⟩ r) : f.Ends h c r := by
  obtain ⟨rounds, hrounds⟩ := hrest
  refine ⟨rounds + 1, ?_⟩
  rw [run, hB]
  dsimp only
  rw [hrun]
  exact hrounds

/-- The last block of a run. -/
theorem ends_of_ret {r : Except (Fault P) (Frame P σ × Option (Val P))}
    (hB : f.blocks c.label = some B)
    (hrun : B.run h c.pred c.frame = r.map fun x => (x.1, .ret x.2)) :
    f.Ends h c (r.map fun x => (x.1.mem, x.2)) := by
  refine ⟨1, ?_⟩
  rw [run, hB]
  dsimp only
  rw [hrun]
  cases r <;> rfl

/-- A function has one result, however long it is given. -/
theorem Ends.unique {r r' : Except (Fault P) (σ × Option (Val P))} (hr : f.Ends h c r)
    (hr' : f.Ends h c r') : r = r' := by
  obtain ⟨n, hn⟩ := hr
  obtain ⟨n', hn'⟩ := hr'
  induction n generalizing n' c with
  | zero => cases hn
  | succ n ih =>
    cases n' with
    | zero => cases hn'
    | succ n' =>
      rw [run] at hn hn'
      cases hB : f.blocks c.label with
      | none =>
        rw [hB] at hn hn'
        exact Option.some.inj (hn.symm.trans hn')
      | some B =>
        rw [hB] at hn hn'
        dsimp only at hn hn'
        cases hrun : B.run h c.pred c.frame with
        | error e =>
          rw [hrun] at hn hn'
          exact Option.some.inj (hn.symm.trans hn')
        | ok x =>
          obtain ⟨fr, exit⟩ := x
          rw [hrun] at hn hn'
          cases exit with
          | jump label => exact ih hn n' hn'
          | ret v => exact Option.some.inj (hn.symm.trans hn')

end Func

end DBTranslator.Lib.Ssa
