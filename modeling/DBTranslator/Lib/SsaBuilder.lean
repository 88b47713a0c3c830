import DBTranslator.Lib.Ssa

/-! Building straight-line code with fresh SSA names, and what built code computes. -/
namespace DBTranslator.Lib.Ssa

/-- A builder takes the next free SSA number and gives a result, the next number left
free and the code it appended. It cannot inspect code emitted before it. -/
def Builder (F α : Type) := Nat → α × Nat × List (Inst F)

namespace Builder
variable {P F σ α β : Type}

instance : Monad (Builder F) where
  pure a := fun n => (a, n, [])
  bind b f := fun n =>
    let (a, n', xs) := b n
    let (c, n'', ys) := f a n'
    (c, n'', xs ++ ys)

/-- Append an instruction with a result. -/
def emit (rhs : Rhs F) : Builder F Operand := fun n => (.local n, n + 1, [.assign n rhs])

/-- Append an instruction without a result. -/
def emitVoid (i : Inst F) : Builder F Unit := fun n => ((), n, [i])

def code (b : Builder F α) (n : Nat) : List (Inst F) := (b n).2.2

def getInt32 (v : BitVec 32) : Operand := .const 32 v
def createBinary (op : BinOp) (a b : Operand) : Builder F Operand := emit (.binary op a b)
def createICmp (p : Pred) (a b : Operand) : Builder F Operand := emit (.icmp p a b)
def createSelect (c a b : Operand) : Builder F Operand := emit (.select c a b)
def createInBoundsGEP (scale : Nat) (base idx : Operand) : Builder F Operand :=
  emit (.gep scale base idx)
def createLoad (ty : Ty) (p : Operand) : Builder F Operand := emit (.load ty p)
def createStore (v p : Operand) : Builder F Unit := emitVoid (.store v p)
def createCall (f : F) (args : List Operand) : Builder F Operand := emit (.call f args)
def createCallVoid (f : F) (args : List Operand) : Builder F Unit := emitVoid (.invoke f args)

/-- Extending a value of width `w` to its own width is the value itself. -/
def createSExt (w : Nat) (a : Operand) (w' : Nat) : Builder F Operand :=
  if w = w' then pure a else emit (.sext w' a)

def createZExt (w : Nat) (a : Operand) (w' : Nat) : Builder F Operand :=
  if w = w' then pure a else emit (.zext w' a)

@[simp] theorem createSExt_self (w : Nat) (a : Operand) :
    (createSExt w a w : Builder F Operand) = pure a := if_pos rfl

@[simp] theorem createZExt_self (w : Nat) (a : Operand) :
    (createZExt w a w : Builder F Operand) = pure a := if_pos rfl

/-- Execute what a builder appends, from a frame whose next free number is `n`. -/
def run (h : Host P F σ) (b : Builder F α) (n : Nat) (fr : Frame P σ) :
    Except (Fault P) (α × Nat × Frame P σ) := do
  let fr' ← exec h (b n).2.2 fr
  return ((b n).1, (b n).2.1, fr')

theorem exec_code (h : Host P F σ) (b : Builder F α) (n : Nat) (fr : Frame P σ) :
    exec h (b.code n) fr = (b.run h n fr).map (·.2.2) := by
  unfold run code
  cases exec h (b n).2.2 fr <;> rfl

@[simp] theorem run_pure (h : Host P F σ) (a : α) (n : Nat) (fr : Frame P σ) :
    (pure a : Builder F α).run h n fr = .ok (a, n, fr) := rfl

/-- The sequencing rule: built code runs as the builders are written. -/
@[simp] theorem run_bind (h : Host P F σ) (b : Builder F α) (f : α → Builder F β) (n : Nat)
    (fr : Frame P σ) :
    (b >>= f).run h n fr = b.run h n fr >>= fun r => (f r.1).run h r.2.1 r.2.2 := by
  have hcode : ((b >>= f) n).2.2 = (b n).2.2 ++ (f (b n).1 (b n).2.1).2.2 := rfl
  unfold run
  rw [hcode, exec_append, bind_assoc, bind_assoc]
  rfl

@[simp] theorem run_emit (h : Host P F σ) (rhs : Rhs F) (n : Nat) (fr : Frame P σ) :
    (emit rhs).run h n fr = rhs.eval h fr >>= fun r =>
      .ok (.local n, n + 1, ⟨Function.update fr.env n r.2, r.1⟩) := by
  show (Inst.exec h fr (.assign n rhs) >>= exec h [] >>= fun _ => _) = _
  rw [Inst.exec]
  cases hv : rhs.eval h fr <;> rfl

@[simp] theorem run_emitVoid (h : Host P F σ) (i : Inst F) (n : Nat) (fr : Frame P σ) :
    (emitVoid i : Builder F Unit).run h n fr = i.exec h fr >>= fun fr' => .ok ((), n, fr') := by
  show (Inst.exec h fr i >>= exec h [] >>= fun _ => _) = _
  cases i.exec h fr <;> rfl

section RunRules
variable (h : Host P F σ) (n : Nat) (env : Nat → Val P) (mem : σ) (a b : Operand)

private theorem run_emit_pure (rhs : Rhs F) (v : Except (Fault P) (Val P))
    (hv : rhs.eval h ⟨env, mem⟩ = v >>= fun v => .ok (mem, v)) :
    (emit rhs).run h n ⟨env, mem⟩ = v >>= fun v =>
      .ok (.local n, n + 1, ⟨Function.update env n v, mem⟩) := by
  rw [run_emit, hv]
  cases v <;> rfl

@[simp] theorem run_createBinary (op : BinOp) :
    (createBinary op a b : Builder F Operand).run h n ⟨env, mem⟩ =
      (a.eval env).binary op (b.eval env) >>= fun v =>
        .ok (.local n, n + 1, ⟨Function.update env n v, mem⟩) :=
  run_emit_pure h n env mem _ _ rfl

@[simp] theorem run_createICmp (p : Pred) :
    (createICmp p a b : Builder F Operand).run h n ⟨env, mem⟩ =
      (a.eval env).icmp p (b.eval env) >>= fun v =>
        .ok (.local n, n + 1, ⟨Function.update env n v, mem⟩) :=
  run_emit_pure h n env mem _ _ rfl

@[simp] theorem run_createSelect (c : Operand) :
    (createSelect c a b : Builder F Operand).run h n ⟨env, mem⟩ =
      (c.eval env).select (a.eval env) (b.eval env) >>= fun v =>
        .ok (.local n, n + 1, ⟨Function.update env n v, mem⟩) :=
  run_emit_pure h n env mem _ _ rfl

@[simp] theorem run_createInBoundsGEP (scale : Nat) :
    (createInBoundsGEP scale a b : Builder F Operand).run h n ⟨env, mem⟩ =
      (a.eval env).gep (h.offset mem) scale (b.eval env) >>= fun v =>
        .ok (.local n, n + 1, ⟨Function.update env n v, mem⟩) :=
  run_emit_pure h n env mem _ _ rfl

@[simp] theorem run_createLoad (ty : Ty) :
    (createLoad ty a : Builder F Operand).run h n ⟨env, mem⟩ =
      (a.eval env).address >>= fun p => h.load mem ty p >>= fun v =>
        .ok (.local n, n + 1, ⟨Function.update env n v, mem⟩) := by
  rw [createLoad, run_emit, Rhs.eval]
  cases (a.eval env).address with
  | error e => rfl
  | ok p => dsimp only [ok_bind]; cases h.load mem ty p <;> rfl

@[simp] theorem run_createStore :
    (createStore a b : Builder F Unit).run h n ⟨env, mem⟩ =
      (b.eval env).address >>= fun p => h.store mem p (a.eval env) >>= fun mem' =>
        .ok ((), n, ⟨env, mem'⟩) := by
  rw [createStore, run_emitVoid, Inst.exec]
  cases (b.eval env).address with
  | error e => rfl
  | ok p => dsimp only [ok_bind]; cases h.store mem p (a.eval env) <;> rfl

@[simp] theorem run_createCall (f : F) (args : List Operand) :
    (createCall f args : Builder F Operand).run h n ⟨env, mem⟩ =
      h.call mem f (args.map (·.eval env)) >>= fun r =>
        match r.2 with
        | some v => .ok (.local n, n + 1, ⟨Function.update env n v, r.1⟩)
        | none => .error .type := by
  rw [createCall, run_emit, Rhs.eval]
  cases h.call mem f (args.map (·.eval env)) with
  | error e => rfl
  | ok r => rcases r with ⟨mem', _ | v⟩ <;> rfl

@[simp] theorem run_createCallVoid (f : F) (args : List Operand) :
    (createCallVoid f args : Builder F Unit).run h n ⟨env, mem⟩ =
      h.call mem f (args.map (·.eval env)) >>= fun r => .ok ((), n, ⟨env, r.1⟩) := by
  rw [createCallVoid, run_emitVoid, Inst.exec]
  cases h.call mem f (args.map (·.eval env)) <;> rfl

@[simp] theorem run_createSExt (w w' : Nat) (hw : w ≠ w') :
    (createSExt w a w' : Builder F Operand).run h n ⟨env, mem⟩ =
      (a.eval env).ext (fun w' v => v.signExtend w') w' >>= fun v =>
        .ok (.local n, n + 1, ⟨Function.update env n v, mem⟩) := by
  rw [createSExt, if_neg hw]
  exact run_emit_pure h n env mem _ _ rfl

@[simp] theorem run_createZExt (w w' : Nat) (hw : w ≠ w') :
    (createZExt w a w' : Builder F Operand).run h n ⟨env, mem⟩ =
      (a.eval env).ext (fun w' v => v.setWidth w') w' >>= fun v =>
        .ok (.local n, n + 1, ⟨Function.update env n v, mem⟩) := by
  rw [createZExt, if_neg hw]
  exact run_emit_pure h n env mem _ _ rfl

end RunRules

/-- A builder simulates an effect on the host memory when its code, wherever it is placed
after the function argument `%0`, has that effect and keeps `%0`. -/
def Simulates (h : Host P F σ) (arg : Val P) (b : Builder F Unit)
    (eff : σ → Except (Fault P) σ) : Prop :=
  ∀ n env mem, 0 < n → env 0 = arg → ∃ n' env', 0 < n' ∧ env' 0 = arg ∧
    b.run h n ⟨env, mem⟩ = (eff mem).map fun mem' => ((), n', ⟨env', mem'⟩)

section Rules
variable {h : Host P F σ} {arg : Val P}

/-- It is enough to execute the built code and compare the memory it leaves. -/
theorem Simulates.of_run {b : Builder F Unit} {eff : σ → Except (Fault P) σ}
    (H : ∀ n env mem, env 0 = arg → match b.run h (n + 1) ⟨env, mem⟩ with
      | .ok r => r.2.2.env 0 = arg ∧ 0 < r.2.1 ∧ eff mem = .ok r.2.2.mem
      | .error e => eff mem = .error e) : Simulates h arg b eff := by
  intro n env mem hn harg
  obtain ⟨n, rfl⟩ : ∃ m, n = m + 1 := ⟨n - 1, by omega⟩
  have hrun := H n env mem harg
  cases hr : b.run h (n + 1) ⟨env, mem⟩ with
  | error e =>
    rw [hr] at hrun
    exact ⟨n + 1, env, hn, harg, by rw [hrun]; rfl⟩
  | ok r =>
    rw [hr] at hrun
    obtain ⟨harg', hn', heff⟩ := hrun
    exact ⟨r.2.1, r.2.2.env, hn', harg', by rw [heff]; rfl⟩

/-- Building nothing simulates doing nothing. -/
theorem Simulates.nil : Simulates h arg (pure ()) .ok := by
  intro n env mem hn harg
  exact ⟨n, env, hn, harg, rfl⟩

/-- Effects compose in the order in which their builders run. -/
theorem Simulates.seq {b c : Builder F Unit} {f g : σ → Except (Fault P) σ}
    (hb : Simulates h arg b f) (hc : Simulates h arg c g) :
    Simulates h arg (b >>= fun _ => c) (fun mem => f mem >>= g) := by
  intro n env mem hn harg
  obtain ⟨n', env', hn', harg', hrun⟩ := hb n env mem hn harg
  rw [run_bind, hrun]
  dsimp only
  cases f mem with
  | error e => exact ⟨n', env', hn', harg', rfl⟩
  | ok mem' =>
    obtain ⟨n'', env'', hn'', harg'', hrun'⟩ := hc n' env' mem' hn' harg'
    exact ⟨n'', env'', hn'', harg'', hrun'⟩

/-- The memory left by the code of a builder is the effect it simulates. -/
theorem Simulates.exec_mem {b : Builder F Unit} {f : σ → Except (Fault P) σ}
    (hb : Simulates h arg b f) {n : Nat} {env : Nat → Val P} (hn : 0 < n) (harg : env 0 = arg)
    (mem : σ) : (exec h (b.code n) ⟨env, mem⟩).map Frame.mem = f mem := by
  obtain ⟨n', env', _, _, hrun⟩ := hb n env mem hn harg
  rw [exec_code, hrun]
  cases f mem <;> rfl

end Rules
end Builder
end DBTranslator.Lib.Ssa
