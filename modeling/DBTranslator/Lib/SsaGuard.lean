import DBTranslator.Lib.SsaBuilder
import DBTranslator.Lib.SsaSimulation

/-! Hosts that check every call before they make it. -/
namespace DBTranslator.Lib.Ssa

variable {P F σ : Type}

def Host.guard (h : Host P F σ) (check : σ → F → List (Val P) → Except (Fault P) Unit) : Host P F σ :=
  { h with call := fun mem f args => check mem f args >>= fun _ => h.call mem f args }

section Guard
variable (h : Host P F σ) (check : σ → F → List (Val P) → Except (Fault P) Unit)

@[simp] theorem guard_offset : (h.guard check).offset = h.offset := rfl
@[simp] theorem guard_load : (h.guard check).load = h.load := rfl
@[simp] theorem guard_store : (h.guard check).store = h.store := rfl
@[simp] theorem guard_call (mem : σ) (f : F) (args : List (Val P)) :
    (h.guard check).call mem f args = check mem f args >>= fun _ => h.call mem f args := rfl

theorem guard_pass : h.guard (fun _ _ _ => .ok ()) = h := rfl

/-- A check only takes runs away. -/
private theorem guard_same : SameHost Eq (h.guard check) h := by
  refine ⟨⟨?_, ?_, ?_⟩, ?_⟩
  · rintro m n rfl
    rfl
  · rintro m n ty p v rfl hload
    exact hload
  · rintro m n p v m' rfl hstore
    exact ⟨m', hstore, rfl⟩
  · rintro m n f args m' v rfl hcall
    obtain ⟨-, -, hcall⟩ := bind_eq_ok.mp hcall
    exact ⟨m', hcall, rfl⟩

theorem exec_of_guard {code : List (Inst F)} {fr fr' : Frame P σ} (hrun : exec (h.guard check) code fr = .ok fr') :
    exec h code fr = .ok fr' := by
  obtain ⟨mem, hmem, rfl⟩ := (guard_same h check).exec_same rfl hrun
  exact hmem

end Guard

/-- An instruction that makes no call. -/
def Inst.callless : Inst F → Bool
  | .assign _ (.call _ _) | .invoke _ _ => false
  | _ => true

section Callless
variable {h : Host P F σ} {check : σ → F → List (Val P) → Except (Fault P) Unit}

theorem exec_guard_of_callless {code : List (Inst F)} (hcode : code.all Inst.callless = true) (fr : Frame P σ) :
    exec (h.guard check) code fr = exec h code fr := by
  induction code generalizing fr with
  | nil => rfl
  | cons i code ih =>
    obtain ⟨hi, hcode⟩ := Bool.and_eq_true_iff.mp hcode
    have hinst : i.exec (h.guard check) fr = i.exec h fr := by
      cases i with
      | assign dest rhs =>
        cases rhs with
        | call f args => cases hi
        | _ => rfl
      | invoke f args => cases hi
      | _ => rfl
    rw [exec, exec, hinst]
    congr 1
    funext fr'
    exact ih hcode fr'

theorem Builder.run_guard {α : Type} {b : Builder F α} {n : Nat} (hcode : (b n).2.2.all Inst.callless = true)
    (fr : Frame P σ) : b.run (h.guard check) n fr = b.run h n fr := by
  rw [run, run, exec_guard_of_callless hcode]

/-- What code without calls does is the same with any check. -/
theorem Builder.Simulates.guard {arg : Val P} {b : Builder F Unit} {eff : σ → Except (Fault P) σ}
    (hb : Simulates h arg b eff) (hcode : ∀ n, (b n).2.2.all Inst.callless = true) :
    Simulates (h.guard check) arg b eff := by
  intro n env mem hn harg
  obtain ⟨n', env', hn', harg', hrun⟩ := hb n env mem hn harg
  refine ⟨n', env', hn', harg', ?_⟩
  rw [← hrun, run_guard (hcode n)]

end Callless

end DBTranslator.Lib.Ssa
