import DBTranslator.Lib.SsaFunc

/-! Linking: a call of straight-line code runs a function of several blocks on a part of the host. -/
namespace DBTranslator.Lib.Ssa

variable {P F σ τ : Type}

/-- A function that has returned in some number of blocks is done with the same result in any larger one. -/
theorem Func.run_mono {h : Host P F σ} {f : Func F} {c : Config P σ} {n n' : Nat}
    {r : Except (Fault P) (σ × Option (Val P))} (hr : f.run h n c = some r) (hle : n ≤ n') :
    f.run h n' c = some r := by
  induction n generalizing n' c with
  | zero => cases hr
  | succ n ih =>
    obtain ⟨n', rfl⟩ : ∃ k, n' = k + 1 := ⟨n' - 1, by omega⟩
    rw [run] at hr ⊢
    cases hB : f.blocks c.label with
    | none =>
      rw [hB] at hr
      exact hr
    | some B =>
      rw [hB] at hr
      dsimp only at hr ⊢
      cases hrun : B.run h c.pred c.frame with
      | error e =>
        rw [hrun] at hr
        exact hr
      | ok x =>
        obtain ⟨fr, exit⟩ := x
        rw [hrun] at hr
        cases exit with
        | jump label => exact ih hr (Nat.le_of_succ_le_succ hle)
        | ret v => exact hr

/-- The functions that calls run, the host that they run on, and the part of the memory that it is. -/
structure Linkage (P F σ τ : Type) where
  func : F → Func Empty
  host : Host P Empty τ
  get : σ → τ
  set : σ → τ → σ

namespace Linkage
variable (L : Linkage P F σ τ)

/-- A call, given up after a number of blocks. -/
def call (rounds : Nat) (mem : σ) (f : F) (args : List (Val P)) : Except (Fault P) (σ × Option (Val P)) :=
  if args.map Val.ty = (L.func f).params then
    match (L.func f).run L.host rounds ((L.func f).start args (L.get mem)) with
    | some r => r.map fun x => (L.set mem x.1, x.2)
    | none => .error .unfinished
  else .error .type

variable {L} {h : Host P F σ} {mem : σ} {f : F} {args : List (Val P)}

theorem call_of_returns {r : Except (Fault P) (τ × Option (Val P))}
    (hr : (L.func f).Returns L.host args (L.get mem) r) :
    ∃ n, ∀ rounds, n ≤ rounds → L.call rounds mem f args = r.map fun x => (L.set mem x.1, x.2) := by
  obtain ⟨htypes, n, hn⟩ := hr
  refine ⟨n, fun rounds hle => ?_⟩
  rw [call, if_pos htypes, Func.run_mono hn hle]

theorem call_mono {n n' : Nat} {x : σ × Option (Val P)} (hx : L.call n mem f args = .ok x) (hle : n ≤ n') :
    L.call n' mem f args = .ok x := by
  unfold call at hx ⊢
  split at hx
  · rename_i htypes
    rw [if_pos htypes]
    cases hr : (L.func f).run L.host n ((L.func f).start args (L.get mem)) with
    | none =>
      rw [hr] at hx
      cases hx
    | some r =>
      rw [hr] at hx
      rw [Func.run_mono hr hle]
      exact hx
  · cases hx

/-- Where the host lets a call succeed, the call of the function succeeds in time. -/
def Implements (L : Linkage P F σ τ) (h : Host P F σ) : Prop :=
  ∀ mem f args x, h.call mem f args = .ok x → ∃ n, ∀ rounds, n ≤ rounds → L.call rounds mem f args = .ok x

end Linkage

/-- The host with the calls linked to functions. -/
def Host.link (h : Host P F σ) (L : Linkage P F σ τ) (rounds : Nat) : Host P F σ :=
  { h with call := L.call rounds }

section Exec
variable {L : Linkage P F σ τ} {h : Host P F σ} {fr fr' : Frame P σ}

private theorem assign_link (hL : L.Implements h) {dest : Nat} {rhs : Rhs F}
    (hrun : (Inst.assign dest rhs).exec h fr = .ok fr') :
    ∃ n, ∀ rounds, n ≤ rounds → (Inst.assign dest rhs).exec (h.link L rounds) fr = .ok fr' := by
  cases rhs with
  | call f args =>
    obtain ⟨⟨mem, v⟩, hv, hfr⟩ := bind_eq_ok.mp hrun
    obtain ⟨⟨mem', v'⟩, hcall, hrest⟩ := bind_eq_ok.mp hv
    obtain ⟨n, hn⟩ := hL _ _ _ _ hcall
    refine ⟨n, fun rounds hle => ?_⟩
    have hlinked : (h.link L rounds).call fr.mem f (args.map (·.eval fr.env)) = .ok (mem', v') := hn rounds hle
    rw [Inst.exec, Rhs.eval, hlinked, ok_bind, hrest]
    exact hfr
  | _ => exact ⟨0, fun _ _ => hrun⟩

private theorem inst_link (hL : L.Implements h) {i : Inst F} (hrun : i.exec h fr = .ok fr') :
    ∃ n, ∀ rounds, n ≤ rounds → i.exec (h.link L rounds) fr = .ok fr' := by
  cases i with
  | assign dest rhs => exact assign_link hL hrun
  | invoke f args =>
    obtain ⟨⟨mem, v⟩, hcall, hfr⟩ := bind_eq_ok.mp hrun
    obtain ⟨n, hn⟩ := hL _ _ _ _ hcall
    refine ⟨n, fun rounds hle => ?_⟩
    have hlinked : (h.link L rounds).call fr.mem f (args.map (·.eval fr.env)) = .ok (mem, v) := hn rounds hle
    rw [Inst.exec, hlinked]
    exact hfr
  | _ => exact ⟨0, fun _ _ => hrun⟩

/-- Code that runs to its end on the host does so linked, once its calls are given enough blocks. -/
theorem exec_link (hL : L.Implements h) {code : List (Inst F)} (hrun : exec h code fr = .ok fr') :
    ∃ n, ∀ rounds, n ≤ rounds → exec (h.link L rounds) code fr = .ok fr' := by
  induction code generalizing fr with
  | nil => exact ⟨0, fun _ _ => hrun⟩
  | cons i code ih =>
    obtain ⟨fr₁, hi, hcode⟩ := bind_eq_ok.mp hrun
    obtain ⟨n, hn⟩ := inst_link hL hi
    obtain ⟨n', hn'⟩ := ih hcode
    refine ⟨max n n', fun rounds hle => ?_⟩
    rw [exec, hn rounds (Nat.le_trans (Nat.le_max_left n n') hle), ok_bind]
    exact hn' rounds (Nat.le_trans (Nat.le_max_right n n') hle)

/-- However many blocks its calls are given, linked code that runs to its end has one result. -/
theorem exec_link_unique {code : List (Inst F)} {n n' : Nat} {fr₁ fr₂ : Frame P σ}
    (h₁ : exec (h.link L n) code fr = .ok fr₁) (h₂ : exec (h.link L n') code fr = .ok fr₂) : fr₁ = fr₂ := by
  have himpl (n : Nat) : L.Implements (h.link L n) :=
    fun _ _ _ _ hx => ⟨n, fun rounds hle => Linkage.call_mono hx hle⟩
  obtain ⟨k₁, hk₁⟩ := exec_link (himpl n) h₁
  obtain ⟨k₂, hk₂⟩ := exec_link (himpl n') h₂
  exact Except.ok.inj ((hk₁ _ (Nat.le_max_left k₁ k₂)).symm.trans (hk₂ _ (Nat.le_max_right k₁ k₂)))

end Exec

end DBTranslator.Lib.Ssa
