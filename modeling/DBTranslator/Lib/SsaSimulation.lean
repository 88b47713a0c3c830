import DBTranslator.Lib.SsaLink

/-! Hosts that hold the same memory in different ways: code that runs to its end on one of them does
so on the other, with the same values and related memories. -/
namespace DBTranslator.Lib.Ssa

variable {P F σ τ ρ : Type}

/-- Pointer arithmetic is the same in related memories, and so are the accesses that the first host allows. -/
structure SameAccesses (R : σ → τ → Prop) (h : Host P F σ) (h' : Host P F τ) : Prop where
  offset : ∀ {m n}, R m n → h'.offset n = h.offset m
  load : ∀ {m n ty p v}, R m n → h.load m ty p = .ok v → h'.load n ty p = .ok v
  store : ∀ {m n p v m'}, R m n → h.store m p v = .ok m' → ∃ n', h'.store n p v = .ok n' ∧ R m' n'

structure SameHost (R : σ → τ → Prop) (h : Host P F σ) (h' : Host P F τ) : Prop extends
    SameAccesses R h h' where
  call : ∀ {m n f args m' v}, R m n → h.call m f args = .ok (m', v) →
    ∃ n', h'.call n f args = .ok (n', v) ∧ R m' n'

private theorem assume_ok {h : Host P F σ} {c : Operand} {fr fr' : Frame P σ}
    (hrun : (Inst.assume c : Inst F).exec h fr = .ok fr') : fr' = fr ∧ c.eval fr.env = .int 1 (some 1) := by
  rw [Inst.exec] at hrun
  split at hrun
  · rename_i b hc
    by_cases hb : b = 1
    · rw [if_pos hb] at hrun
      exact ⟨(Except.ok.inj hrun).symm, hb ▸ hc⟩
    · rw [if_neg hb] at hrun
      cases hrun
  · cases hrun
  · cases hrun

namespace SameHost
variable {R : σ → τ → Prop} {h : Host P F σ} {h' : Host P F τ} {fr fr' : Frame P σ} {m : σ} {n : τ}

private theorem eval_same (hsame : SameHost R h h') {rhs : Rhs F} {v : Val P} (hR : R fr.mem n)
    (hrun : rhs.eval h fr = .ok (m, v)) : ∃ n', rhs.eval h' ⟨fr.env, n⟩ = .ok (n', v) ∧ R m n' := by
  cases rhs with
  | call f args =>
    obtain ⟨⟨m₁, v₁⟩, hcall, hrest⟩ := bind_eq_ok.mp hrun
    obtain ⟨n', hcall', hR'⟩ := hsame.call hR hcall
    cases v₁ with
    | none => cases hrest
    | some v₁ =>
      obtain ⟨rfl, rfl⟩ := Prod.mk.inj (Except.ok.inj hrest)
      exact ⟨n', bind_eq_ok.mpr ⟨_, hcall', rfl⟩, hR'⟩
  | load ty p =>
    obtain ⟨addr, haddr, hrest⟩ := bind_eq_ok.mp hrun
    obtain ⟨x, hx, hrest⟩ := bind_eq_ok.mp hrest
    obtain ⟨rfl, rfl⟩ := Prod.mk.inj (Except.ok.inj hrest)
    exact ⟨n, bind_eq_ok.mpr ⟨addr, haddr, bind_eq_ok.mpr ⟨x, hsame.load hR hx, rfl⟩⟩, hR⟩
  | gep scale base idx =>
    obtain ⟨x, hx, hrest⟩ := bind_eq_ok.mp hrun
    obtain ⟨rfl, rfl⟩ := Prod.mk.inj (Except.ok.inj hrest)
    rw [← hsame.offset hR] at hx
    exact ⟨n, bind_eq_ok.mpr ⟨x, hx, rfl⟩, hR⟩
  | _ =>
    -- The other values do not look at the memory.
    obtain ⟨x, hx, hrest⟩ := bind_eq_ok.mp hrun
    obtain ⟨rfl, rfl⟩ := Prod.mk.inj (Except.ok.inj hrest)
    exact ⟨n, bind_eq_ok.mpr ⟨x, hx, rfl⟩, hR⟩

private theorem inst_same (hsame : SameHost R h h') {i : Inst F} (hR : R fr.mem n)
    (hrun : i.exec h fr = .ok fr') : ∃ n', i.exec h' ⟨fr.env, n⟩ = .ok ⟨fr'.env, n'⟩ ∧ R fr'.mem n' := by
  cases i with
  | assign dest rhs =>
    obtain ⟨⟨m, v⟩, hv, hrest⟩ := bind_eq_ok.mp hrun
    obtain ⟨n', hv', hR'⟩ := hsame.eval_same hR hv
    obtain rfl := Except.ok.inj hrest
    exact ⟨n', bind_eq_ok.mpr ⟨_, hv', rfl⟩, hR'⟩
  | store v p =>
    obtain ⟨addr, haddr, hrest⟩ := bind_eq_ok.mp hrun
    obtain ⟨m, hm, hrest⟩ := bind_eq_ok.mp hrest
    obtain ⟨n', hn', hR'⟩ := hsame.store hR hm
    obtain rfl := Except.ok.inj hrest
    exact ⟨n', bind_eq_ok.mpr ⟨addr, haddr, bind_eq_ok.mpr ⟨n', hn', rfl⟩⟩, hR'⟩
  | invoke f args =>
    obtain ⟨⟨m, v⟩, hcall, hrest⟩ := bind_eq_ok.mp hrun
    obtain ⟨n', hcall', hR'⟩ := hsame.call hR hcall
    obtain rfl := Except.ok.inj hrest
    exact ⟨n', bind_eq_ok.mpr ⟨_, hcall', rfl⟩, hR'⟩
  | assume c =>
    obtain ⟨rfl, hc⟩ := assume_ok hrun
    exact ⟨n, exec_assume h' hc, hR⟩

theorem exec_same (hsame : SameHost R h h') {code : List (Inst F)} (hR : R fr.mem n)
    (hrun : exec h code fr = .ok fr') :
    ∃ n', exec h' code ⟨fr.env, n⟩ = .ok ⟨fr'.env, n'⟩ ∧ R fr'.mem n' := by
  induction code generalizing fr n with
  | nil =>
    obtain rfl := Except.ok.inj hrun
    exact ⟨n, rfl, hR⟩
  | cons i code ih =>
    obtain ⟨fr₁, hi, hcode⟩ := bind_eq_ok.mp hrun
    obtain ⟨n₁, hi', hR₁⟩ := hsame.inst_same hR hi
    obtain ⟨n', hcode', hR'⟩ := ih hR₁ hcode
    exact ⟨n', bind_eq_ok.mpr ⟨_, hi', hcode'⟩, hR'⟩

private theorem block_same (hsame : SameHost R h h') {B : BasicBlock F} {pred : Nat} {e : Exit P}
    (hR : R fr.mem n) (hrun : B.run h pred fr = .ok (fr', e)) :
    ∃ n', B.run h' pred ⟨fr.env, n⟩ = .ok (⟨fr'.env, n'⟩, e) ∧ R fr'.mem n' := by
  obtain ⟨env, hphis, hrest⟩ := bind_eq_ok.mp hrun
  obtain ⟨fr₁, hcode, hrest⟩ := bind_eq_ok.mp hrest
  obtain ⟨e', hexit, hrest⟩ := bind_eq_ok.mp hrest
  obtain ⟨rfl, rfl⟩ := Prod.mk.inj (Except.ok.inj hrest)
  have hstart : R (⟨env, fr.mem⟩ : Frame P σ).mem n := hR
  obtain ⟨n', hcode', hR'⟩ := hsame.exec_same hstart hcode
  exact ⟨n', bind_eq_ok.mpr ⟨env, hphis, bind_eq_ok.mpr ⟨_, hcode', bind_eq_ok.mpr ⟨e', hexit, rfl⟩⟩⟩, hR'⟩

/-- A function returns after the same blocks. -/
theorem run_same (hsame : SameHost R h h') {f : Func F} {rounds pred label : Nat} {v : Option (Val P)}
    (hR : R fr.mem n) (hrun : f.run h rounds ⟨pred, label, fr⟩ = some (.ok (m, v))) :
    ∃ n', f.run h' rounds ⟨pred, label, ⟨fr.env, n⟩⟩ = some (.ok (n', v)) ∧ R m n' := by
  induction rounds generalizing pred label fr n with
  | zero => cases hrun
  | succ rounds ih =>
    rw [Func.run] at hrun ⊢
    dsimp only at hrun ⊢
    cases hB : f.blocks label with
    | none =>
      rw [hB] at hrun
      cases hrun
    | some B =>
      rw [hB] at hrun
      dsimp only at hrun ⊢
      cases hblock : B.run h pred fr with
      | error e =>
        rw [hblock] at hrun
        cases hrun
      | ok x =>
        obtain ⟨fr₁, e⟩ := x
        obtain ⟨n₁, hblock', hR₁⟩ := hsame.block_same hR hblock
        rw [hblock] at hrun
        rw [hblock']
        cases e with
        | jump label' => exact ih hR₁ hrun
        | ret v' =>
          obtain ⟨rfl, rfl⟩ := Prod.mk.inj (Except.ok.inj (Option.some.inj hrun))
          exact ⟨n₁, rfl, hR₁⟩

end SameHost

section Accesses
variable {R : σ → τ → Prop}

theorem SameAccesses.sameHost {h : Host P Empty σ} {h' : Host P Empty τ} (hsame : SameAccesses R h h') :
    SameHost R h h' where
  toSameAccesses := hsame
  call {_ _ f} := f.elim

/-- What the stores keep in the second memory goes along. -/
theorem SameAccesses.keeping {h : Host P F σ} {h' : Host P F τ} (hsame : SameAccesses R h h') {Q : τ → Prop}
    (hQ : ∀ m n p v m' n', Q n → h.store m p v = .ok m' → h'.store n p v = .ok n' → Q n') :
    SameAccesses (fun m n => R m n ∧ Q n) h h' where
  offset hR := hsame.offset hR.1
  load hR hload := hsame.load hR.1 hload
  store hR hstore := by
    obtain ⟨n', hn', hR'⟩ := hsame.store hR.1 hstore
    exact ⟨n', hn', hR', hQ _ _ _ _ _ _ hR.2 hstore hn'⟩

end Accesses

/-- Linking keeps hosts the same when the parts of the memory that the functions run on are. -/
theorem SameAccesses.link {τ' : Type} {R : σ → ρ → Prop} {h : Host P F σ} {h' : Host P F ρ}
    {L : Linkage P F σ τ} {L' : Linkage P F ρ τ'} (hsame : SameAccesses R h h') (hfunc : L'.func = L.func)
    (hpart : ∀ m n, R m n → ∃ S, SameHost S L.host L'.host ∧ S (L.get m) (L'.get n) ∧
      ∀ t t', S t t' → R (L.set m t) (L'.set n t')) (rounds : Nat) :
    SameHost R (h.link L rounds) (h'.link L' rounds) := by
  refine { offset := hsame.offset, load := hsame.load, store := hsame.store, call := ?_ }
  intro m n f args m' v hR hcall
  obtain ⟨S, hS, hget, hset⟩ := hpart m n hR
  have hcall : L.call rounds m f args = .ok (m', v) := hcall
  unfold Linkage.call at hcall
  split at hcall
  · rename_i htypes
    cases hrun : (L.func f).run L.host rounds ((L.func f).start args (L.get m)) with
    | none =>
      rw [hrun] at hcall
      cases hcall
    | some r =>
      rw [hrun] at hcall
      obtain ⟨⟨t, v'⟩, rfl, hr⟩ := map_eq_ok.mp hcall
      obtain ⟨rfl, rfl⟩ := Prod.mk.inj hr
      obtain ⟨t', hrun', ht⟩ := hS.run_same hget hrun
      have hstart : (L.func f).run L'.host rounds ((L.func f).start args (L'.get n)) = some (.ok (t', v)) := hrun'
      refine ⟨L'.set n t', ?_, hset t t' ht⟩
      change L'.call rounds n f args = _
      rw [Linkage.call, hfunc, if_pos htypes, hstart]
      rfl
  · cases hcall

end DBTranslator.Lib.Ssa
