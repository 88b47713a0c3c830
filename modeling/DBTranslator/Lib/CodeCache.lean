import Mathlib.Logic.Function.Basic

/-! Translation in blocks against single steps, for any machine that fetches words: a cache
of word sequences that are still in memory runs on the single-step trajectory. -/
namespace DBTranslator.Lib.CodeCache

/-- `n` steps of a relation. -/
inductive Steps {S : Type} (step : S → S → Prop) : Nat → S → S → Prop
  | refl (s : S) : Steps step 0 s s
  | head {n : Nat} {s t u : S} : step s t → Steps step n t u → Steps step (n + 1) s u

namespace Steps
variable {S : Type} {step : S → S → Prop} {m n : Nat} {s t u : S}

theorem append (h : Steps step m s t) (h' : Steps step n t u) : Steps step (m + n) s u := by
  induction h with
  | refl s => rwa [Nat.zero_add]
  | head hstep _ ih =>
    rw [Nat.add_right_comm]
    exact head hstep (ih h')

/-- A deterministic relation has one trajectory: the longer of two runs from one state goes
through the end of the shorter. -/
theorem between (hdet : ∀ s t u, step s t → step s u → t = u) (h : Steps step m s t)
    (h' : Steps step n s u) (hle : m ≤ n) : Steps step (n - m) t u := by
  induction h generalizing n with
  | refl s => exact h'
  | head hstep _ ih =>
    cases h' with
    | refl s => exact absurd hle (Nat.not_succ_le_zero _)
    | head hstep' hrest =>
      obtain rfl := hdet _ _ _ hstep hstep'
      rw [Nat.add_sub_add_right]
      exact ih hrest (Nat.le_of_succ_le_succ hle)

theorem map {T : Type} {step' : T → T → Prop} (f : S → T) (hf : ∀ s t, step s t → step' (f s) (f t))
    (h : Steps step m s t) : Steps step' m (f s) (f t) := by
  induction h with
  | refl => exact .refl _
  | head hstep _ ih => exact .head (hf _ _ hstep) ih

end Steps

/-- States `S` with a program counter, fetching words `W` from addresses `A`. Some words end a
block. -/
structure Machine (S A W : Type) where
  pc : S → A
  next : A → A
  fetch : S → A → Option W
  ends : W → Bool
  exec : W → S → S → Prop

variable {S A W : Type} (M : Machine S A W)

namespace Machine

/-- Fetch the word at the program counter from current memory and execute it. -/
def step (s t : S) : Prop := ∃ w, M.fetch s (M.pc s) = some w ∧ M.exec w s t

/-- The address of word `k` of a sequence that starts at `a`. -/
def address (a : A) : Nat → A
  | 0 => a
  | k + 1 => address (M.next a) k

/-- The words stand in memory one after another from `a` on. -/
def Holds (s : S) (a : A) : List W → Prop
  | [] => True
  | w :: ws => M.fetch s a = some w ∧ Holds s (M.next a) ws

/-- No word but the last ends the block. -/
def Straight : List W → Prop
  | [] | [_] => True
  | w :: v :: ws => M.ends w = false ∧ Straight (v :: ws)

/-- Execute words one after another, each allowed in the state it meets. -/
inductive ExecAll (allowed : W → S → Prop) : List W → S → S → Prop
  | nil (s : S) : ExecAll allowed [] s s
  | cons {w : W} {ws : List W} {s t u : S} : allowed w s → M.exec w s t →
      ExecAll allowed ws t u → ExecAll allowed (w :: ws) s u

variable {M} {allowed : W → S → Prop} {kept : A → Prop}

theorem holds_of_get {s : S} {a : A} {ws : List W}
    (h : ∀ k w, ws[k]? = some w → M.fetch s (M.address a k) = some w) : M.Holds s a ws := by
  induction ws generalizing a with
  | nil => trivial
  | cons w ws ih => exact ⟨h 0 w rfl, ih fun k v hv => h (k + 1) v hv⟩

theorem straight_of_get {ws : List W}
    (h : ∀ k w, ws[k]? = some w → k + 1 < ws.length → M.ends w = false) : M.Straight ws := by
  induction ws with
  | nil => trivial
  | cons w ws ih =>
    cases ws with
    | nil => trivial
    | cons v ws =>
      refine ⟨h 0 w rfl (Nat.succ_lt_succ (Nat.succ_pos _)), ih fun k u hu hk => ?_⟩
      exact h (k + 1) u hu (Nat.succ_lt_succ hk)

/-- Execution leaves the words at kept addresses in memory. -/
def Keeps (M : Machine S A W) (allowed : W → S → Prop) (kept : A → Prop) : Prop :=
  ∀ w s t a, allowed w s → M.exec w s t → kept a → M.fetch t a = M.fetch s a

/-- A word that does not end a block passes control to the word after it. -/
def Advances (M : Machine S A W) (allowed : W → S → Prop) : Prop :=
  ∀ w s t, allowed w s → M.ends w = false → M.exec w s t → M.pc t = M.next (M.pc s)

theorem Holds.of_fetch_eq {s t : S} {a : A} {ws : List W} (h : M.Holds s a ws)
    (hfetch : ∀ k < ws.length, M.fetch t (M.address a k) = M.fetch s (M.address a k)) : M.Holds t a ws := by
  induction ws generalizing a with
  | nil => trivial
  | cons w ws ih =>
    obtain ⟨hw, hws⟩ := h
    refine ⟨(hfetch 0 (Nat.succ_pos _)).trans hw, ih hws fun k hk => ?_⟩
    exact hfetch (k + 1) (Nat.succ_lt_succ hk)

theorem ExecAll.fetch_eq (hkeep : M.Keeps allowed kept) {ws : List W} {s t : S}
    (h : M.ExecAll allowed ws s t) {a : A} (ha : kept a) : M.fetch t a = M.fetch s a := by
  induction h with
  | nil s => rfl
  | cons hok hexec _ ih => exact ih.trans (hkeep _ _ _ a hok hexec ha)

/-- Straight-line words that stay in memory execute as single steps. -/
theorem ExecAll.steps (hadv : M.Advances allowed) (hkeep : M.Keeps allowed kept) {ws : List W} {s t : S}
    (h : M.ExecAll allowed ws s t) (hstraight : M.Straight ws) (hholds : M.Holds s (M.pc s) ws)
    (hkept : ∀ k < ws.length, kept (M.address (M.pc s) k)) : Steps M.step ws.length s t := by
  induction h with
  | nil s => exact .refl s
  | @cons w ws s t u hok hexec hrest ih =>
    have hstep : M.step s t := ⟨w, hholds.1, hexec⟩
    cases ws with
    | nil =>
      cases hrest
      exact .head hstep (.refl _)
    | cons v ws =>
      have hpc : M.pc t = M.next (M.pc s) := hadv w s t hok hstraight.1 hexec
      refine .head hstep (ih hstraight.2 ?_ ?_)
      · rw [hpc]
        refine hholds.2.of_fetch_eq fun k hk => ?_
        exact hkeep w s t _ hok hexec (hkept (k + 1) (Nat.succ_lt_succ hk))
      · intro k hk
        rw [hpc]
        exact hkept (k + 1) (Nat.succ_lt_succ hk)

end Machine

/-- The translated blocks, by the address at which they were fetched. -/
abbrev Cache (A W : Type) := A → Option (List W)

/-- The addresses of all words fetched for the cache. -/
def Cache.fetched (M : Machine S A W) (c : Cache A W) (x : A) : Prop :=
  ∃ a ws, c a = some ws ∧ ∃ k < ws.length, x = M.address a k

/-- Every cached block is straight and is the words that memory still holds at its key. -/
def Cache.Valid (M : Machine S A W) (c : Cache A W) (s : S) : Prop :=
  ∀ a ws, c a = some ws → M.Straight ws ∧ M.Holds s a ws

/-- A lookup at the program counter: a hit leaves the cache alone, a miss adds a block of words
fetched from the present memory. -/
def Cache.Serves (M : Machine S A W) (c c' : Cache A W) (s : S) (ws : List W) : Prop :=
  c' (M.pc s) = some ws ∧ ∀ a, c' a = c a ∨
    a = M.pc s ∧ M.Straight ws ∧ M.Holds s a ws

variable {M}

theorem Cache.Serves.valid {c c' : Cache A W} {s : S} {ws : List W} (h : Cache.Serves M c c' s ws)
    (hvalid : Cache.Valid M c s) : Cache.Valid M c' s := by
  intro a vs ha
  obtain ⟨hserved, hrest⟩ := h
  rcases hrest a with heq | ⟨rfl, hstraight, hholds⟩
  · exact hvalid a vs (heq ▸ ha)
  · obtain rfl : ws = vs := Option.some.inj (hserved.symm.trans ha)
    exact ⟨hstraight, hholds⟩

/-- Executing a served block runs single steps, as many as the block has words, and keeps the
cache valid. -/
theorem Cache.Serves.refines {allowed : W → S → Prop} {c c' : Cache A W} {s t : S} {ws : List W}
    (h : Cache.Serves M c c' s ws) (hvalid : Cache.Valid M c s) (hadv : M.Advances allowed)
    (hkeep : M.Keeps allowed (Cache.fetched M c')) (hexec : M.ExecAll allowed ws s t) :
    Steps M.step ws.length s t ∧ Cache.Valid M c' t := by
  have hvalid' : Cache.Valid M c' s := h.valid hvalid
  obtain ⟨hstraight, hholds⟩ := hvalid' _ _ h.1
  constructor
  · exact hexec.steps hadv hkeep hstraight hholds fun k hk => ⟨_, _, h.1, k, hk, rfl⟩
  · intro a vs ha
    obtain ⟨hs, hh⟩ := hvalid' a vs ha
    exact ⟨hs, hh.of_fetch_eq fun k hk => hexec.fetch_eq hkeep ⟨a, vs, ha, k, hk, rfl⟩⟩

end DBTranslator.Lib.CodeCache
