import DBTranslator.Riscv.Translator

/-! Which words `generateFunc` fetches for a block, and when it cannot: the words in memory up to the
first terminator, cut by the threshold. -/
namespace DBTranslator.Riscv
open Lib Lib.Ssa

/-- The words stand in memory one after another, none of them but possibly the last a terminator. -/
structure StandsAt (Manager : MemoryManager) (start : BitVec 32) (ws : List (BitVec 32)) : Prop where
  read : ∀ k w, ws[k]? = some w → read32 Manager (wordAddr start k) = .ok w
  straight : ∀ k w, ws[k]? = some w → k + 1 < ws.length → isTerminator (decode w) = false

/-- The last word is a terminator. -/
def Ended (ws : List (BitVec 32)) : Prop := ∃ w, ws.getLast? = some w ∧ isTerminator (decode w) = true

section Loop
variable {Manager : MemoryManager} {rounds : Nat} {start : BitVec 32} {w : BitVec 32} {ws : List (BitVec 32)}

theorem standsAt_nil : StandsAt Manager start [] := by
  constructor
  · rintro k w ⟨⟩
  · rintro k w ⟨⟩

theorem not_ended_nil : ¬ Ended [] := by
  rintro ⟨w, ⟨⟩, -⟩

theorem ended_cons : Ended (w :: ws) ↔ ws = [] ∧ isTerminator (decode w) = true ∨ Ended ws := by
  cases ws with
  | nil => simp [Ended]
  | cons v vs => simp [Ended]

theorem standsAt_cons : StandsAt Manager start (w :: ws) ↔ read32 Manager start = .ok w ∧
    (ws ≠ [] → isTerminator (decode w) = false) ∧ StandsAt Manager (start + 4#32) ws := by
  constructor
  · intro h
    refine ⟨?_, fun hne => ?_, fun k v hv => ?_, fun k v hv hlt => ?_⟩
    · have hread := h.read 0 w rfl
      rwa [wordAddr_zero] at hread
    · exact h.straight 0 w rfl (Nat.succ_lt_succ (List.length_pos_iff.mpr hne))
    · rw [wordAddr_next]
      exact h.read (k + 1) v hv
    · exact h.straight (k + 1) v hv (Nat.succ_lt_succ hlt)
  · rintro ⟨hread, hterm, hrest⟩
    constructor
    · intro k v hv
      cases k with
      | zero =>
        obtain rfl : w = v := Option.some.inj hv
        rwa [wordAddr_zero]
      | succ k =>
        rw [← wordAddr_next]
        exact hrest.read k v hv
    · intro k v hv hlt
      cases k with
      | zero =>
        obtain rfl : w = v := Option.some.inj hv
        exact hterm (List.length_pos_iff.mp (Nat.lt_of_succ_lt_succ hlt))
      | succ k => exact hrest.straight k v hv (Nat.lt_of_succ_lt_succ hlt)

theorem fetchLoop_nil : fetchLoop Manager rounds start = .ok [] ↔ rounds = 0 := by
  cases rounds with
  | zero => simp [fetchLoop]
  | succ rounds =>
    rw [fetchLoop]
    constructor
    · intro h
      obtain ⟨v, -, hrest⟩ := bind_eq_ok.mp h
      split at hrest
      · cases hrest
      · obtain ⟨vs, -, hvs⟩ := bind_eq_ok.mp hrest
        cases hvs
    · rintro ⟨⟩

/-- One round: a word, and after a terminator nothing more. -/
theorem fetchLoop_cons : fetchLoop Manager (rounds + 1) start = .ok (w :: ws) ↔
    read32 Manager start = .ok w ∧ (isTerminator (decode w) = true ∧ ws = [] ∨
      isTerminator (decode w) = false ∧ fetchLoop Manager rounds (start + 4#32) = .ok ws) := by
  rw [fetchLoop]
  constructor
  · intro h
    obtain ⟨v, hread, hrest⟩ := bind_eq_ok.mp h
    cases hterm : isTerminator (decode v) with
    | true =>
      rw [if_pos hterm] at hrest
      obtain ⟨rfl, rfl⟩ := List.cons.inj (Except.ok.inj hrest)
      exact ⟨hread, .inl ⟨hterm, rfl⟩⟩
    | false =>
      rw [if_neg (by rw [hterm]; exact Bool.false_ne_true)] at hrest
      obtain ⟨vs, hvs, hrest⟩ := bind_eq_ok.mp hrest
      obtain ⟨rfl, rfl⟩ := List.cons.inj (Except.ok.inj hrest)
      exact ⟨hread, .inr ⟨hterm, hvs⟩⟩
  · rintro ⟨hread, hrest⟩
    rw [hread, ok_bind]
    rcases hrest with ⟨hterm, rfl⟩ | ⟨hterm, hrest⟩
    · rw [if_pos hterm]
      rfl
    · rw [if_neg (by rw [hterm]; exact Bool.false_ne_true), hrest]
      rfl

/-- The loop yields a sequence of words exactly when it stands in memory, is no longer than the
threshold and, if it is shorter, ends with a terminator. -/
theorem fetchLoop_ok_iff : fetchLoop Manager rounds start = .ok ws ↔
    StandsAt Manager start ws ∧ ws.length ≤ rounds ∧ (ws.length < rounds → Ended ws) := by
  induction ws generalizing rounds start with
  | nil =>
    rw [fetchLoop_nil]
    constructor
    · rintro rfl
      exact ⟨standsAt_nil, Nat.le_refl 0, fun hlt => absurd hlt (Nat.lt_irrefl 0)⟩
    · rintro ⟨-, -, hended⟩
      by_contra hpos
      obtain ⟨w, ⟨⟩, -⟩ := hended (Nat.pos_of_ne_zero hpos)
  | cons w ws ih =>
    cases rounds with
    | zero =>
      constructor
      · rintro ⟨⟩
      · rintro ⟨-, hle, -⟩
        exact absurd hle (Nat.not_succ_le_zero _)
    | succ rounds =>
      rw [fetchLoop_cons, ih, standsAt_cons, ended_cons, List.length_cons, Nat.succ_le_succ_iff,
        Nat.succ_lt_succ_iff]
      constructor
      · rintro ⟨hread, ⟨hterm, rfl⟩ | ⟨hterm, hstands, hle, hended⟩⟩
        · exact ⟨⟨hread, fun hne => absurd rfl hne, standsAt_nil⟩, Nat.zero_le _, fun _ => .inl ⟨rfl, hterm⟩⟩
        · exact ⟨⟨hread, fun _ => hterm, hstands⟩, hle, fun hlt => .inr (hended hlt)⟩
      · rintro ⟨⟨hread, hterm, hstands⟩, hle, hended⟩
        refine ⟨hread, ?_⟩
        cases ht : isTerminator (decode w) with
        | true =>
          by_cases hne : ws = []
          · exact .inl ⟨rfl, hne⟩
          · rw [hterm hne] at ht
            cases ht
        | false =>
          refine .inr ⟨rfl, hstands, hle, fun hlt => ?_⟩
          rcases hended hlt with ⟨-, htrue⟩ | htail
          · rw [ht] at htrue
            cases htrue
          · exact htail

private theorem fault_after {f : Fault} (hread : read32 Manager start = .ok w) :
    (∃ ws, ws.length < rounds + 1 ∧ StandsAt Manager start ws ∧ ¬ Ended ws ∧
      read32 Manager (wordAddr start ws.length) = .error f) ↔
    isTerminator (decode w) = false ∧ ∃ ws, ws.length < rounds ∧ StandsAt Manager (start + 4#32) ws ∧ ¬ Ended ws ∧
      read32 Manager (wordAddr (start + 4#32) ws.length) = .error f := by
  constructor
  · rintro ⟨ws, hlt, hstands, hended, hfault⟩
    cases ws with
    | nil =>
      rw [List.length_nil, wordAddr_zero, hread] at hfault
      cases hfault
    | cons v ws =>
      obtain ⟨hfirst, hterm, htail⟩ := standsAt_cons.mp hstands
      obtain rfl : w = v := Except.ok.inj (hread.symm.trans hfirst)
      rw [ended_cons, not_or] at hended
      refine ⟨?_, ws, Nat.lt_of_succ_lt_succ hlt, htail, hended.2, by rwa [wordAddr_next]⟩
      by_cases hne : ws = []
      · exact Bool.eq_false_iff.mpr fun htrue => hended.1 ⟨hne, htrue⟩
      · exact hterm hne
  · rintro ⟨hterm, ws, hlt, hstands, hended, hfault⟩
    refine ⟨w :: ws, Nat.succ_lt_succ hlt, standsAt_cons.mpr ⟨hread, fun _ => hterm, hstands⟩, ?_, ?_⟩
    · rw [ended_cons, hterm]
      rintro (⟨-, ⟨⟩⟩ | htail)
      exact hended htail
    · rwa [List.length_cons, ← wordAddr_next]

private theorem fault_first {e f : Fault} (hread : read32 Manager start = .error e) :
    (∃ ws, ws.length < rounds + 1 ∧ StandsAt Manager start ws ∧ ¬ Ended ws ∧
      read32 Manager (wordAddr start ws.length) = .error f) ↔ e = f := by
  constructor
  · rintro ⟨ws, -, hstands, -, hfault⟩
    cases ws with
    | nil =>
      rw [List.length_nil, wordAddr_zero, hread] at hfault
      exact Except.error.inj hfault
    | cons w ws =>
      have hfirst := (standsAt_cons.mp hstands).1
      rw [hread] at hfirst
      cases hfirst
  · rintro rfl
    exact ⟨[], Nat.succ_pos _, standsAt_nil, not_ended_nil, by rw [List.length_nil, wordAddr_zero, hread]⟩

/-- The loop fails exactly when it meets, before the threshold and before a terminator, a word that it
cannot read. -/
theorem fetchLoop_error_iff {f : Fault} : fetchLoop Manager rounds start = .error f ↔ ∃ ws,
    ws.length < rounds ∧ StandsAt Manager start ws ∧ ¬ Ended ws ∧
      read32 Manager (wordAddr start ws.length) = .error f := by
  induction rounds generalizing start with
  | zero =>
    constructor
    · rintro ⟨⟩
    · rintro ⟨ws, hlt, -⟩
      exact absurd hlt (Nat.not_lt_zero _)
  | succ rounds ih =>
    rw [fetchLoop]
    cases hread : read32 Manager start with
    | error e => rw [error_bind, fault_first hread, Except.error.injEq]
    | ok w =>
      rw [ok_bind, fault_after hread, ← ih]
      cases hterm : isTerminator (decode w) with
      | true =>
        rw [if_pos rfl]
        constructor
        · rintro ⟨⟩
        · rintro ⟨⟨⟩, -⟩
      | false =>
        rw [if_neg Bool.false_ne_true, and_iff_right rfl]
        cases fetchLoop Manager rounds (start + 4#32) <;> simp [pure, Except.pure]

end Loop

end DBTranslator.Riscv
