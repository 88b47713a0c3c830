import Mathlib.Logic.Relation

/-! Systems with a table that never forgets: a step looks the key of the present state up, and on a miss
enters what the present state gives. -/
namespace DBTranslator.Lib.Memo
open Relation

variable {X K V : Type}

/-- The steps from states with the invariant keep it and use the table so. -/
structure Memoizes (inv : X → Prop) (step : X → X → Prop) (table : X → K → Option V) (key : X → K)
    (fill : X → Option V) : Prop where
  keeps : ∀ {x y}, inv x → step x y → inv y
  other : ∀ {x y k}, inv x → step x y → k ≠ key x → table y k = table x k
  hit : ∀ {x y v}, inv x → step x y → table x (key x) = some v → table y (key x) = some v
  miss : ∀ {x y}, inv x → step x y → table x (key x) = none →
    ∃ v, fill x = some v ∧ table y (key x) = some v

namespace Memoizes
variable {inv : X → Prop} {step : X → X → Prop} {table : X → K → Option V} {key : X → K} {fill : X → Option V}
  {x y : X} {k : K} {v : V}

theorem invariant (h : Memoizes inv step table key fill) (hx : inv x) (hsteps : ReflTransGen step x y) : inv y := by
  induction hsteps with
  | refl => exact hx
  | tail _ hstep ih => exact h.keeps ih hstep

/-- One step leaves an entry as it is. -/
theorem step_entry (h : Memoizes inv step table key fill) (hx : inv x) (hstep : step x y)
    (hk : table x k = some v) : table y k = some v := by
  by_cases heq : k = key x
  · subst heq
    exact h.hit hx hstep hk
  · rw [h.other hx hstep heq, hk]

/-- An entry that a step makes is what its state gave at its key. -/
theorem new_entry (h : Memoizes inv step table key fill) (hx : inv x) (hstep : step x y)
    (hnone : table x k = none) (hk : table y k = some v) : key x = k ∧ fill x = some v := by
  by_cases heq : k = key x
  · subst heq
    obtain ⟨w, hfill, hw⟩ := h.miss hx hstep hnone
    exact ⟨rfl, by rw [hfill, ← hw, hk]⟩
  · rw [h.other hx hstep heq, hnone] at hk
    cases hk

/-- Entries never change. -/
theorem entry_stays (h : Memoizes inv step table key fill) (hx : inv x) (hsteps : ReflTransGen step x y)
    (hk : table x k = some v) : table y k = some v := by
  induction hsteps with
  | refl => exact hk
  | tail hbefore hstep ih => exact h.step_entry (h.invariant hx hbefore) hstep ih

/-- From an empty table on, an entry is there exactly when an earlier state was the first at its key
and gave it. -/
theorem entry_iff (h : Memoizes inv step table key fill) (hx : inv x) (hempty : ∀ k, table x k = none)
    (hsteps : ReflTransGen step x y) : table y k = some v ↔ ∃ z, ReflTransGen step x z ∧
      TransGen step z y ∧ key z = k ∧ table z k = none ∧ fill z = some v := by
  constructor
  · intro hk
    induction hsteps with
    | refl =>
      rw [hempty] at hk
      cases hk
    | @tail y y' hbefore hstep ih =>
      have hy := h.invariant hx hbefore
      cases hentry : table y k with
      | none =>
        obtain ⟨hkey, hfill⟩ := h.new_entry hy hstep hentry hk
        exact ⟨y, hbefore, .single hstep, hkey, hentry, hfill⟩
      | some w =>
        obtain rfl : w = v := Option.some.inj ((h.step_entry hy hstep hentry).symm.trans hk)
        obtain ⟨z, hz, hlater, hrest⟩ := ih hentry
        exact ⟨z, hz, hlater.tail hstep, hrest⟩
  · rintro ⟨z, hz, hlater, rfl, hnone, hfill⟩
    have hinv := h.invariant hx hz
    obtain ⟨z', hstep, hrest⟩ := TransGen.head'_iff.mp hlater
    obtain ⟨w, hw, hentry⟩ := h.miss hinv hstep hnone
    rw [← hfill, hw]
    exact h.entry_stays (h.keeps hinv hstep) hrest hentry

end Memoizes

end DBTranslator.Lib.Memo
