import Mathlib.Data.Nat.Find

/-! Tables that are searched from the front: a point belongs to the first entry that contains
it. When the points of an interval all belong to one entry. -/
namespace DBTranslator.Lib.FirstMatch

section Table
variable {α : Type} (contains : α → Nat → Prop) (table : List α)

/-- The first entry that satisfies a condition. -/
def First (P : α → Prop) (I : Nat) : Prop :=
  (∃ S, table[I]? = some S ∧ P S) ∧ ∀ K < I, ∀ S, table[K]? = some S → ¬ P S

/-- The entry that a point belongs to. -/
def Owner (a : Nat) (I : Nat) : Prop := First table (contains · a) I

/-- The entry shares a point with the interval from `lo` to `hi`. -/
def meets (lo hi : Nat) (S : α) : Prop := ∃ a, lo ≤ a ∧ a < hi ∧ contains S a

def coversAll (lo hi : Nat) (S : α) : Prop := ∀ a, lo ≤ a → a < hi → contains S a

/-- The first entry that shares a point with the interval contains all of it. -/
def FirstCovers (lo hi : Nat) : Prop :=
  ∀ I S, table[I]? = some S → First table (meets contains lo hi) I → coversAll contains lo hi S

variable {contains table}

theorem First.unique {P : α → Prop} {I J : Nat} (hI : First table P I) (hJ : First table P J) :
    I = J := by
  obtain ⟨⟨S, hS, hPS⟩, hfirst⟩ := hI
  obtain ⟨⟨T, hT, hPT⟩, hfirst'⟩ := hJ
  rcases Nat.lt_trichotomy I J with hlt | heq | hgt
  · exact absurd hPS (hfirst' I hlt S hS)
  · exact heq
  · exact absurd hPT (hfirst J hgt T hT)

/-- The entry at the first place satisfies the condition. -/
theorem First.satisfies {P : α → Prop} {I : Nat} {S : α} (hI : First table P I)
    (hS : table[I]? = some S) : P S := by
  obtain ⟨⟨T, hT, hPT⟩, -⟩ := hI
  obtain rfl : S = T := Option.some.inj (hS.symm.trans hT)
  exact hPT

theorem exists_first {P : α → Prop} {S : α} (hS : S ∈ table) (hP : P S) :
    ∃ I, First table P I := by
  classical
  obtain ⟨J, hJ⟩ := List.getElem?_of_mem hS
  have hex : ∃ I, ∃ S, table[I]? = some S ∧ P S := ⟨J, S, hJ, hP⟩
  refine ⟨Nat.find hex, Nat.find_spec hex, ?_⟩
  intro K hK T hT hPT
  exact Nat.find_min hex hK ⟨T, hT, hPT⟩

theorem FirstCovers.of_first {lo hi K : Nat} {S : α} (hK : First table (meets contains lo hi) K)
    (hS : table[K]? = some S) (hcovers : coversAll contains lo hi S) :
    FirstCovers contains table lo hi := by
  intro I T hT hI
  obtain rfl : I = K := hI.unique hK
  obtain rfl : S = T := Option.some.inj (hS.symm.trans hT)
  exact hcovers

private theorem owner_constant {lo hi I : Nat} (hlo : Owner contains table lo I)
    (hex : ∀ a, lo ≤ a → a < hi → ∃ J, Owner contains table a J)
    (hnext : ∀ a I J, lo ≤ a → a + 1 < hi → Owner contains table a I →
      Owner contains table (a + 1) J → I = J) (n : Nat) (hn : lo + n < hi) :
    Owner contains table (lo + n) I := by
  induction n with
  | zero => exact hlo
  | succ n ih =>
    have hprev := ih (Nat.lt_of_succ_lt hn)
    obtain ⟨J, hJ⟩ := hex (lo + (n + 1)) (Nat.le_add_right _ _) hn
    obtain rfl : I = J := hnext (lo + n) I J (Nat.le_add_right _ _) hn hprev hJ
    exact hJ

/-- The first entry that meets an interval owns its points when it covers it. -/
theorem FirstCovers.owner {lo hi a I : Nat} (hcovers : FirstCovers contains table lo hi)
    (hI : First table (meets contains lo hi) I) (hlo : lo ≤ a) (hhi : a < hi) :
    Owner contains table a I := by
  obtain ⟨⟨S, hS, hmeets⟩, hfirst⟩ := hI
  refine ⟨⟨S, hS, hcovers I S hS ⟨⟨S, hS, hmeets⟩, hfirst⟩ a hlo hhi⟩, ?_⟩
  intro K hK T hT hTa
  exact hfirst K hK T hT ⟨a, hlo, hhi, hTa⟩

/-- Neighbours in an interval always belong to one entry exactly when the first entry that meets
the interval covers it. -/
theorem neighbours_iff_firstCovers {lo hi : Nat}
    (hex : ∀ a, lo ≤ a → a < hi → ∃ J, Owner contains table a J) :
    (∀ a I J, lo ≤ a → a + 1 < hi → Owner contains table a I → Owner contains table (a + 1) J →
      I = J) ↔ FirstCovers contains table lo hi := by
  constructor
  · intro hnext I S hS hI b hlo hhi
    obtain ⟨a, hloa, hhia, hSa⟩ := hI.satisfies hS
    obtain ⟨J, hJ⟩ := hex lo (Nat.le_refl lo) (Nat.lt_of_le_of_lt hlo hhi)
    have hconst {c : Nat} (hc : lo ≤ c) (hc' : c < hi) : Owner contains table c J := by
      obtain ⟨n, rfl⟩ := Nat.exists_eq_add_of_le hc
      exact owner_constant hJ hex hnext n hc'
    have ha : Owner contains table a I :=
      ⟨⟨S, hS, hSa⟩, fun K hK T hT hTa => hI.2 K hK T hT ⟨a, hloa, hhia, hTa⟩⟩
    obtain rfl : I = J := ha.unique (hconst hloa hhia)
    exact (hconst hlo hhi).satisfies hS
  · intro hcovers a I J hlo hhi hI hJ
    obtain ⟨⟨S, hS, hSa⟩, -⟩ := id hI
    have ha : a < hi := Nat.lt_of_succ_lt hhi
    obtain ⟨K, hK⟩ := exists_first (P := meets contains lo hi) (List.mem_of_getElem? hS)
      ⟨a, hlo, ha, hSa⟩
    rw [hI.unique (hcovers.owner hK hlo ha),
      hJ.unique (hcovers.owner hK (Nat.le_succ_of_le hlo) hhi)]

end Table

end DBTranslator.Lib.FirstMatch
