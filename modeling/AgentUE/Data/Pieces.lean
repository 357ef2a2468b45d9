import Mathlib.Data.List.Basic

/-!
# Cutting a list into pieces

A list is to be cut into consecutive pieces that each satisfy a predicate. Where the predicate passes to what is
left of a piece behind a piece, taking the longest piece every time gives as few pieces as any cutting.
-/

namespace AgentUE.Data

variable {α : Type*}

/-- Consecutive pieces of `xs` that all satisfy `P`. -/
structure Splits (P : List α → Prop) (xs : List α) (pieces : List (List α)) : Prop where
  flatten : pieces.flatten = xs
  piece : ∀ p ∈ pieces, P p

/-- Cut by taking the longest piece every time. -/
inductive Greedy (P : List α → Prop) : List α → List (List α) → Prop
  | nil : Greedy P [] []
  | cons {first rest : List α} {pieces : List (List α)} : first ≠ [] → P first →
      (∀ p q, p ++ q = first ++ rest → P p → p.length ≤ first.length) → Greedy P rest pieces →
      Greedy P (first ++ rest) (first :: pieces)

variable {P : List α → Prop}

theorem Greedy.splits {xs : List α} {pieces : List (List α)} (h : Greedy P xs pieces) : Splits P xs pieces := by
  induction h with
  | nil => exact ⟨rfl, by simp⟩
  | cons _ hfirst _ _ ih =>
    exact ⟨by rw [List.flatten_cons, ih.flatten], List.forall_mem_cons.mpr ⟨hfirst, ih.piece⟩⟩

/-- Pieces of the whole leave as many pieces at most of what is behind a piece at its head. -/
theorem Splits.behind (hP : ∀ a b, P (a ++ b) → P a → P b) {first rest : List α} {others : List (List α)}
    (h : Splits P (first ++ rest) others) (hfirst : P first) :
    ∃ others', Splits P rest others' ∧ others'.length ≤ others.length := by
  induction others generalizing first with
  | nil =>
    obtain ⟨rfl, rfl⟩ := List.append_eq_nil_iff.mp h.flatten.symm
    exact ⟨[], ⟨rfl, by simp⟩, Nat.le_refl _⟩
  | cons p others ih =>
    obtain ⟨hp, hothers⟩ := List.forall_mem_cons.mp h.piece
    have hflatten := h.flatten
    rw [List.flatten_cons] at hflatten
    -- the cut lies in the first piece or behind it
    rcases List.append_eq_append_iff.mp hflatten with ⟨c, rfl, hc⟩ | ⟨c, rfl, hc⟩
    · obtain ⟨others', hsplits, hlen⟩ := ih ⟨hc, hothers⟩ (hP p c hfirst hp)
      exact ⟨others', hsplits, Nat.le_succ_of_le hlen⟩
    · refine ⟨c :: others, ⟨by rw [List.flatten_cons, hc], List.forall_mem_cons.mpr ⟨hP first c hp hfirst, hothers⟩⟩, ?_⟩
      simp

/-- No cutting has fewer pieces than the greedy one. -/
theorem Greedy.length_le (hP : ∀ a b, P (a ++ b) → P a → P b) {xs : List α} {pieces others : List (List α)}
    (h : Greedy P xs pieces) (hothers : Splits P xs others) : pieces.length ≤ others.length := by
  induction h generalizing others with
  | nil => exact Nat.zero_le _
  | @cons first rest pieces hne hfirst hlongest _ ih =>
    cases others with
    | nil =>
      obtain ⟨rfl, -⟩ := List.append_eq_nil_iff.mp hothers.flatten.symm
      exact absurd rfl hne
    | cons p others =>
      obtain ⟨hp, hrest⟩ := List.forall_mem_cons.mp hothers.piece
      have hflatten := hothers.flatten
      rw [List.flatten_cons] at hflatten
      -- the other first piece is no longer, so what is behind ours is cut by the other pieces
      have hlen := hlongest p others.flatten hflatten hp
      obtain ⟨c, rfl, hc⟩ : ∃ c, first = p ++ c ∧ others.flatten = c ++ rest := by
        rcases List.append_eq_append_iff.mp hflatten with ⟨c, h₁, h₂⟩ | ⟨c, h₁, h₂⟩
        · exact ⟨c, h₁, h₂⟩
        · have hnil : c = [] := by
            rw [h₁, List.length_append] at hlen
            exact List.length_eq_zero_iff.mp (by omega)
          exact ⟨[], by rw [h₁, hnil]; simp, by rw [h₂, hnil]; rfl⟩
      obtain ⟨others', hsplits, hfewer⟩ := Splits.behind hP ⟨hc, hrest⟩ (hP p c hfirst hp)
      have hpieces := ih hsplits
      simp only [List.length_cons]
      omega

end AgentUE.Data
