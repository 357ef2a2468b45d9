import Mathlib.Data.List.Pairwise
import Mathlib.Order.Lattice

/-!
# Lists read behind a cursor

A list whose elements have increasing keys is read from a cursor: the key of the last element that has
been read, or none at the beginning. What is behind the cursor is the part that has not been read.
-/

namespace AgentUE.Data.Cursors

variable {α κ : Type*} [LinearOrder κ] {key : α → κ}

/-- What is behind the cursor of a first part is the rest. -/
theorem filter_behind_eq {past rest : List α} (hsorted : (past ++ rest).Pairwise fun a b => key a < key b) :
    (past ++ rest).filter (fun x => (past.getLast?.map key).all fun c => decide (c < key x)) = rest := by
  rw [List.filter_append]
  have hpast : past.filter (fun x => (past.getLast?.map key).all fun c => decide (c < key x)) = [] := by
    rw [List.filter_eq_nil_iff]
    intro x hx
    obtain ⟨earlier, last, rfl⟩ := (List.eq_nil_or_concat past).resolve_left (List.ne_nil_of_mem hx)
    rw [List.concat_eq_append] at hx hsorted ⊢
    have hle : key x ≤ key last := by
      rcases List.mem_append.mp hx with hmem | hmem
      · have hpairwise := (List.pairwise_append.mp (List.pairwise_append.mp hsorted).1).2.2
        exact (hpairwise x hmem last (by simp)).le
      · rw [List.mem_singleton.mp hmem]
    simpa using hle
  have hrest : rest.filter (fun x => (past.getLast?.map key).all fun c => decide (c < key x)) = rest := by
    rw [List.filter_eq_self]
    intro x hx
    cases hlast : past.getLast? with
    | none => rfl
    | some last =>
      have hlt := (List.pairwise_append.mp hsorted).2.2 last (List.mem_of_getLast? hlast) x hx
      simpa using hlt
  rw [hpast, hrest, List.nil_append]

/-- What is through a cursor and what is behind it make up the list. -/
theorem filter_through_append_filter_behind {xs : List α} (hsorted : xs.Pairwise fun a b => key a < key b) (c : κ) :
    xs.filter (fun x => decide (key x ≤ c)) ++ xs.filter (fun x => decide (c < key x)) = xs := by
  induction xs with
  | nil => rfl
  | cons x rest ih =>
    obtain ⟨hfirst, hrest⟩ := List.pairwise_cons.mp hsorted
    by_cases hle : key x ≤ c
    · simp [hle, not_lt.mpr hle, ih hrest]
    · -- everything stands behind the cursor from here on
      have hlt : c < key x := not_le.mp hle
      have hbehind : ∀ y ∈ rest, c < key y := fun y hy => hlt.trans (hfirst y hy)
      have hnone : rest.filter (fun y => decide (key y ≤ c)) = [] := by
        rw [List.filter_eq_nil_iff]
        exact fun y hy => by simpa using hbehind y hy
      have hall : rest.filter (fun y => decide (c < key y)) = rest := by
        rw [List.filter_eq_self]
        exact fun y hy => by simpa using hbehind y hy
      simp [hle, hlt, hnone, hall]

/-- What is through the cursor of a first part is that part. -/
theorem filter_through_eq {past rest : List α} {c : κ} (hsorted : (past ++ rest).Pairwise fun a b => key a < key b)
    (hc : past.getLast?.map key = some c) : (past ++ rest).filter (fun x => decide (key x ≤ c)) = past := by
  have hbehind := filter_behind_eq hsorted
  have hsplit := filter_through_append_filter_behind hsorted c
  rw [hc] at hbehind
  simp only [Option.all_some] at hbehind
  rw [hbehind] at hsplit
  exact List.append_cancel_right hsplit

/-- To go through the elements from a cursor on is to read on behind it, one element after the other. -/
theorem forall_through_iff {xs : List α} (hsorted : xs.Pairwise fun a b => key a < key b) {c : κ}
    (hc : ∃ x ∈ xs, key x = c) {p : List α → Prop} :
    (∀ x ∈ xs, c ≤ key x → p (xs.filter fun y => decide (key y ≤ key x))) ↔
      ∀ past, past <+: xs.filter (fun y => decide (c < key y)) → p (xs.filter (fun y => decide (key y ≤ c)) ++ past) := by
  have hsplit := filter_through_append_filter_behind hsorted c
  -- the elements behind the cursor, with what is through them
  have hthrough : ∀ past x rest, xs.filter (fun y => decide (c < key y)) = past ++ x :: rest →
      xs.filter (fun y => decide (key y ≤ key x)) = xs.filter (fun y => decide (key y ≤ c)) ++ (past ++ [x]) := by
    intro past x rest hbehind
    rw [hbehind, List.append_cons, ← List.append_assoc] at hsplit
    have heq := filter_through_eq (c := key x) (hsplit.symm ▸ hsorted) (by simp)
    rwa [hsplit] at heq
  constructor
  · intro h past hpast
    rcases List.eq_nil_or_concat past with rfl | ⟨before, x, rfl⟩
    · obtain ⟨x, hx, rfl⟩ := hc
      simpa using h x hx le_rfl
    · obtain ⟨rest, hrest⟩ := hpast
      rw [List.concat_eq_append, List.append_assoc, List.singleton_append] at hrest
      have hmem : x ∈ xs.filter fun y => decide (c < key y) := by simp [← hrest]
      have hx : x ∈ xs ∧ c < key x := by simpa using hmem
      rw [List.concat_eq_append, ← hthrough before x rest hrest.symm]
      exact h x hx.1 hx.2.le
  · intro h x hx hle
    rcases hle.eq_or_lt with rfl | hlt
    · simpa using h [] List.nil_prefix
    · have hmem : x ∈ xs.filter fun y => decide (c < key y) := by simp [hx, hlt]
      obtain ⟨past, rest, hbehind⟩ := List.append_of_mem hmem
      rw [hthrough past x rest hbehind]
      exact h _ ⟨rest, by rw [hbehind, List.append_assoc, List.singleton_append]⟩

end AgentUE.Data.Cursors
