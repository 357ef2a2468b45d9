import Mathlib.Data.List.Infix

/-!
# Machines and their runs

A machine is a partial step function: a label that it refuses has no step. A run is a list of labels
that are taken one after the other. `AllSteps` and `AllStates` say something of every step and of every
state of a run; the rules of this module derive the one from the other through an invariant.
-/

namespace AgentUE.Data.Machine

variable {σ ℓ : Type} {step : σ → ℓ → Option σ}

/-- The state after a run. -/
def exec (step : σ → ℓ → Option σ) (s : σ) : List ℓ → Option σ
  | [] => some s
  | l :: ls => (step s l).bind fun s => exec step s ls

/-- Every step of the run, with the state it is taken in, satisfies `p`. -/
def AllSteps (step : σ → ℓ → Option σ) (p : σ → ℓ → Prop) (s : σ) : List ℓ → Prop
  | [] => True
  | l :: ls => p s l ∧ ∀ s', step s l = some s' → AllSteps step p s' ls

/-- Every state of the run satisfies `p`, the first one included. -/
def AllStates (step : σ → ℓ → Option σ) (p : σ → Prop) (s : σ) : List ℓ → Prop
  | [] => p s
  | l :: ls => p s ∧ ∀ s', step s l = some s' → AllStates step p s' ls

theorem exec_append (s : σ) (ls ms : List ℓ) :
    exec step s (ls ++ ms) = (exec step s ls).bind fun s => exec step s ms := by
  induction ls generalizing s with
  | nil => rfl
  | cons l ls ih =>
    rw [List.cons_append, exec, exec]
    cases step s l with
    | none => rfl
    | some s' => exact ih s'

theorem exec_concat (s : σ) (ls : List ℓ) (l : ℓ) :
    exec step s (ls ++ [l]) = (exec step s ls).bind fun s => step s l := by
  rw [exec_append]
  congr 1
  funext s
  rw [exec]
  cases step s l <;> rfl

/-- What holds at first and is kept by every step holds in the end. -/
theorem exec_invariant {p : σ → Prop} (hstep : ∀ s l s', p s → step s l = some s' → p s') {s s' : σ}
    {ls : List ℓ} (hs : p s) (h : exec step s ls = some s') : p s' := by
  induction ls generalizing s with
  | nil => exact Option.some.inj h ▸ hs
  | cons l ls ih =>
    obtain ⟨t, ht, h⟩ := Option.bind_eq_some_iff.mp h
    exact ih (hstep s l t hs ht) h

/-- The same for the steps of one run only. -/
theorem exec_invariant_of_allSteps {p : σ → Prop} {q : σ → ℓ → Prop}
    (hstep : ∀ s l s', p s → q s l → step s l = some s' → p s') {s s' : σ} {ls : List ℓ} (hs : p s)
    (hq : AllSteps step q s ls) (h : exec step s ls = some s') : p s' := by
  induction ls generalizing s with
  | nil => exact Option.some.inj h ▸ hs
  | cons l ls ih =>
    obtain ⟨t, ht, h⟩ := Option.bind_eq_some_iff.mp h
    exact ih (hstep s l t hs hq.1 ht) (hq.2 t ht) h

/-- An invariant of the steps of a run holds in all of its states. -/
theorem allStates_of_allSteps {p : σ → Prop} {q : σ → ℓ → Prop}
    (hstep : ∀ s l s', p s → q s l → step s l = some s' → p s') {s : σ} {ls : List ℓ} (hs : p s)
    (hq : AllSteps step q s ls) : AllStates step p s ls := by
  induction ls generalizing s with
  | nil => exact hs
  | cons l ls ih => exact ⟨hs, fun t ht => ih (hstep s l t hs hq.1 ht) (hq.2 t ht)⟩

/-- What every step keeps holds in all states of a run. -/
theorem allStates_of_invariant {p : σ → Prop} (hstep : ∀ s l s', p s → step s l = some s' → p s') {s : σ}
    (ls : List ℓ) (hs : p s) : AllStates step p s ls := by
  induction ls generalizing s with
  | nil => exact hs
  | cons l ls ih => exact ⟨hs, fun t ht => ih (hstep s l t hs ht)⟩

theorem AllStates.and {p q : σ → Prop} {s : σ} {ls : List ℓ} (hp : AllStates step p s ls)
    (hq : AllStates step q s ls) : AllStates step (fun s => p s ∧ q s) s ls := by
  induction ls generalizing s with
  | nil => exact ⟨hp, hq⟩
  | cons l ls ih => exact ⟨⟨hp.1, hq.1⟩, fun t ht => ih (hp.2 t ht) (hq.2 t ht)⟩

/-- A step that satisfies `q` wherever the states around it satisfy `p` does so along a run of such
states. -/
theorem allSteps_of_allStates {p : σ → Prop} {q : σ → ℓ → Prop}
    (h : ∀ s l s', p s → step s l = some s' → p s' → q s l) {s s' : σ} {ls : List ℓ}
    (hexec : exec step s ls = some s') (hp : AllStates step p s ls) : AllSteps step q s ls := by
  induction ls generalizing s with
  | nil => trivial
  | cons l ls ih =>
    obtain ⟨t, ht, hexec⟩ := Option.bind_eq_some_iff.mp hexec
    have hrest := hp.2 t ht
    have hfirst : p t := by cases ls with
      | nil => exact hrest
      | cons m ms => exact hrest.1
    refine ⟨h s l t hp.1 ht hfirst, fun t' ht' => ?_⟩
    obtain rfl : t = t' := Option.some.inj (ht.symm.trans ht')
    exact ih hexec hrest

/-- A step without `q` makes a state bad for good, so a run with a good end has none. -/
theorem allSteps_of_good_end {p bad : σ → Prop} {q : σ → ℓ → Prop}
    (hstep : ∀ s l s', p s → step s l = some s' → p s')
    (hbad : ∀ s l s', bad s → step s l = some s' → bad s')
    (h : ∀ s l s', p s → step s l = some s' → ¬ bad s' → q s l) {s s' : σ} {ls : List ℓ} (hs : p s)
    (hexec : exec step s ls = some s') (hgood : ¬ bad s') : AllSteps step q s ls := by
  induction ls generalizing s with
  | nil => trivial
  | cons l ls ih =>
    obtain ⟨t, ht, hexec⟩ := Option.bind_eq_some_iff.mp hexec
    refine ⟨h s l t hs ht fun hbadt => hgood (exec_invariant hbad hbadt hexec), fun t' ht' => ?_⟩
    obtain rfl : t = t' := Option.some.inj (ht.symm.trans ht')
    exact ih (hstep s l t hs ht) hexec

theorem AllStates.mono {p q : σ → Prop} (h : ∀ s, p s → q s) {s : σ} {ls : List ℓ}
    (hp : AllStates step p s ls) : AllStates step q s ls := by
  induction ls generalizing s with
  | nil => exact h s hp
  | cons l ls ih => exact ⟨h s hp.1, fun t ht => ih (hp.2 t ht)⟩

theorem AllSteps.and {p q : σ → ℓ → Prop} {s : σ} {ls : List ℓ} (hp : AllSteps step p s ls)
    (hq : AllSteps step q s ls) : AllSteps step (fun s l => p s l ∧ q s l) s ls := by
  induction ls generalizing s with
  | nil => trivial
  | cons l ls ih => exact ⟨⟨hp.1, hq.1⟩, fun t ht => ih (hp.2 t ht) (hq.2 t ht)⟩

theorem AllSteps.mono {p q : σ → ℓ → Prop} (h : ∀ s l, p s l → q s l) {s : σ} {ls : List ℓ}
    (hp : AllSteps step p s ls) : AllSteps step q s ls := by
  induction ls generalizing s with
  | nil => trivial
  | cons l ls ih => exact ⟨h s l hp.1, fun t ht => ih (hp.2 t ht)⟩

/-- What holds of the labels wherever they are taken. -/
theorem allSteps_of_labels {q : σ → ℓ → Prop} {ls : List ℓ} (h : ∀ l ∈ ls, ∀ s, q s l) (s : σ) :
    AllSteps step q s ls := by
  induction ls generalizing s with
  | nil => trivial
  | cons l ls ih =>
    exact ⟨h l List.mem_cons_self s, fun t _ => ih (fun m hm => h m (List.mem_cons_of_mem l hm)) t⟩

/-- The last step of a run. -/
theorem allSteps_concat {q : σ → ℓ → Prop} {s t : σ} {ls : List ℓ} {l : ℓ} (h : exec step s ls = some t) :
    AllSteps step q s (ls ++ [l]) ↔ AllSteps step q s ls ∧ q t l := by
  induction ls generalizing s with
  | nil =>
    obtain rfl : s = t := Option.some.inj h
    simp [AllSteps]
  | cons m ls ih =>
    obtain ⟨s', hs', h⟩ := Option.bind_eq_some_iff.mp h
    simp only [List.cons_append, AllSteps, hs', Option.some.injEq, forall_eq', ih h, and_assoc]

/-- The state that a first part of a run has reached. -/
theorem AllStates.of_prefix {p : σ → Prop} {s s' : σ} {ls ms : List ℓ} (hp : AllStates step p s (ls ++ ms))
    (h : exec step s ls = some s') : p s' := by
  induction ls generalizing s with
  | nil =>
    obtain rfl : s = s' := Option.some.inj h
    cases ms with
    | nil => exact hp
    | cons m ms => exact hp.1
  | cons l ls ih =>
    obtain ⟨t, ht, h⟩ := Option.bind_eq_some_iff.mp h
    exact ih (hp.2 t ht) h

theorem AllStates.last {p : σ → Prop} {s s' : σ} {ls : List ℓ} (hp : AllStates step p s ls)
    (h : exec step s ls = some s') : p s' := by
  rw [← List.append_nil ls] at hp
  exact hp.of_prefix h

/-- What holds of the states holds of the steps taken from them. -/
theorem AllStates.allSteps {p : σ → Prop} {q : σ → ℓ → Prop} (h : ∀ s l, p s → q s l) {s : σ} {ls : List ℓ}
    (hp : AllStates step p s ls) : AllSteps step q s ls := by
  induction ls generalizing s with
  | nil => trivial
  | cons l ls ih => exact ⟨h s l hp.1, fun t ht => ih (hp.2 t ht)⟩

/-- What holds of the empty run and is kept by every further step holds of the whole run. -/
theorem exec_history {p : List ℓ → σ → Prop} {s s' : σ} {ls : List ℓ} (hs : p [] s)
    (hstep : ∀ ls t l t', p ls t → step t l = some t' → p (ls ++ [l]) t') (h : exec step s ls = some s') :
    p ls s' := by
  induction ls using List.reverseRecOn generalizing s' with
  | nil => exact Option.some.inj h ▸ hs
  | append_singleton ls l ih =>
    rw [exec_concat] at h
    obtain ⟨t, ht, h⟩ := Option.bind_eq_some_iff.mp h
    exact hstep ls t l s' (ih ht) h

/-- The same where every step of the run satisfies `q`. -/
theorem exec_history_of_allSteps {p : List ℓ → σ → Prop} {q : σ → ℓ → Prop} {s s' : σ} {ls : List ℓ} (hs : p [] s)
    (hstep : ∀ ls t l t', p ls t → q t l → step t l = some t' → p (ls ++ [l]) t') (hq : AllSteps step q s ls)
    (h : exec step s ls = some s') : p ls s' := by
  -- the steps already taken stand before the list of the induction
  have hrun : ∀ before t ms, p before t → AllSteps step q t ms → exec step t ms = some s' → p (before ++ ms) s' := by
    intro before t ms ht hms h
    induction ms generalizing before t with
    | nil =>
      obtain rfl := Option.some.inj h
      rwa [List.append_nil]
    | cons m ms ih =>
      obtain ⟨t', ht', h⟩ := Option.bind_eq_some_iff.mp h
      rw [List.append_cons]
      exact ih (before ++ [m]) t' (hstep before t m t' ht hms.1 ht') (hms.2 t' ht') h
  exact hrun [] s ls hs hq h

/-- A run stays good while its steps satisfy `q`, and is bad for good after one that does not. -/
theorem exec_history_or {p b : List ℓ → σ → Prop} {q : σ → ℓ → Prop} {s s' : σ} {ls : List ℓ} (hs : p [] s)
    (hgood : ∀ ls t l t', p ls t → q t l → step t l = some t' → p (ls ++ [l]) t')
    (hturn : ∀ ls t l t', p ls t → ¬ q t l → step t l = some t' → b (ls ++ [l]) t')
    (hbad : ∀ ls t l t', b ls t → step t l = some t' → b (ls ++ [l]) t') (h : exec step s ls = some s') :
    AllSteps step q s ls ∧ p ls s' ∨ ¬ AllSteps step q s ls ∧ b ls s' := by
  induction ls using List.reverseRecOn generalizing s' with
  | nil => exact .inl ⟨trivial, Option.some.inj h ▸ hs⟩
  | append_singleton ls l ih =>
    rw [exec_concat] at h
    obtain ⟨t, ht, h⟩ := Option.bind_eq_some_iff.mp h
    have hsteps : AllSteps step q s (ls ++ [l]) ↔ AllSteps step q s ls ∧ q t l := allSteps_concat ht
    rcases ih ht with ⟨hls, hp⟩ | ⟨hls, hb⟩
    · by_cases hq : q t l
      · exact .inl ⟨hsteps.mpr ⟨hls, hq⟩, hgood ls t l s' hp hq h⟩
      · exact .inr ⟨fun hall => hq (hsteps.mp hall).2, hturn ls t l s' hp hq h⟩
    · exact .inr ⟨fun hall => hls (hsteps.mp hall).1, hbad ls t l s' hb h⟩

/-- A party takes at most as many steps of its own as its variant allows. -/
theorem own_add_variant_le (inv : σ → Prop) (variant : σ → ℕ) (own : ℓ → Bool)
    (hinv : ∀ s l s', inv s → step s l = some s' → inv s')
    (hown : ∀ s l s', inv s → step s l = some s' → own l = true → variant s' < variant s)
    (hothers : ∀ s l s', inv s → step s l = some s' → own l = false → variant s' ≤ variant s) {s s' : σ}
    {ls : List ℓ} (hs : inv s) (hexec : exec step s ls = some s') :
    (ls.filter own).length + variant s' ≤ variant s := by
  induction ls generalizing s with
  | nil =>
    obtain rfl := Option.some.inj hexec
    simp
  | cons l ls ih =>
    obtain ⟨t, ht, hexec⟩ := Option.bind_eq_some_iff.mp hexec
    have hrest := ih (hinv s l t hs ht) hexec
    cases hl : own l with
    | true =>
      have hlt := hown s l t hs ht hl
      rw [List.filter_cons_of_pos hl, List.length_cons]
      omega
    | false =>
      have hle := hothers s l t hs ht hl
      rw [List.filter_cons_of_neg (by simp [hl])]
      omega

/-- A party is done after as many steps of its own as its variant allows: each of them lowers the variant, nobody else
raises it, and a variant of zero means that the party is done. -/
theorem done_of_variant (inv done : σ → Prop) (variant : σ → ℕ) (own : ℓ → Bool)
    (hinv : ∀ s l s', inv s → step s l = some s' → inv s')
    (hown : ∀ s l s', inv s → step s l = some s' → own l = true → ¬ done s → variant s' < variant s)
    (hothers : ∀ s l s', inv s → step s l = some s' → own l = false → variant s' ≤ variant s)
    (hstays : ∀ s l s', done s → step s l = some s' → done s') (hzero : ∀ s, variant s = 0 → done s) {s s' : σ}
    {ls : List ℓ} (hs : inv s) (hexec : exec step s ls = some s')
    (henough : variant s ≤ (ls.filter own).length) : done s' := by
  by_cases hdone : done s
  · exact exec_invariant hstays hdone hexec
  induction ls generalizing s with
  | nil =>
    obtain rfl := Option.some.inj hexec
    exact absurd (hzero s (Nat.le_zero.mp henough)) hdone
  | cons l ls ih =>
    obtain ⟨t, ht, hexec⟩ := Option.bind_eq_some_iff.mp hexec
    by_cases hdonet : done t
    · exact exec_invariant hstays hdonet hexec
    refine ih (hinv s l t hs ht) hexec ?_ hdonet
    cases hl : own l with
    | true =>
      have hlt := hown s l t hs ht hl hdone
      rw [List.filter_cons_of_pos hl, List.length_cons] at henough
      omega
    | false =>
      rw [List.filter_cons_of_neg (by simp [hl])] at henough
      exact (hothers s l t hs ht hl).trans henough

/-- The steps of a run can be checked one after the other. -/
instance decidableAllSteps {p : σ → ℓ → Prop} [∀ s l, Decidable (p s l)] :
    ∀ (s : σ) (ls : List ℓ), Decidable (AllSteps step p s ls)
  | _, [] => isTrue trivial
  | s, l :: ls =>
    match h : step s l with
    | none => decidable_of_iff (p s l) (by simp [AllSteps, h])
    | some s' =>
      have := decidableAllSteps (p := p) s' ls
      decidable_of_iff (p s l ∧ AllSteps step p s' ls) (by simp [AllSteps, h])

end AgentUE.Data.Machine
