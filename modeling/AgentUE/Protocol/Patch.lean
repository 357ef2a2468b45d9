import AgentUE.Protocol.Document

/-!
# Reading and patching a document

The parts of the three reducers that are the same program: the outcome of a call, the masked read with
its flat fallback, and the loop that changes the first block with a given identity.
-/

namespace AgentUE

open Data

/-- What one call of a reducer leaves: the state it returns, or the failure it reports together with
the snapshot it was given, as far as the call has already changed it. -/
inductive Applied (ε σ : Type) where
  | returned (s : σ)
  | raised (r : ε) (s : σ)
deriving DecidableEq

namespace Applied

variable {ε σ τ : Type}

/-- The state after an accepted call. -/
def state? : Applied ε σ → Option σ
  | .returned s => some s
  | .raised _ _ => none

@[simp] theorem state?_returned (s : σ) : (returned s : Applied ε σ).state? = some s := rfl

@[simp] theorem state?_raised (r : ε) (s : σ) : (raised r s : Applied ε σ).state? = none := rfl

theorem state?_eq_some {x : Applied ε σ} {s : σ} : x.state? = some s ↔ x = .returned s := by
  cases x <;> simp

/-- Finish a call whose result is still to be stored, with `s` the snapshot until then. -/
def ofExcept (s : σ) (store : τ → σ) : Except ε τ → Applied ε σ
  | .ok a => .returned (store a)
  | .error r => .raised r s

theorem state?_ofExcept {s : σ} {store : τ → σ} {x : Except ε τ} {s' : σ} :
    (ofExcept s store x).state? = some s' ↔ ∃ a, x = .ok a ∧ store a = s' := by
  cases x <;> simp [ofExcept]

theorem state?_ofExcept_eq (s : σ) (store : τ → σ) (x : Except ε τ) :
    (ofExcept s store x).state? = x.toOption.map store := by
  cases x <;> rfl

/-- Apply the events of a run one after the other, up to the first that is refused. -/
def run {ι : Type} (step : σ → ι → Applied ε σ) (s : σ) : List ι → Applied ε σ
  | [] => .returned s
  | e :: events =>
    match step s e with
    | .returned s => run step s events
    | .raised r s => .raised r s

/-- A run over two parts. -/
theorem run_append {ι : Type} (step : σ → ι → Applied ε σ) (s : σ) (events rest : List ι) :
    (run step s (events ++ rest)).state? =
      (run step s events).state?.bind fun s => (run step s rest).state? := by
  induction events generalizing s with
  | nil => rfl
  | cons e events ih =>
    rw [List.cons_append, run, run]
    cases step s e with
    | returned s' => exact ih s'
    | raised r s' => rfl

/-- A run over events that are read first. -/
theorem run_map {ι κ : Type} (step : σ → ι → Applied ε σ) (f : κ → ι) (s : σ) (events : List κ) :
    run step s (events.map f) = run (fun s e => step s (f e)) s events := by
  induction events generalizing s with
  | nil => rfl
  | cons e events ih =>
    rw [List.map_cons, run, run]
    cases step s (f e) with
    | returned s' => exact ih s'
    | raised r s' => rfl

/-- A run over one more event. -/
theorem run_concat {ι : Type} (step : σ → ι → Applied ε σ) (s : σ) (events : List ι) (e : ι) :
    (run step s (events ++ [e])).state? = (run step s events).state?.bind fun s => (step s e).state? := by
  rw [run_append]
  congr 1
  funext s
  rw [run]
  cases step s e <;> rfl

/-- What every accepted event keeps holds after a run. -/
theorem run_invariant {ι : Type} {step : σ → ι → Applied ε σ} {p : σ → Prop}
    (hstep : ∀ s e s', p s → (step s e).state? = some s' → p s') {s s' : σ} {events : List ι} (hs : p s)
    (h : (run step s events).state? = some s') : p s' := by
  induction events generalizing s with
  | nil => exact Option.some.inj h ▸ hs
  | cons e events ih =>
    rw [run] at h
    cases he : step s e with
    | returned t =>
      rw [he] at h
      exact ih (hstep s e t hs (by rw [he]; rfl)) h
    | raised r t => simp [he] at h

/-- The same, where an event of one kind, like a start, makes it hold and the run begins with one. -/
theorem run_invariant_of_first {ι : Type} {step : σ → ι → Applied ε σ} {p : σ → Prop} (first : ι → Prop)
    (hfirst : ∀ s e s', first e → (step s e).state? = some s' → p s')
    (hstep : ∀ s e s', ¬ first e → p s → (step s e).state? = some s' → p s') {s s' : σ} {e : ι} {events : List ι}
    (he : first e) (h : (run step s (e :: events)).state? = some s') : p s' := by
  rw [run] at h
  cases hs : step s e with
  | raised r t => simp [hs] at h
  | returned t =>
    rw [hs] at h
    refine run_invariant (fun s e s' hp h => ?_) (hfirst s e t he (by rw [hs]; rfl)) h
    by_cases hf : first e
    · exact hfirst s e s' hf h
    · exact hstep s e s' hf hp h

/-- An accepted call leads to a state with the property, a refused one changes nothing. -/
def Atomic (p : σ → Prop) (s : σ) : Applied ε σ → Prop
  | .returned s' => p s'
  | .raised _ s' => s' = s

theorem Atomic.of_state? {p : σ → Prop} {s s' : σ} {x : Applied ε σ} (h : x.Atomic p s) (hx : x.state? = some s') :
    p s' := by
  cases x with
  | returned t => exact Option.some.inj hx ▸ h
  | raised r t => cases hx

theorem atomic_ofExcept {p : σ → Prop} {s : σ} {store : τ → σ} {x : Except ε τ} (h : ∀ a, p (store a)) :
    (ofExcept s store x).Atomic p s := by
  cases x with
  | ok a => exact h a
  | error r => rfl

end Applied

section Reading

variable {κ α : Type} [DecidableEq κ]

/-- Follow the keys of a path through nested objects. -/
def descend : DocTree κ α → List κ → Option (DocTree κ α)
  | v, [] => some v
  | .obj fs, part :: rest =>
    match Fields.get? fs part with
    | some v => descend v rest
    | none => none
  | _, _ :: _ => none

/-- The value at a path, or else the top-level member of the last name (the flat leaf payload). -/
def readPathOrLeaf (source : List (κ × DocTree κ α)) (path : List κ) : Option (DocTree κ α) :=
  (descend (.obj source) path).or (path.getLast?.bind (Fields.get? source))

/-! ### Reading after a write -/

theorem descend_cons (fs : List (κ × DocTree κ α)) (k : κ) (rest : List κ) :
    descend (.obj fs) (k :: rest) = (Fields.get? fs k).bind (descend · rest) := by
  rw [descend]
  cases Fields.get? fs k <;> rfl

/-- What is stored under a key is read through the object there, or is not read at all. -/
theorem descend_childAt (fs : List (κ × DocTree κ α)) (k j : κ) (rest : List κ) :
    descend (.obj (DocTree.childAt fs k)) (j :: rest) = descend (.obj fs) (k :: j :: rest) := by
  rw [descend_cons fs, DocTree.childAt]
  cases Fields.get? fs k with
  | none => rfl
  | some v => cases v <;> rfl

theorem descend_writeAt_self (fs : List (κ × DocTree κ α)) {path : List κ} (hne : path ≠ []) (v : DocTree κ α) :
    descend (.obj (DocTree.writeAt fs path v)) path = some v := by
  induction path generalizing fs with
  | nil => exact absurd rfl hne
  | cons k rest ih =>
    rw [descend_cons, DocTree.get?_writeAt_self, Option.bind_some]
    split_ifs with hrest
    · rw [hrest, descend]
    · exact ih (DocTree.childAt fs k) hrest

/-- A write changes what is read at a path only where the one path is a part of the other. -/
theorem descend_writeAt_of_incomparable (fs : List (κ × DocTree κ α)) {path q : List κ} (hq : ¬ q <+: path)
    (hpath : ¬ path <+: q) (v : DocTree κ α) :
    descend (.obj (DocTree.writeAt fs path v)) q = descend (.obj fs) q := by
  induction path generalizing fs q with
  | nil => exact absurd List.nil_prefix hpath
  | cons k rest ih =>
    cases q with
    | nil => exact absurd List.nil_prefix hq
    | cons j q =>
      by_cases hj : j = k
      · subst hj
        rw [List.prefix_cons_inj] at hq hpath
        have hrest : rest ≠ [] := by
          rintro rfl
          exact hpath List.nil_prefix
        obtain ⟨i, q, rfl⟩ : ∃ i q', q = i :: q' := by
          refine List.exists_cons_of_ne_nil ?_
          rintro rfl
          exact hq List.nil_prefix
        rw [descend_cons, DocTree.get?_writeAt_self, if_neg hrest, Option.bind_some,
          ih (DocTree.childAt fs j) hq hpath, descend_childAt]
      · rw [descend_cons, DocTree.get?_writeAt_ne fs k rest v hj, descend_cons]

/-- After a write there is an object at every node on the way. -/
theorem descend_writeAt_of_prefix (fs : List (κ × DocTree κ α)) {path q : List κ} (hq : q <+: path)
    (hne : q ≠ path) (v : DocTree κ α) :
    ∃ gs, descend (.obj (DocTree.writeAt fs path v)) q = some (.obj gs) := by
  induction path generalizing fs q with
  | nil => exact absurd (List.prefix_nil.mp hq) hne
  | cons k rest ih =>
    cases q with
    | nil => exact ⟨_, rfl⟩
    | cons j q =>
      obtain ⟨rfl, htail⟩ := List.cons_prefix_cons.mp hq
      have hrest : rest ≠ [] := by
        rintro rfl
        exact hne (by rw [List.prefix_nil.mp htail])
      rw [descend_cons, DocTree.get?_writeAt_self, if_neg hrest, Option.bind_some]
      exact ih (DocTree.childAt fs j) htail fun h => hne (by rw [h])

/-- The second of two writes to one path is the one that counts. -/
theorem writeAt_writeAt (fs : List (κ × DocTree κ α)) (path : List κ) (v w : DocTree κ α) :
    DocTree.writeAt (DocTree.writeAt fs path v) path w = DocTree.writeAt fs path w := by
  induction path generalizing fs with
  | nil => rfl
  | cons k rest ih =>
    cases rest with
    | nil => exact Fields.set_set fs k v w
    | cons j rest =>
      have hchild : DocTree.childAt (DocTree.writeAt fs (k :: j :: rest) v) k =
          DocTree.writeAt (DocTree.childAt fs k) (j :: rest) v := by
        rw [DocTree.childAt, DocTree.get?_writeAt_self, if_neg (List.cons_ne_nil j rest)]
        rfl
      rw [DocTree.writeAt_cons_cons _ k j, hchild, ih, DocTree.writeAt_cons_cons, DocTree.writeAt_cons_cons,
        Fields.set_set]

/-- `dict.setdefault` -/
def setDefault (fs : List (κ × DocTree κ α)) (k : κ) (v : DocTree κ α) : List (κ × DocTree κ α) :=
  if Fields.has fs k then fs else Fields.set fs k v

theorem setDefault_of_get? {fs : List (κ × DocTree κ α)} {k : κ} {v w : DocTree κ α}
    (h : Fields.get? fs k = some w) : setDefault fs k v = fs := by
  simp [setDefault, Fields.has, h]

theorem get?_setDefault_ne {fs : List (κ × DocTree κ α)} {j k : κ} {v : DocTree κ α} (hj : j ≠ k) :
    Fields.get? (setDefault fs k v) j = Fields.get? fs j := by
  unfold setDefault
  split
  · rfl
  · exact Fields.get?_set_ne fs v hj

end Reading

/-! ## The first block with an identity -/

/-- The first block of a snapshot with the given id. -/
def blockWithId {ν : Type} (s : JsonObject ν) (id : String) : Option (JsonObject ν) :=
  ((((Fields.get? s "blocks").bind DocTree.asArr).bind DocTree.asObjs).getD []).find? fun b => idOf b == some id

section UpdateFirst

variable {ε β γ : Type}

/-- Change the first element that satisfies `p`; `missing` is what happens when there is none, given as
the elements to add at the end. Both the test and the change may fail. -/
def updateFirst (p : β → Except ε Bool) (f : β → Except ε β) (missing : Except ε (List β)) :
    List β → Except ε (List β)
  | [] => missing
  | b :: rest => do
    if (← p b) then return (← f b) :: rest
    else return b :: (← updateFirst p f missing rest)

/-- A test that never fails picks the element; the rest of the list is untouched. -/
theorem updateFirst_eq_ok {p : β → Bool} {f : β → Except ε β} {missing : Except ε (List β)}
    {bs bs' : List β} :
    updateFirst (fun b => .ok (p b)) f missing bs = .ok bs' ↔
      (∃ pre b b' post, bs = pre ++ b :: post ∧ (∀ c ∈ pre, p c = false) ∧ p b = true ∧ f b = .ok b' ∧
        bs' = pre ++ b' :: post) ∨
      (∃ added, (∀ c ∈ bs, p c = false) ∧ missing = .ok added ∧ bs' = bs ++ added) := by
  induction bs generalizing bs' with
  | nil =>
    simp only [updateFirst, List.nil_append, List.not_mem_nil, false_imp_iff, implies_true, true_and]
    constructor
    · exact fun h => .inr ⟨bs', h, rfl⟩
    · rintro (⟨pre, b, b', post, h, -⟩ | ⟨added, h, rfl⟩)
      · exact absurd h (by simp)
      · exact h
  | cons b rest ih =>
    by_cases hb : p b = true
    · have hstep : updateFirst (fun b => .ok (p b)) f missing (b :: rest) =
          (do return (← f b) :: rest) := by
        simp [updateFirst, hb, bind, Except.bind]
      rw [hstep, bind_eq_ok]
      constructor
      · rintro ⟨b', hf, h⟩
        obtain rfl : b' :: rest = bs' := by simpa [pure, Except.pure] using h
        exact .inl ⟨[], b, b', rest, rfl, by simp, hb, hf, rfl⟩
      · rintro (⟨pre, c, c', post, h, hpre, hc, hf, rfl⟩ | ⟨added, hall, -⟩)
        · cases pre with
          | nil =>
            obtain ⟨rfl, rfl⟩ := List.cons.inj h
            exact ⟨c', hf, rfl⟩
          | cons d pre =>
            obtain ⟨rfl, -⟩ := List.cons.inj h
            exact absurd hb (by simp [hpre b])
        · exact absurd hb (by simp [hall b])
    · have hb' : p b = false := by simpa using hb
      have hstep : updateFirst (fun b => .ok (p b)) f missing (b :: rest) =
          (do return b :: (← updateFirst (fun b => .ok (p b)) f missing rest)) := by
        simp [updateFirst, hb', bind, Except.bind]
      rw [hstep, bind_eq_ok]
      constructor
      · rintro ⟨tail, htail, h⟩
        obtain rfl : b :: tail = bs' := by simpa [pure, Except.pure] using h
        rcases ih.mp htail with ⟨pre, c, c', post, rfl, hpre, hc, hf, rfl⟩ | ⟨added, hall, hm, rfl⟩
        · exact .inl ⟨b :: pre, c, c', post, rfl, by simpa [hb'] using hpre, hc, hf, rfl⟩
        · exact .inr ⟨added, by simpa [hb'] using hall, hm, rfl⟩
      · rintro (⟨pre, c, c', post, h, hpre, hc, hf, rfl⟩ | ⟨added, hall, hm, rfl⟩)
        · cases pre with
          | nil =>
            obtain ⟨rfl, -⟩ := List.cons.inj h
            exact absurd hc hb
          | cons d pre =>
            obtain ⟨rfl, rfl⟩ := List.cons.inj h
            exact ⟨pre ++ c' :: post, ih.mpr (.inl ⟨pre, c, c', post, rfl,
              fun e he => hpre e (List.mem_cons_of_mem _ he), hc, hf, rfl⟩), rfl⟩
        · exact ⟨rest ++ added, ih.mpr (.inr ⟨added, fun e he => hall e (List.mem_cons_of_mem _ he),
            hm, rfl⟩), rfl⟩

/-- What the loop comes to when it has found the element. -/
theorem updateFirst_cons_found {p : β → Except ε Bool} {b : β} (h : p b = .ok true) (f : β → Except ε β)
    (m : Except ε (List β)) (rest : List β) :
    (updateFirst p f m (b :: rest)).toOption = (f b).toOption.map (· :: rest) := by
  simp only [updateFirst, h, bind, Except.bind, if_true]
  cases f b with
  | error r => rfl
  | ok b' => rfl

/-- What it comes to when it goes on. -/
theorem updateFirst_cons_other {p : β → Except ε Bool} {b : β} (h : p b = .ok false) (f : β → Except ε β)
    (m : Except ε (List β)) (rest : List β) :
    (updateFirst p f m (b :: rest)).toOption = (updateFirst p f m rest).toOption.map (b :: ·) := by
  simp only [updateFirst, h, bind, Except.bind, Bool.false_eq_true, if_false]
  cases updateFirst p f m rest with
  | error r => rfl
  | ok rest' => rfl

/-- Two runs of the loop over lists that correspond element by element. -/
theorem updateFirst_map {δ : Type} (g : β → γ) {p : β → Except ε Bool} {q : γ → Except δ Bool}
    {f : β → Except ε β} {h : γ → Except δ γ} {m : Except ε (List β)} {n : Except δ (List γ)}
    {bs : List β} (hp : ∀ b ∈ bs, ∃ t, p b = .ok t ∧ q (g b) = .ok t)
    (hf : ∀ b ∈ bs, p b = .ok true → (h (g b)).toOption = (f b).toOption.map g)
    (hm : (∀ b ∈ bs, p b = .ok false) → n.toOption = m.toOption.map (List.map g)) :
    (updateFirst q h n (bs.map g)).toOption = (updateFirst p f m bs).toOption.map (List.map g) := by
  induction bs with
  | nil => exact hm (by simp)
  | cons b rest ih =>
    obtain ⟨t, hpb, hqb⟩ := hp b (by simp)
    rw [List.map_cons]
    cases t with
    | true =>
      rw [updateFirst_cons_found hpb, updateFirst_cons_found hqb, hf b (by simp) hpb, Option.map_map, Option.map_map]
      rfl
    | false =>
      have hrest := ih (fun c hc => hp c (by simp [hc])) (fun c hc => hf c (by simp [hc]))
        (fun hall => hm (by simpa [hpb] using hall))
      rw [updateFirst_cons_other hpb, updateFirst_cons_other hqb, hrest, Option.map_map, Option.map_map]
      rfl

/-- Where the element is found, what happens when there is none does not matter. -/
theorem updateFirst_of_any {p : β → Bool} {bs : List β} (h : bs.any p = true) (f : β → Except ε β)
    (m n : Except ε (List β)) :
    updateFirst (fun b => .ok (p b)) f m bs = updateFirst (fun b => .ok (p b)) f n bs := by
  induction bs with
  | nil => cases h
  | cons b rest ih =>
    cases hb : p b with
    | true => simp [updateFirst, hb, bind, Except.bind]
    | false =>
      rw [List.any_cons, hb, Bool.false_or] at h
      simp [updateFirst, hb, bind, Except.bind, ih h]

/-- Where it is not found, the change does not matter. -/
theorem updateFirst_of_not_any {p : β → Bool} {bs : List β} (h : bs.any p = false) (f g : β → Except ε β)
    (m : Except ε (List β)) :
    updateFirst (fun b => .ok (p b)) f m bs = updateFirst (fun b => .ok (p b)) g m bs := by
  induction bs with
  | nil => rfl
  | cons b rest ih =>
    rw [List.any_cons, Bool.or_eq_false_iff] at h
    simp [updateFirst, h.1, bind, Except.bind, ih h.2]

/-- Where it is not found and there is nothing to add, the loop fails. -/
theorem updateFirst_of_error {p : β → Bool} {bs : List β} (h : bs.any p = false) (f : β → Except ε β) (r : ε) :
    updateFirst (fun b => .ok (p b)) f (.error r) bs = .error r := by
  induction bs with
  | nil => rfl
  | cons b rest ih =>
    rw [List.any_cons, Bool.or_eq_false_iff] at h
    simp [updateFirst, h.1, bind, Except.bind, ih h.2]

/-- Two runs of the loop one after the other, where the first leaves the block that it has changed to be found
again. -/
theorem updateFirst_twice {p : β → Except ε Bool} {f g h : β → Except ε β} {m n k : Except ε (List β)}
    (hp : ∀ b b', p b = .ok true → f b = .ok b' → p b' = .ok true)
    (hf : ∀ b, p b = .ok true → (h b).toOption = (f b).toOption.bind fun b' => (g b').toOption)
    (hm : n.toOption = m.toOption.bind fun added => (updateFirst p g k added).toOption) (bs : List β) :
    (updateFirst p h n bs).toOption =
      (updateFirst p f m bs).toOption.bind fun bs' => (updateFirst p g k bs').toOption := by
  induction bs with
  | nil => exact hm
  | cons b rest ih =>
    cases hpb : p b with
    | error r => simp [updateFirst, hpb, bind, Except.bind, Except.toOption]
    | ok found =>
      cases found with
      | true =>
        rw [updateFirst_cons_found hpb, updateFirst_cons_found hpb, hf b hpb]
        cases hb : f b with
        | error r => rfl
        | ok b' => exact (updateFirst_cons_found (hp b b' hpb hb) g k rest).symm
      | false =>
        rw [updateFirst_cons_other hpb, updateFirst_cons_other hpb, ih]
        cases updateFirst p f m rest with
        | error r => rfl
        | ok rest' => exact (updateFirst_cons_other hpb g k rest').symm

/-- What the loop of a test that never fails comes to at the element, and before it. -/
theorem updateFirst_cons {p : β → Bool} (f : β → Except ε β) (m : Except ε (List β)) (b : β) (rest : List β) :
    (updateFirst (fun b => .ok (p b)) f m (b :: rest)).toOption =
      if p b then (f b).toOption.map (· :: rest)
      else (updateFirst (fun b => .ok (p b)) f m rest).toOption.map (b :: ·) := by
  cases hp : p b with
  | true => exact updateFirst_cons_found (by rw [hp]) f m rest
  | false => exact updateFirst_cons_other (by rw [hp]) f m rest

/-- Where one of two loops finds its element at the head, the other goes on behind it before and after the change. -/
theorem updateFirst_comm_cons {p q : β → Bool} {f : β → Except ε β} {b : β} (hp : p b = true) (hq : q b = false)
    (hkeep : ∀ b', f b = .ok b' → q b' = false) (g : β → Except ε β) (m n : Except ε (List β)) (rest : List β) :
    ((updateFirst (fun b => .ok (p b)) f m (b :: rest)).toOption.bind fun bs =>
        (updateFirst (fun b => .ok (q b)) g n bs).toOption) =
      (updateFirst (fun b => .ok (q b)) g n (b :: rest)).toOption.bind fun bs =>
        (updateFirst (fun b => .ok (p b)) f m bs).toOption := by
  rw [updateFirst_cons, updateFirst_cons, if_pos hp, if_neg (by simp [hq]), Option.bind_map, Option.bind_map]
  simp only [Function.comp_def, updateFirst_cons f m b, if_pos hp]
  cases hb : (f b).toOption with
  | none => cases (updateFirst (fun b => .ok (q b)) g n rest).toOption <;> rfl
  | some b' =>
    rw [Option.bind_some, updateFirst_cons, if_neg (by simp [hkeep b' (toOption_eq_some.mp hb)])]
    cases (updateFirst (fun b => .ok (q b)) g n rest).toOption <;> rfl

/-- Two loops that look for different elements commute, where both are found and no change makes one of them the
other. -/
theorem updateFirst_comm {p q : β → Bool} {f g : β → Except ε β} (hpq : ∀ b, p b = true → q b = false)
    (hf : ∀ b b', p b = true → f b = .ok b' → p b' = true) (hg : ∀ b b', q b = true → g b = .ok b' → q b' = true)
    (m n : Except ε (List β)) {bs : List β} (hp : bs.any p = true) (hq : bs.any q = true) :
    ((updateFirst (fun b => .ok (p b)) f m bs).toOption.bind fun bs' =>
        (updateFirst (fun b => .ok (q b)) g n bs').toOption) =
      (updateFirst (fun b => .ok (q b)) g n bs).toOption.bind fun bs' =>
        (updateFirst (fun b => .ok (p b)) f m bs').toOption := by
  induction bs with
  | nil => cases hp
  | cons b rest ih =>
    cases hpb : p b with
    | true => exact updateFirst_comm_cons hpb (hpq b hpb) (fun b' hb' => hpq b' (hf b b' hpb hb')) g m n rest
    | false =>
      cases hqb : q b with
      | true =>
        refine (updateFirst_comm_cons hqb hpb (fun b' hb' => ?_) f n m rest).symm
        exact Bool.eq_false_iff.mpr fun h => Bool.false_ne_true ((hpq b' h).symm.trans (hg b b' hqb hb'))
      | false =>
        rw [List.any_cons, hpb, Bool.false_or] at hp
        rw [List.any_cons, hqb, Bool.false_or] at hq
        rw [updateFirst_cons, updateFirst_cons, if_neg (by simp [hpb]), if_neg (by simp [hqb]), Option.bind_map,
          Option.bind_map]
        simp only [Function.comp_def, updateFirst_cons _ _ b, hpb, hqb, Bool.false_eq_true, if_false]
        simpa only [Option.map_bind, Function.comp_def] using congrArg (Option.map (b :: ·)) (ih hp hq)

end UpdateFirst

end AgentUE
