import AgentUE.Data.Lease
import AgentUE.PythonRunner.Recovery
import Mathlib.Data.Fintype.Basic

/-!
# Python runner: scanners over all tasks

Reference: `recover_timeouts` in `sdks/python/src/agentue/runner/runner.py`, `claim_recovery` and
`release_recovery` in `redis_bridge.py`. Any number of calls run at once, in one instance or in many; each goes
through the ids that it has read, and may find there what another one has left.
-/

namespace AgentUE.PythonRunner.Scan

open Data

variable {κ ν τ ι : Type}

/-- A call of `recover_timeouts`: the ids that are left, where it stands with the first of them. -/
structure Call (τ ν : Type) where
  ids : List τ
  recoverer : Recoverer ν

/-- Before the next claim. -/
def Call.next (ids : List τ) : Call τ ν := ⟨ids, ⟨.listed, []⟩⟩

/-- The tasks, the claims, the calls and how often recovery has invoked `complete`. The key of a claim has no
holder in it; the model keeps it to say whose claim it is. -/
structure World (κ ν τ ι : Type) where
  now : ℕ
  stores : τ → Store κ ν
  claims : τ → Option (Lease ι)
  calls : ι → Call τ ν
  completions : τ → ℕ

def World.setCall [DecidableEq ι] (i : ι) (call : Call τ ν) (w : World κ ν τ ι) : World κ ν τ ι :=
  { w with calls := Function.update w.calls i call }

@[simp] theorem World.setCall_self [DecidableEq ι] (i : ι) (call : Call τ ν) (w : World κ ν τ ι) :
    (w.setCall i call).calls i = call :=
  Function.update_self ..

theorem World.setCall_of_ne [DecidableEq ι] {i j : ι} (h : j ≠ i) (call : Call τ ν) (w : World κ ν τ ι) :
    (w.setCall i call).calls j = w.calls j :=
  Function.update_of_ne h ..

/-- The keys of a task. -/
def World.store (w : World κ ν τ ι) (t : τ) : Store κ ν := { w.stores t with claimed := (w.claims t).isSome }

/-- What happens next. -/
inductive Label (κ ν τ ι : Type) where
  /-- a call begins and reads ids whose heartbeat has expired; that it may miss some only adds runs -/
  | lists (i : ι) (cutoff : ℕ) (ids : List τ)
  /-- a call takes its next step -/
  | advance (i : ι) (fresh : κ)
  /-- the next command of a call raises without effect, or a cancellation is delivered to it -/
  | fails (i : ι)
  /-- time passes -/
  | waits (time : ℕ)
  /-- another party writes to the keys of a task -/
  | writes (t : τ) (command : Command ν) (fresh : κ)
  /-- another party touches the heartbeat of a task -/
  | touches (t : τ) (time : ℕ)

/-- The next step of a call with the first of its ids. -/
def World.advance [DecidableEq τ] [DecidableEq ι] (ttl : ℕ) (i : ι) (t : τ) (rest : List τ) (fresh : κ)
    (w : World κ ν τ ι) : World κ ν τ ι :=
  -- the cutoff is for a recoverer that lists; this one has been given its id
  let (command, claimed, recoverer) := (w.calls i).recoverer.step 0 (w.store t)
  { w with
    stores := Function.update w.stores t ((w.stores t).runOption fresh command)
    claims := Function.update w.claims t (if claimed then (w.claims t).or (some ⟨i, w.now + ttl⟩) else none)
    calls := Function.update w.calls i (if recoverer.phase = .idle then .next rest else ⟨t :: rest, recoverer⟩)
    completions :=
      if recoverer.phase = .completing then Function.update w.completions t (w.completions t + 1) else w.completions }

/-- What an exception leaves to do: between the claim and the release only the release. `complete` has none
that is not caught. -/
def Call.fails (call : Call τ ν) : Option (Call τ ν) :=
  match call.ids, call.recoverer.phase with
  -- the `finally` of `recover_timeouts` is only around what follows a claim
  | [], _ | _, .idle | _, .completing => none
  | _, .listed | _, .releasing => some (.next [])
  | t :: _, _ => some ⟨[t], ⟨.releasing, []⟩⟩

/-- One step; a claim disappears `ttl` after it has been set. -/
def step [LinearOrder κ] [DecidableEq τ] [DecidableEq ι] (ttl : ℕ) (w : World κ ν τ ι) :
    Label κ ν τ ι → Option (World κ ν τ ι)
  | .lists i cutoff ids =>
    if (w.calls i).ids = [] ∧ ids.all (fun t => (w.stores t).expired cutoff) then
      some (w.setCall i (.next ids))
    else none
  | .advance i fresh =>
    match (w.calls i).ids with
    | [] => none
    | t :: rest => if (w.stores t).accepts fresh then some (w.advance ttl i t rest fresh) else none
  | .fails i => (w.calls i).fails.map fun call => w.setCall i call
  | .waits time =>
    if w.now ≤ time then some { w with now := time, claims := fun t => leaseAt time (w.claims t) } else none
  | .writes t command fresh =>
    if (w.stores t).accepts fresh then
      some { w with stores := Function.update w.stores t ((w.stores t).run fresh command) }
    else none
  | .touches t time => some { w with stores := Function.update w.stores t ((w.stores t).touch time) }

/-! ## What a step of a call does -/

/-- What the next step of a call does, by its phase. -/
inductive Advance [DecidableEq τ] [DecidableEq ι] (ttl : ℕ) (i : ι) (t : τ) (rest : List τ) (fresh : κ)
    (w : World κ ν τ ι) : World κ ν τ ι → Prop
  | idle {ids : List τ} : (w.calls i).recoverer.phase = .idle → ids = rest ∨ ids = t :: rest →
    Advance ttl i t rest fresh w (w.setCall i (.next ids))
  | skip {lease : Lease ι} : (w.calls i).recoverer.phase = .listed → w.claims t = some lease →
    Advance ttl i t rest fresh w (w.setCall i (.next rest))
  | claim : (w.calls i).recoverer.phase = .listed → w.claims t = none →
    Advance ttl i t rest fresh w { w.setCall i ⟨t :: rest, ⟨.claimed, []⟩⟩ with
      claims := Function.update w.claims t (some ⟨i, w.now + ttl⟩) }
  | invoke : (w.calls i).recoverer.phase = .claimed → (w.stores t).status = .running →
    Advance ttl i t rest fresh w { w.setCall i ⟨t :: rest, ⟨.completing, []⟩⟩ with
      completions := Function.update w.completions t (w.completions t + 1) }
  | forget : (w.calls i).recoverer.phase = .claimed → (w.stores t).status ≠ .running →
    Advance ttl i t rest fresh w (w.setCall i ⟨t :: rest, ⟨.sending, forgetHeartbeat⟩⟩)
  | completed : (w.calls i).recoverer.phase = .completing →
    Advance ttl i t rest fresh w (w.setCall i ⟨t :: rest, ⟨.readingSeq, []⟩⟩)
  | readZero : (w.calls i).recoverer.phase = .readingSeq → (w.stores t).lastSeq = 0 →
    Advance ttl i t rest fresh w (w.setCall i ⟨t :: rest, ⟨.readingModel, []⟩⟩)
  | readSeq : (w.calls i).recoverer.phase = .readingSeq → (w.stores t).lastSeq ≠ 0 →
    Advance ttl i t rest fresh w
      (w.setCall i ⟨t :: rest, ⟨.sending, recoveryCommands (w.stores t).lastSeq none⟩⟩)
  | readModel : (w.calls i).recoverer.phase = .readingModel →
    Advance ttl i t rest fresh w
      (w.setCall i ⟨t :: rest, ⟨.sending, recoveryCommands 0 (w.stores t).initialModel⟩⟩)
  | send {command : Command ν} {tail : List (Command ν)} : (w.calls i).recoverer.phase = .sending →
    (w.calls i).recoverer.pending = command :: tail →
    Advance ttl i t rest fresh w
      { w.setCall i ⟨t :: rest, if tail = [] then ⟨.releasing, []⟩ else ⟨.sending, tail⟩⟩ with
        stores := Function.update w.stores t ((w.stores t).run fresh command) }
  | sent : (w.calls i).recoverer.phase = .sending → (w.calls i).recoverer.pending = [] →
    Advance ttl i t rest fresh w (w.setCall i ⟨t :: rest, ⟨.releasing, []⟩⟩)
  | release : (w.calls i).recoverer.phase = .releasing →
    Advance ttl i t rest fresh w
      { w.setCall i (.next rest) with claims := Function.update w.claims t none }

theorem advance_cases [DecidableEq τ] [DecidableEq ι] (ttl : ℕ) (i : ι) (t : τ) (rest : List τ) (fresh : κ)
    (w : World κ ν τ ι) : Advance ttl i t rest fresh w (w.advance ttl i t rest fresh) := by
  -- a step that neither claims nor releases leaves the claim as it is, one that sends nothing the store
  have hclaim : Function.update w.claims t
      (if (w.store t).claimed then (w.claims t).or (some ⟨i, w.now + ttl⟩) else none) = w.claims := by
    rw [Function.update_eq_iff]
    cases h : w.claims t <;> simp [World.store, h]
  have hstore : Function.update w.stores t ((w.stores t).runOption fresh none) = w.stores :=
    Function.update_eq_self t w.stores
  unfold World.advance
  cases hr : (w.calls i).recoverer with
  | mk phase pending =>
    have hphase : (w.calls i).recoverer.phase = phase := by rw [hr]
    have hpending : (w.calls i).recoverer.pending = pending := by rw [hr]
    cases phase <;> dsimp only [Recoverer.step]
    case idle =>
      simp only [hclaim, hstore]
      by_cases hexpired : (w.store t).expired 0 = true
      · simp only [hexpired, reduceCtorEq, ↓reduceIte]
        exact .idle hphase (.inr rfl)
      · simp only [hexpired, Bool.false_eq_true, reduceCtorEq, ↓reduceIte]
        exact .idle hphase (.inl rfl)
    case listed =>
      cases hkey : w.claims t with
      | none =>
        have hfree : (w.store t).claimed = false := by simp [World.store, hkey]
        simp only [hfree, hstore, Option.none_or, Bool.false_eq_true, reduceCtorEq, ↓reduceIte]
        exact .claim hphase hkey
      | some lease =>
        have hheld : (w.store t).claimed = true := by simp [World.store, hkey]
        simp only [hkey, hheld, ↓reduceIte] at hclaim
        simp only [hstore, hheld, hclaim, reduceCtorEq, ↓reduceIte]
        exact .skip hphase hkey
    case claimed =>
      simp only [hclaim, hstore]
      by_cases hstatus : (w.store t).status = .running <;> simp only [hstatus, reduceCtorEq, ↓reduceIte]
      · exact .invoke hphase hstatus
      · exact .forget hphase hstatus
    case completing =>
      simp only [hclaim, hstore, reduceCtorEq, ↓reduceIte]
      exact .completed hphase
    case readingSeq =>
      simp only [hclaim, hstore]
      by_cases hzero : (w.store t).lastSeq = 0
      · simp only [hzero, reduceCtorEq, ↓reduceIte]
        exact .readZero hphase hzero
      · simp only [if_neg hzero, reduceCtorEq, ↓reduceIte]
        exact .readSeq hphase hzero
    case readingModel =>
      simp only [hclaim, hstore, reduceCtorEq, ↓reduceIte]
      exact .readModel hphase
    case sending =>
      cases pending with
      | nil =>
        simp only [hclaim, hstore, reduceCtorEq, ↓reduceIte]
        exact .sent hphase hpending
      | cons command tail =>
        have hadvance : Advance ttl i t rest fresh w _ := .send hphase hpending
        simp only [hclaim, Store.runOption]
        by_cases htail : tail = []
        · simp only [htail, reduceCtorEq, ↓reduceIte] at hadvance ⊢
          exact hadvance
        · simp only [if_neg htail, reduceCtorEq, ↓reduceIte] at hadvance ⊢
          exact hadvance
    case releasing =>
      simp only [hstore, Bool.false_eq_true, reduceCtorEq, ↓reduceIte]
      exact .release hphase

/-! ## The claim as a lock -/

/-- The call is between the claim and the release of the task. -/
def Call.Holds (call : Call τ ν) (t : τ) : Prop :=
  call.ids.head? = some t ∧ call.recoverer.phase ≠ .idle ∧ call.recoverer.phase ≠ .listed

/-- The call is in `_recover_task` for the task; the last phase is also that of `forget_heartbeat`. -/
def Call.InRecoverTask (call : Call τ ν) (t : τ) : Prop :=
  call.ids.head? = some t ∧ call.recoverer.phase ∈ [.completing, .readingSeq, .readingModel, .sending]

/-- No two calls are in `_recover_task` for one task. -/
def Exclusive (w : World κ ν τ ι) : Prop :=
  ∀ t i j, (w.calls i).InRecoverTask t → (w.calls j).InRecoverTask t → i = j

/-- A claim that the step deletes is the call's own. -/
def DeletesOwn (w : World κ ν τ ι) : Label κ ν τ ι → Prop
  | .advance i _ => ∀ t ∈ (w.calls i).ids.head?, (w.calls i).recoverer.phase = .releasing →
      ∀ lease ∈ w.claims t, lease.holder = i
  | _ => True

/-- No lifetime of a claim ends while the call that has set it is between the claim and the release. -/
def InTime (w : World κ ν τ ι) : Label κ ν τ ι → Prop
  | .waits time => ∀ t, ∀ lease ∈ w.claims t, (w.calls lease.holder).Holds t → time < lease.expires
  | _ => True

instance [DecidableEq τ] (call : Call τ ν) (t : τ) : Decidable (call.Holds t) :=
  inferInstanceAs (Decidable (_ ∧ _ ∧ _))

instance [DecidableEq ι] (w : World κ ν τ ι) : ∀ l, Decidable (DeletesOwn w l)
  | .advance i _ => inferInstanceAs (Decidable (∀ t ∈ (w.calls i).ids.head?, _ → ∀ lease ∈ w.claims t,
      lease.holder = i))
  | .lists .. | .fails _ | .waits _ | .writes .. | .touches .. => isTrue trivial

instance [DecidableEq τ] [Fintype τ] (w : World κ ν τ ι) : ∀ l, Decidable (InTime w l)
  | .waits time => inferInstanceAs
      (Decidable (∀ t, ∀ lease ∈ w.claims t, (w.calls lease.holder).Holds t → time < lease.expires))
  | .lists .. | .advance .. | .fails _ | .writes .. | .touches .. => isTrue trivial

/-- Who is between the claim and the release has set the key. -/
def Locked (w : World κ ν τ ι) : Prop := ∀ t, Owned (fun i => (w.calls i).Holds t) (w.claims t)

theorem Call.InRecoverTask.holds {call : Call τ ν} {t : τ} (h : call.InRecoverTask t) : call.Holds t := by
  refine ⟨h.1, ?_, ?_⟩ <;> intro hphase <;> simp [InRecoverTask, hphase] at h

theorem Call.not_holds_next (ids : List τ) (t : τ) : ¬ (Call.next ids : Call τ ν).Holds t := by
  simp [Call.Holds, Call.next]

section

variable [DecidableEq ι]

theorem holds_setCall {w : World κ ν τ ι} {i j : ι} {call : Call τ ν} {t : τ}
    (h : ((w.setCall i call).calls j).Holds t) : j = i ∧ call.Holds t ∨ j ≠ i ∧ (w.calls j).Holds t := by
  by_cases hji : j = i
  · subst hji
    exact .inl ⟨rfl, by simpa using h⟩
  · exact .inr ⟨hji, by rwa [World.setCall_of_ne hji] at h⟩

/-- A call that does not come to hold anything. -/
theorem locked_setCall {w : World κ ν τ ι} (h : Locked w) {i : ι} {call : Call τ ν}
    (hsub : ∀ t, call.Holds t → (w.calls i).Holds t) : Locked (w.setCall i call) := by
  intro t
  refine (h t).mono fun j hj => ?_
  rcases holds_setCall hj with ⟨rfl, hcall⟩ | ⟨-, hj⟩
  · exact hsub t hcall
  · exact hj

variable [DecidableEq τ]

theorem locked_advance {ttl : ℕ} {i : ι} {t : τ} {rest : List τ} {fresh : κ} {w w' : World κ ν τ ι} (h : Locked w)
    (hids : (w.calls i).ids = t :: rest) (hadvance : Advance ttl i t rest fresh w w') : Locked w' := by
  have hhead : (w.calls i).ids.head? = some t := by rw [hids]; rfl
  -- a call that goes on with `t` between the claim and the release
  have hgo : ∀ recoverer : Recoverer ν, (w.calls i).Holds t → Locked (w.setCall i ⟨t :: rest, recoverer⟩) := by
    intro recoverer hholds
    refine locked_setCall h fun t' ht' => ?_
    obtain rfl : t = t' := Option.some.inj ht'.1
    exact hholds
  have hnext : ∀ ids, Locked (w.setCall i (.next ids)) := fun ids =>
    locked_setCall h fun t' ht' => absurd ht' (Call.not_holds_next ids t')
  cases hadvance with
  | idle | skip => exact hnext _
  -- `SET NX` finds no key, so nobody was between the claim and the release
  | claim hphase hkey =>
    intro t'
    by_cases ht : t' = t
    · subst ht
      have hfree : Owned (fun j => (w.calls j).Holds t') none := hkey ▸ h t'
      simp only [Function.update_self]
      refine hfree.acquire fun j hj => ?_
      rcases holds_setCall hj with ⟨rfl, -⟩ | ⟨-, hj⟩
      · exact .inr rfl
      · exact .inl hj
    · simp only [Function.update_of_ne ht]
      refine (h t').mono fun j hj => ?_
      rcases holds_setCall hj with ⟨rfl, hcall⟩ | ⟨-, hj⟩
      · exact absurd (Option.some.inj hcall.1).symm ht
      · exact hj
  -- only the holder releases, and nobody else holds the task
  | release hphase =>
    have hholds : (w.calls i).Holds t := ⟨hhead, by simp [hphase], by simp [hphase]⟩
    intro t'
    by_cases ht : t' = t
    · subst ht
      simp only [Function.update_self]
      refine (h t').release hholds fun j hj => ?_
      rcases holds_setCall hj with ⟨-, hcall⟩ | ⟨hne, hj⟩
      · exact absurd hcall (Call.not_holds_next rest t')
      · exact ⟨hj, hne⟩
    · simp only [Function.update_of_ne ht]
      exact hnext rest t'
  | invoke hphase | forget hphase | completed hphase | readZero hphase | readSeq hphase | readModel hphase
  | send hphase | sent hphase => exact hgo _ ⟨hhead, by simp [hphase], by simp [hphase]⟩

omit [DecidableEq ι] [DecidableEq τ] in
theorem Call.fails_cases {call call' : Call τ ν} (h : call.fails = some call') :
    call' = .next [] ∨ ∃ t rest, call.ids = t :: rest ∧ call' = ⟨[t], ⟨.releasing, []⟩⟩ ∧
      call.recoverer.phase ≠ .idle ∧ call.recoverer.phase ≠ .listed := by
  obtain ⟨ids, ⟨phase, pending⟩⟩ := call
  cases ids with
  | nil => simp [fails] at h
  | cons t rest => cases phase <;> simp_all [fails]

omit [DecidableEq τ] in
theorem locked_fails {w : World κ ν τ ι} (h : Locked w) {i : ι} {call : Call τ ν}
    (hfails : (w.calls i).fails = some call) :
    Locked (w.setCall i call) := by
  apply locked_setCall h
  intro t ht
  rcases Call.fails_cases hfails with rfl | ⟨t', rest, hids, rfl, hidle, hlisted⟩
  · exact absurd ht (Call.not_holds_next [] t)
  · obtain rfl : t' = t := Option.some.inj ht.1
    exact ⟨by rw [hids]; rfl, hidle, hlisted⟩

theorem locked_step [LinearOrder κ] {ttl : ℕ} {w w' : World κ ν τ ι} {l : Label κ ν τ ι} (h : Locked w)
    (hin : InTime w l) (hstep : step ttl w l = some w') : Locked w' := by
  cases l with
  | lists i cutoff ids =>
    simp only [step] at hstep
    split_ifs at hstep
    obtain rfl := Option.some.inj hstep
    exact locked_setCall h fun t ht => absurd ht (Call.not_holds_next ids t)
  | advance i fresh =>
    simp only [step] at hstep
    cases hids : (w.calls i).ids with
    | nil => simp [hids] at hstep
    | cons t rest =>
      simp only [hids] at hstep
      split_ifs at hstep
      obtain rfl := Option.some.inj hstep
      exact locked_advance h hids (advance_cases ttl i t rest fresh w)
  | fails i =>
    obtain ⟨call, hfails, rfl⟩ := Option.map_eq_some_iff.mp hstep
    exact locked_fails h hfails
  | waits time =>
    simp only [step] at hstep
    split_ifs at hstep
    obtain rfl := Option.some.inj hstep
    exact fun t => (h t).elapse (hin t)
  | writes t command fresh =>
    simp only [step] at hstep
    split_ifs at hstep
    obtain rfl := Option.some.inj hstep
    exact h
  | touches t time =>
    obtain rfl := Option.some.inj hstep
    exact h

end

/-- In every run in which no claim disappears under its holder, whatever else fails and is written: no two
calls recover a task at once, and every claim that is deleted is the call's own. -/
theorem claims_exclude [LinearOrder κ] [DecidableEq τ] [DecidableEq ι] (ttl : ℕ) (w : World κ ν τ ι)
    (hcalls : ∀ i, (w.calls i).ids = []) (labels : List (Label κ ν τ ι))
    (htime : Machine.AllSteps (step ttl) InTime w labels) :
    Machine.AllStates (step ttl) Exclusive w labels ∧ Machine.AllSteps (step ttl) DeletesOwn w labels := by
  have hinit : Locked w := fun t i hi => by simp [Call.Holds, hcalls i] at hi
  have hlocked := Machine.allStates_of_allSteps (fun w l w' h hin hstep => locked_step h hin hstep) hinit htime
  refine ⟨hlocked.mono fun w h t i j hi hj => (h t).exclusive hi.holds hj.holds, hlocked.allSteps fun w l h => ?_⟩
  cases l with
  | advance i fresh =>
    intro t hhead hphase
    exact (h t).holder_eq ⟨hhead, by simp [hphase], by simp [hphase]⟩
  | _ => trivial

/-! ## Two scanners and one task -/

/-- A task with a start, whose heartbeat is old. -/
def oldTask : Store ℕ ℕ where
  status := .running
  lastSeq := 1
  initialModel := some [("version", .str "1.1"), ("biz", .str "chat"), ("meta", .obj []), ("blocks", .arr [])]
  events := [⟨1, startEvent [("version", .str "1.1"), ("biz", .str "chat"), ("meta", .obj []),
    ("blocks", .arr [])] 1⟩]
  heartbeat := some 0
  claimed := false

/-- Before any call. -/
def oldWorld : World ℕ ℕ Unit Bool := ⟨0, fun _ => oldTask, fun _ => none, fun _ => .next [], fun _ => 0⟩

/-- One call recovers the task and the other one comes after `pause`, while the first is in `complete`. -/
def secondCall (pause : ℕ) : List (Label ℕ ℕ Unit Bool) :=
  [.lists false 0 [()], .advance false 2, .advance false 2, .waits pause, .lists true 0 [()], .advance true 2]

/-- The first call goes on up to its release. -/
def firstCallEnds : List (Label ℕ ℕ Unit Bool) := (List.range 12).map fun n => .advance false (n + 2)

/-- Within the lifetime of the claim the second call passes the task by. -/
theorem claims_exclude_secondCall :
    Machine.AllStates (step 30) Exclusive oldWorld (secondCall 29 ++ firstCallEnds) ∧
      Machine.AllSteps (step 30) DeletesOwn oldWorld (secondCall 29 ++ firstCallEnds) :=
  claims_exclude 30 oldWorld (fun _ => rfl) _ (by decide +kernel)

/-- After it both calls are in `complete`, and the first one deletes the claim of the second. -/
theorem secondCall_breaks_claim :
    ¬ (∀ (ttl : ℕ) (w : World ℕ ℕ Unit Bool) (labels : List (Label ℕ ℕ Unit Bool)), (∀ i, (w.calls i).ids = []) →
        Machine.AllStates (step ttl) Exclusive w labels) ∧
      ¬ (∀ (ttl : ℕ) (w : World ℕ ℕ Unit Bool) (labels : List (Label ℕ ℕ Unit Bool)), (∀ i, (w.calls i).ids = []) →
        Machine.AllSteps (step ttl) DeletesOwn w labels) := by
  constructor
  -- both are in `complete`, and the release of the first deletes the claim of the second
  · intro h
    have hrun : (Machine.exec (step 30) oldWorld (secondCall 30 ++ [.advance true 2])).map (fun w =>
        ((w.calls false).ids, (w.calls false).recoverer.phase, (w.calls true).ids, (w.calls true).recoverer.phase)) =
        some ([()], .completing, [()], .completing) := by
      decide +kernel
    obtain ⟨w, hw, hcalls⟩ := Option.map_eq_some_iff.mp hrun
    obtain ⟨hids, hphase, hids', hphase'⟩ : (w.calls false).ids = [()] ∧
        (w.calls false).recoverer.phase = .completing ∧
        (w.calls true).ids = [()] ∧ (w.calls true).recoverer.phase = .completing := by
      simpa using hcalls
    have hexclusive := (h 30 oldWorld (secondCall 30 ++ [.advance true 2]) (fun _ => rfl)).last hw
    exact absurd (hexclusive () false true ⟨by rw [hids]; rfl, by simp [hphase]⟩
      ⟨by rw [hids']; rfl, by simp [hphase']⟩)
      (by decide)
  · intro h
    exact absurd (h 30 oldWorld (secondCall 30 ++ firstCallEnds) (fun _ => rfl)) (by decide +kernel)

end AgentUE.PythonRunner.Scan
