import AgentUE.PythonRunner.Scan

/-!
# Python runner: recovery takes effect once

Reference: `recover_timeouts` and `_recover_task` in `sdks/python/src/agentue/runner/runner.py`. The calls act on
lists that have become stale; what makes a recovery happen once is that the status is read under the claim and
written before the release. `Stage` is where a task stands, in every state of a run of scanners.
-/

namespace AgentUE.PythonRunner.Scan

open Data

variable {κ ν τ ι : Type}

/-- Calls whose commands do not fail, and time. -/
def Label.isScan : Label κ ν τ ι → Bool
  | .lists .. | .advance .. | .waits _ => true
  | .fails _ | .writes .. | .touches .. => false

/-- A call has listed the task. -/
def Listed (labels : List (Label κ ν τ ι)) (t : τ) : Prop :=
  ∃ i cutoff ids, Label.lists i cutoff ids ∈ labels ∧ t ∈ ids

/-- No call is on its way and nothing is claimed. -/
structure Quiet (w : World κ ν τ ι) : Prop where
  calls : ∀ i, (w.calls i).ids = []
  claims : ∀ t, w.claims t = none
  completions : ∀ t, w.completions t = 0

/-- An error and an end after a start with the initial model where nothing had been published, numbered from
`lastSeq` on. -/
structure Gained (lastSeq : ℕ) (initialModel : Option (JsonObject ν)) (gained : List (Envelope ν)) : Prop where
  events : ∃ error last, error.op = .error ∧ last.op = .end_ ∧
    gained = (if lastSeq = 0 then initialModel.toList.map (startEvent · 1) else []) ++ [error, last]
  seqs : gained.map Envelope.seq = List.range' (lastSeq + 1) gained.length

/-- What one recovery makes of a task. -/
structure Recovered (before after : Store κ ν) : Prop where
  stream : ∃ gained, after.events = before.events ++ gained ∧
    Gained before.lastSeq before.initialModel (gained.map Stored.data)
  status : after.status = .failed
  heartbeat : after.heartbeat = none

theorem gained_recoveryEvents (lastSeq : ℕ) (initialModel : Option (JsonObject ν)) :
    Gained lastSeq initialModel (recoveryEvents lastSeq initialModel) := by
  by_cases hzero : lastSeq = 0
  · subst hzero
    cases initialModel with
    | none => exact ⟨⟨_, _, rfl, rfl, rfl⟩, rfl⟩
    | some model => exact ⟨⟨_, _, rfl, rfl, rfl⟩, rfl⟩
  · unfold recoveryEvents
    simp only [if_neg hzero]
    exact ⟨⟨_, _, rfl, rfl, by rw [if_neg hzero]; rfl⟩, rfl⟩

/-- Where something has been published the initial model is not read. -/
theorem recoveryCommands_none {lastSeq : ℕ} (h : lastSeq ≠ 0) (initialModel : Option (JsonObject ν)) :
    (recoveryCommands lastSeq none : List (Command ν)) = recoveryCommands lastSeq initialModel := by
  simp only [recoveryCommands, recoveryEvents, if_neg h]

theorem recoveryCommands_ne_nil (lastSeq : ℕ) (initialModel : Option (JsonObject ν)) :
    (recoveryCommands lastSeq initialModel : List (Command ν)) ≠ [] := by
  simp [recoveryCommands, markTerminal]

/-! ## The effect of a list of commands -/

/-- The commands have been run, one after the other, and nothing else. -/
inductive Ran (before : Store κ ν) : List (Command ν) → Store κ ν → Prop
  | nil : Ran before [] before
  | snoc {done : List (Command ν)} {store : Store κ ν} (command : Command ν) (fresh : κ) : Ran before done store →
    Ran before (done ++ [command]) (store.run fresh command)

theorem Ran.eq_of_nil {before after : Store κ ν} (h : Ran before [] after) : after = before := by
  generalize hcommands : [] = commands at h
  cases h with
  | nil => rfl
  | snoc => simp at hcommands

theorem Ran.of_concat {before after : Store κ ν} {done : List (Command ν)} {command : Command ν}
    (h : Ran before (done ++ [command]) after) :
    ∃ store fresh, Ran before done store ∧ after = store.run fresh command := by
  generalize hcommands : done ++ [command] = commands at h
  cases h with
  | nil => simp at hcommands
  | @snoc done' store command' fresh hran =>
    obtain ⟨rfl, hlast⟩ := List.append_inj' hcommands rfl
    obtain rfl : command = command' := by simpa using hlast
    exact ⟨store, fresh, hran, rfl⟩

/-- A publish appends its event. -/
theorem Ran.of_publish {before after : Store κ ν} {done : List (Command ν)} {event : Envelope ν}
    (h : Ran before (done ++ publish event) after) :
    ∃ store fresh, Ran before done store ∧ after.events = store.events ++ [⟨fresh, event⟩] := by
  have hsplit : done ++ publish event = done ++ [.xadd event] ++ [.expireStream] ++ [.hsetLastSeq event.seq] := by
    simp [publish]
  rw [hsplit] at h
  obtain ⟨_, _, hexpired, rfl⟩ := h.of_concat
  obtain ⟨_, _, hadded, rfl⟩ := hexpired.of_concat
  obtain ⟨store, fresh, hdone, rfl⟩ := hadded.of_concat
  exact ⟨store, fresh, hdone, rfl⟩

theorem Ran.of_publishes {before after : Store κ ν} {events : List (Envelope ν)}
    (h : Ran before (events.flatMap publish) after) :
    ∃ gained, after.events = before.events ++ gained ∧ gained.map Stored.data = events := by
  induction events using List.reverseRecOn generalizing after with
  | nil =>
    exact ⟨[], by rw [h.eq_of_nil, List.append_nil], rfl⟩
  | append_singleton events event ih =>
    rw [List.flatMap_append, List.flatMap_singleton] at h
    obtain ⟨store, fresh, hran, hevents⟩ := h.of_publish
    obtain ⟨gained, hstore, hgained⟩ := ih hran
    refine ⟨gained ++ [⟨fresh, event⟩], ?_, by simp [hgained]⟩
    rw [hevents, hstore, List.append_assoc]

/-- The commands of a recovery make a recovered task. -/
theorem recovered_of_ran {before after : Store κ ν}
    (h : Ran before (recoveryCommands before.lastSeq before.initialModel) after) : Recovered before after := by
  have hsplit : (recoveryCommands before.lastSeq before.initialModel : List (Command ν)) =
      (recoveryEvents before.lastSeq before.initialModel).flatMap publish ++ [.hsetStatus .failed] ++
        [.expireState] ++
        [.zrem] := by
    simp [recoveryCommands, markTerminal]
  rw [hsplit] at h
  -- from the end: the heartbeat, the lifetime, the status, and before them the events
  obtain ⟨_, _, hexpired, rfl⟩ := h.of_concat
  obtain ⟨_, _, hfailed, rfl⟩ := hexpired.of_concat
  obtain ⟨store, _, hpublished, rfl⟩ := hfailed.of_concat
  obtain ⟨gained, hevents, hgained⟩ := hpublished.of_publishes
  refine ⟨⟨gained, hevents, ?_⟩, rfl, rfl⟩
  rw [hgained]
  exact gained_recoveryEvents _ _

/-! ## Claims and calls that belong together -/

/-- The claims are those of the calls between the claim and the release. -/
structure Tidy (w : World κ ν τ ι) : Prop where
  locked : Locked w
  held : ∀ t, ∀ lease ∈ w.claims t, (w.calls lease.holder).Holds t
  busy : ∀ i, (w.calls i).ids ≠ [] → (w.calls i).recoverer.phase ≠ .idle

theorem Quiet.tidy {w : World κ ν τ ι} (h : Quiet w) : Tidy w where
  locked := fun t i hi => by simp [Call.Holds, h.calls i] at hi
  held := fun t lease hlease => by simp [h.claims t] at hlease
  busy := fun i hne => absurd (h.calls i) hne

section

variable [DecidableEq τ] [DecidableEq ι] {ttl : ℕ} {i : ι} {t t' : τ} {rest : List τ} {fresh : κ}
  {w₀ w w' : World κ ν τ ι}

/-- A step of a call changes no other call. -/
theorem Advance.calls_ne (h : Advance ttl i t' rest fresh w w') {j : ι} (hj : j ≠ i) : w'.calls j = w.calls j := by
  cases h <;> exact Function.update_of_ne hj _ _

/-- A step of a call changes no other task, and nobody comes to hold one. -/
theorem Advance.frame (hids : (w.calls i).ids = t' :: rest) (h : Advance ttl i t' rest fresh w w') (ht : t ≠ t') :
    w'.stores t = w.stores t ∧ w'.completions t = w.completions t ∧
      ∀ j, (w'.calls j).Holds t → w'.calls j = w.calls j ∧ (w.calls j).Holds t := by
  refine ⟨?_, ?_, fun j hj => ?_⟩
  · cases h <;> first | rfl | exact Function.update_of_ne ht _ _
  · cases h <;> first | rfl | exact Function.update_of_ne ht _ _
  · have hji : j ≠ i := by
      rintro rfl
      have hhead : (w'.calls j).ids.head? = some t' ∨ ∃ ids, w'.calls j = .next ids := by
        cases h <;> first | exact .inr ⟨_, Function.update_self ..⟩ | exact .inl (by simp)
      rcases hhead with hhead | ⟨ids, hnext⟩
      · exact ht (Option.some.inj (hj.1.symm.trans hhead))
      · exact Call.not_holds_next ids t (hnext ▸ hj)
    have heq := h.calls_ne hji
    exact ⟨heq, heq ▸ hj⟩

/-- Where the call stands after its step with the first id. -/
theorem Advance.phase_ne_idle (h : Advance ttl i t' rest fresh w w') : (w'.calls i).recoverer.phase ≠ .idle := by
  cases h <;> simp only [World.setCall_self, Call.next, ne_eq, reduceCtorEq, not_false_eq_true]
  case send => split_ifs <;> simp

omit [DecidableEq τ] in
theorem held_setCall (h : Tidy w) {call : Call τ ν}
    (hkeep : ∀ t, (w.calls i).Holds t → call.Holds t) (t : τ) :
    ∀ lease ∈ w.claims t, ((w.setCall i call).calls lease.holder).Holds t := by
  intro lease hlease
  have hholds := h.held t lease hlease
  by_cases hi : lease.holder = i
  · subst hi
    simpa using hkeep t hholds
  · rwa [World.setCall_of_ne hi]

theorem tidy_advance (h : Tidy w) (hids : (w.calls i).ids = t' :: rest)
    (hadvance : Advance ttl i t' rest fresh w w') :
    Tidy w' := by
  have hhead : ∀ t, (w.calls i).Holds t → t' = t := fun t ht => by simpa [Call.Holds, hids] using ht.1
  refine ⟨locked_advance h.locked hids hadvance, fun t => ?_, fun j hj => ?_⟩
  · have hlisted : (w.calls i).recoverer.phase = .listed → ∀ call : Call τ ν,
        ∀ t, (w.calls i).Holds t → call.Holds t := fun hphase _ _ ht => absurd hphase ht.2.2
    have hgo : ∀ recoverer : Recoverer ν, recoverer.phase ≠ .idle → recoverer.phase ≠ .listed →
        ∀ t, (w.calls i).Holds t → (⟨t' :: rest, recoverer⟩ : Call τ ν).Holds t := by
      intro recoverer hidle hlisted t ht
      obtain rfl := hhead t ht
      exact ⟨rfl, hidle, hlisted⟩
    cases hadvance with
    | idle hphase => exact absurd hphase (h.busy i (by simp [hids]))
    | skip hphase => exact held_setCall h (hlisted hphase _) t
    | claim hphase hkey =>
      by_cases ht : t = t'
      · subst ht
        simp only [Function.update_self]
        rintro lease ⟨⟩
        have hholds : (⟨t :: rest, ⟨.claimed, []⟩⟩ : Call τ ν).Holds t := ⟨rfl, by simp, by simp⟩
        show ((w.setCall i _).calls i).Holds t
        rwa [World.setCall_self]
      · simp only [Function.update_of_ne ht]
        exact held_setCall h (hlisted hphase _) t
    | release hphase =>
      by_cases ht : t = t'
      · subst ht
        simp
      · simp only [Function.update_of_ne ht]
        intro lease hlease
        have hholds := h.held t lease hlease
        have hi : lease.holder ≠ i := fun hi => ht (hhead t (hi ▸ hholds)).symm
        show ((w.setCall i _).calls lease.holder).Holds t
        rwa [World.setCall_of_ne hi]
    | send hphase hpending =>
      apply held_setCall h (hgo _ _ _) t <;> split_ifs <;> simp
    | invoke | forget | completed | readZero | readSeq | readModel | sent =>
      exact held_setCall h (hgo _ (by simp) (by simp)) t
  · by_cases hji : j = i
    · subst hji
      exact hadvance.phase_ne_idle
    · rw [hadvance.calls_ne hji] at hj ⊢
      exact h.busy j hj

theorem tidy_step [LinearOrder κ] {l : Label κ ν τ ι} (hl : l.isScan = true) (h : Tidy w) (hin : InTime w l)
    (hstep : step ttl w l = some w') : Tidy w' := by
  have hlocked := locked_step h.locked hin hstep
  cases l with simp only [Label.isScan, reduceCtorEq] at hl
  | lists i cutoff ids =>
    simp only [step] at hstep
    split_ifs at hstep with hguard
    obtain rfl := Option.some.inj hstep
    refine ⟨hlocked, held_setCall h fun t ht => absurd ht.1 (by simp [hguard.1]), fun j hj => ?_⟩
    by_cases hji : j = i
    · subst hji
      simp [Call.next]
    · rw [World.setCall_of_ne hji] at hj ⊢
      exact h.busy j hj
  | advance i fresh =>
    simp only [step] at hstep
    cases hids : (w.calls i).ids with
    | nil => simp [hids] at hstep
    | cons t rest =>
      simp only [hids] at hstep
      split_ifs at hstep
      obtain rfl := Option.some.inj hstep
      exact tidy_advance h hids (advance_cases ttl i t rest fresh w)
  | waits time =>
    simp only [step] at hstep
    split_ifs at hstep
    obtain rfl := Option.some.inj hstep
    exact ⟨hlocked, fun t lease hlease => h.held t lease (Option.mem_filter_iff.mp hlease).1, h.busy⟩

/-! ## Where a task stands -/

/-- The task is not running, and a call that holds it can only forget its heartbeat. -/
def Settled (w : World κ ν τ ι) (t : τ) : Prop :=
  (w.stores t).status ≠ .running ∧ ∀ i, (w.calls i).Holds t →
    (w.calls i).recoverer.phase ∈ [.claimed, .releasing] ∨
      ((w.calls i).recoverer.phase = .sending ∧ (w.calls i).recoverer.pending = forgetHeartbeat)

/-- What a call in `_recover_task` has done of it; `before` is the task that it has found. -/
def Ahead (before : Store κ ν) (done : List (Command ν)) (r : Recoverer ν) : Prop :=
  match r.phase with
  | .completing | .readingSeq => done = []
  | .readingModel => done = [] ∧ before.lastSeq = 0
  | .sending => r.pending ≠ [] ∧ done ++ r.pending = recoveryCommands before.lastSeq before.initialModel
  | _ => False

/-- Recovery has been done. -/
structure Done (w₀ w : World κ ν τ ι) (t : τ) : Prop where
  settled : Settled w t
  once : w.completions t = 1
  ran : Ran (w₀.stores t) (recoveryCommands (w₀.stores t).lastSeq (w₀.stores t).initialModel) (w.stores t)

/-- A task that was running when the scanners began: as it was, in recovery by one call, or recovered. -/
inductive Stage (w₀ w : World κ ν τ ι) (t : τ) : Prop
  | untouched : w.stores t = w₀.stores t → w.completions t = 0 →
    (∀ i, (w.calls i).Holds t → (w.calls i).recoverer.phase = .claimed) → Stage w₀ w t
  | recovering (i : ι) (done : List (Command ν)) : (w.calls i).Holds t → w.completions t = 1 →
    Ran (w₀.stores t) done (w.stores t) → Ahead (w₀.stores t) done (w.calls i).recoverer → Stage w₀ w t
  | done : Done w₀ w t → Stage w₀ w t

omit [DecidableEq τ] in
theorem Settled.of_next {w : World κ ν τ ι} (h : Settled w t) (ids : List τ) :
    Settled (w.setCall i (.next ids)) t := by
  refine ⟨h.1, fun j hj => ?_⟩
  rcases holds_setCall hj with ⟨-, hcall⟩ | ⟨hne, hj⟩
  · exact absurd hcall (Call.not_holds_next ids t)
  · rw [World.setCall_of_ne hne]
    exact h.2 j hj

omit [DecidableEq τ] in
theorem Settled.of_go {w : World κ ν τ ι} (h : Settled w t) {recoverer : Recoverer ν}
    (hphase : recoverer.phase ∈ [.claimed, .releasing] ∨
      (recoverer.phase = .sending ∧ recoverer.pending = forgetHeartbeat)) (ids : List τ) :
    Settled (w.setCall i ⟨ids, recoverer⟩) t := by
  refine ⟨h.1, fun j hj => ?_⟩
  rcases holds_setCall hj with ⟨rfl, -⟩ | ⟨hne, hj⟩
  · rwa [World.setCall_self]
  · rw [World.setCall_of_ne hne]
    exact h.2 j hj

/-- A step on a settled task at most forgets its heartbeat. -/
theorem settled_advance (h : Settled w t) (htidy : Tidy w) (hids : (w.calls i).ids = t' :: rest)
    (hadvance : Advance ttl i t' rest fresh w w') :
    Settled w' t ∧ w'.completions t = w.completions t ∧
      (w'.stores t = w.stores t ∨ w'.stores t = (w.stores t).run fresh .zrem) := by
  by_cases ht : t = t'
  swap
  · obtain ⟨hstore, hcompletions, hholds⟩ := hadvance.frame hids ht
    refine ⟨⟨by rw [hstore]; exact h.1, fun j hj => ?_⟩, hcompletions, .inl hstore⟩
    obtain ⟨heq, hj⟩ := hholds j hj
    rw [heq]
    exact h.2 j hj
  subst ht
  have hhead : (w.calls i).ids.head? = some t := by rw [hids]; rfl
  have hphases : (w.calls i).recoverer.phase ≠ .idle → (w.calls i).recoverer.phase ≠ .listed → _ :=
    fun hidle hlisted => h.2 i ⟨hhead, hidle, hlisted⟩
  cases hadvance with
  | idle hphase => exact absurd hphase (htidy.busy i (by simp [hids]))
  | skip => exact ⟨h.of_next rest, rfl, .inl rfl⟩
  | claim => exact ⟨h.of_go (.inl (by simp)) _, rfl, .inl rfl⟩
  | invoke _ hstatus => exact absurd hstatus h.1
  | forget => exact ⟨h.of_go (.inr ⟨rfl, rfl⟩) _, rfl, .inl rfl⟩
  | completed hphase | readZero hphase | readSeq hphase | readModel hphase =>
    simp [hphase] at hphases
  -- what a call sends that has not found the task running is the `ZREM` of `forget_heartbeat`
  | @send command tail hphase hpending =>
    have hforget : (w.calls i).recoverer.pending = forgetHeartbeat := by simpa [hphase] using hphases
    obtain ⟨rfl, rfl⟩ : command = .zrem ∧ tail = [] := by simpa [forgetHeartbeat] using hpending.symm.trans hforget
    refine ⟨⟨?_, ?_⟩, rfl, .inr (Function.update_self ..)⟩
    · simpa [Store.run] using h.1
    · exact (h.of_go (.inl (by simp)) _).2
  | sent => exact ⟨h.of_go (.inl (by simp)) _, rfl, .inl rfl⟩
  | release => exact ⟨h.of_next rest, rfl, .inl rfl⟩

/-- A recovered task has no heartbeat that could be forgotten. -/
theorem done_advance (h : Done w₀ w t) (htidy : Tidy w) (hids : (w.calls i).ids = t' :: rest)
    (hadvance : Advance ttl i t' rest fresh w w') : Done w₀ w' t := by
  obtain ⟨hsettled, hcompletions, hstore⟩ := settled_advance h.settled htidy hids hadvance
  have hheartbeat : (w.stores t).heartbeat = none := (recovered_of_ran h.ran).heartbeat
  have hsame : (w.stores t).run fresh .zrem = w.stores t := by
    cases hs : w.stores t
    simp_all [Store.run]
  have heq : w'.stores t = w.stores t := by
    rcases hstore with heq | heq
    · exact heq
    · rw [heq, hsame]
  exact ⟨hsettled, by rw [hcompletions, h.once], by rw [heq]; exact h.ran⟩

omit [DecidableEq τ] in
theorem recovering_of_go (hone : w.completions t = 1) {done : List (Command ν)}
    (hran : Ran (w₀.stores t) done (w.stores t))
    {recoverer : Recoverer ν} (hidle : recoverer.phase ≠ .idle) (hlisted : recoverer.phase ≠ .listed)
    (hahead : Ahead (w₀.stores t) done recoverer) : Stage w₀ (w.setCall i ⟨t :: rest, recoverer⟩) t := by
  refine .recovering i done ?_ hone hran ?_
  · rw [World.setCall_self]
    exact ⟨rfl, hidle, hlisted⟩
  · rw [World.setCall_self]
    exact hahead

/-- A step with another task. -/
theorem stage_advance_of_ne (h : Stage w₀ w t) (htidy : Tidy w) (ht : t ≠ t') (hids : (w.calls i).ids = t' :: rest)
    (hadvance : Advance ttl i t' rest fresh w w') : Stage w₀ w' t := by
  obtain ⟨hstore, hcompletions, hholds⟩ := hadvance.frame hids ht
  cases h with
  | untouched hsame hzero hclaimed =>
    refine .untouched (hstore.trans hsame) (hcompletions.trans hzero) fun j hj => ?_
    obtain ⟨heq, hj⟩ := hholds j hj
    rw [heq]
    exact hclaimed j hj
  | recovering j done hj hone hran hahead =>
    have hji : j ≠ i := by
      rintro rfl
      exact ht (by simpa [Call.Holds, hids] using hj.1.symm)
    have heq := hadvance.calls_ne hji
    exact .recovering j done (heq ▸ hj) (hcompletions.trans hone) (hstore ▸ hran) (heq ▸ hahead)
  | done hdone => exact .done (done_advance hdone htidy hids hadvance)

/-- The first step with an untouched task that does more than to claim it invokes `complete`. -/
theorem stage_advance_of_untouched (hsame : w.stores t = w₀.stores t) (hzero : w.completions t = 0)
    (hclaimed : ∀ j, (w.calls j).Holds t → (w.calls j).recoverer.phase = .claimed) (htidy : Tidy w)
    (hrunning : (w₀.stores t).status = .running) (hids : (w.calls i).ids = t :: rest)
    (hadvance : Advance ttl i t rest fresh w w') : Stage w₀ w' t := by
  have hhead : (w.calls i).ids.head? = some t := by rw [hids]; rfl
  have hphases : (w.calls i).recoverer.phase ≠ .idle → (w.calls i).recoverer.phase ≠ .listed → _ :=
    fun hidle hlisted => hclaimed i ⟨hhead, hidle, hlisted⟩
  -- nobody else comes to hold the task
  have hkeep : ∀ call : Call τ ν, (call.Holds t → call.recoverer.phase = .claimed) → ∀ j,
      ((w.setCall i call).calls j).Holds t → ((w.setCall i call).calls j).recoverer.phase = .claimed := by
    intro call hcall j hj
    rcases holds_setCall hj with ⟨rfl, hnew⟩ | ⟨hne, hj⟩
    · rw [World.setCall_self]
      exact hcall hnew
    · rw [World.setCall_of_ne hne]
      exact hclaimed j hj
  cases hadvance with
  | idle hphase => exact absurd hphase (htidy.busy i (by simp [hids]))
  | skip => exact .untouched hsame hzero (hkeep _ fun hnext => absurd hnext (Call.not_holds_next rest t))
  | claim => exact .untouched hsame hzero (hkeep _ fun _ => rfl)
  -- from here on this call is the one that recovers, and it has sent nothing yet
  | invoke hphase =>
    refine .recovering i [] ?_ ?_ ?_ ?_
    · show ((w.setCall i _).calls i).Holds t
      rw [World.setCall_self]
      exact ⟨rfl, by simp, by simp⟩
    · simp [hzero]
    · show Ran _ _ (w.stores t)
      rw [hsame]
      exact .nil
    · show Ahead _ _ ((w.setCall i _).calls i).recoverer
      rw [World.setCall_self]
      rfl
  -- the status is read under the claim
  | forget _ hstatus => exact absurd (hsame ▸ hrunning) hstatus
  | completed hphase | readZero hphase | readSeq hphase | readModel hphase | send hphase | sent hphase
  | release hphase => simp [hphase] at hphases

/-- The other calls find the claim taken. -/
theorem stage_advance_of_claimed {j : ι} {done : List (Command ν)} (hj : (w.calls j).Holds t)
    (hone : w.completions t = 1)
    (hran : Ran (w₀.stores t) done (w.stores t)) (hahead : Ahead (w₀.stores t) done (w.calls j).recoverer)
    (htidy : Tidy w) (hji : j ≠ i) (hids : (w.calls i).ids = t :: rest) (hadvance : Advance ttl i t rest fresh w w') :
    Stage w₀ w' t := by
  have hhead : (w.calls i).ids.head? = some t := by rw [hids]; rfl
  have hnot : (w.calls i).recoverer.phase ≠ .idle → (w.calls i).recoverer.phase ≠ .listed → False :=
    fun hidle hlisted => hji ((htidy.locked t).exclusive hj ⟨hhead, hidle, hlisted⟩)
  cases hadvance with
  | idle hphase => exact absurd hphase (htidy.busy i (by simp [hids]))
  | skip =>
    have heq := World.setCall_of_ne hji (.next rest) w
    exact .recovering j done (heq ▸ hj) hone hran (heq ▸ hahead)
  -- the key is that of the recovering call
  | claim _ hkey => exact absurd hj ((hkey ▸ htidy.locked t).not_inside j)
  | invoke hphase | forget hphase | completed hphase | readZero hphase | readSeq hphase | readModel hphase
  | send hphase | sent hphase | release hphase => simp [hphase] at hnot

/-- The recovering call goes on with what is ahead of it. -/
theorem stage_advance_of_recovering {done : List (Command ν)} (hi : (w.calls i).Holds t) (hone : w.completions t = 1)
    (hran : Ran (w₀.stores t) done (w.stores t)) (hahead : Ahead (w₀.stores t) done (w.calls i).recoverer)
    (htidy : Tidy w) (hadvance : Advance ttl i t rest fresh w w') : Stage w₀ w' t := by
  unfold Ahead at hahead
  cases hadvance with
  | idle hphase | skip hphase | claim hphase | invoke hphase | forget hphase | release hphase =>
    simp [hphase] at hahead
  | completed hphase =>
    simp only [hphase] at hahead
    exact recovering_of_go hone hran (by simp) (by simp) hahead
  | readZero hphase hzero =>
    simp only [hphase] at hahead
    subst hahead
    exact recovering_of_go hone hran (by simp) (by simp) ⟨rfl, by rwa [hran.eq_of_nil] at hzero⟩
  | readSeq hphase hzero =>
    simp only [hphase] at hahead
    subst hahead
    have hsame := hran.eq_of_nil
    rw [hsame] at hzero ⊢
    refine recovering_of_go hone hran (by simp) (by simp) ⟨?_, ?_⟩
    · exact recoveryCommands_ne_nil _ _
    · exact recoveryCommands_none hzero _
  | readModel hphase =>
    simp only [hphase] at hahead
    obtain ⟨rfl, hzero⟩ := hahead
    rw [hran.eq_of_nil]
    refine recovering_of_go hone hran (by simp) (by simp) ⟨recoveryCommands_ne_nil _ _, ?_⟩
    rw [hzero]
    rfl
  | @send command tail hphase hpending =>
    simp only [hphase, hpending] at hahead
    obtain ⟨-, hall⟩ := hahead
    have hnext : Ran (w₀.stores t) (done ++ [command]) ((w.stores t).run fresh command) := hran.snoc command fresh
    have hstore : Function.update w.stores t ((w.stores t).run fresh command) t = (w.stores t).run fresh command :=
      Function.update_self ..
    by_cases htail : tail = []
    -- the last command: the call goes on to the release
    · subst htail
      rw [hall] at hnext
      have hfailed : ((w.stores t).run fresh command).status ≠ .running := by simp [(recovered_of_ran hnext).status]
      refine .done ⟨⟨by rwa [← hstore] at hfailed, fun k hk => .inl ?_⟩, hone, by rwa [← hstore] at hnext⟩
      rcases holds_setCall hk with ⟨rfl, -⟩ | ⟨hne, hk⟩
      · simp
      · exact absurd ((htidy.locked t).exclusive hk hi) hne
    · refine .recovering i (done ++ [command]) ?_ hone (by rwa [← hstore] at hnext) ?_
      · show ((w.setCall i _).calls i).Holds t
        rw [World.setCall_self, if_neg htail]
        exact ⟨rfl, by simp, by simp⟩
      · show Ahead _ _ ((w.setCall i _).calls i).recoverer
        rw [World.setCall_self, if_neg htail]
        exact ⟨htail, by rw [List.append_assoc]; exact hall⟩
  | sent hphase hpending =>
    simp [hphase, hpending] at hahead

theorem stage_advance (h : Stage w₀ w t) (htidy : Tidy w) (hrunning : (w₀.stores t).status = .running)
    (hids : (w.calls i).ids = t' :: rest) (hadvance : Advance ttl i t' rest fresh w w') : Stage w₀ w' t := by
  by_cases ht : t = t'
  swap
  · exact stage_advance_of_ne h htidy ht hids hadvance
  subst ht
  cases h with
  | done hdone => exact .done (done_advance hdone htidy hids hadvance)
  | untouched hsame hzero hclaimed =>
    exact stage_advance_of_untouched hsame hzero hclaimed htidy hrunning hids hadvance
  | recovering j done hj hone hran hahead =>
    by_cases hji : j = i
    · subst hji
      exact stage_advance_of_recovering hj hone hran hahead htidy hadvance
    · exact stage_advance_of_claimed hj hone hran hahead htidy hji hids hadvance

/-- A listed task stays on some list until it has been recovered: who passes it by leaves it to the holder of
the claim. -/
theorem listed_advance (hlisted : ∃ j, t ∈ (w.calls j).ids) (hstage : Stage w₀ w t) (htidy : Tidy w)
    (hids : (w.calls i).ids = t' :: rest) (hadvance : Advance ttl i t' rest fresh w w') :
    (∃ j, t ∈ (w'.calls j).ids) ∨ Done w₀ w' t := by
  obtain ⟨j, hj⟩ := hlisted
  by_cases hji : j = i
  swap
  · exact .inl ⟨j, by rwa [hadvance.calls_ne hji]⟩
  subst hji
  have hnext : t ∈ rest → ∃ k, t ∈ ((w.setCall j (.next rest)).calls k).ids :=
    fun hmem => ⟨j, by rwa [World.setCall_self]⟩
  have hgo : ∀ recoverer : Recoverer ν, ∃ k, t ∈ ((w.setCall j ⟨t' :: rest, recoverer⟩).calls k).ids :=
    fun recoverer => ⟨j, by rwa [World.setCall_self, ← hids]⟩
  have hdone : Done w₀ w t → Done w₀ w' t := fun h => done_advance h htidy hids hadvance
  rw [hids] at hj
  cases hadvance with
  | idle hphase => exact absurd hphase (htidy.busy j (by simp [hids]))
  -- the holder of the claim has the task at the head of its own list
  | @skip lease hphase hkey =>
    rcases List.mem_cons.mp hj with rfl | hmem
    · have hholds := htidy.held t lease hkey
      have hne : lease.holder ≠ j := fun heq => hholds.2.2 (heq ▸ hphase)
      exact .inl ⟨lease.holder, by rw [World.setCall_of_ne hne]; exact List.mem_of_head? hholds.1⟩
    · exact .inl (hnext hmem)
  -- a call comes to the release only behind its recovery, or another's
  | release hphase =>
    rcases List.mem_cons.mp hj with rfl | hmem
    · have hholds : (w.calls j).Holds t := ⟨by rw [hids]; rfl, by simp [hphase], by simp [hphase]⟩
      cases hstage with
      | untouched _ _ hclaimed => simp [hclaimed j hholds] at hphase
      | recovering k done hk _ _ hahead =>
        obtain rfl := (htidy.locked t).exclusive hk hholds
        simp [Ahead, hphase] at hahead
      | done h => exact .inr (hdone h)
    · exact .inl (hnext hmem)
  | claim | invoke | forget | completed | readZero | readSeq | readModel | send | sent => exact .inl (hgo _)

omit [DecidableEq τ] in
/-- A call begins. -/
theorem stage_next (h : Stage w₀ w t) (hids : (w.calls i).ids = []) (ids : List τ) :
    Stage w₀ (w.setCall i (.next ids)) t := by
  cases h with
  | untouched hsame hzero hclaimed =>
    refine .untouched hsame hzero fun j hj => ?_
    rcases holds_setCall hj with ⟨-, hcall⟩ | ⟨hne, hj⟩
    · exact absurd hcall (Call.not_holds_next ids t)
    · rw [World.setCall_of_ne hne]
      exact hclaimed j hj
  | recovering j done hj hone hran hahead =>
    have hne : j ≠ i := by
      rintro rfl
      simp [Call.Holds, hids] at hj
    have heq := World.setCall_of_ne hne (.next ids) w
    exact .recovering j done (heq ▸ hj) hone hran (heq ▸ hahead)
  | done hdone => exact .done ⟨hdone.settled.of_next ids, hdone.once, hdone.ran⟩

/-! ## Whole runs -/

/-- Commands do not fail and claims do not disappear under their holders. -/
def Smooth (w : World κ ν τ ι) (l : Label κ ν τ ι) : Prop := l.isScan = true ∧ InTime w l

instance [Fintype τ] (w : World κ ν τ ι) (l : Label κ ν τ ι) : Decidable (Smooth w l) :=
  inferInstanceAs (Decidable (_ ∧ _))

/-- What has become of the tasks of `w₀` after the steps `labels`. -/
structure Progress (w₀ : World κ ν τ ι) (labels : List (Label κ ν τ ι)) (w : World κ ν τ ι) : Prop where
  tidy : Tidy w
  stage : ∀ t, (w₀.stores t).status = .running → Stage w₀ w t
  listed : ∀ t, (w₀.stores t).status = .running → Listed labels t → (∃ i, t ∈ (w.calls i).ids) ∨ Done w₀ w t
  settled : ∀ t, (w₀.stores t).status ≠ .running → Settled w t ∧ (w.stores t).events = (w₀.stores t).events

omit [DecidableEq τ] [DecidableEq ι] in
theorem progress_init (h : Quiet w₀) : Progress w₀ [] w₀ where
  tidy := h.tidy
  stage := fun t _ => .untouched rfl (h.completions t) fun i hi => by simp [Call.Holds, h.calls i] at hi
  listed := fun t _ hlisted => by obtain ⟨i, cutoff, ids, hmem, -⟩ := hlisted; simp at hmem
  settled := fun t ht => ⟨⟨ht, fun i hi => by simp [Call.Holds, h.calls i] at hi⟩, rfl⟩

theorem progress_step [LinearOrder κ] {labels : List (Label κ ν τ ι)} {l : Label κ ν τ ι} (h : Progress w₀ labels w)
    (hsmooth : Smooth w l) (hstep : step ttl w l = some w') : Progress w₀ (labels ++ [l]) w' := by
  have htidy := tidy_step hsmooth.1 h.tidy hsmooth.2 hstep
  obtain ⟨hscan, -⟩ := hsmooth
  have hold : ∀ t, Listed (labels ++ [l]) t →
      Listed labels t ∨ ∃ i cutoff ids, l = .lists i cutoff ids ∧ t ∈ ids := by
    rintro t ⟨i, cutoff, ids, hmem, ht⟩
    rcases List.mem_append.mp hmem with hmem | hmem
    · exact .inl ⟨i, cutoff, ids, hmem, ht⟩
    · exact .inr ⟨i, cutoff, ids, (List.mem_singleton.mp hmem).symm, ht⟩
  cases l with simp only [Label.isScan, reduceCtorEq] at hscan
  | lists i cutoff ids =>
    simp only [step] at hstep
    split_ifs at hstep with hguard
    obtain rfl := Option.some.inj hstep
    refine ⟨htidy, fun t ht => stage_next (h.stage t ht) hguard.1 ids, fun t ht hlisted => ?_, fun t ht => ?_⟩
    -- a task that has been listed before, or by this call
    · rcases hold t hlisted with hlisted | ⟨_, _, _, hlabel, hmem⟩
      · rcases h.listed t ht hlisted with ⟨j, hj⟩ | hdone
        · have hne : j ≠ i := by
            rintro rfl
            simp [hguard.1] at hj
          exact .inl ⟨j, by rwa [World.setCall_of_ne hne]⟩
        · exact .inr ⟨hdone.settled.of_next ids, hdone.once, hdone.ran⟩
      · obtain ⟨rfl, rfl, rfl⟩ := Label.lists.inj hlabel
        exact .inl ⟨i, by rwa [World.setCall_self]⟩
    · obtain ⟨hsettled, hevents⟩ := h.settled t ht
      exact ⟨hsettled.of_next ids, hevents⟩
  | advance i fresh =>
    have hlisted : ∀ t, Listed (labels ++ [.advance i fresh]) t → Listed labels t := fun t ht =>
      (hold t ht).resolve_right (by simp)
    simp only [step] at hstep
    cases hids : (w.calls i).ids with
    | nil => simp [hids] at hstep
    | cons t' rest =>
      simp only [hids] at hstep
      split_ifs at hstep
      obtain rfl := Option.some.inj hstep
      have hadvance := advance_cases ttl i t' rest fresh w
      refine ⟨htidy, fun t ht => stage_advance (h.stage t ht) h.tidy ht hids hadvance,
        fun t ht ht' => ?_, fun t ht => ?_⟩
      · rcases h.listed t ht (hlisted t ht') with hlisted | hdone
        · exact listed_advance hlisted (h.stage t ht) h.tidy hids hadvance
        · exact .inr (done_advance hdone h.tidy hids hadvance)
      · obtain ⟨hsettled, hevents⟩ := h.settled t ht
        obtain ⟨hsettled', -, hstore⟩ := settled_advance hsettled h.tidy hids hadvance
        refine ⟨hsettled', ?_⟩
        rcases hstore with heq | heq <;> rw [heq] <;> exact hevents
  | waits time =>
    have hlisted : ∀ t, Listed (labels ++ [.waits time]) t → Listed labels t := fun t ht =>
      (hold t ht).resolve_right (by simp)
    simp only [step] at hstep
    split_ifs at hstep
    obtain rfl := Option.some.inj hstep
    refine ⟨htidy, fun t ht => ?_, fun t ht ht' => ?_, h.settled⟩
    · cases h.stage t ht with
      | untouched hsame hzero hclaimed => exact .untouched hsame hzero hclaimed
      | recovering i done hi hone hran hahead => exact .recovering i done hi hone hran hahead
      | done hdone => exact .done ⟨hdone.settled, hdone.once, hdone.ran⟩
    · exact (h.listed t ht (hlisted t ht')).imp id fun hdone => ⟨hdone.settled, hdone.once, hdone.ran⟩

end

/-- A listed task of a run that is over. -/
theorem done_of_listed {w₀ w : World κ ν τ ι}
    {labels : List (Label κ ν τ ι)} (h : Progress w₀ labels w) (hreturned : ∀ i, (w.calls i).ids = []) {t : τ}
    (ht : (w₀.stores t).status = .running) (hlisted : Listed labels t) : Done w₀ w t := by
  rcases h.listed t ht hlisted with ⟨i, hi⟩ | hdone
  · simp [hreturned i] at hi
  · exact hdone

theorem progress_of_run [LinearOrder κ] [DecidableEq τ] [DecidableEq ι] {ttl : ℕ} {w₀ w : World κ ν τ ι}
    (hquiet : Quiet w₀) {labels : List (Label κ ν τ ι)} (hsmooth : Machine.AllSteps (step ttl) Smooth w₀ labels)
    (hrun : Machine.exec (step ttl) w₀ labels = some w) : Progress w₀ labels w :=
  Machine.exec_history_of_allSteps (progress_init hquiet)
    (fun _ _ _ _ h hsmooth hstep => progress_step h hsmooth hstep) hsmooth hrun

/-- Once all calls have returned, every running task that one of them has listed has been recovered once, by one
invocation of `complete`, and its claim is free; the stream of a task that was not running is as it was. -/
theorem recovery_takes_effect_once [LinearOrder κ] [DecidableEq τ] [DecidableEq ι] (ttl : ℕ) (w₀ w : World κ ν τ ι)
    (hquiet : Quiet w₀) (labels : List (Label κ ν τ ι)) (hsmooth : Machine.AllSteps (step ttl) Smooth w₀ labels)
    (hrun : Machine.exec (step ttl) w₀ labels = some w) (hreturned : ∀ i, (w.calls i).ids = []) :
    (∀ t, (w₀.stores t).status = .running → Listed labels t →
        Recovered (w₀.stores t) (w.stores t) ∧ w.completions t = 1 ∧ w.claims t = none) ∧
      ∀ t, (w₀.stores t).status ≠ .running → (w.stores t).events = (w₀.stores t).events := by
  have hprogress := progress_of_run hquiet hsmooth hrun
  refine ⟨fun t ht hlisted => ?_, fun t ht => (hprogress.settled t ht).2⟩
  have hdone := done_of_listed hprogress hreturned ht hlisted
  refine ⟨recovered_of_ran hdone.ran, hdone.once, ?_⟩
  cases hkey : w.claims t with
  | none => rfl
  | some lease =>
    have hholds := hprogress.tidy.held t lease hkey
    simp [Call.Holds, hreturned] at hholds

/-- A task that runs and one that has been completed, both with old heartbeats. -/
def twoTasks : World ℕ ℕ Bool Bool where
  now := 0
  stores := fun t => if t then { oldTask with status := .completed } else oldTask
  claims := fun _ => none
  calls := fun _ => .next []
  completions := fun _ => 0

/-- Two calls that have listed both. -/
def twoCalls : List (Label ℕ ℕ Bool Bool) :=
  [.lists false 0 [false, true], .lists true 0 [false, true], .advance false 2, .advance false 2] ++
    List.replicate 5 (.advance true 2) ++ [.waits 20] ++ (List.range 16).map fun n => .advance false (n + 2)

theorem recovery_takes_effect_once_twoCalls : ∃ w : World ℕ ℕ Bool Bool,
    Machine.exec (step 30) twoTasks twoCalls = some w ∧
      (∀ t, (twoTasks.stores t).status = .running → Listed twoCalls t →
        Recovered (twoTasks.stores t) (w.stores t) ∧ w.completions t = 1 ∧ w.claims t = none) ∧
      ∀ t, (twoTasks.stores t).status ≠ .running → (w.stores t).events = (twoTasks.stores t).events := by
  have hrun : (Machine.exec (step 30) twoTasks twoCalls).map (fun w => ((w.calls false).ids, (w.calls true).ids)) =
      some ([], []) := by
    decide +kernel
  obtain ⟨w, hw, hcalls⟩ := Option.map_eq_some_iff.mp hrun
  have hreturned : ∀ i, (w.calls i).ids = [] := by
    intro i
    cases i
    · exact (Prod.mk.inj hcalls).1
    · exact (Prod.mk.inj hcalls).2
  exact ⟨w, hw, recovery_takes_effect_once 30 twoTasks w ⟨fun _ => rfl, fun _ => rfl, fun _ => rfl⟩ twoCalls
    (by decide +kernel) hw hreturned⟩

end AgentUE.PythonRunner.Scan
