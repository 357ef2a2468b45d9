import AgentUE.PythonRunner.Run
import AgentUE.PythonRunner.Scan

/-!
# Python runner: the heartbeat of a task

Reference: `run`, `_execute` and `_heartbeat_loop` in `sdks/python/src/agentue/runner/runner.py`, `initialize`,
`touch` and `expired_task_ids` in `redis_bridge.py`. The owner of a task runs among scanners, in logical time: a
touch reads the clock and writes its score in one instant. The heartbeat loop is there from the first step of the
execute task to the end of its `_finalize`; before and after it nothing touches the task.
-/

namespace AgentUE.PythonRunner.Heartbeat

open Data

variable {κ ν τ ι : Type}

/-- The heartbeat loop of the task. -/
inductive Loop where
  /-- `_execute` has not begun -/
  | idle
  /-- since its begin, or since its last touch -/
  | active (since : ℕ) (touched : Bool)
  /-- a touch has raised -/
  | failed
  /-- `_execute` has cancelled it after `_finalize` -/
  | ended
deriving DecidableEq

/-- What the owner has written. -/
inductive Standing where
  | unregistered
  /-- the status of `initialize`, but not its touch -/
  | registering
  | registered
  /-- a terminal status -/
  | closed
deriving DecidableEq

/-- The scanners with the keys of all tasks, and the owner of one task. The store of `run` is kept in `scan`. -/
structure World (κ ν τ ι : Type) where
  scan : Scan.World κ ν τ ι
  run : Run.State κ ν
  loop : Loop
  standing : Standing

/-- Before `initialize`, whatever the keys hold and the scanners do. -/
def World.before (model : Run.Model ν) (scan : Scan.World κ ν τ ι) : World κ ν τ ι where
  scan := scan
  run := .init model 0
  loop := .idle
  standing := .unregistered

/-- What happens next. -/
inductive Label (κ ν τ ι : Type) where
  /-- `initialize` writes the hash of the task -/
  | registers
  /-- `initialize` touches the task -/
  | enters
  /-- a step of the run -/
  | run (l : Run.Label κ ν)
  /-- the loop touches the task -/
  | touches
  /-- a touch of the loop raises without effect -/
  | fails
  /-- a scanner, the clock, or the owner of another task -/
  | scan (l : Scan.Label κ ν τ ι)

/-- In `_finalize`. -/
def inFinalize : Run.Phase ν → Bool
  | .completing _ _ | .publishingError _ _ | .publishingEnd _ _ _ | .marking _ _ => true
  | _ => false

/-- The loop after a step of the run: the first step of `_execute` creates it, and what follows its `_finalize`
cancels it. An `_execute` that is cancelled while it waits for the business task leaves it as it is. -/
def Loop.after (before after : Run.Phase ν) (now : ℕ) (loop : Loop) : Loop :=
  match before, after, loop with
  | .spawned, .preparing, _ => .active now false
  -- the `finally` around `_finalize`
  | _, _, .active _ _ => if inFinalize before && after.isOver then .ended else loop
  | _, _, _ => loop

/-- The loop is active and has touched the task. -/
def Loop.hasTouched : Loop → Bool
  | .active _ touched => touched
  | _ => false

/-- The owner writes a terminal status. -/
def marksTerminal (r : Run.State κ ν) : Run.Label κ ν → Bool
  | .send _ =>
    match r.pending with
    | .hsetStatus _ :: _ => true
    | _ => false
  | _ => false

/-- A scanner reads `wall_clock()` before `ZRANGEBYSCORE`; nobody but the owner touches the task. -/
def admits [DecidableEq τ] (timeout : ℕ) (task : τ) (now : ℕ) : Scan.Label κ ν τ ι → Bool
  | .lists _ cutoff _ => cutoff + timeout ≤ now
  | .writes t _ _ | .touches t _ => t ≠ task
  | .advance _ _ | .fails _ | .waits _ => true

/-- The run with its store. -/
def World.owner (task : τ) (w : World κ ν τ ι) : Run.State κ ν := { w.run with store := w.scan.stores task }

/-- Other keys of the task. -/
def World.setStore [DecidableEq τ] (task : τ) (store : Store κ ν) (w : World κ ν τ ι) : World κ ν τ ι :=
  { w with scan := { w.scan with stores := Function.update w.scan.stores task store } }

/-- One step. -/
def step [LinearOrder κ] [DecidableEq ν] [DecidableEq τ] [DecidableEq ι] (ttl timeout : ℕ) (task : τ)
    (w : World κ ν τ ι) : Label κ ν τ ι → Option (World κ ν τ ι)
  | .registers =>
    if w.standing = .unregistered then
      some { w.setStore task { w.scan.stores task with
          status := .running, lastSeq := 0, initialModel := some w.run.context.model.doc } with
        standing := .registering }
    else none
  | .enters =>
    if w.standing = .registering then
      some { w.setStore task ((w.scan.stores task).touch w.scan.now) with standing := .registered }
    else none
  | .run l =>
    if w.standing = .registered ∨ w.standing = .closed then
      (Run.step (w.owner task) l).map fun r => { w.setStore task r.store with
        run := r
        loop := w.loop.after w.run.phase r.phase w.scan.now
        standing := if marksTerminal w.run l then .closed else w.standing }
    else none
  | .touches =>
    match w.loop with
    | .active _ _ =>
      some { w.setStore task ((w.scan.stores task).touch w.scan.now) with loop := .active w.scan.now true }
    | _ => none
  | .fails =>
    match w.loop with
    | .active _ _ => some { w with loop := .failed }
    | _ => none
  | .scan l =>
    if admits timeout task w.scan.now l then
      (Scan.step ttl w.scan l).map fun scan => { w with scan := scan }
    else none

/-! ## What is asked of the runs -/

/-- The task is registered, and its owner has not written a terminal status. -/
def World.isLive (w : World κ ν τ ι) : Bool :=
  match w.standing with
  | .registering | .registered => true
  | .unregistered | .closed => false

/-- No call is in `_recover_task` for a live task. -/
def Spared (task : τ) (w : World κ ν τ ι) : Prop :=
  w.isLive = true → ∀ i, ¬ (w.scan.calls i).InRecoverTask task

/-- The event loop makes progress: an active heartbeat loop touches the task at least once per interval. -/
def Progress (interval : ℕ) (w : World κ ν τ ι) : Label κ ν τ ι → Prop
  | .scan (.waits time) =>
    match w.loop with
    | .active since _ => time ≤ since + interval
    | _ => True
  | _ => True

/-- The entry of the task in the index is younger than the timeout. -/
def Young (timeout : ℕ) (task : τ) (now : ℕ) (w : World κ ν τ ι) : Prop :=
  ∀ last ∈ (w.scan.stores task).heartbeat, now < last + timeout

/-- While no loop has touched the live task its entry does not get too old, and no scanner has the id from before its
registration. -/
def Covered (timeout : ℕ) (task : τ) (w : World κ ν τ ι) : Label κ ν τ ι → Prop
  | .registers => (∀ i, task ∉ (w.scan.calls i).ids) ∧ Young timeout task w.scan.now w
  | .scan (.waits time) => w.isLive = true → w.loop.hasTouched = false → Young timeout task time w
  | _ => True

instance (interval : ℕ) (w : World κ ν τ ι) : ∀ l, Decidable (Progress interval w l)
  | .scan (.waits time) =>
    match h : w.loop with
    | .active since _ => decidable_of_iff (time ≤ since + interval) (by simp only [Progress, h])
    | .idle | .failed | .ended => isTrue (by simp only [Progress, h])
  | .registers | .enters | .run _ | .touches | .fails | .scan (.lists ..) | .scan (.advance ..) | .scan (.fails _)
  | .scan (.writes ..) | .scan (.touches ..) => isTrue trivial

instance [DecidableEq τ] [Fintype ι] (timeout : ℕ) (task : τ) (w : World κ ν τ ι) :
    ∀ l, Decidable (Covered timeout task w l)
  | .registers => inferInstanceAs (Decidable ((∀ i, task ∉ (w.scan.calls i).ids) ∧
      ∀ last ∈ (w.scan.stores task).heartbeat, w.scan.now < last + timeout))
  | .scan (.waits time) => inferInstanceAs (Decidable (w.isLive = true → w.loop.hasTouched = false →
      ∀ last ∈ (w.scan.stores task).heartbeat, time < last + timeout))
  | .enters | .run _ | .touches | .fails | .scan (.lists ..) | .scan (.advance ..) | .scan (.fails _)
  | .scan (.writes ..) | .scan (.touches ..) => isTrue trivial

/-! ## The hand-over to the execute task -/

/-- The loop is there while the business runs, and it is cancelled at the end of the run. -/
def Handed (w : World κ ν τ ι) : Prop :=
  (w.run.phase.inBusiness = true → w.loop ≠ .idle) ∧ (w.loop = .ended → w.run.phase.isOver = true)

theorem Loop.after_cases (before after : Run.Phase ν) (now : ℕ) (loop : Loop) :
    (before = .spawned ∧ after = .preparing ∧ loop.after before after now = .active now false) ∨
      (loop.after before after now = .ended ∧ (∃ since touched, loop = .active since touched) ∧ after.isOver = true) ∨
      (¬ (before = .spawned ∧ after = .preparing) ∧ loop.after before after now = loop) := by
  unfold Loop.after
  split
  · exact .inl ⟨rfl, rfl, rfl⟩
  · rename_i since touched hne
    split_ifs with hover
    · exact .inr (.inl ⟨rfl, ⟨since, touched, rfl⟩, (Bool.and_eq_true_iff.mp hover).2⟩)
    · exact .inr (.inr ⟨fun h => hne h.1 h.2, rfl⟩)
  · rename_i hne _
    exact .inr (.inr ⟨fun h => hne h.1 h.2, rfl⟩)

theorem inBusiness_beginEnd (outcome : Run.Outcome) (terminal : List (Live.TerminalEvent ν)) (persisted : Bool)
    (r : Run.State κ ν) : (r.beginEnd outcome terminal persisted).phase.inBusiness = false := by
  unfold Run.State.beginEnd
  cases persisted <;> rfl

theorem inBusiness_finalize (outcome : Run.Outcome) (r : Run.State κ ν) :
    (r.finalize outcome).phase.inBusiness = false := by
  unfold Run.State.finalize
  split
  · exact inBusiness_beginEnd ..
  · dsimp only
    split <;> rfl

section

variable [DecidableEq ν]

/-- The business begins with the first step of the execute task. -/
theorem inBusiness_move {r r' : Run.State κ ν} {l : Run.Label κ ν} (hmove : Run.Move r l r')
    (h : r'.phase.inBusiness = true) :
    r.phase.inBusiness = true ∨ r.phase = .spawned ∧ r'.phase = .preparing := by
  cases hmove with
  | idle => exact .inl h
  | send => exact .inl h
  -- only the first step of `_execute` gets there from outside
  | begin hphase => exact .inr ⟨hphase, rfl⟩
  | prepared hphase | accept hphase | resumed _ hphase => exact .inl (by rw [hphase]; rfl)
  | finalize => simp [inBusiness_finalize] at h
  | errorStored | errorLost => simp [inBusiness_beginEnd] at h
  | @finish outcome =>
    unfold Run.State.finish at h
    cases hreraises : outcome.reraises <;> simp [hreraises, Run.Phase.inBusiness] at h
  | _ => simp [Run.State.beginStart, Run.State.complete, Run.State.beginMark, Run.Phase.inBusiness] at h

theorem isOver_move {r r' : Run.State κ ν} {l : Run.Label κ ν} (hmove : Run.Move r l r')
    (h : r.phase.isOver = true) : r'.phase.isOver = true := by
  cases hmove with
  | idle => exact h
  | send => exact h
  | die => rfl
  | endBusiness hbusiness =>
    cases hphase : r.phase <;> simp [hphase, Run.Phase.inBusiness, Run.Phase.isOver] at h hbusiness
  | restart hphase | failStarted hphase =>
    rcases hphase with hphase | ⟨event, hphase⟩ <;> simp [hphase, Run.Phase.isOver] at h
  | start hphase | started hphase | restarted _ hphase | giveUpStart _ _ hphase | begin hphase | prepared hphase
  | accept hphase | resumed _ hphase | refused hphase | finalize _ hphase | errorStored hphase | errorLost hphase
  | endStored hphase | endLost hphase | finish hphase => simp [hphase, Run.Phase.isOver] at h

variable [LinearOrder κ]

/-- What a step of the run does to the index: the owner removes its entry, or leaves it alone. -/
theorem heartbeat_run {r r' : Run.State κ ν} {l : Run.Label κ ν} (hstep : Run.step r l = some r') :
    ∀ last ∈ r'.store.heartbeat, last ∈ r.store.heartbeat := by
  intro last hlast
  rcases Run.store_move (Run.move_of_step hstep) with hstore | ⟨fresh, command, rest, -, -, rfl⟩
  · rwa [hstore] at hlast
  · cases command with
    | zrem => simp [Run.State.sent, Store.run] at hlast
    | _ => exact hlast

variable [DecidableEq τ] [DecidableEq ι]

theorem run_cases {ttl timeout : ℕ} {task : τ} {w w' : World κ ν τ ι} {l : Run.Label κ ν}
    (hstep : step ttl timeout task w (.run l) = some w') :
    (w.standing = .registered ∨ w.standing = .closed) ∧ ∃ r, Run.step (w.owner task) l = some r ∧
      w' = { w.setStore task r.store with
        run := r
        loop := w.loop.after w.run.phase r.phase w.scan.now
        standing := if marksTerminal w.run l then .closed else w.standing } := by
  by_cases hregistered : w.standing = .registered ∨ w.standing = .closed
  · simp only [step, if_pos hregistered] at hstep
    obtain ⟨r, hr, rfl⟩ := Option.map_eq_some_iff.mp hstep
    exact ⟨hregistered, r, hr, rfl⟩
  · simp only [step, if_neg hregistered, reduceCtorEq] at hstep

/-- From the first step of `_execute` to the end of its `_finalize` the loop is there, unless a touch fails. -/
theorem handed_step {ttl timeout : ℕ} {task : τ} {w w' : World κ ν τ ι} {l : Label κ ν τ ι} (h : Handed w)
    (hstep : step ttl timeout task w l = some w') : Handed w' := by
  cases l with
  | run l =>
    obtain ⟨-, r, hr, rfl⟩ := run_cases hstep
    have hmove := Run.move_of_step hr
    have hbusiness := inBusiness_move hmove
    have hover := isOver_move hmove
    change (r.phase.inBusiness = true → _) ∧ (_ → r.phase.isOver = true)
    dsimp only [World.owner] at hbusiness hover
    rcases Loop.after_cases w.run.phase r.phase w.scan.now w.loop with
      ⟨-, hphase, hloop⟩ | ⟨hloop, -, hend⟩ | ⟨hne, hloop⟩ <;> rw [hloop]
    · exact ⟨fun _ => by simp, by simp⟩
    · exact ⟨fun _ => by simp, fun _ => hend⟩
    · refine ⟨fun hin => h.1 ((hbusiness hin).resolve_right hne), fun hended => hover (h.2 hended)⟩
  | registers | enters =>
    simp only [step] at hstep
    split_ifs at hstep
    obtain rfl := Option.some.inj hstep
    exact h
  | touches | fails =>
    simp only [step] at hstep
    split at hstep
    · obtain rfl := Option.some.inj hstep
      exact ⟨fun _ => by simp, by simp⟩
    · simp at hstep
  | scan l =>
    simp only [step] at hstep
    split_ifs at hstep
    obtain ⟨scan, -, rfl⟩ := Option.map_eq_some_iff.mp hstep
    exact h

/-- In every state of every run. -/
theorem handed_run (ttl timeout : ℕ) (task : τ) (model : Run.Model ν) (scan : Scan.World κ ν τ ι)
    (labels : List (Label κ ν τ ι)) :
    Machine.AllStates (step ttl timeout task) Handed (World.before model scan) labels :=
  Machine.allStates_of_invariant (fun _ _ _ h hstep => handed_step h hstep) labels ⟨nofun, nofun⟩

end

/-! ## A live task -/

/-- No scanner has a live task, its entry is young and as new as the last touch of the loop. -/
structure Fresh (timeout : ℕ) (task : τ) (w : World κ ν τ ι) : Prop where
  unlisted : ∀ i, task ∉ (w.scan.calls i).ids
  young : Young timeout task w.scan.now w
  beat : ∀ since, w.loop = .active since true → ∀ last ∈ (w.scan.stores task).heartbeat, last = since

/-- The invariant: the loop begins behind the registration, and a live task is fresh. -/
structure Guarded (timeout : ℕ) (task : τ) (w : World κ ν τ ι) : Prop where
  idle : w.standing ≠ .registered → w.standing ≠ .closed → w.loop = .idle
  fresh : w.isLive = true → Fresh timeout task w

theorem guarded_before (timeout : ℕ) (task : τ) (model : Run.Model ν) (scan : Scan.World κ ν τ ι) :
    Guarded timeout task (World.before model scan) :=
  ⟨fun _ _ => rfl, nofun⟩

/-- Time passes over a fresh task: its loop goes on touching it, or its entry is young enough. -/
theorem young_waits {timeout interval time : ℕ} (hinterval : interval < timeout) {task : τ} {w : World κ ν τ ι}
    (hfresh : Fresh timeout task w) (hlive : w.isLive = true) (hprogress : Progress interval w (.scan (.waits time)))
    (hcovered : Covered timeout task w (.scan (.waits time))) : Young timeout task time w := by
  -- before the first touch the condition gives it, after it the progress of the loop
  cases htouched : w.loop.hasTouched with
  | false => exact hcovered hlive htouched
  | true =>
    cases hloop : w.loop with
    | active since touched =>
      obtain rfl : touched = true := by simpa [hloop, Loop.hasTouched] using htouched
      simp only [Progress, hloop] at hprogress
      intro last hlast
      rw [hfresh.beat since hloop last hlast]
      omega
    | _ => simp [hloop, Loop.hasTouched] at htouched

section

variable [DecidableEq τ]

/-- A touch of a task that no scanner has. -/
theorem young_touch {timeout : ℕ} (htimeout : 0 < timeout) (task : τ) (w : World κ ν τ ι) :
    Young timeout task w.scan.now (w.setStore task ((w.scan.stores task).touch w.scan.now)) := by
  intro last hlast
  simp only [World.setStore, Function.update_self, Store.touch, Option.mem_def, Option.some.injEq] at hlast
  omega

variable [DecidableEq ι]

/-- A call that is given its next step changes the keys of the task that it has got to, and no other call. -/
theorem advance_frame {ttl : ℕ} {i : ι} {t : τ} {rest : List τ} {fresh : κ} {w w' : Scan.World κ ν τ ι}
    (h : Scan.Advance ttl i t rest fresh w w') :
    (w'.calls i).ids ⊆ t :: rest ∧ (∀ j, j ≠ i → w'.calls j = w.calls j) ∧
      (∀ t', t' ≠ t → w'.stores t' = w.stores t') ∧ w'.now = w.now := by
  have hself : ∀ call : Scan.Call τ ν, call.ids ⊆ t :: rest → ((w.setCall i call).calls i).ids ⊆ t :: rest :=
    fun call hids => by rwa [Scan.World.setCall_self]
  have hother : ∀ (call : Scan.Call τ ν) j, j ≠ i → (w.setCall i call).calls j = w.calls j :=
    fun call j hj => Scan.World.setCall_of_ne hj ..
  have hnext : (Scan.Call.next rest : Scan.Call τ ν).ids ⊆ t :: rest := List.subset_cons_self t rest
  cases h with
  | idle _ hids =>
    refine ⟨hself _ ?_, hother _, fun _ _ => rfl, rfl⟩
    rcases hids with rfl | rfl
    · exact hnext
    · exact List.Subset.refl _
  | skip | release => exact ⟨hself _ hnext, hother _, fun _ _ => rfl, rfl⟩
  | send =>
    refine ⟨hself _ ?_, hother _, fun t' ht' => Function.update_of_ne ht' .., rfl⟩
    split <;> exact List.Subset.refl _
  | _ => exact ⟨hself _ (List.Subset.refl _), hother _, fun _ _ => rfl, rfl⟩

variable [LinearOrder κ]

/-- A task that no call has and whose entry is young stays out of the calls, with the same keys. -/
theorem scan_frame {ttl timeout : ℕ} {task : τ} {w : World κ ν τ ι} {scan : Scan.World κ ν τ ι}
    {l : Scan.Label κ ν τ ι} (hunlisted : ∀ i, task ∉ (w.scan.calls i).ids) (hyoung : Young timeout task w.scan.now w)
    (hadmits : admits timeout task w.scan.now l = true) (hstep : Scan.step ttl w.scan l = some scan) :
    (∀ i, task ∉ (scan.calls i).ids) ∧ scan.stores task = w.scan.stores task ∧
      ((∃ time, l = .waits time ∧ scan.now = time) ∨ scan.now = w.scan.now) := by
  -- another call of `i` with ids that the task is not among
  have hset : ∀ (i : ι) (call : Scan.Call τ ν), task ∉ call.ids →
      ∀ j, task ∉ ((w.scan.setCall i call).calls j).ids := by
    intro i call hcall j
    by_cases hj : j = i
    · rwa [hj, Scan.World.setCall_self]
    · rw [Scan.World.setCall_of_ne hj]
      exact hunlisted j
  cases l with
  | lists i cutoff ids =>
    simp only [Scan.step] at hstep
    split_ifs at hstep with hguard
    obtain rfl := Option.some.inj hstep
    refine ⟨hset i _ fun hmem => ?_, rfl, .inr rfl⟩
    -- what a scanner lists is too old
    have hexpired := List.all_eq_true.mp hguard.2 task hmem
    obtain ⟨last, hlast, hold⟩ := Option.any_eq_true .. |>.mp hexpired
    have hcutoff : cutoff + timeout ≤ w.scan.now := by simpa [admits] using hadmits
    have := hyoung last hlast
    simp only [decide_eq_true_eq] at hold
    omega
  | advance i fresh =>
    simp only [Scan.step] at hstep
    cases hids : (w.scan.calls i).ids with
    | nil => simp [hids] at hstep
    | cons t rest =>
      simp only [hids] at hstep
      split_ifs at hstep
      obtain rfl := Option.some.inj hstep
      have hne : task ∉ t :: rest := hids ▸ hunlisted i
      obtain ⟨hself, hother, hstores, hnow⟩ := advance_frame (Scan.advance_cases ttl i t rest fresh w.scan)
      refine ⟨fun j => ?_, hstores task fun heq => hne (heq ▸ List.mem_cons_self), .inr hnow⟩
      by_cases hj : j = i
      · exact fun hmem => hne (hself (hj ▸ hmem))
      · rw [hother j hj]
        exact hunlisted j
  | fails i =>
    obtain ⟨call, hfails, rfl⟩ := Option.map_eq_some_iff.mp hstep
    -- what an exception leaves is the release of an id that the call had
    refine ⟨hset i call ?_, rfl, .inr rfl⟩
    rcases Scan.Call.fails_cases hfails with rfl | ⟨t, rest, hids, rfl, -⟩
    · simp [Scan.Call.next]
    · have hne := hids ▸ hunlisted i
      simp only [List.mem_cons, not_or] at hne
      simpa using hne.1
  | waits time =>
    simp only [Scan.step] at hstep
    split_ifs at hstep
    obtain rfl := Option.some.inj hstep
    exact ⟨hunlisted, rfl, .inl ⟨time, rfl, rfl⟩⟩
  | writes t command fresh =>
    simp only [Scan.step] at hstep
    split_ifs at hstep
    obtain rfl := Option.some.inj hstep
    have hne : t ≠ task := by simpa [admits] using hadmits
    exact ⟨hunlisted, Function.update_of_ne hne.symm .., .inr rfl⟩
  | touches t time =>
    obtain rfl := Option.some.inj hstep
    have hne : t ≠ task := by simpa [admits] using hadmits
    exact ⟨hunlisted, Function.update_of_ne hne.symm .., .inr rfl⟩

variable [DecidableEq ν]

/-- A step of the run: the owner at most removes the entry, and the loop does not get ahead of it. -/
theorem guarded_run {ttl timeout : ℕ} {task : τ} {w w' : World κ ν τ ι} {l : Run.Label κ ν}
    (h : Guarded timeout task w) (hstep : step ttl timeout task w (.run l) = some w') :
    Guarded timeout task w' := by
  obtain ⟨hregistered, r, hr, rfl⟩ := run_cases hstep
  refine ⟨fun hne hnc => ?_, fun hlive => ?_⟩
  -- the run begins behind the registration
  · dsimp only at hne hnc
    split_ifs at hne hnc
    · exact absurd rfl hnc
    · rcases hregistered with hregistered | hclosed
      · exact absurd hregistered hne
      · exact absurd hclosed hnc
  · have hstill : w.isLive = true := by
      simp only [World.isLive] at hlive ⊢
      -- the status that the owner writes ends it
      split_ifs at hlive
      exact hlive
    have hfresh := h.fresh hstill
    have hentry : ∀ last ∈ (Function.update w.scan.stores task r.store task).heartbeat,
        last ∈ (w.scan.stores task).heartbeat := by
      rw [Function.update_self]
      exact heartbeat_run hr
    refine ⟨hfresh.unlisted, fun last hlast => hfresh.young last (hentry last hlast),
      fun since hloop last hlast => ?_⟩
    dsimp only at hloop
    rcases Loop.after_cases w.run.phase r.phase w.scan.now w.loop with
      ⟨-, -, hafter⟩ | ⟨hafter, -⟩ | ⟨-, hafter⟩ <;> rw [hafter] at hloop
    · simp at hloop
    · simp at hloop
    · exact hfresh.beat since hloop last (hentry last hlast)

theorem guarded_step {ttl timeout interval : ℕ} (hinterval : interval < timeout) {task : τ} {w w' : World κ ν τ ι}
    {l : Label κ ν τ ι} (h : Guarded timeout task w) (hprogress : Progress interval w l)
    (hcovered : Covered timeout task w l) (hstep : step ttl timeout task w l = some w') :
    Guarded timeout task w' := by
  have htimeout : 0 < timeout := by omega
  cases l with
  | registers =>
    simp only [step] at hstep
    split_ifs at hstep with hunregistered
    obtain rfl := Option.some.inj hstep
    have hidle : w.loop = .idle := h.idle (by simp [hunregistered]) (by simp [hunregistered])
    refine ⟨fun _ _ => hidle, fun _ => ⟨hcovered.1, fun last hlast => hcovered.2 last ?_, fun since hloop => ?_⟩⟩
    · simpa [World.setStore] using hlast
    · exact absurd (hidle.symm.trans hloop) (by simp)
  | enters =>
    simp only [step] at hstep
    split_ifs at hstep with hregistering
    obtain rfl := Option.some.inj hstep
    have hidle : w.loop = .idle := h.idle (by simp [hregistering]) (by simp [hregistering])
    have hfresh := h.fresh (by simp [World.isLive, hregistering])
    refine ⟨fun _ _ => hidle, fun _ => ⟨hfresh.unlisted, young_touch htimeout task w, fun since hloop => ?_⟩⟩
    exact absurd (hidle.symm.trans hloop) (by simp)
  | run l => exact guarded_run h hstep
  | touches =>
    simp only [step] at hstep
    split at hstep
    · rename_i since touched hloop
      obtain rfl := Option.some.inj hstep
      refine ⟨fun hne hnc => ?_, fun hlive => ?_⟩
      · exact absurd (hloop.symm.trans (h.idle hne hnc)) (by simp)
      · refine ⟨(h.fresh hlive).unlisted, young_touch htimeout task w, fun since' hloop' last hlast => ?_⟩
        simp only [World.setStore, Function.update_self, Store.touch, Option.mem_def, Option.some.injEq] at hlast
        simp only [Loop.active.injEq, and_true] at hloop'
        omega
    · simp at hstep
  | fails =>
    simp only [step] at hstep
    split at hstep
    · rename_i since touched hloop
      obtain rfl := Option.some.inj hstep
      refine ⟨fun hne hnc => ?_, fun hlive => ?_⟩
      · exact absurd (hloop.symm.trans (h.idle hne hnc)) (by simp)
      · exact ⟨(h.fresh hlive).unlisted, (h.fresh hlive).young, nofun⟩
    · simp at hstep
  | scan l =>
    simp only [step] at hstep
    split_ifs at hstep with hadmits
    obtain ⟨scan, hscan, rfl⟩ := Option.map_eq_some_iff.mp hstep
    refine ⟨h.idle, fun hlive => ?_⟩
    have hfresh := h.fresh hlive
    obtain ⟨hunlisted, hstores, hnow⟩ := scan_frame hfresh.unlisted hfresh.young hadmits hscan
    refine ⟨hunlisted, fun last hlast => ?_,
      fun since hloop last hlast => hfresh.beat since hloop last (hstores ▸ hlast)⟩
    rw [hstores] at hlast
    rcases hnow with ⟨time, rfl, hnow⟩ | hnow <;> rw [hnow]
    · exact young_waits hinterval hfresh hlive hprogress hcovered last hlast
    · exact hfresh.young last hlast

end

/-- The event loop makes progress, and the options say that the interval is shorter than the timeout: in every run
in which the entry of the task does not get too old while no loop has touched it, no scanner recovers the task
between its registration and the terminal status of its owner. -/
theorem live_task_spared [LinearOrder κ] [DecidableEq ν] [DecidableEq τ] [DecidableEq ι] (ttl timeout interval : ℕ)
    (hinterval : interval < timeout) (task : τ) (model : Run.Model ν) (scan : Scan.World κ ν τ ι)
    (labels : List (Label κ ν τ ι))
    (hprogress : Machine.AllSteps (step ttl timeout task) (Progress interval) (World.before model scan) labels)
    (hcovered : Machine.AllSteps (step ttl timeout task) (Covered timeout task) (World.before model scan) labels) :
    Machine.AllStates (step ttl timeout task) (Spared task) (World.before model scan) labels := by
  have hguarded : Machine.AllStates (step ttl timeout task) (Guarded timeout task) (World.before model scan) labels :=
    Machine.allStates_of_allSteps (fun w l w' h hkept hstep => guarded_step hinterval h hkept.1 hkept.2 hstep)
      (guarded_before timeout task model scan) (hprogress.and hcovered)
  exact hguarded.mono fun w h hlive i hin => (h.fresh hlive).unlisted i (List.mem_of_mem_head? hin.1)

/-! ## An entry that is too old -/

section

variable [LinearOrder κ] [DecidableEq τ] [DecidableEq ι]

/-- A scanner claims the first of its ids. -/
theorem claims_next (ttl : ℕ) {scan : Scan.World κ ν τ ι} {i : ι} {t : τ} {rest : List τ} {fresh : κ}
    (hcall : scan.calls i = .next (t :: rest)) (hclaim : scan.claims t = none)
    (haccepts : (scan.stores t).accepts fresh = true) :
    ∃ scan', Scan.step ttl scan (.advance i fresh) = some scan' ∧ scan'.calls i = ⟨t :: rest, ⟨.claimed, []⟩⟩ ∧
      scan'.stores = scan.stores := by
  refine ⟨scan.advance ttl i t rest fresh, by simp [Scan.step, hcall, Scan.Call.next, haccepts], ?_⟩
  have hadvance := Scan.advance_cases ttl i t rest fresh scan
  have hphase : (scan.calls i).recoverer.phase = .listed := by rw [hcall]; rfl
  generalize scan.advance ttl i t rest fresh = scan' at hadvance
  cases hadvance with
  | claim => exact ⟨Scan.World.setCall_self .., rfl⟩
  | skip _ hheld => simp [hclaim] at hheld
  | idle hne | invoke hne | forget hne | completed hne | readZero hne | readSeq hne | readModel hne | send hne
  | sent hne | release hne => simp [hphase] at hne

/-- A scanner finds the task running and invokes `complete`. -/
theorem invokes_next (ttl : ℕ) {scan : Scan.World κ ν τ ι} {i : ι} {t : τ} {rest : List τ} {fresh : κ}
    (hcall : scan.calls i = ⟨t :: rest, ⟨.claimed, []⟩⟩) (hrunning : (scan.stores t).status = .running)
    (haccepts : (scan.stores t).accepts fresh = true) :
    ∃ scan', Scan.step ttl scan (.advance i fresh) = some scan' ∧ scan'.calls i = ⟨t :: rest, ⟨.completing, []⟩⟩ := by
  refine ⟨scan.advance ttl i t rest fresh, by simp [Scan.step, hcall, haccepts], ?_⟩
  have hadvance := Scan.advance_cases ttl i t rest fresh scan
  have hphase : (scan.calls i).recoverer.phase = .claimed := by rw [hcall]
  generalize scan.advance ttl i t rest fresh = scan' at hadvance
  cases hadvance with
  | invoke => exact Scan.World.setCall_self ..
  | forget _ hne => exact absurd hrunning hne
  | idle hne | skip hne | claim hne | completed hne | readZero hne | readSeq hne | readModel hne | send hne
  | sent hne | release hne => simp [hphase] at hne

/-- A live task whose entry is too old is recovered as soon as a scanner comes. -/
theorem overdue_task_recovered [DecidableEq ν] (ttl timeout : ℕ) (task : τ) (w : World κ ν τ ι)
    (hlive : w.isLive = true) (hrunning : (w.scan.stores task).status = .running)
    (hoverdue : ¬ Young timeout task w.scan.now w) (i : ι) (hcall : (w.scan.calls i).ids = [])
    (hclaim : w.scan.claims task = none) (fresh : κ) (haccepts : (w.scan.stores task).accepts fresh = true) :
    ∃ w', Machine.exec (step ttl timeout task) w [.scan (.lists i (w.scan.now - timeout) [task]),
      .scan (.advance i fresh), .scan (.advance i fresh)] = some w' ∧ ¬ Spared task w' := by
  simp only [Young, not_forall, not_lt] at hoverdue
  obtain ⟨last, hlast, hold⟩ := hoverdue
  -- the scanner lists the task, claims it and invokes `complete`
  have hexpired : (w.scan.stores task).expired (w.scan.now - timeout) = true := by
    simp only [Store.expired, Option.any_eq_true, decide_eq_true_eq]
    exact ⟨last, hlast, by omega⟩
  have hlists : Scan.step ttl w.scan (.lists i (w.scan.now - timeout) [task]) =
      some (w.scan.setCall i (.next [task])) := by
    simp [Scan.step, hcall, hexpired]
  have hcutoff : w.scan.now - timeout + timeout ≤ w.scan.now := by omega
  have hcall₁ : (w.scan.setCall i (.next [task])).calls i = .next [task] := Scan.World.setCall_self ..
  obtain ⟨scan₂, hscan₂, hcall₂, hstores₂⟩ := claims_next ttl hcall₁ hclaim haccepts
  obtain ⟨scan₃, hscan₃, hcall₃⟩ :=
    invokes_next ttl hcall₂ (by rw [hstores₂]; exact hrunning) (by rw [hstores₂]; exact haccepts)
  refine ⟨{ w with scan := scan₃ }, ?_, fun hspared => hspared hlive i ⟨by rw [hcall₃]; rfl, by simp [hcall₃]⟩⟩
  simp [Machine.exec, step, admits, hcutoff, hlists, hscan₂, hscan₃]

end

/-! ## A slow start -/

/-- A task that has not been registered, and one whose owner is gone. -/
def slowWorld : Scan.World ℕ ℕ Bool Unit where
  now := 0
  stores := fun task => if task then ⟨.completed, 0, none, [], none, false⟩ else Scan.oldTask
  claims := fun _ => none
  calls := fun _ => .next []
  completions := fun _ => 0

/-- `pre_start` takes `pause`, `prepare` longer than the timeout; the other task is recovered. -/
def slowStart (pause : ℕ) : List (Label ℕ ℕ Bool Unit) :=
  [.registers, .enters, .scan (.waits pause)] ++ Run.startsChat.map .run ++
    (List.range 8).flatMap (fun n => [.touches, .scan (.waits (pause + 5 * n))]) ++
    [.scan (.lists () 0 [false]), .scan (.advance () 2), .scan (.advance () 2)]

theorem live_task_spared_slowStart :
    Machine.AllStates (step 60 30 true) (Spared true) (World.before Run.chatModel slowWorld) (slowStart 29) :=
  live_task_spared 60 30 5 (by decide) true Run.chatModel slowWorld (slowStart 29) (by decide +kernel)
    (by decide +kernel)

/-- While `pre_start` takes as long as the timeout, a scanner recovers the task. -/
theorem slow_start_recovered :
    ¬ ∀ (model : Run.Model ℕ) (scan : Scan.World ℕ ℕ Bool Unit) (labels : List (Label ℕ ℕ Bool Unit)),
      (∀ i, (scan.calls i).ids = []) → (scan.stores true).heartbeat = none →
      Machine.AllSteps (step 60 30 true) (Progress 5) (World.before model scan) labels →
      Machine.AllStates (step 60 30 true) (Spared true) (World.before model scan) labels := by
  intro h
  let labels : List (Label ℕ ℕ Bool Unit) := [.registers, .enters, .scan (.waits 30), .scan (.lists () 0 [true]),
    .scan (.advance () 1), .scan (.advance () 1)]
  have hrun : (Machine.exec (step 60 30 true) (World.before Run.chatModel slowWorld) labels).map (fun w =>
      (w.isLive, (w.scan.calls ()).ids, (w.scan.calls ()).recoverer.phase)) = some (true, [true], .completing) := by
    decide +kernel
  obtain ⟨w, hw, hfacts⟩ := Option.map_eq_some_iff.mp hrun
  obtain ⟨hlive, hids, hphase⟩ : w.isLive = true ∧ (w.scan.calls ()).ids = [true] ∧
      (w.scan.calls ()).recoverer.phase = .completing := by
    simpa using hfacts
  have hspared := (h Run.chatModel slowWorld labels (fun _ => rfl) rfl (by decide +kernel)).last hw
  exact hspared hlive () ⟨by rw [hids]; rfl, by simp [hphase]⟩

end AgentUE.PythonRunner.Heartbeat
