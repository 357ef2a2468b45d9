import AgentUE.PythonRunner.Watched

/-!
# Python runner: the numbers of pings

Reference: `_stream_live` and `_run_business` in `sdks/python/src/agentue/runner/runner.py`, `PatchEmitter` in
`sdks/python/src/agentue/emitter.py`. The generator takes the number of a ping from the emitter that the callbacks
and the Runner count with, while an event that has been numbered is still to be published and read.
-/

namespace AgentUE.PythonRunner.Pings

open Data
open Live (Generator Delivery TerminalEvent)
open Watched (Execution Tracks next ofPhase missing)

variable {κ ν : Type}

/-- What a consumer gets, with its number. -/
inductive Mark where
  | ping (seq : ℕ)
  | event (seq : ℕ)
deriving DecidableEq

/-- `DeliveryEvent`; `context.emitter.ping()` does not count. -/
def mark (r : Run.State κ ν) : Delivery κ ν → Mark
  | .stored item => .event item.data.seq
  | .ping => .ping r.context.offset
  | .unpersisted event => .event event.seq

/-- What the generator has yielded. -/
def yielded (w : Watched.World κ ν) : List (Delivery κ ν) := w.live.elim [] Generator.yielded

/-- A run and its generator, with the numbers of what has been yielded. -/
structure State (κ ν : Type) where
  world : Watched.World κ ν
  marks : List Mark

/-- After `initialize`. -/
def State.init (model : Run.Model ν) (time : ℕ) : State κ ν := ⟨.init model time, []⟩

/-- One step; what is yielded in it is numbered in it. -/
def step [LinearOrder κ] [DecidableEq ν] (count : ℕ) (s : State κ ν) (l : Watched.Label κ ν) : Option (State κ ν) :=
  (Watched.step count s.world l).map fun w =>
    ⟨w, s.marks ++ ((yielded w).drop (yielded s.world).length).map (mark s.world.run)⟩

/-! ## What is asked of the runs -/

/-- The mark is no ping with the number `seq` or a greater one. -/
def Mark.Below (seq : ℕ) : Mark → Prop
  | .ping p => p < seq
  | .event _ => True

instance (seq : ℕ) : ∀ m, Decidable (Mark.Below seq m)
  | .ping p => inferInstanceAs (Decidable (p < seq))
  | .event _ => isTrue trivial

/-- No ping among the marks has the number `seq` or a greater one. -/
def AllBelow (seq : ℕ) (marks : List Mark) : Prop := ∀ m ∈ marks, m.Below seq

/-- No event is yielded after a ping that has its number or a greater one. -/
def NeverAhead (marks : List Mark) : Prop := marks.Pairwise fun a b => ∀ seq, b = .event seq → a.Below seq

/-- The event of an `XADD`. -/
def event? : Command ν → Option (Envelope ν)
  | .xadd event => some event
  | _ => none

/-- The terminal events that have not been stored: the generator gets them from the result of the run. -/
def unstored : Run.Phase ν → List (Envelope ν)
  | .publishingEnd _ terminal _ | .marking _ terminal | .returned terminal =>
    (terminal.filter fun t => !t.persisted).map TerminalEvent.data
  | _ => []

/-- The events between the Runner and the consumer: those of the commands ahead, those of the stream that have not
been yielded, and those that are not stored. -/
def onItsWay [LinearOrder κ] (w : Watched.World κ ν) : List (Envelope ν) :=
  (unread (w.live.bind Generator.cursor) w.run.store.events).map Stored.data ++ w.run.pending.filterMap event? ++
    unstored w.run.phase

/-- No event on its way has been overtaken by a ping. -/
def NoneOvertaken [LinearOrder κ] (s : State κ ν) : Prop := ∀ event ∈ onItsWay s.world, AllBelow event.seq s.marks

/-- The generator goes on with a ping. -/
def pings (w : Watched.World κ ν) : Bool :=
  match w.live with
  | none => false
  | some g =>
    match g.pc, ofPhase w.run.phase with
    | .replied [] _, .pending => true
    | _, _ => false

/-- Nothing is on its way where a ping is yielded, and what `stream` yields has been numbered after the pings. -/
def Clear [LinearOrder κ] [DecidableEq ν] (s : State κ ν) : Watched.Label κ ν → Prop
  | .advance => pings s.world = true → onItsWay s.world = []
  | .run (.yields value error) => ∀ event ∈ s.world.run.taken value error, AllBelow event.seq s.marks
  | _ => True

instance [LinearOrder κ] [DecidableEq ν] (s : State κ ν) : ∀ l, Decidable (Clear s l)
  | .advance => inferInstanceAs (Decidable (_ → _))
  | .run (.yields value error) =>
    inferInstanceAs (Decidable (∀ event ∈ s.world.run.taken value error, ∀ m ∈ s.marks, m.Below event.seq))
  | .run (.emits _) | .run (.remodels _) | .run .returns | .run (.raises _) | .run (.send _) | .run .resumes
  | .run (.fails _) | .run (.interrupts _ _) | .run .abandons | .run .closes | .begins | .evaluate => isTrue trivial

/-- What `stream` yields has its number from the emitter of the context. -/
def Numbered (s : State κ ν) : Watched.Label κ ν → Prop
  | .run (.yields value _) => ∀ event ∈ value.event?, 0 < event.seq ∧ event.seq ≤ s.world.run.context.offset
  | _ => True

instance (s : State κ ν) : ∀ l, Decidable (Numbered s l)
  | .run (.yields value _) =>
    inferInstanceAs (Decidable (∀ event ∈ value.event?, 0 < event.seq ∧ event.seq ≤ s.world.run.context.offset))
  | .run (.emits _) | .run (.remodels _) | .run .returns | .run (.raises _) | .run (.send _) | .run .resumes
  | .run (.fails _) | .run (.interrupts _ _) | .run .abandons | .run .closes | .begins | .evaluate | .advance =>
    isTrue trivial

/-- What one step of the generator yields. -/
inductive Yields (execution : Execution ν) (g : Generator κ ν) : Generator κ ν → Prop
  | nothing {g' : Generator κ ν} : g'.yielded = g.yielded → g'.cursor = g.cursor → Yields execution g g'
  | ping {g' : Generator κ ν} {seen : ℕ} : g.pc = .replied [] seen → execution = .pending →
    g'.yielded = g.yielded ++ [.ping] → g'.cursor = g.cursor → Yields execution g g'
  | stored {g' : Generator κ ν} {item : Stored κ ν} {rest : List (Stored κ ν)} : g.pc = .delivering (item :: rest) →
    g'.yielded = g.yielded ++ [.stored item] → g'.cursor = some item.cursor → Yields execution g g'
  | unpersisted {g' : Generator κ ν} {event : Envelope ν} {rest : List (Envelope ν)} :
    g.pc = .unpersisted (event :: rest) → g'.yielded = g.yielded ++ [.unpersisted event] → g'.cursor = g.cursor →
    Yields execution g g'

/-! ## Steps of the run -/

theorem mem_publish {event event' : Envelope ν} : .xadd event' ∈ publish event ↔ event' = event := by
  simp [publish]

theorem not_mem_markTerminal {event : Envelope ν} {status : Status} : .xadd event ∉ markTerminal status := by
  simp [markTerminal]

theorem endBusiness_phase (error : Option Run.Raised) (r : Run.State κ ν) :
    (∃ source error', (r.endBusiness error).phase = .completing source error') ∨
      (r.endBusiness error).phase = .raised := by
  rcases Run.endBusiness_cases error r with ⟨source, error', heq⟩ | heq <;> rw [heq]
  · exact .inl ⟨source, error', rfl⟩
  · exact .inr rfl

theorem endBusiness_phase_ne_publishing {error : Option Run.Raised} {r : Run.State κ ν} {event : Envelope ν}
    {before : JsonObject ν} : (r.endBusiness error).phase ≠ .publishing event before := by
  rcases endBusiness_phase error r with ⟨source, error', hphase⟩ | hphase <;> simp [hphase]

theorem offset_beginEnd (outcome : Run.Outcome) (terminal : List (TerminalEvent ν)) (persisted : Bool)
    (r : Run.State κ ν) : (r.beginEnd outcome terminal persisted).context.offset = r.context.offset + 1 := by
  cases persisted <;> rfl

theorem offset_finalize (outcome : Run.Outcome) (r : Run.State κ ν) :
    r.context.offset < (r.finalize outcome).context.offset := by
  unfold Run.State.finalize
  cases outcome.error with
  | none =>
    rw [offset_beginEnd]
    exact Nat.lt_succ_self _
  | some error =>
    dsimp only
    split_ifs
    · exact Nat.lt_succ_self _
    · rw [offset_beginEnd]
      exact Nat.lt_succ_of_lt (Nat.lt_succ_self _)

/-- The end has a new number. -/
theorem pending_beginEnd {outcome : Run.Outcome} {terminal : List (TerminalEvent ν)} {persisted : Bool}
    {r : Run.State κ ν} {event : Envelope ν} (h : .xadd event ∈ (r.beginEnd outcome terminal persisted).pending) :
    event.seq = (r.beginEnd outcome terminal persisted).context.offset := by
  cases persisted with
  | true =>
    obtain rfl := mem_publish.mp h
    rfl
  | false => exact absurd h not_mem_markTerminal

/-- So has the error; where it cannot be encoded nothing is sent. -/
theorem pending_finalize {outcome : Run.Outcome} {r : Run.State κ ν} {event : Envelope ν}
    (h : .xadd event ∈ (r.finalize outcome).pending) : event.seq = (r.finalize outcome).context.offset := by
  unfold Run.State.finalize at h ⊢
  cases herror : outcome.error with
  | none =>
    rw [herror] at h
    exact pending_beginEnd h
  | some error =>
    rw [herror] at h
    dsimp only at h ⊢
    split_ifs at h ⊢
    · obtain rfl := mem_publish.mp h
      rfl
    · exact pending_beginEnd h

theorem unstored_endBusiness (error : Option Run.Raised) (r : Run.State κ ν) :
    unstored (r.endBusiness error).phase = [] := by
  rcases endBusiness_phase error r with ⟨source, error', hphase⟩ | hphase <;> rw [hphase] <;> rfl

/-- An error that cannot be encoded and the end after it have new numbers. -/
theorem unstored_finalize {outcome : Run.Outcome} {r : Run.State κ ν} {event : Envelope ν}
    (h : event ∈ unstored (r.finalize outcome).phase) :
    r.context.offset < event.seq ∧ event.seq ≤ (r.finalize outcome).context.offset := by
  unfold Run.State.finalize at h ⊢
  cases herror : outcome.error with
  | none => simp [herror, unstored, Run.State.beginEnd] at h
  | some error =>
    rw [herror] at h
    dsimp only at h ⊢
    split_ifs at h ⊢
    · simp [unstored] at h
    · rw [offset_beginEnd]
      have hevent : event = errorEvent (Run.errorCode error outcome.source) (Run.errorMessage error outcome.source)
          (r.context.offset + 1) ∨ event = endEvent (r.context.offset + 1 + 1) := by
        simpa [unstored, Run.State.beginEnd, Run.State.beginMark] using h
      rcases hevent with rfl | rfl
      · exact ⟨Nat.lt_succ_self _, Nat.le_succ _⟩
      · exact ⟨Nat.lt_succ_of_lt (Nat.lt_succ_self _), le_rfl⟩

theorem unstored_failPreStart (error : Run.Raised) (r : Run.State κ ν) : unstored (r.failPreStart error).phase = [] := by
  unfold Run.State.failPreStart
  split_ifs <;> rfl

theorem unstored_resumes {r r' : Run.State κ ν} (hstep : r.resumes = some r') {event : Envelope ν}
    (h : event ∈ unstored r'.phase) : event ∈ unstored r.phase := by
  unfold Run.State.resumes at hstep
  cases hphase : r.phase <;> simp only [hphase, Option.some.injEq, reduceCtorEq] at hstep <;> subst hstep
  case starting | restarting | publishing => exact absurd h List.not_mem_nil
  case publishingError => simp [unstored, Run.State.beginEnd] at h
  case publishingEnd outcome terminal last => simpa [unstored, Run.State.beginMark] using h
  case marking outcome terminal =>
    unfold Run.State.finish at h
    dsimp only at h
    split_ifs at h
    · exact absurd h List.not_mem_nil
    · exact h

/-- A cancellation leaves the run before anything is taken for lost. -/
theorem unstored_fails {r r' : Run.State κ ν} {error : Run.Raised} (hcancelled : error.cancelled = true)
    (hstep : r.fails error = some r') : unstored r'.phase = [] := by
  unfold Run.State.fails at hstep
  cases hphase : r.phase <;>
    simp only [hphase, hcancelled, if_true, Option.some.injEq, reduceCtorEq] at hstep <;> subst hstep
  case starting => exact unstored_failPreStart error r
  case publishing => exact unstored_endBusiness _ r
  all_goals rfl

section

variable [DecidableEq ν]

theorem unstored_yielded (value : Run.Yielded ν) (error : Run.Raised) (r : Run.State κ ν) :
    unstored (r.yielded value error).phase = [] := by
  unfold Run.State.yielded
  split
  · exact unstored_endBusiness _ r
  · split
    · exact unstored_endBusiness _ r
    · split
      · exact unstored_endBusiness _ _
      · rfl

variable [LinearOrder κ]

/-- The publish of a patch begins where `stream` yields it. -/
theorem yields_of_publishing {r r' : Run.State κ ν} {l : Run.Label κ ν} {event : Envelope ν} {before : JsonObject ν}
    (hstep : Run.step r l = some r') (hphase : r.phase = .streaming) (hphase' : r'.phase = .publishing event before) :
    ∃ value error, l = .yields value error ∧ event ∈ r.taken value error := by
  cases l with
  | yields value error =>
    simp only [Run.step, hphase] at hstep
    split_ifs at hstep
    obtain rfl := Option.some.inj hstep
    unfold Run.State.yielded at hphase'
    split at hphase'
    · exact absurd hphase' endBusiness_phase_ne_publishing
    · rename_i hcoerce
      split at hphase'
      · exact absurd hphase' endBusiness_phase_ne_publishing
      · rename_i hcheck
        split at hphase'
        · exact absurd hphase' endBusiness_phase_ne_publishing
        · rename_i happly
          obtain ⟨rfl, -⟩ : _ = event ∧ _ = before := by simpa using hphase'
          exact ⟨value, error, rfl, Run.taken_eq_some.mpr ⟨hcoerce, hcheck, _, happly⟩⟩
  | returns =>
    simp only [Run.step, Run.State.returns, hphase, Option.some.injEq] at hstep
    subst hstep
    exact absurd hphase' endBusiness_phase_ne_publishing
  | raises error =>
    simp only [Run.step, Run.State.raises, hphase, Option.some.injEq] at hstep
    subst hstep
    exact absurd hphase' endBusiness_phase_ne_publishing
  | resumes | fails => simp [Run.step, Run.State.resumes, Run.State.fails, hphase] at hstep
  | emits | remodels | send | interrupts | abandons | closes =>
    -- none of them leaves `stream`
    simp only [Run.step, hphase] at hstep
    grind

/-- The offset of the emitter does not fall. -/
theorem offset_step {r r' : Run.State κ ν} {l : Run.Label κ ν} (hstep : Run.step r l = some r') :
    r.context.offset ≤ r'.context.offset := by
  cases Run.move_of_step hstep with
  | idle _ _ _ _ _ hoffset => exact hoffset
  | start | restart => exact Nat.le_succ _
  | finalize => exact (offset_finalize _ r).le
  | errorStored | errorLost =>
    rw [offset_beginEnd]
    exact Nat.le_succ _
  | _ => exact le_rfl

/-- The Runner itself publishes the next number. -/
theorem pending_step {r r' : Run.State κ ν} {l : Run.Label κ ν} (hstep : Run.step r l = some r') {event : Envelope ν}
    (hevent : .xadd event ∈ r'.pending) : .xadd event ∈ r.pending ∨
      (r.context.offset < event.seq ∧ event.seq ≤ r'.context.offset) ∨
      ∃ value error, l = .yields value error ∧ event ∈ r.taken value error := by
  cases Run.move_of_step hstep with
  | idle | started | begin | prepared | resumed => exact .inl hevent
  | send _ hpending =>
    rw [hpending]
    exact .inl (List.mem_cons_of_mem _ hevent)
  | start | restart =>
    obtain rfl := mem_publish.mp hevent
    exact .inr (.inl ⟨Nat.lt_succ_self _, le_rfl⟩)
  | accept hphase =>
    obtain rfl := mem_publish.mp hevent
    exact .inr (.inr (yields_of_publishing hstep hphase rfl))
  | finalize =>
    have hseq := pending_finalize hevent
    refine .inr (.inl ⟨?_, hseq.le⟩)
    rw [hseq]
    exact offset_finalize _ r
  | errorStored | errorLost =>
    have hseq := pending_beginEnd hevent
    refine .inr (.inl ⟨?_, hseq.le⟩)
    rw [hseq, offset_beginEnd]
    exact Nat.lt_succ_self _
  | endStored | endLost => exact absurd hevent not_mem_markTerminal
  | failStarted | restarted | giveUpStart | endBusiness | refused | finish | die =>
    exact absurd hevent List.not_mem_nil

/-- What has come into the stream was ahead. -/
theorem stored_step {r r' : Run.State κ ν} {l : Run.Label κ ν} (hstep : Run.step r l = some r') {item : Stored κ ν}
    (hitem : item ∈ r'.store.events) : item ∈ r.store.events ∨ .xadd item.data ∈ r.pending := by
  rcases Run.store_move (Run.move_of_step hstep) with hstore | ⟨fresh, command, rest, -, hpending, rfl⟩
  · exact .inl (hstore ▸ hitem)
  · cases command with
    | xadd event =>
      rcases List.mem_append.mp hitem with hold | hnew
      · exact .inl hold
      · obtain rfl := List.mem_singleton.mp hnew
        exact .inr (by rw [hpending]; exact List.mem_cons_self)
    | _ => exact .inl hitem

/-- While Redis does not fail, a terminal event is not stored only where its error cannot be encoded. -/
theorem unstored_step {r r' : Run.State κ ν} {l : Run.Label κ ν}
    (hfails : ∀ error, l = .fails error → error.cancelled = true) (hstep : Run.step r l = some r') {event : Envelope ν}
    (h : event ∈ unstored r'.phase) : event ∈ unstored r.phase ∨
      r.context.offset < event.seq ∧ event.seq ≤ r'.context.offset := by
  cases l with
  | yields value error =>
    simp only [Run.step] at hstep
    cases hphase : r.phase <;> simp only [hphase, reduceCtorEq] at hstep
    split_ifs at hstep
    obtain rfl := Option.some.inj hstep
    simp [unstored_yielded] at h
  | returns =>
    simp only [Run.step, Run.State.returns] at hstep
    cases hphase : r.phase <;> simp only [hphase, Option.some.injEq, reduceCtorEq] at hstep <;> subst hstep
    case streaming => simp [unstored_endBusiness] at h
    case completing => exact .inr (unstored_finalize h)
    all_goals exact absurd h List.not_mem_nil
  | raises error =>
    simp only [Run.step, Run.State.raises] at hstep
    cases hphase : r.phase <;> simp only [hphase, Option.some.injEq, reduceCtorEq] at hstep <;> subst hstep
    case preStart => simp [unstored_failPreStart] at h
    case preparing | streaming => simp [unstored_endBusiness] at h
    case completing => exact .inr (unstored_finalize h)
  | resumes =>
    simp only [Run.step] at hstep
    split_ifs at hstep
    exact .inl (unstored_resumes hstep h)
  | fails error =>
    simp only [Run.step] at hstep
    split_ifs at hstep
    simp [unstored_fails (hfails error rfl) hstep] at h
  | emits | remodels | send | interrupts | abandons | closes =>
    simp only [Run.step] at hstep
    grind [unstored]

/-! ## Steps of the generator -/

omit [LinearOrder κ] [DecidableEq ν] in
theorem yields_of_next {execution : Execution ν} {g g' : Generator κ ν} (hstep : next execution g = some g') :
    Yields execution g g' := by
  unfold next at hstep
  cases hpc : g.pc <;> simp only [hpc, reduceCtorEq] at hstep
  case replied reply seen =>
    cases reply with
    | nil =>
      dsimp only at hstep
      split at hstep <;> obtain rfl := Option.some.inj hstep
      · exact .nothing rfl rfl
      · exact .nothing rfl rfl
      · exact .ping hpc rfl rfl rfl
    | cons item more =>
      obtain rfl := Option.some.inj hstep
      exact .nothing rfl rfl
  case delivering batch =>
    cases batch <;> obtain rfl := Option.some.inj hstep
    · exact .nothing rfl rfl
    · exact .stored hpc rfl rfl
  case ended =>
    obtain rfl := Option.some.inj hstep
    exact .nothing rfl rfl
  case unpersisted events =>
    cases events <;> obtain rfl := Option.some.inj hstep
    · exact .nothing rfl rfl
    · exact .unpersisted hpc rfl rfl

omit [DecidableEq ν] in
theorem mem_onItsWay {w : Watched.World κ ν} {event : Envelope ν} :
    event ∈ onItsWay w ↔ (∃ item ∈ unread (w.live.bind Generator.cursor) w.run.store.events, item.data = event) ∨
      .xadd event ∈ w.run.pending ∨ event ∈ unstored w.run.phase := by
  have hevent : ∀ command, event? command = some event ↔ command = .xadd event := by
    intro command
    cases command <;> simp [event?]
  simp [onItsWay, hevent]

omit [DecidableEq ν] in
/-- A generator that has read no further leaves on its way what was so before. -/
theorem onItsWay_congr {w : Watched.World κ ν} {g : Generator κ ν} (hcursor : g.cursor = w.live.bind Generator.cursor) :
    onItsWay { w with live := some g } = onItsWay w := by
  simp [onItsWay, hcursor]

/-! ## What is on its way -/

/-- What is on its way after a step of the run was so before, or it has the next number, or `stream` has yielded
it. -/
theorem onItsWay_run {w : Watched.World κ ν} {l : Run.Label κ ν} {r : Run.State κ ν} {execution : Bool}
    (hfails : ∀ error, l = .fails error → error.cancelled = true) (hrun : Run.step w.run l = some r)
    {event : Envelope ν} (hevent : event ∈ onItsWay { w with run := r, execution := execution }) : event ∈ onItsWay w ∨
      (w.run.context.offset < event.seq ∧ event.seq ≤ r.context.offset) ∨
      ∃ value error, l = .yields value error ∧ event ∈ w.run.taken value error := by
  rcases mem_onItsWay.mp hevent with ⟨item, hitem, rfl⟩ | hpending | hunstored
  · obtain ⟨hstored, hbehind⟩ := List.mem_filter.mp hitem
    rcases stored_step hrun hstored with hold | hsent
    · exact .inl (mem_onItsWay.mpr (.inl ⟨item, List.mem_filter.mpr ⟨hold, hbehind⟩, rfl⟩))
    · exact .inl (mem_onItsWay.mpr (.inr (.inl hsent)))
  · exact (pending_step hrun hpending).imp (fun hold => mem_onItsWay.mpr (.inr (.inl hold))) id
  · exact (unstored_step hfails hrun hunstored).imp (fun hold => mem_onItsWay.mpr (.inr (.inr hold))) .inl

omit [DecidableEq ν] in
/-- The event that the generator comes to has not been read. -/
theorem mem_unread_of_delivering {w : Watched.World κ ν} {g : Generator κ ν} {item : Stored κ ν}
    {more : List (Stored κ ν)} (h : Watched.Sound w) (hlive : w.live = some g)
    (hpc : g.pc = .delivering (item :: more)) : item ∈ unread g.cursor w.run.store.events := by
  obtain ⟨past, rest, htracks⟩ := h.tracks g hlive
  have hplace := htracks.place
  simp only [Watched.Place, hpc] at hplace
  rw [htracks.unread h.sorted]
  exact hplace.2.2.subset List.mem_cons_self

omit [DecidableEq ν] in
/-- A step of the generator puts nothing on its way. -/
theorem onItsWay_advance {w : Watched.World κ ν} {g g' : Generator κ ν} (h : Watched.Sound w) (hlive : w.live = some g)
    (hnext : next (ofPhase w.run.phase) g = some g') {event : Envelope ν}
    (hevent : event ∈ onItsWay { w with live := some g' }) : event ∈ onItsWay w := by
  cases yields_of_next hnext with
  | nothing _ hcursor | ping _ _ _ hcursor | unpersisted _ _ hcursor =>
    rwa [onItsWay_congr (by rw [hlive, hcursor]; rfl)] at hevent
  | @stored item more hpc _ hcursor =>
    have hitem := mem_unread_of_delivering h hlive hpc
    refine mem_onItsWay.mpr ?_
    -- what is behind the event that is yielded was behind the one before it
    rcases mem_onItsWay.mp hevent with ⟨later, hlater, rfl⟩ | hothers
    · refine .inl ⟨later, ?_, rfl⟩
      simp only [unread, hlive, hcursor, Option.bind_some, List.mem_filter, Option.all_some, decide_eq_true_eq]
        at hlater hitem ⊢
      refine ⟨hlater.1, ?_⟩
      cases hold : g.cursor with
      | none => rfl
      | some c =>
        have hlt : c < item.cursor := by simpa [hold] using hitem.2
        simpa using hlt.trans hlater.2
    · exact .inr hothers

/-! ## Every step -/

omit [LinearOrder κ] [DecidableEq ν] in
/-- What the generator yields itself has not been stored. -/
theorem unstored_of_missing {terminal : List (TerminalEvent ν)} {controls : List PatchOp} {event : Envelope ν}
    (h : event ∈ missing controls terminal) : event ∈ unstored (.returned terminal) := by
  simp only [missing, unstored, List.mem_map, List.mem_filter, Bool.and_eq_true] at h ⊢
  obtain ⟨t, ⟨hmem, hunstored, -⟩, rfl⟩ := h
  exact ⟨t, ⟨hmem, hunstored⟩, rfl⟩

theorem Mark.Below.mono {m : Mark} {n n' : ℕ} (h : m.Below n) (hle : n ≤ n') : m.Below n' := by
  cases m with
  | ping p => exact lt_of_lt_of_le h hle
  | event => trivial

theorem AllBelow.mono {marks : List Mark} {n n' : ℕ} (h : AllBelow n marks) (hle : n ≤ n') : AllBelow n' marks :=
  fun m hm => (h m hm).mono hle

theorem AllBelow.concat {marks : List Mark} {m : Mark} {n : ℕ} (h : AllBelow n marks) (hm : m.Below n) :
    AllBelow n (marks ++ [m]) :=
  List.forall_mem_append.mpr ⟨h, List.forall_mem_singleton.mpr hm⟩

/-- A ping may be yielded at any time. -/
theorem NeverAhead.ping {marks : List Mark} (h : NeverAhead marks) (p : ℕ) : NeverAhead (marks ++ [.ping p]) :=
  List.pairwise_append.mpr ⟨h, List.pairwise_singleton _ _, fun m _ b hb seq heq => by
    obtain rfl := List.mem_singleton.mp hb
    simp at heq⟩

/-- An event may be yielded where no ping has overtaken it. -/
theorem neverAhead_concat_event {marks : List Mark} {seq : ℕ} :
    NeverAhead (marks ++ [.event seq]) ↔ NeverAhead marks ∧ AllBelow seq marks := by
  simp [NeverAhead, AllBelow, List.pairwise_append]

omit [DecidableEq ν] in
/-- What holds in every state: every ping is behind the emitter and behind all that is on its way. -/
structure Sound (s : State κ ν) : Prop where
  watched : Watched.Sound s.world
  counted : AllBelow (s.world.run.context.offset + 1) s.marks
  ahead : NoneOvertaken s
  neverAhead : NeverAhead s.marks

omit [DecidableEq ν] in
theorem sound_init (model : Run.Model ν) (time : ℕ) : Sound (State.init model time : State κ ν) where
  watched := Watched.sound_init model time
  counted := List.forall_mem_nil _
  ahead _ _ := List.forall_mem_nil _
  neverAhead := .nil

/-- A step of the run: what is on its way was so before, or has a new number. -/
theorem sound_run {s : State κ ν} {l : Run.Label κ ν} {r : Run.State κ ν} {execution : Bool} (h : Sound s)
    (hclear : Clear s (.run l)) (hfails : ∀ error, l = .fails error → error.cancelled = true)
    (hrun : Run.step s.world.run l = some r)
    (hwatched : Watched.Sound { s.world with run := r, execution := execution }) :
    Sound ⟨{ s.world with run := r, execution := execution }, s.marks⟩ := by
  have hoffset := offset_step hrun
  refine ⟨hwatched, h.counted.mono (Nat.succ_le_succ hoffset), fun event hevent => ?_, h.neverAhead⟩
  rcases onItsWay_run hfails hrun hevent with hold | ⟨hnew, -⟩ | ⟨value, error, rfl, htaken⟩
  · exact h.ahead event hold
  · exact h.counted.mono hnew
  · exact hclear event htaken

omit [DecidableEq ν] in
/-- A generator that has read no further. -/
theorem Sound.congr {s : State κ ν} {g : Generator κ ν} (h : Sound s)
    (hcursor : g.cursor = s.world.live.bind Generator.cursor)
    (hwatched : Watched.Sound { s.world with live := some g }) :
    Sound ⟨{ s.world with live := some g }, s.marks⟩ := by
  refine ⟨hwatched, h.counted, fun event hevent => ?_, h.neverAhead⟩
  rw [onItsWay_congr hcursor] at hevent
  exact h.ahead event hevent

/-- A step of the generator. -/
theorem sound_advance {s : State κ ν} {g g' : Generator κ ν} (h : Sound s) (hclear : Clear s .advance)
    (hlive : s.world.live = some g) (hnext : next (ofPhase s.world.run.phase) g = some g')
    (hwatched : Watched.Sound { s.world with live := some g' }) :
    Sound ⟨{ s.world with live := some g' },
      s.marks ++ (g'.yielded.drop g.yielded.length).map (mark s.world.run)⟩ := by
  have hold : ∀ event ∈ onItsWay { s.world with live := some g' }, AllBelow event.seq s.marks :=
    fun event hevent => h.ahead event (onItsWay_advance h.watched hlive hnext hevent)
  cases yields_of_next hnext with
  | nothing hyielded =>
    rw [hyielded, List.drop_length, List.map_nil, List.append_nil]
    exact ⟨hwatched, h.counted, hold, h.neverAhead⟩
  | ping hpc hexecution hyielded hcursor =>
    rw [hyielded, List.drop_left]
    have hempty : onItsWay s.world = [] := hclear (by simp [pings, hlive, hpc, hexecution])
    refine ⟨hwatched, h.counted.concat (Nat.lt_succ_self _), fun event hevent => ?_, h.neverAhead.ping _⟩
    rw [onItsWay_congr (by rw [hlive, hcursor]; rfl), hempty] at hevent
    exact absurd hevent List.not_mem_nil
  | @stored item more hpc hyielded =>
    rw [hyielded, List.drop_left]
    have hitem := mem_unread_of_delivering h.watched hlive hpc
    have hbelow := h.ahead item.data (mem_onItsWay.mpr (.inl ⟨item, by rwa [hlive], rfl⟩))
    exact ⟨hwatched, h.counted.concat trivial, fun event hevent => (hold event hevent).concat trivial,
      neverAhead_concat_event.mpr ⟨h.neverAhead, hbelow⟩⟩
  | @unpersisted event more hpc hyielded =>
    rw [hyielded, List.drop_left]
    obtain ⟨past, rest, htracks⟩ := h.watched.tracks g hlive
    have hplace := htracks.place
    simp only [Watched.Place, hpc] at hplace
    obtain ⟨terminal, given, hphase, -, hmissing, -⟩ := hplace
    have hin : event ∈ missing g.controls terminal := by
      rw [hmissing]
      simp
    have hunstored : event ∈ unstored s.world.run.phase := by
      rw [hphase]
      exact unstored_of_missing hin
    have hbelow := h.ahead event (mem_onItsWay.mpr (.inr (.inr hunstored)))
    exact ⟨hwatched, h.counted.concat trivial, fun event hevent => (hold event hevent).concat trivial,
      neverAhead_concat_event.mpr ⟨h.neverAhead, hbelow⟩⟩

theorem sound_step {count : ℕ} (hcount : 0 < count) {s s' : State κ ν} {l : Watched.Label κ ν} (h : Sound s)
    (hclear : Clear s l) (hfails : ∀ error, l = .run (.fails error) → error.cancelled = true)
    (hstep : step count s l = some s') : Sound s' := by
  obtain ⟨w, hw, rfl⟩ := Option.map_eq_some_iff.mp hstep
  have hmove := Watched.move_of_step hw
  have hwatched := Watched.sound_move hcount h.watched hmove
  cases hmove with
  | run hrun =>
    have hsound := sound_run h hclear (fun error hl => hfails error (by rw [hl])) hrun hwatched
    simpa [yielded] using hsound
  | begins hnone =>
    have hsound := h.congr (g := .init) (by rw [hnone]; rfl) hwatched
    simpa [yielded, Generator.init] using hsound
  | @evaluate g hlive =>
    have hsound := h.congr (by rw [hlive]; rfl) hwatched
    simpa [yielded, hlive] using hsound
  | advance hlive hnext =>
    have hsound := sound_advance h hclear hlive hnext hwatched
    simpa [yielded, hlive] using hsound

/-- Redis does not fail. -/
theorem allSteps_of_redis {count : ℕ} {s : State κ ν} {labels : List (Watched.Label κ ν)}
    (hfails : ∀ error, .run (.fails error) ∈ labels → error.cancelled = true) :
    Machine.AllSteps (step count) (fun _ l => ∀ error, l = .run (.fails error) → error.cancelled = true) s labels :=
  Machine.allSteps_of_labels (fun l hl _ error heq => hfails error (by rwa [← heq])) s

theorem sound_run_of_clear {count : ℕ} (hcount : 0 < count) (model : Run.Model ν) (time : ℕ)
    {labels : List (Watched.Label κ ν)} (hfails : ∀ error, .run (.fails error) ∈ labels → error.cancelled = true)
    (hclear : Machine.AllSteps (step count) Clear (State.init model time) labels) :
    Machine.AllStates (step count) Sound (State.init model time) labels :=
  Machine.allStates_of_allSteps (fun _ _ _ h hl hstep => sound_step hcount h hl.1 hl.2 hstep)
    (sound_init model time) (hclear.and (allSteps_of_redis hfails))

/-- Redis does not fail: while nothing is on its way where a ping is yielded, and `stream` yields no patch that has
been numbered before a ping, no ping runs ahead of the delivery. -/
theorem pings_never_ahead (count : ℕ) (hcount : 0 < count) (model : Run.Model ν) (time : ℕ)
    (labels : List (Watched.Label κ ν)) (hfails : ∀ error, .run (.fails error) ∈ labels → error.cancelled = true)
    (hclear : Machine.AllSteps (step count) Clear (State.init model time) labels) :
    Machine.AllStates (step count) (fun s => NeverAhead s.marks) (State.init model time) labels :=
  (sound_run_of_clear hcount model time hfails hclear).mono fun _ h => h.neverAhead

end

/-- A ping between the start and a patch that is numbered after it. -/
def pingsChat : List (Watched.Label ℕ ℕ) :=
  Run.startsChat.map .run ++ [.begins, .evaluate, .advance, .advance, .advance, .evaluate, .advance, .run (.emits 2),
    .run (.yields (.patch (Run.titleEvent 2)) Run.silentError), .run (.send 2), .run (.send 3), .run (.send 3),
    .run .resumes, .evaluate, .advance, .advance]

theorem pings_never_ahead_pingsChat : ∃ s, Machine.exec (step 100) (State.init Run.chatModel 0) pingsChat = some s ∧
    s.marks = [.event 1, .ping 1, .event 2] ∧ NeverAhead s.marks := by
  have hrun : (Machine.exec (step 100) (State.init Run.chatModel 0) pingsChat).map State.marks =
      some [.event 1, .ping 1, .event 2] := by decide +kernel
  obtain ⟨s, hs, hmarks⟩ := Option.map_eq_some_iff.mp hrun
  have hstates := pings_never_ahead 100 (by decide) Run.chatModel 0 pingsChat (by simp [pingsChat, Run.startsChat])
    (by decide +kernel)
  exact ⟨s, hs, hmarks, hstates.last hs⟩

/-- The generator sends a ping while the callback holds a patch that it has built: the ping has the number of the
patch, which is yielded after it. -/
theorem ping_runs_ahead :
    ¬ ∀ (model : Run.Model ℕ) (labels : List (Watched.Label ℕ ℕ)),
      (∀ error, .run (.fails error) ∈ labels → error.cancelled = true) →
      Machine.AllSteps (step 100) Numbered (State.init model 0) labels →
      Machine.AllStates (step 100) (fun s => NeverAhead s.marks) (State.init model 0) labels := by
  intro h
  let labels : List (Watched.Label ℕ ℕ) := Run.startsChat.map .run ++ [.begins, .evaluate, .advance, .advance, .advance,
    .evaluate, .run (.emits 2), .advance, .run (.yields (.patch (Run.titleEvent 2)) Run.silentError), .run (.send 2),
    .run (.send 3), .run (.send 3), .run .resumes, .evaluate, .advance, .advance]
  have hrun : (Machine.exec (step 100) (State.init Run.chatModel 0) labels).map State.marks =
      some [.event 1, .ping 2, .event 2] := by decide +kernel
  obtain ⟨s, hs, hmarks⟩ := Option.map_eq_some_iff.mp hrun
  have hahead := (h Run.chatModel labels (by simp [labels, Run.startsChat]) (by decide +kernel)).last hs
  rw [hmarks] at hahead
  -- the ping and the patch behind it
  have hbelow : Mark.Below 2 (.ping 2) := List.rel_of_pairwise_cons (List.Pairwise.tail hahead) (by simp) 2 rfl
  exact absurd hbelow (by decide)

/-! ## Steps without the condition -/

section

variable [LinearOrder κ]

/-- What is on its way has a number that the emitter has given. -/
structure Issued (s : State κ ν) : Prop where
  watched : Watched.Sound s.world
  issued : ∀ event ∈ onItsWay s.world, event.seq ≤ s.world.run.context.offset

variable [DecidableEq ν]

theorem issued_step {count : ℕ} (hcount : 0 < count) {s s' : State κ ν} {l : Watched.Label κ ν} (h : Issued s)
    (hnumbered : Numbered s l) (hfails : ∀ error, l = .run (.fails error) → error.cancelled = true)
    (hstep : step count s l = some s') : Issued s' := by
  obtain ⟨w, hw, rfl⟩ := Option.map_eq_some_iff.mp hstep
  have hmove := Watched.move_of_step hw
  refine ⟨Watched.sound_move hcount h.watched hmove, fun event hevent => ?_⟩
  cases hmove with
  | run hrun =>
    have hoffset := offset_step hrun
    rcases onItsWay_run (fun error hl => hfails error (by rw [hl])) hrun hevent with
      hold | ⟨-, hnew⟩ | ⟨value, error, rfl, htaken⟩
    · exact (h.issued event hold).trans hoffset
    · exact hnew
    · exact (hnumbered event (Run.event_of_coercePatch (Run.taken_eq_some.mp htaken).1)).2.trans hoffset
  | begins hnone =>
    rw [onItsWay_congr (by rw [hnone]; rfl)] at hevent
    exact h.issued event hevent
  | evaluate hlive =>
    rw [onItsWay_congr (by rw [hlive]; rfl)] at hevent
    exact h.issued event hevent
  | advance hlive hnext => exact h.issued event (onItsWay_advance h.watched hlive hnext hevent)

/-- A patch that is accepted is on its way. -/
theorem pending_of_taken {r r' : Run.State κ ν} {value : Run.Yielded ν} {event : Envelope ν} {error : Run.Raised}
    (htaken : event ∈ r.taken value error) (hstep : Run.step r (.yields value error) = some r') :
    r'.pending = publish event := by
  simp only [Run.step] at hstep
  cases hphase : r.phase <;> simp only [hphase, reduceCtorEq] at hstep
  split_ifs at hstep
  obtain rfl := Option.some.inj hstep
  obtain ⟨hcoerce, hcheck, snapshot, happly⟩ := Run.taken_eq_some.mp htaken
  simp only [Run.State.yielded, hcoerce, hcheck, happly]

omit [LinearOrder κ] [DecidableEq ν] in
theorem next_of_pings {w : Watched.World κ ν} {g g' : Generator κ ν} (hpings : pings w = true)
    (hlive : w.live = some g) (hnext : next (ofPhase w.run.phase) g = some g') :
    g'.yielded = g.yielded ++ [.ping] ∧ g'.cursor = g.cursor := by
  simp only [pings, hlive] at hpings
  split at hpings
  · rename_i hpc hphase
    simp only [next, hpc, hphase, Option.some.injEq] at hnext
    subst hnext
    exact ⟨rfl, rfl⟩
  · simp at hpings

/-- Where a step does not meet the condition an event on its way is overtaken. -/
theorem clear_of_noneOvertaken {count : ℕ} {s s' : State κ ν} {l : Watched.Label κ ν} (h : Issued s)
    (hstep : step count s l = some s') (hnone : NoneOvertaken s') : Clear s l := by
  obtain ⟨w, hw, rfl⟩ := Option.map_eq_some_iff.mp hstep
  cases Watched.move_of_step hw with
  | begins | evaluate => trivial
  | @run l r hrun =>
    unfold Clear
    split
    · rename_i heq
      cases heq
    · rename_i value error heq
      obtain rfl : l = .yields value error := by simpa using heq
      intro event htaken m hm
      have hpending := pending_of_taken htaken hrun
      have hway := mem_onItsWay (w := { s.world with run := r }).mpr (.inr (.inl (hpending ▸ mem_publish.mpr rfl)))
      exact hnone event hway m (List.mem_append_left _ hm)
    · trivial
  | @advance g g' hlive hnext =>
    intro hpings
    by_contra hne
    obtain ⟨event, hevent⟩ := List.exists_mem_of_ne_nil _ hne
    obtain ⟨hyielded, hcursor⟩ := next_of_pings hpings hlive hnext
    have hway : event ∈ onItsWay { s.world with live := some g' } := by
      rwa [onItsWay_congr (by rw [hlive, hcursor]; rfl)]
    -- the ping has the number that the emitter has come to
    have hbelow : s.world.run.context.offset < event.seq :=
      hnone event hway (.ping s.world.run.context.offset) (by simp [yielded, hlive, hyielded, mark])
    exact absurd (h.issued event hevent) (not_le.mpr hbelow)

/-- The patches have their numbers from the emitter: the condition fails exactly where an event that is on its way,
or is put on it, is overtaken by a ping. -/
theorem clear_iff_noneOvertaken {count : ℕ} (hcount : 0 < count) (model : Run.Model ν) (time : ℕ)
    {labels : List (Watched.Label κ ν)} {s : State κ ν}
    (hfails : ∀ error, .run (.fails error) ∈ labels → error.cancelled = true)
    (hnumbered : Machine.AllSteps (step count) Numbered (State.init model time) labels)
    (hexec : Machine.exec (step count) (State.init model time) labels = some s) :
    Machine.AllSteps (step count) Clear (State.init model time) labels ↔
      Machine.AllStates (step count) NoneOvertaken (State.init model time) labels := by
  refine ⟨fun hclear => (sound_run_of_clear hcount model time hfails hclear).mono fun _ h => h.ahead, fun hnone => ?_⟩
  have hissued : Machine.AllStates (step count) Issued (State.init model time) labels :=
    Machine.allStates_of_allSteps (fun _ _ _ h hl hstep => issued_step hcount h hl.1 hl.2 hstep)
      ⟨Watched.sound_init model time, fun _ hevent => absurd hevent List.not_mem_nil⟩
      (hnumbered.and (allSteps_of_redis hfails))
  exact Machine.allSteps_of_allStates (fun s l s' h hstep h' => clear_of_noneOvertaken h.1 hstep h'.2) hexec
    (hissued.and hnone)

end

end AgentUE.PythonRunner.Pings
