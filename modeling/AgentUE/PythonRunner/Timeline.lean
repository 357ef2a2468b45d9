import AgentUE.PythonRunner.Run

/-!
# Python runner: the numbers of a timeline

Reference: `_run_business`, `_finalize` and `_publish_terminal` in `sdks/python/src/agentue/runner/runner.py`,
`PatchEmitter` in `sdks/python/src/agentue/emitter.py`. The patches of `stream` carry their own numbers, the
terminal events those of the emitter. The stream stays in order when the emitter has caught up with what is
stored by the time `complete` ends.
-/

namespace AgentUE.PythonRunner.Run

open Data
open Live (TerminalEvent)

variable {κ ν : Type}

/-- The numbers of the events strictly increase. -/
def Increasing (events : List (Envelope ν)) : Prop := events.Pairwise fun a b => a.seq < b.seq

/-- No event has a greater number than `n`. -/
def UpTo (n : ℕ) (events : List (Envelope ν)) : Prop := ∀ event ∈ events, event.seq ≤ n

instance (n : ℕ) (events : List (Envelope ν)) : Decidable (UpTo n events) :=
  inferInstanceAs (Decidable (∀ event ∈ events, event.seq ≤ n))

/-- The callback returns or raises. -/
def Label.endsCallback : Label κ ν → Bool
  | .returns | .raises _ => true
  | _ => false

/-- The run is in `complete`. -/
def Phase.isCompleting : Phase ν → Bool
  | .completing _ _ => true
  | _ => false

/-- Where `complete` ends, the emitter has caught up with the stream. -/
def CaughtUp (r : State κ ν) (l : Label κ ν) : Prop :=
  r.phase.isCompleting = true → l.endsCallback = true → UpTo r.context.offset r.log

instance (r : State κ ν) (l : Label κ ν) : Decidable (CaughtUp r l) :=
  inferInstanceAs (Decidable (_ → _ → UpTo r.context.offset r.log))

/-- A step that writes `last_seq` makes it greater. -/
def LastSeqRises (r : State κ ν) (l : Label κ ν) : Prop :=
  ∀ fresh seq rest, l = .send fresh → r.pending = .hsetLastSeq seq :: rest → r.store.lastSeq < seq

/-! ## A stream and its `last_seq` -/

/-- The stream is in order, and `last_seq` is not ahead of it. -/
structure Ordered (events : List (Envelope ν)) (lastSeq : ℕ) : Prop where
  increasing : Increasing events
  covered : ∀ n, UpTo n events → lastSeq ≤ n

theorem UpTo.concat {n : ℕ} {events : List (Envelope ν)} {event : Envelope ν} :
    UpTo n (events ++ [event]) ↔ UpTo n events ∧ event.seq ≤ n := by
  simp [UpTo, or_imp, forall_and]

theorem Ordered.concat {events : List (Envelope ν)} {lastSeq n : ℕ} {event : Envelope ν} (h : Ordered events lastSeq)
    (hupTo : UpTo n events) (hseq : n < event.seq) :
    Ordered (events ++ [event]) lastSeq ∧ Ordered (events ++ [event]) event.seq := by
  have hincreasing : Increasing (events ++ [event]) :=
    List.pairwise_append.mpr ⟨h.increasing, List.pairwise_singleton _ _, fun a ha b hb => by
      rw [List.mem_singleton.mp hb]
      exact lt_of_le_of_lt (hupTo a ha) hseq⟩
  exact ⟨⟨hincreasing, fun m hm => h.covered m (UpTo.concat.mp hm).1⟩,
    ⟨hincreasing, fun m hm => (UpTo.concat.mp hm).2⟩⟩

/-- The publish of an event whose number is greater than all that the stream held before. -/
def Appending (event : Envelope ν) (r : State κ ν) : Prop :=
  ∃ base lastSeq n, r.Writing event base lastSeq ∧ Ordered base lastSeq ∧ UpTo n base ∧ n < event.seq

theorem appending_of_publish {event : Envelope ν} {r : State κ ν} (hpending : r.pending = publish event)
    (h : Ordered r.log r.store.lastSeq) {n : ℕ} (hupTo : UpTo n r.log) (hseq : n < event.seq) : Appending event r :=
  ⟨r.log, r.store.lastSeq, n, .inl ⟨hpending, rfl, rfl⟩, h, hupTo, hseq⟩

theorem Appending.ordered {event : Envelope ν} {r : State κ ν} (h : Appending event r) :
    Ordered r.log r.store.lastSeq := by
  obtain ⟨base, lastSeq, n, hwriting, hbase, hupTo, hseq⟩ := h
  obtain ⟨hadded, hnumbered⟩ := hbase.concat hupTo hseq
  rcases hwriting with ⟨-, hlog, hlast⟩ | ⟨-, hlog, hlast⟩ | ⟨-, hlog, hlast⟩ | ⟨-, hlog, hlast⟩
  · rwa [hlog, hlast]
  · rwa [hlog, hlast]
  · rwa [hlog, hlast]
  · rwa [hlog, hlast]

theorem Appending.upTo {event : Envelope ν} {r : State κ ν} (h : Appending event r) : UpTo event.seq r.log := by
  obtain ⟨base, lastSeq, n, hwriting, -, hupTo, hseq⟩ := h
  have hbase : UpTo event.seq base := fun e he => (hupTo e he).trans hseq.le
  rcases hwriting.log_eq with hlog | hlog <;> rw [hlog]
  · exact hbase
  · exact UpTo.concat.mpr ⟨hbase, le_rfl⟩

theorem Appending.congr {event : Envelope ν} {r r' : State κ ν} (h : Appending event r)
    (hpending : r'.pending = r.pending) (hstore : r'.store = r.store) : Appending event r' := by
  obtain ⟨base, lastSeq, n, hwriting, hrest⟩ := h
  exact ⟨base, lastSeq, n, hwriting.congr hpending hstore, hrest⟩

theorem Appending.sent {event : Envelope ν} {r : State κ ν} (h : Appending event r) {command : Command ν}
    {rest : List (Command ν)} (hpending : r.pending = command :: rest) (fresh : κ) :
    Appending event (r.sent fresh command rest) := by
  obtain ⟨base, lastSeq, n, hwriting, hrest⟩ := h
  exact ⟨base, lastSeq, n, hwriting.sent hpending fresh, hrest⟩

/-! ## The run -/

/-- The stream in every phase: what is published next has a greater number, or the emitter is ahead. -/
def InOrder (r : State κ ν) : Prop :=
  Ordered r.log r.store.lastSeq ∧
    match r.phase with
    | .preStart => UpTo r.context.offset r.log
    | .starting event | .restarting _ event | .publishingError _ event =>
      Appending event r ∧ event.seq ≤ r.context.offset
    | .spawned | .preparing | .streaming => UpTo r.context.publishedSeq r.log
    | .publishing event _ | .publishingEnd _ _ event => Appending event r
    | _ => True

theorem inOrder_init (model : Model ν) (time : ℕ) : InOrder (State.init model time : State κ ν) :=
  ⟨⟨.nil, fun _ _ => Nat.zero_le _⟩, by simp [State.init, State.log, UpTo]⟩

theorem inOrder_beginStart {r : State κ ν} (h : Ordered r.log r.store.lastSeq) (hupTo : UpTo r.context.offset r.log)
    (phase : Envelope ν → Phase ν) (hphase : phase = .starting ∨ ∃ error, phase = .restarting error) :
    InOrder (r.beginStart phase) := by
  have happending : Appending (startEvent r.context.model.doc (r.context.offset + 1)) (r.beginStart phase) :=
    appending_of_publish rfl h hupTo (Nat.lt_succ_self _)
  rcases hphase with rfl | ⟨error, rfl⟩
  · exact ⟨h, happending, le_rfl⟩
  · exact ⟨h, happending, le_rfl⟩

theorem inOrder_beginEnd {r : State κ ν} (h : Ordered r.log r.store.lastSeq) (hupTo : UpTo r.context.offset r.log)
    (outcome : Outcome) (terminal : List (TerminalEvent ν)) (persisted : Bool) :
    InOrder (r.beginEnd outcome terminal persisted) := by
  unfold State.beginEnd
  cases persisted
  · exact ⟨h, trivial⟩
  · exact ⟨h, appending_of_publish rfl h hupTo (Nat.lt_succ_self _)⟩

theorem inOrder_finalize {r : State κ ν} (h : Ordered r.log r.store.lastSeq) (hupTo : UpTo r.context.offset r.log)
    (outcome : Outcome) : InOrder (r.finalize outcome) := by
  unfold State.finalize
  split
  · exact inOrder_beginEnd h hupTo _ _ _
  · dsimp only
    split
    · exact ⟨h, appending_of_publish rfl h hupTo (Nat.lt_succ_self _), le_rfl⟩
    · exact ⟨h, trivial⟩

theorem inOrder_sent {r : State κ ν} (hfits : Fits r) (h : InOrder r) {command : Command ν}
    {rest : List (Command ν)} (hpending : r.pending = command :: rest) (fresh : κ) :
    InOrder (r.sent fresh command rest) := by
  have hnil := hfits
  unfold Fits at hnil
  unfold InOrder at h ⊢
  cases hphase : r.phase <;>
    simp only [hphase, hpending, State.sent, reduceCtorEq, and_true] at hnil h ⊢
  case starting | restarting | publishingError =>
    have happending := h.2.1.sent hpending fresh
    exact ⟨happending.ordered, happending, h.2.2⟩
  case publishing | publishingEnd =>
    have happending := h.2.sent hpending fresh
    exact ⟨happending.ordered, happending⟩
  case marking =>
    -- the commands of `mark_terminal` leave the stream and its number alone
    rcases hfits.marks hphase hpending with rfl | rfl | rfl <;> exact h

theorem inOrder_move [DecidableEq ν] {r r' : State κ ν} {l : Label κ ν} (hfits : Fits r) (h : InOrder r)
    (hcaught : CaughtUp r l) (hmove : Move r l r') : InOrder r' := by
  obtain ⟨hordered, hphase⟩ := h
  cases hmove with
  | @idle context verdict closing _ _ _ _ hpublished hoffset =>
    refine ⟨hordered, ?_⟩
    revert hphase
    cases hp : r.phase <;> intro hphase <;> simp only [hpublished] at hphase ⊢
    case preStart => exact fun e he => (hphase e he).trans hoffset
    case starting | restarting | publishingError => exact ⟨hphase.1.congr rfl rfl, hphase.2.trans hoffset⟩
    case spawned | preparing | streaming => exact hphase
    case publishing | publishingEnd => exact hphase.congr rfl rfl
  | send _ hpending => exact inOrder_sent hfits ⟨hordered, hphase⟩ hpending _
  | start hp =>
    rw [hp] at hphase
    exact inOrder_beginStart hordered hphase _ (.inl rfl)
  -- the start that failed may be stored; the emitter numbers the next one behind it
  | restart hp =>
    refine inOrder_beginStart hordered ?_ _ (.inr ⟨_, rfl⟩)
    rcases hp with hp | ⟨event, hp⟩ <;> rw [hp] at hphase
    · exact hphase
    · exact fun e he => (hphase.1.upTo e he).trans hphase.2
  | started hp hpending =>
    rw [hp] at hphase
    exact ⟨hordered, hphase.1.upTo⟩
  | begin hp =>
    rw [hp] at hphase
    exact ⟨hordered, hphase⟩
  | prepared hp =>
    rw [hp] at hphase
    exact ⟨hordered, hphase⟩
  | accept hp _ hseq =>
    rw [hp] at hphase
    exact ⟨hordered, appending_of_publish rfl hordered hphase hseq⟩
  | resumed _ hp =>
    rw [hp] at hphase
    exact ⟨hordered, hphase.upTo⟩
  | finalize hl hp =>
    have hends : l.endsCallback = true := by rcases hl with rfl | ⟨error, rfl⟩ <;> rfl
    exact inOrder_finalize hordered (hcaught (by rw [hp]; rfl) hends) _
  | errorStored hp hpending =>
    rw [hp] at hphase
    exact inOrder_beginEnd (r := r.published _) hordered (fun e he => (hphase.1.upTo e he).trans hphase.2) _ _ _
  | errorLost hp =>
    rw [hp] at hphase
    exact inOrder_beginEnd hordered (fun e he => (hphase.1.upTo e he).trans hphase.2) _ _ _
  | finish =>
    refine ⟨hordered, ?_⟩
    unfold State.finish
    dsimp only
    split_ifs <;> trivial
  | failStarted | restarted | giveUpStart | endBusiness | refused | endStored | endLost | die =>
    exact ⟨hordered, trivial⟩

/-- What is still to be written is greater than `last_seq`. -/
theorem lastSeqRises_of_inOrder {r : State κ ν} (hfits : Fits r) (h : InOrder r) (l : Label κ ν) :
    LastSeqRises r l := by
  intro fresh seq rest _ hpending
  have hwriting : ∀ event : Envelope ν, Appending event r → r.store.lastSeq < seq := by
    rintro event ⟨base, lastSeq, n, hwriting, hbase, hupTo, hseq⟩
    have hlast : lastSeq < event.seq := lt_of_le_of_lt (hbase.covered n hupTo) hseq
    rcases hwriting with ⟨hp, -⟩ | ⟨hp, -⟩ | ⟨hp, -, hstored⟩ | ⟨hp, -⟩
    · simp [publish, hp] at hpending
    · simp [hp] at hpending
    -- only the third command of the publish writes `last_seq`
    · obtain ⟨rfl, -⟩ : event.seq = seq ∧ [] = rest := by simpa [hp] using hpending
      rwa [hstored]
    · simp [hp] at hpending
  have hnil := hfits
  unfold Fits at hnil
  obtain ⟨-, h⟩ := h
  cases hphase : r.phase <;> simp only [hphase, hpending, reduceCtorEq] at hnil h
  case starting | restarting | publishingError => exact hwriting _ h.1
  case publishing | publishingEnd => exact hwriting _ h
  case marking =>
    simpa using hfits.marks hphase hpending

/-- In every run in which the emitter has caught up with the stream whenever `complete` ends, whatever
commands fail and wherever it is cancelled: the stream is in order in every state, and every write of
`last_seq` makes it greater. -/
theorem timeline_increases [LinearOrder κ] [DecidableEq ν] (model : Model ν) (time : ℕ) (labels : List (Label κ ν))
    (hcaught : Machine.AllSteps step CaughtUp (State.init model time) labels) :
    Machine.AllStates step (fun r : State κ ν => Increasing r.log) (State.init model time) labels ∧
      Machine.AllSteps step LastSeqRises (State.init model time) labels := by
  have hall : Machine.AllStates step (fun r : State κ ν => Fits r ∧ InOrder r) (State.init model time) labels := by
    refine Machine.allStates_of_allSteps (fun r l r' h hcaught hstep => ?_) ⟨rfl, inOrder_init model time⟩ hcaught
    have hmove := move_of_step hstep
    exact ⟨fits_move h.1 hmove, inOrder_move h.1 h.2 hcaught hmove⟩
  exact ⟨hall.mono fun r h => h.2.1.increasing, hall.allSteps fun r l h => lastSeqRises_of_inOrder h.1 h.2 l⟩

/-- `stream` yields a patch with the number `seq` and ends. -/
def titlesChat (seq : ℕ) : List (Label ℕ ℕ) :=
  startsChat ++ [.emits 2, .yields (.patch (titleEvent seq)) silentError, .send 2, .send 3, .send 3, .resumes, .returns,
    .returns, .send 3, .send 4, .send 4, .resumes]

/-- A patch with the emitter's number leaves the stream in order. -/
theorem timeline_increases_titlesChat :
    Machine.AllStates step (fun r : State ℕ ℕ => Increasing r.log) (State.init chatModel 0) (titlesChat 2) ∧
      Machine.AllSteps step LastSeqRises (State.init chatModel 0) (titlesChat 2) :=
  timeline_increases chatModel 0 (titlesChat 2) (by decide +kernel)

/-- After a patch whose number the emitter has not reached, the end has a smaller one, and so has `last_seq`. -/
theorem titlesChat_not_increasing :
    ¬ ∀ (model : Model ℕ) (labels : List (Label ℕ ℕ)) (r : State ℕ ℕ), (∀ l ∈ labels, l.isFailure = false) →
      Machine.exec step (State.init model 0) labels = some r →
      Increasing r.log ∧ Machine.AllSteps step LastSeqRises (State.init model 0) labels := by
  intro h
  have hrun : (Machine.exec step (State.init chatModel 0) (titlesChat 7)).map (fun r => r.log.map Envelope.seq) =
      some [1, 7, 3] := by
    decide +kernel
  obtain ⟨r, hr, hseqs⟩ := Option.map_eq_some_iff.mp hrun
  have hincreasing := (h chatModel (titlesChat 7) r (by decide) hr).1
  have hmap : (r.log.map Envelope.seq).Pairwise (· < ·) := List.pairwise_map.mpr hincreasing
  rw [hseqs] at hmap
  exact absurd hmap (by decide)

end AgentUE.PythonRunner.Run
