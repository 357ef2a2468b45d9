import AgentUE.Protocol.Validity
import AgentUE.PythonRunner.Run

/-!
# Python runner: the snapshot that `complete` is given

Reference: `_publish_start`, `_run_business` and `_finalize` in `sdks/python/src/agentue/runner/runner.py`. An
event is reduced into the snapshot before it is published, so a publish that fails leaves the snapshot ahead of
the stream; and the reducer takes an instance of `PatchEvent` that is not valid, which no replay takes. `complete` is given
what the stream replays to exactly when neither has happened.
-/

namespace AgentUE.PythonRunner.Run

open Data
open Lifecycle (CompletionSource)

variable {κ ν : Type} [DecidableEq ν]

/-- `apply_patches({}, events)` -/
def replay (events : List (Envelope ν)) : Option (JsonObject ν) := (Python.applyPatches [] events).state?

/-- The snapshot that `complete` is given is what the stream replays to. -/
def Completion.Matches (c : Completion ν) : Prop :=
  ∃ snapshot, replay c.stored = some snapshot ∧ DocTree.Same (.obj c.snapshot) (.obj snapshot)

/-- The patch whose `XADD` comes next is valid. A failing step comes after the `XADD` of the event, or the event has not
changed the snapshot; for the second attempt to publish the start, the first one may have stored it. -/
def Faithful (r : State κ ν) : Label κ ν → Prop
  | .send _ => ∀ event before, r.phase = .publishing event before → r.pending = publish event →
      Python.validateOperation event = .ok ()
  | .fails _ => (∀ event before, r.phase = .publishing event before → r.pending = publish event →
        DocTree.Same (.obj r.context.snapshot) (.obj before)) ∧
      ∀ error event, r.phase = .restarting error event → r.pending = publish event → ∃ e ∈ r.log, e.op = .start
  | _ => True

/-! ## Replaying the stream -/

/-- The members that a start brings. -/
structure Parts (snapshot : JsonObject ν) : Prop where
  blocks : Fields.has snapshot "blocks" = true
  meta_ : Fields.has snapshot "meta" = true

omit [DecidableEq ν] in
theorem Model.parts (model : Model ν) : Parts model.doc := by
  refine ⟨model.hasBlocks, ?_⟩
  obtain ⟨m, hm, -⟩ := exists_meta_of_modelOk model.valid
  simp [Fields.has, hm]

theorem replay_concat {events : List (Envelope ν)} {snapshot snapshot' : JsonObject ν} {event : Envelope ν}
    (h : replay events = some snapshot) (happly : Python.applyPatch snapshot event = .returned snapshot') :
    replay (events ++ [event]) = some snapshot' := by
  unfold replay Python.applyPatches at h ⊢
  rw [Applied.run_concat, h, Option.bind_some, happly, Applied.state?_returned]

/-- Where a replay has stopped it stops for good. -/
theorem replay_concat_none {events : List (Envelope ν)} (h : replay events = none) (event : Envelope ν) :
    replay (events ++ [event]) = none := by
  unfold replay Python.applyPatches at h ⊢
  rw [Applied.run_concat, h, Option.bind_none]

/-- It stops at an event that is not valid. -/
theorem replay_concat_of_invalid (events : List (Envelope ν)) {event : Envelope ν}
    (h : Python.validateOperation event ≠ .ok ()) : replay (events ++ [event]) = none := by
  cases hreplay : replay events with
  | none => exact replay_concat_none hreplay event
  | some snapshot =>
    unfold replay Python.applyPatches at hreplay ⊢
    rw [Applied.run_concat, hreplay, Option.bind_some, Python.applyPatch]
    cases hvalid : Python.validateOperation event with
    | error => rfl
    | ok => exact absurd hvalid h

theorem applyPatch_of_valid {snapshot : JsonObject ν} {event : Envelope ν}
    (h : Python.validateOperation event = .ok ()) :
    Python.applyPatch snapshot event = Python.applyEvent snapshot event := by
  rw [Python.applyPatch, h]

theorem replay_nil : replay ([] : List (Envelope ν)) = some [] := rfl

theorem replay_start (model : Model ν) (seq : ℕ) {events : List (Envelope ν)}
    (h : events = [] ∨ ∃ n, events = [startEvent model.doc n]) :
    replay (events ++ [startEvent model.doc seq]) = some model.doc := by
  rcases h with rfl | ⟨n, rfl⟩
  · exact replay_concat replay_nil (applyPatch_startEvent model seq [])
  · have hfirst := replay_concat replay_nil (applyPatch_startEvent model n [])
    exact replay_concat hfirst (applyPatch_startEvent model seq _)

/-- The snapshot in every phase before `complete`: the stream replays to it, or will when the event that is being
published has been stored. -/
def Reduced (r : State κ ν) : Prop :=
  match r.phase with
  | .preStart => r.log = [] ∧ r.context.publishedSeq = 0
  | .starting event =>
    r.context.publishedSeq = 0 ∧ r.context.snapshot = r.context.model.doc ∧
      ∃ n seq, event = startEvent r.context.model.doc n ∧ r.Writing event [] seq
  | .restarting _ event =>
    r.context.snapshot = r.context.model.doc ∧ ∃ n seq base, event = startEvent r.context.model.doc n ∧
      r.Writing event base seq ∧ (base = [] ∨ ∃ m, base = [startEvent r.context.model.doc m])
  | .spawned | .preparing | .streaming => replay r.log = some r.context.snapshot ∧ Parts r.context.snapshot
  | .publishing event before =>
    Python.applyEvent before event = .returned r.context.snapshot ∧ Parts r.context.snapshot ∧
      (r.pending ≠ publish event → Python.validateOperation event = .ok ()) ∧
      ∃ base seq, r.Writing event base seq ∧ replay base = some before
  | _ => True

omit [DecidableEq ν] in
theorem writing_of_publish {event : Envelope ν} {r : State κ ν} (hpending : r.pending = publish event) :
    r.Writing event r.log r.store.lastSeq := .inl ⟨hpending, rfl, rfl⟩

theorem reduced_restart {r : State κ ν} (h : Reduced r)
    (hphase : r.phase = .preStart ∨ ∃ event, r.phase = .starting event) (error : Raised) :
    Reduced (r.beginStart (.restarting error)) := by
  refine ⟨rfl, _, _, _, rfl, writing_of_publish rfl, ?_⟩
  show r.log = [] ∨ ∃ m, r.log = [startEvent r.context.model.doc m]
  rcases hphase with hphase | ⟨event, hphase⟩ <;> simp only [Reduced, hphase] at h
  · exact .inl h.1
  · obtain ⟨-, -, n, seq, rfl, hwriting⟩ := h
    rcases hwriting.log_eq with hlog | hlog
    · exact .inl hlog
    · exact .inr ⟨n, hlog⟩

theorem reduced_sent {r : State κ ν} (hfits : Fits r) (h : Reduced r) {command : Command ν}
    {rest : List (Command ν)} (hpending : r.pending = command :: rest) (fresh : κ) (hvalid : Faithful r (.send fresh)) :
    Reduced (r.sent fresh command rest) := by
  unfold Fits at hfits
  unfold Reduced at h ⊢
  cases hphase : r.phase <;> simp only [hphase, hpending, State.sent, reduceCtorEq] at hfits h ⊢
  case starting =>
    obtain ⟨hseq, hsnapshot, n, seq, hevent, hwriting⟩ := h
    exact ⟨hseq, hsnapshot, n, seq, hevent, hwriting.sent hpending fresh⟩
  case restarting =>
    obtain ⟨hsnapshot, n, seq, base, hevent, hwriting, hbase⟩ := h
    exact ⟨hsnapshot, n, seq, base, hevent, hwriting.sent hpending fresh, hbase⟩
  case publishing event before =>
    obtain ⟨happly, hparts, hstored, base, seq, hwriting, hbase⟩ := h
    refine ⟨happly, hparts, fun _ => ?_, base, seq, hwriting.sent hpending fresh, hbase⟩
    by_cases hnext : r.pending = publish event
    · exact hvalid event before hphase hnext
    · exact hstored (by rwa [← hpending])

theorem parts_of_applyEvent {snapshot snapshot' : JsonObject ν} {event : Envelope ν} (h : Parts snapshot)
    (hop : event.op = .set ∨ event.op = .append) (happly : Python.applyEvent snapshot event = .returned snapshot') :
    Parts snapshot' := by
  have hcareful := Python.careful_applyEvent h.blocks h.meta_ (e := event)
    (by rcases hop with hop | hop <;> simp [hop])
  rw [happly] at hcareful
  exact ⟨hcareful _ h.blocks, hcareful _ h.meta_⟩

theorem reduced_move {r r' : State κ ν} {l : Label κ ν} (hfits : Fits r) (h : Reduced r)
    (hvalid : ∀ fresh, l = .send fresh → Faithful r l) (hmove : Move r l r') : Reduced r' := by
  cases hmove with
  | @idle context verdict closing _ _ hmodel hsnapshot hpublished =>
    unfold Reduced at h ⊢
    cases hphase : r.phase <;> simp only [hphase, hsnapshot, hpublished] at h hmodel ⊢
    case preStart | spawned | preparing | streaming => exact h
    -- no callback runs here, so the model is still that of the start
    case starting | restarting =>
      rw [hmodel rfl]
      exact h
    case publishing => exact h
  | @send _ _ fresh hl hpending =>
    have hfaithful := hvalid fresh hl
    rw [hl] at hfaithful
    exact reduced_sent hfits h hpending fresh hfaithful
  | start hphase =>
    simp only [Reduced, hphase] at h
    exact ⟨h.2, rfl, _, _, rfl, .inl ⟨rfl, h.1, rfl⟩⟩
  | restart hphase => exact reduced_restart h hphase _
  | started hphase hpending =>
    simp only [Reduced, hphase] at h
    obtain ⟨-, hsnapshot, n, seq, rfl, hwriting⟩ := h
    have hlog := (hwriting.of_pending_nil hpending).1
    refine ⟨?_, ?_⟩
    · show replay r.log = some r.context.snapshot
      rw [hlog, hsnapshot]
      exact replay_start _ _ (.inl rfl)
    · show Parts r.context.snapshot
      rw [hsnapshot]
      exact Model.parts _
  | begin hphase =>
    simp only [Reduced, hphase] at h
    exact h
  | prepared hphase =>
    simp only [Reduced, hphase] at h
    exact h
  | accept hphase hop hseq happly =>
    simp only [Reduced, hphase] at h
    exact ⟨happly, parts_of_applyEvent h.2 hop happly, fun hne => absurd rfl hne, _, _, writing_of_publish rfl, h.1⟩
  | @resumed event before _ hphase hpending =>
    simp only [Reduced, hphase] at h
    obtain ⟨happly, hparts, hstored, base, seq, hwriting, hbase⟩ := h
    refine ⟨?_, hparts⟩
    show replay r.log = some r.context.snapshot
    rw [(hwriting.of_pending_nil hpending).1]
    have hvalid' := hstored (by rw [hpending]; simp [publish])
    exact replay_concat hbase (by rwa [applyPatch_of_valid hvalid'])
  | finalize =>
    unfold State.finalize State.beginEnd
    dsimp only
    split
    · trivial
    · split <;> trivial
  | finish =>
    unfold State.finish Reduced
    dsimp only
    split_ifs <;> trivial
  | failStarted | restarted | giveUpStart | endBusiness | refused | errorStored | errorLost | endStored | endLost
    | die => trivial

theorem lost_move {r r' : State κ ν} {l : Label κ ν} (h : replay r.log = none) (hmove : Move r l r') :
    replay r'.log = none := by
  rcases store_move hmove with hstore | ⟨fresh, command, rest, -, -, rfl⟩
  · rwa [State.log, hstore]
  · cases command with
    | xadd event =>
      rw [log_sent_xadd]
      exact replay_concat_none h event
    | _ => exact h

/-- A patch that is not valid is stored for good. -/
theorem lost_of_unfaithful [LinearOrder κ] {r r' : State κ ν} {fresh : κ} (hunfaithful : ¬ Faithful r (.send fresh))
    (hstep : step r (.send fresh) = some r') : replay r'.log = none := by
  simp only [Faithful, not_forall] at hunfaithful
  obtain ⟨event, before, hphase, hpending, hinvalid⟩ := hunfaithful
  simp only [step, hpending, publish] at hstep
  split_ifs at hstep
  obtain rfl := Option.some.inj hstep
  show replay (r.sent fresh (.xadd event) [.expireStream, .hsetLastSeq event.seq]).log = none
  rw [log_sent_xadd]
  exact replay_concat_of_invalid _ hinvalid

/-! ## What `complete` is given -/

omit [DecidableEq ν] in
/-- A publish that has got past its `XADD`, or not. -/
theorem publish_cases {event : Envelope ν} {base : List (Envelope ν)} {seq : ℕ} {r : State κ ν}
    (h : r.Writing event base seq) :
    (r.pending = publish event ∧ r.log = base) ∨ (r.pending ≠ publish event ∧ r.log = base ++ [event]) := by
  rcases h with ⟨hp, hlog, -⟩ | ⟨hp, hlog, -⟩ | ⟨hp, hlog, -⟩ | ⟨hp, hlog, -⟩
  · exact .inl ⟨hp, hlog⟩
  · exact .inr ⟨by simp [hp, publish], hlog⟩
  · exact .inr ⟨by simp [hp, publish], hlog⟩
  · exact .inr ⟨by simp [hp, publish], hlog⟩

theorem matches_of_replay {c : Completion ν} {snapshot : JsonObject ν} (h : replay c.stored = some snapshot)
    (hsnapshot : c.snapshot = snapshot) : c.Matches :=
  ⟨snapshot, h, hsnapshot ▸ DocTree.Same.refl _⟩

omit [DecidableEq ν] in
/-- A step from a phase in which nothing is published. -/
theorem faithful_of_phase {r : State κ ν} {l : Label κ ν}
    (hpublishing : ∀ event before, r.phase ≠ .publishing event before)
    (hrestarting : ∀ error event, r.phase ≠ .restarting error event) : Faithful r l := by
  cases l with
  | send => exact fun event before h => absurd h (hpublishing event before)
  | fails =>
    exact ⟨fun event before h => absurd h (hpublishing event before),
      fun error event h => absurd h (hrestarting error event)⟩
  | _ => trivial

/-- A start that could not be stored leaves a snapshot that an empty stream does not replay to. -/
theorem giveUp_matches_iff {r : State κ ν} (h : Reduced r) {error : Raised} {event : Envelope ν}
    (hphase : r.phase = .restarting error event) (failure : Raised) {c : Completion ν}
    (hsnapshot : c.snapshot = r.context.snapshot) (hstored : c.stored = r.log) :
    c.Matches ↔ Faithful r (.fails failure) := by
  simp only [Reduced, hphase] at h
  obtain ⟨hdoc, n, seq, base, rfl, hwriting, hbase⟩ := h
  have hfaithful : Faithful r (.fails failure) ↔
      (r.pending = publish (startEvent r.context.model.doc n) → ∃ e ∈ r.log, e.op = .start) := by
    constructor
    · exact fun h hpending => h.2 _ _ hphase hpending
    · refine fun h => ⟨by simp [hphase], fun error event hphase' hpending => h ?_⟩
      rw [hphase] at hphase'
      obtain ⟨-, rfl⟩ := Phase.restarting.inj hphase'
      exact hpending
  rw [hfaithful]
  have hstart : ∀ m, replay [startEvent r.context.model.doc m] = some r.context.model.doc := fun m =>
    replay_start r.context.model m (.inl rfl)
  rcases publish_cases hwriting with ⟨hpending, hlog⟩ | ⟨hpending, hlog⟩
  · rcases hbase with rfl | ⟨m, rfl⟩
    · -- nothing is stored, and the snapshot has its metadata
      refine ⟨?_, fun h => by simpa [hlog] using h hpending⟩
      rintro ⟨snapshot, hreplay, hsame⟩ _
      rw [hstored, hlog] at hreplay
      obtain rfl : [] = snapshot := Option.some.inj hreplay
      obtain ⟨v, hv⟩ := (Fields.has_eq_true_iff _ _).mp (Model.parts r.context.model).meta_
      have hprobe := hsame [.key "meta"]
      rw [hsnapshot, hdoc] at hprobe
      simp only [DocTree.probe, hv, Fields.get?_nil] at hprobe
      cases v <;> simp [DocTree.probe] at hprobe
    · refine ⟨fun _ _ => ⟨startEvent r.context.model.doc m, by simp [hlog], rfl⟩, fun _ =>
        matches_of_replay ?_ (hsnapshot.trans hdoc)⟩
      rw [hstored, hlog]
      exact hstart m
  · refine ⟨fun _ h => absurd h hpending, fun _ => matches_of_replay ?_ (hsnapshot.trans hdoc)⟩
    rw [hstored, hlog]
    exact replay_start _ _ hbase

/-- The end of a business, in a callback or by a publish that fails. -/
theorem endBusiness_matches_iff {r : State κ ν} (h : Reduced r) {l : Label κ ν}
    (hbusiness : r.phase.inBusiness = true)
    (hl : r.phase = .preparing ∨ r.phase = .streaming ∨ ∃ failure, l = .fails failure) {c : Completion ν}
    (hsnapshot : c.snapshot = r.context.snapshot) (hstored : c.stored = r.log) : c.Matches ↔ Faithful r l := by
  unfold Reduced at h
  cases hphase : r.phase <;> simp only [hphase, Phase.inBusiness, Bool.false_eq_true] at h hbusiness
  case preparing | streaming =>
    refine iff_of_true (matches_of_replay (hstored ▸ h.1) hsnapshot) (faithful_of_phase ?_ ?_)
    · simp [hphase]
    · simp [hphase]
  case publishing event before =>
    obtain ⟨failure, rfl⟩ : ∃ failure, l = .fails failure := by simpa [hphase] using hl
    obtain ⟨happly, -, hvalid, base, seq, hwriting, hbase⟩ := h
    have hfaithful : Faithful r (.fails failure : Label κ ν) ↔
        (r.pending = publish event → DocTree.Same (.obj r.context.snapshot) (.obj before)) := by
      constructor
      · exact fun h hpending => h.1 _ _ hphase hpending
      · refine fun h => ⟨fun event' before' hphase' hpending => ?_, by simp [hphase]⟩
        rw [hphase] at hphase'
        obtain ⟨rfl, rfl⟩ := Phase.publishing.inj hphase'
        exact h hpending
    rw [hfaithful]
    rcases publish_cases hwriting with ⟨hpending, hlog⟩ | ⟨hpending, hlog⟩
    -- before its `XADD` the stream replays to the snapshot without the event, after it to that with it
    · constructor
      · rintro ⟨snapshot, hreplay, hsame⟩ _
        rw [hstored, hlog, hbase] at hreplay
        obtain rfl := Option.some.inj hreplay
        exact hsnapshot ▸ hsame
      · exact fun h => ⟨before, by rw [hstored, hlog, hbase], hsnapshot ▸ h hpending⟩
    · refine ⟨fun _ h => absurd h hpending, fun _ => matches_of_replay ?_ hsnapshot⟩
      rw [hstored, hlog]
      exact replay_concat hbase (by rwa [applyPatch_of_valid (hvalid hpending)])

/-- What a call of `complete` is given tells whether the step that invoked it was faithful. -/
theorem completion_of_move {r r' : State κ ν} {l : Label κ ν} (h : Reduced r) (hmove : Move r l r') :
    r'.completions = r.completions ∨
      ∃ c, r'.completions = r.completions ++ [c] ∧ (c.Matches ↔ Faithful r l) := by
  cases hmove with
  -- before the start is stored nothing has been published
  | failStarted hphase hpublished =>
    rcases hphase with hphase | ⟨event, hphase⟩ <;> simp only [Reduced, hphase] at h
    · exact absurd h.2 hpublished
    · exact absurd h.1 hpublished
  | restarted hl hphase hpending =>
    subst hl
    refine .inr ⟨_, rfl, iff_of_true ?_ trivial⟩
    simp only [Reduced, hphase] at h
    obtain ⟨hdoc, n, seq, base, rfl, hwriting, hbase⟩ := h
    have hreplay : replay r.log = some r.context.model.doc := by
      rw [(hwriting.of_pending_nil hpending).1]
      exact replay_start _ _ hbase
    exact matches_of_replay hreplay hdoc
  | @giveUpStart _ failure _ hl _ hphase =>
    subst hl
    exact .inr ⟨_, rfl, giveUp_matches_iff h hphase failure rfl rfl⟩
  | endBusiness hbusiness hl => exact .inr ⟨_, rfl, endBusiness_matches_iff h hbusiness hl rfl rfl⟩
  | @refused event rejection snapshot source error hphase hop happly =>
    have hfaithful : Faithful r l := faithful_of_phase (by simp [hphase]) (by simp [hphase])
    refine .inr ⟨_, rfl, iff_of_true ?_ hfaithful⟩
    simp only [Reduced, hphase] at h
    -- the refused event has left the snapshot as it was
    have hcareful := Python.careful_applyEvent h.2.blocks h.2.meta_ (e := event)
      (by rcases hop with hop | hop <;> simp [hop])
    rw [happly] at hcareful
    exact matches_of_replay h.1 hcareful
  | finalize =>
    left
    unfold State.finalize State.beginEnd
    dsimp only
    split
    · rfl
    · split <;> rfl
  | _ => exact .inl rfl

/-! ## Whole runs -/

/-- `complete` is still to be invoked. -/
def Phase.beforeComplete : Phase ν → Bool
  | .preStart | .starting _ | .restarting _ _ | .spawned | .preparing | .streaming | .publishing _ _ => true
  | _ => false

/-- No call of `complete` comes before its phase. -/
def Uncompleted (r : State κ ν) : Prop := r.phase.beforeComplete = true → r.completions = []

/-- `complete` has been given something else than the stream replays to, will be, or is never invoked. -/
def Spoilt (r : State κ ν) : Prop :=
  (∃ c ∈ r.completions, ¬ c.Matches) ∨ ((r.phase = .raised ∨ replay r.log = none) ∧ r.completions = [])

theorem uncompleted_move {r r' : State κ ν} {l : Label κ ν} (h : Uncompleted r) (hmove : Move r l r') :
    Uncompleted r' := by
  unfold Uncompleted at h ⊢
  cases hmove with
  | idle => exact h
  | send => exact h
  | start hphase => exact fun _ => h (by rw [hphase]; rfl)
  | restart hphase => exact fun _ => h (by rcases hphase with hphase | ⟨event, hphase⟩ <;> rw [hphase] <;> rfl)
  | started hphase => exact fun _ => h (by rw [hphase]; rfl)
  | begin hphase => exact fun _ => h (by rw [hphase]; rfl)
  | prepared hphase => exact fun _ => h (by rw [hphase]; rfl)
  | accept hphase => exact fun _ => h (by rw [hphase]; rfl)
  | resumed _ hphase => exact fun _ => h (by rw [hphase]; rfl)
  | finalize hl hphase =>
    unfold State.finalize State.beginEnd
    dsimp only
    split
    · simp [Phase.beforeComplete]
    · split <;> simp [Phase.beforeComplete, State.beginMark]
  | finish =>
    unfold State.finish
    dsimp only
    split_ifs <;> simp [Phase.beforeComplete]
  | _ => simp [State.complete, State.beginEnd, State.beginMark, Phase.beforeComplete]

/-- `complete` is told of the stream as it is. -/
theorem completions_move {r r' : State κ ν} {l : Label κ ν} (hmove : Move r l r') :
    r'.completions = r.completions ∨ ∃ c, r'.completions = r.completions ++ [c] ∧ c.stored = r.log := by
  cases hmove with
  | failStarted | restarted | giveUpStart | endBusiness | refused => exact .inr ⟨_, rfl, rfl⟩
  | finalize =>
    left
    unfold State.finalize State.beginEnd
    dsimp only
    split
    · rfl
    · split <;> rfl
  | _ => exact .inl rfl

/-- A run that has ended with an exception stays where it is, and a stream that does not replay never does again. -/
theorem spoilt_move {r r' : State κ ν} {l : Label κ ν} (h : Spoilt r) (hmove : Move r l r') : Spoilt r' := by
  rcases h with ⟨c, hc, hne⟩ | ⟨hphase | hlost, hnone⟩
  · refine .inl ⟨c, ?_, hne⟩
    rcases completions_move hmove with heq | ⟨d, heq, -⟩ <;> rw [heq]
    · exact hc
    · exact List.mem_append_left _ hc
  · refine .inr ?_
    cases hmove <;> simp_all [State.sent, Phase.inBusiness]
  · rcases completions_move hmove with heq | ⟨c, heq, hstored⟩
    · exact .inr ⟨.inr (lost_move hlost hmove), heq.trans hnone⟩
    · refine .inl ⟨c, by simp [heq], ?_⟩
      rintro ⟨snapshot, hreplay, -⟩
      rw [hstored, hlost] at hreplay
      simp at hreplay

omit [DecidableEq ν] in
theorem complete_ne {r s : State κ ν} {source : CompletionSource} {error : Option Raised}
    (h : s.completions = r.completions) : (s.complete source error).completions ≠ r.completions := by
  intro heq
  rw [State.complete, h] at heq
  exact absurd (congrArg List.length heq) (by simp)

omit [DecidableEq ν] in
theorem phase_of_unfaithful {r : State κ ν} {l : Label κ ν} (hunfaithful : ¬ Faithful r l) :
    (∃ event before, r.phase = .publishing event before) ∨ ∃ error event, r.phase = .restarting error event := by
  by_contra h
  rw [not_or] at h
  exact hunfaithful (faithful_of_phase (fun event before heq => h.1 ⟨event, before, heq⟩)
    fun error event heq => h.2 ⟨error, event, heq⟩)

/-- A failure that is not faithful invokes `complete`, or ends the run before that. -/
theorem raised_of_unfaithful {r r' : State κ ν} {failure : Raised} (hunfaithful : ¬ Faithful r (.fails failure))
    (hmove : Move r (.fails failure) r') (hsame : r'.completions = r.completions) : r'.phase = .raised := by
  have hphase := phase_of_unfaithful hunfaithful
  cases hmove with
  | die => rfl
  | idle hl => simp [Label.isFailure] at hl
  | send hl => simp at hl
  | restarted hl => simp at hl
  | resumed hl => simp at hl
  | giveUpStart => exact absurd hsame (complete_ne rfl)
  | endBusiness => exact absurd hsame (complete_ne rfl)
  | refused => exact absurd hsame (complete_ne rfl)
  | failStarted => exact absurd hsame (complete_ne rfl)
  | _ =>
    -- no other step starts there
    rcases hphase with ⟨event, before, hphase⟩ | ⟨error, event, hphase⟩ <;> simp_all

/-- What holds in every state: the stream does not replay, or it replays to the snapshot. -/
structure Kept (r : State κ ν) : Prop where
  fits : Fits r
  reduced : replay r.log = none ∨ Reduced r
  uncompleted : Uncompleted r

theorem reduced_init (model : Model ν) (time : ℕ) : Reduced (State.init model time : State κ ν) := ⟨rfl, rfl⟩

theorem kept_init (model : Model ν) (time : ℕ) : Kept (State.init model time : State κ ν) :=
  ⟨rfl, .inr (reduced_init model time), fun _ => rfl⟩

theorem kept_step [LinearOrder κ] {r r' : State κ ν} {l : Label κ ν} (h : Kept r) (hstep : step r l = some r') :
    Kept r' := by
  have hmove := move_of_step hstep
  refine ⟨fits_move h.fits hmove, ?_, uncompleted_move h.uncompleted hmove⟩
  rcases h.reduced with hlost | hreduced
  · exact .inl (lost_move hlost hmove)
  · by_cases hfaithful : ∀ fresh, l = .send fresh → Faithful r l
    · exact .inr (reduced_move h.fits hreduced hfaithful hmove)
    · simp only [not_forall] at hfaithful
      obtain ⟨fresh, rfl, hunfaithful⟩ := hfaithful
      exact .inl (lost_of_unfaithful hunfaithful hstep)

/-- A step that is not faithful spoils the run. -/
theorem spoilt_of_unfaithful [LinearOrder κ] {r r' : State κ ν} {l : Label κ ν} (h : Kept r)
    (hunfaithful : ¬ Faithful r l) (hstep : step r l = some r') : Spoilt r' := by
  have hmove := move_of_step hstep
  -- it starts before `complete`
  have hnone : r.completions = [] := by
    refine h.uncompleted ?_
    rcases phase_of_unfaithful hunfaithful with ⟨event, before, hphase⟩ | ⟨error, event, hphase⟩ <;> rw [hphase] <;> rfl
  rcases h.reduced with hlost | hreduced
  · exact spoilt_move (.inr ⟨.inr hlost, hnone⟩) hmove
  · rcases completion_of_move hreduced hmove with heq | ⟨c, heq, hiff⟩
    · refine .inr ⟨?_, heq.trans hnone⟩
      cases l with
      | send fresh => exact .inr (lost_of_unfaithful hunfaithful hstep)
      | fails failure => exact .inl (raised_of_unfaithful hunfaithful hmove heq)
      | _ => exact absurd trivial hunfaithful
    · exact .inl ⟨c, by simp [heq], fun hc => hunfaithful (hiff.mp hc)⟩

/-- In every run that has come to `complete`, whatever commands fail and wherever it is cancelled: `complete` is
given what the stream replays to exactly when every patch that is stored is valid, no publish of an event that changes
the snapshot fails before its `XADD`, and the start is stored when its second publish fails. -/
theorem completions_match_iff_faithful [LinearOrder κ] (model : Model ν) (time : ℕ) (labels : List (Label κ ν))
    {r : State κ ν} (hexec : Machine.exec step (State.init model time) labels = some r)
    (hcompleted : r.completions ≠ []) :
    (∀ c ∈ r.completions, c.Matches) ↔ Machine.AllSteps step Faithful (State.init model time) labels := by
  constructor
  -- a step that is not faithful spoils the run for good, and this one is not spoilt
  · intro hmatches
    have hgood : ¬ Spoilt r := by
      rintro (⟨c, hc, hne⟩ | ⟨-, hnone⟩)
      · exact hne (hmatches c hc)
      · exact hcompleted hnone
    refine Machine.allSteps_of_good_end (fun s l s' h hstep => kept_step h hstep)
      (fun s l s' h hstep => spoilt_move h (move_of_step hstep)) ?_ (kept_init model time) hexec hgood
    intro s l s' h hstep hgood
    by_contra hunfaithful
    exact hgood (spoilt_of_unfaithful h hunfaithful hstep)
  -- along faithful steps every call of `complete` is given what the stream replays to
  · intro hfaithful
    refine Machine.exec_invariant_of_allSteps
      (p := fun s : State κ ν => Fits s ∧ Reduced s ∧ ∀ c ∈ s.completions, c.Matches) ?_
        ⟨(kept_init model time).fits, reduced_init model time, by simp [State.init]⟩
      hfaithful hexec |>.2.2
    rintro s l s' ⟨hfits, hreduced, hmatches⟩ hfaithful hstep
    have hmove := move_of_step hstep
    refine ⟨fits_move hfits hmove, reduced_move hfits hreduced (fun _ _ => hfaithful) hmove, fun c hc => ?_⟩
    rcases completion_of_move hreduced hmove with heq | ⟨d, heq, hiff⟩ <;> rw [heq] at hc
    · exact hmatches c hc
    · rcases List.mem_append.mp hc with hc | hc
      · exact hmatches c hc
      · rw [List.mem_singleton.mp hc]
        exact hiff.mpr hfaithful

/-- `stream` yields a title, and the publish fails at the command `sent` of its three. -/
def failsChat (sent : ℕ) : List (Label ℕ ℕ) :=
  startsChat ++ [.yields (.patch (titleEvent 2)) silentError] ++ ([.send 2, .send 3, .send 3].take sent) ++
    [.fails silentError]

/-- Where the `XADD` fails, `complete` is given a title that no event has. -/
theorem failsChat_spoils_snapshot :
    ¬ ∀ (model : Model ℕ) (labels : List (Label ℕ ℕ)) (r : State ℕ ℕ),
      Machine.exec step (State.init model 0) labels = some r → ∀ c ∈ r.completions, c.Matches := by
  intro h
  have hrun : (Machine.exec step (State.init chatModel 0) (failsChat 0)).map (fun r =>
      r.completions.map fun c =>
        (c.stored, (DocTree.probe (.obj c.snapshot) [.key "meta", .key "title"]).isSome)) =
      some [([startEvent chatModel.doc 1], true)] := by
    decide +kernel
  obtain ⟨r, hr, hcompletions⟩ := Option.map_eq_some_iff.mp hrun
  obtain ⟨c, hc, hfacts⟩ := List.mem_map.mp (by rw [hcompletions]; exact List.mem_singleton.mpr rfl)
  obtain ⟨hstored, htitle⟩ := Prod.mk.inj hfacts
  obtain ⟨snapshot, hreplay, hsame⟩ := h chatModel (failsChat 0) r hr c hc
  have hempty : replay [startEvent chatModel.doc 1] = some chatModel.doc := replay_start chatModel 1 (.inl rfl)
  obtain rfl : chatModel.doc = snapshot := Option.some.inj (hempty.symm.trans (hstored ▸ hreplay))
  rw [hsame] at htitle
  exact absurd htitle (by decide +kernel)

/-- Where the `EXPIRE` after it fails, the title is stored. -/
theorem completions_match_iff_faithful_failsChat : ∃ r : State ℕ ℕ,
    Machine.exec step (State.init chatModel 0) (failsChat 1) = some r ∧ r.completions ≠ [] ∧
      ((∀ c ∈ r.completions, c.Matches) ↔ Machine.AllSteps step Faithful (State.init chatModel 0) (failsChat 1)) := by
  have hrun : (Machine.exec step (State.init chatModel 0) (failsChat 1)).map (fun r : State ℕ ℕ =>
      r.completions.length) = some 1 := by
    decide +kernel
  obtain ⟨r, hr, hlength⟩ := Option.map_eq_some_iff.mp hrun
  have hcompleted : r.completions ≠ [] := fun hnil => by simp [hnil] at hlength
  exact ⟨r, hr, hcompleted, completions_match_iff_faithful chatModel 0 (failsChat 1) hr hcompleted⟩

end AgentUE.PythonRunner.Run
