import AgentUE.PythonRunner.Run

/-!
# Python runner: the stream when commands may fail

Reference: `_publish_start_best_effort`, `_finalize` and `_publish_terminal` in
`sdks/python/src/agentue/runner/runner.py`. Whatever command fails, and wherever the run is cancelled, the stream
is made of events that are no errors and no ends, at most one error and at most one end; the terminal events that
`_finalize` returns say which of the two may be missing.
-/

namespace AgentUE.PythonRunner.Run

open Data
open Live (TerminalEvent)
open Lifecycle (CompletionSource)

variable {κ ν : Type}

/-- Neither an error nor an end. -/
def Plain (events : List (Envelope ν)) : Prop := ∀ event ∈ events, event.op ≠ .error ∧ event.op ≠ .end_

/-- At most one event, of the operation `op`. -/
def AtMostOne (op : PatchOp) (events : List (Envelope ν)) : Prop :=
  events = [] ∨ ∃ event, events = [event] ∧ event.op = op

/-- Plain events, at most one error, at most one end. -/
def Graded (events : List (Envelope ν)) : Prop :=
  ∃ base errors ends, events = base ++ errors ++ ends ∧ Plain base ∧ AtMostOne .error errors ∧ AtMostOne .end_ ends

/-- The stream of a run with the terminal events of its result: where the error is persisted the end may be
missing, and where it is not the end is missing and the error may be. -/
inductive Closed (events : List (Envelope ν)) (terminal : List (TerminalEvent ν)) : Prop
  | ended {base errors ends : List (Envelope ν)} {last : Envelope ν} {persisted : Bool} :
    events = base ++ errors ++ ends → terminal = errors.map (⟨·, true⟩) ++ [⟨last, persisted⟩] → Plain base →
    AtMostOne .error errors → last.op = .end_ → (ends = [last] ∨ ends = [] ∧ persisted = false) →
    Closed events terminal
  | lost {base errors : List (Envelope ν)} {error last : Envelope ν} :
    events = base ++ errors → terminal = [⟨error, false⟩, ⟨last, false⟩] → Plain base →
    (errors = [error] ∨ errors = []) → error.op = .error → last.op = .end_ → Closed events terminal

theorem Plain.graded {events : List (Envelope ν)} (h : Plain events) : Graded events :=
  ⟨events, [], [], by simp, h, .inl rfl, .inl rfl⟩

theorem Plain.concat {events : List (Envelope ν)} {event : Envelope ν} (h : Plain events) (herror : event.op ≠ .error)
    (hend : event.op ≠ .end_) : Plain (events ++ [event]) := by
  intro e he
  rcases List.mem_append.mp he with he | he
  · exact h e he
  · rw [List.mem_singleton.mp he]
    exact ⟨herror, hend⟩

theorem plain_of_starts {events : List (Envelope ν)} (h : ∀ event ∈ events, event.op = .start) : Plain events :=
  fun event hevent => by simp [h event hevent]

theorem Closed.graded {events : List (Envelope ν)} {terminal : List (TerminalEvent ν)} (h : Closed events terminal) :
    Graded events := by
  cases h with
  | @ended base errors ends last persisted hevents _ hbase herrors hlast hends =>
    refine ⟨base, errors, ends, hevents, hbase, herrors, ?_⟩
    rcases hends with rfl | ⟨rfl, -⟩
    · exact .inr ⟨last, rfl, hlast⟩
    · exact .inl rfl
  | @lost base errors error last hevents _ hbase herrors herror =>
    refine ⟨base, errors, [], by simp [hevents], hbase, ?_, .inl rfl⟩
    rcases herrors with rfl | rfl
    · exact .inr ⟨error, rfl, herror⟩
    · exact .inl rfl

/-- A persisted end is in the stream. -/
theorem Closed.exists_end {events : List (Envelope ν)} {terminal : List (TerminalEvent ν)}
    (h : Closed events terminal)
    {t : TerminalEvent ν} (ht : t ∈ terminal) (hop : t.data.op = .end_) (hpersisted : t.persisted = true) :
    ∃ event ∈ events, event.op = .end_ := by
  cases h with
  | @ended base errors ends last persisted hevents hterminal _ herrors _ hends =>
    subst hterminal
    rcases List.mem_append.mp ht with ht | ht
    · obtain ⟨error, herror, rfl⟩ := List.mem_map.mp ht
      rcases herrors with rfl | ⟨_, rfl, herrorOp⟩
      · simp at herror
      · obtain rfl := List.mem_singleton.mp herror
        simp [herrorOp] at hop
    · obtain rfl := List.mem_singleton.mp ht
      rcases hends with rfl | ⟨-, hfalse⟩
      · exact ⟨last, by simp [hevents], hop⟩
      · simp [hfalse] at hpersisted
  | lost _ hterminal =>
    subst hterminal
    simp only [List.mem_cons, List.not_mem_nil, or_false] at ht
    rcases ht with rfl | rfl <;> simp at hpersisted

theorem Closed.op {events : List (Envelope ν)} {terminal : List (TerminalEvent ν)} (h : Closed events terminal)
    {t : TerminalEvent ν} (ht : t ∈ terminal) : t.data.op = .error ∨ t.data.op = .end_ := by
  cases h with
  | ended _ hterminal _ herrors hlast =>
    subst hterminal
    rcases List.mem_append.mp ht with ht | ht
    · obtain ⟨error, herror, rfl⟩ := List.mem_map.mp ht
      rcases herrors with rfl | ⟨_, rfl, herrorOp⟩
      · simp at herror
      · obtain rfl := List.mem_singleton.mp herror
        exact .inl herrorOp
    · obtain rfl := List.mem_singleton.mp ht
      exact .inr hlast
  | lost _ hterminal _ _ herror hlast =>
    subst hterminal
    simp only [List.mem_cons, List.not_mem_nil, or_false] at ht
    rcases ht with rfl | rfl
    · exact .inl herror
    · exact .inr hlast

/-! ## The run -/

/-- The stream in every phase. -/
def Staged (r : State κ ν) : Prop :=
  match r.phase with
  | .preStart => r.log = [] ∧ r.context.publishedSeq = 0
  | .starting event => event.op = .start ∧ r.context.publishedSeq = 0 ∧ ∃ seq, r.Writing event [] seq
  | .restarting _ event => event.op = .start ∧ ∃ base seq, r.Writing event base seq ∧ ∀ e ∈ base, e.op = .start
  | .spawned | .preparing | .streaming | .completing _ _ => Plain r.log
  | .publishing event _ => (event.op = .set ∨ event.op = .append) ∧ ∃ base seq, r.Writing event base seq ∧ Plain base
  | .publishingError _ event => event.op = .error ∧ ∃ base seq, r.Writing event base seq ∧ Plain base
  | .publishingEnd _ terminal event => event.op = .end_ ∧ ∃ base errors seq, r.Writing event (base ++ errors) seq ∧
      Plain base ∧ AtMostOne .error errors ∧ terminal = errors.map (⟨·, true⟩)
  | .marking _ terminal | .returned terminal => Closed r.log terminal
  | .raised => Graded r.log

/-- The start has been published, or given up. -/
def Phase.begun : Phase ν → Bool
  | .preStart | .starting _ | .restarting _ _ => false
  | _ => true

theorem plain_of_writing {event : Envelope ν} {base : List (Envelope ν)} {seq : ℕ} {r : State κ ν}
    (h : r.Writing event base seq) (hbase : Plain base) (herror : event.op ≠ .error) (hend : event.op ≠ .end_) :
    Plain r.log := by
  rcases h.log_eq with hlog | hlog <;> rw [hlog]
  · exact hbase
  · exact hbase.concat herror hend

theorem Staged.graded {r : State κ ν} (h : Staged r) : Graded r.log := by
  unfold Staged at h
  cases hphase : r.phase <;> simp only [hphase] at h
  case preStart => rw [h.1]; exact Plain.graded (by simp [Plain])
  case starting =>
    obtain ⟨hop, -, seq, hwriting⟩ := h
    exact (plain_of_writing hwriting (by simp [Plain]) (by simp [hop]) (by simp [hop])).graded
  case restarting =>
    obtain ⟨hop, base, seq, hwriting, hbase⟩ := h
    exact (plain_of_writing hwriting (plain_of_starts hbase) (by simp [hop]) (by simp [hop])).graded
  case spawned | preparing | streaming | completing => exact h.graded
  case publishing =>
    obtain ⟨hop, base, seq, hwriting, hbase⟩ := h
    exact (plain_of_writing hwriting hbase (by rcases hop with hop | hop <;> simp [hop])
      (by rcases hop with hop | hop <;> simp [hop])).graded
  case publishingError event =>
    obtain ⟨hop, base, seq, hwriting, hbase⟩ := h
    rcases hwriting.log_eq with hlog | hlog <;> rw [hlog]
    · exact hbase.graded
    · exact ⟨base, [event], [], by simp, hbase, .inr ⟨event, rfl, hop⟩, .inl rfl⟩
  case publishingEnd outcome terminal event =>
    obtain ⟨hop, base, errors, seq, hwriting, hbase, herrors, -⟩ := h
    rcases hwriting.log_eq with hlog | hlog <;> rw [hlog]
    · exact ⟨base, errors, [], by simp, hbase, herrors, .inl rfl⟩
    · exact ⟨base, errors, [event], rfl, hbase, herrors, .inr ⟨event, rfl, hop⟩⟩
  case marking => exact h.graded
  case returned => exact h.graded
  case raised => exact h

theorem Staged.closed {r : State κ ν} (h : Staged r) {terminal : List (TerminalEvent ν)}
    (hphase : r.phase = .returned terminal) : Closed r.log terminal := by
  simpa only [Staged, hphase] using h

theorem staged_init (model : Model ν) (time : ℕ) : Staged (State.init model time : State κ ν) := ⟨rfl, rfl⟩

theorem staged_sent {r : State κ ν} (hfits : Fits r) (h : Staged r) {command : Command ν} {rest : List (Command ν)}
    (hpending : r.pending = command :: rest) (fresh : κ) : Staged (r.sent fresh command rest) := by
  have hnil := hfits
  unfold Fits at hnil
  unfold Staged at h ⊢
  cases hphase : r.phase <;> simp only [hphase, hpending, State.sent, reduceCtorEq] at hnil h ⊢
  case starting =>
    obtain ⟨hop, hzero, seq, hwriting⟩ := h
    exact ⟨hop, hzero, seq, hwriting.sent hpending fresh⟩
  case restarting =>
    obtain ⟨hop, base, seq, hwriting, hbase⟩ := h
    exact ⟨hop, base, seq, hwriting.sent hpending fresh, hbase⟩
  case publishing | publishingError =>
    obtain ⟨hop, base, seq, hwriting, hbase⟩ := h
    exact ⟨hop, base, seq, hwriting.sent hpending fresh, hbase⟩
  case publishingEnd =>
    obtain ⟨hop, base, errors, seq, hwriting, hrest⟩ := h
    exact ⟨hop, base, errors, seq, hwriting.sent hpending fresh, hrest⟩
  case marking =>
    rcases hfits.marks hphase hpending with rfl | rfl | rfl <;> exact h

theorem plain_of_business {r : State κ ν} (h : Staged r) (hbusiness : r.phase.inBusiness = true) : Plain r.log := by
  unfold Staged at h
  cases hphase : r.phase <;> simp only [hphase, Phase.inBusiness, reduceCtorEq] at h hbusiness
  case preparing | streaming => exact h
  case publishing =>
    obtain ⟨hop, base, seq, hwriting, hbase⟩ := h
    exact plain_of_writing hwriting hbase (by rcases hop with hop | hop <;> simp [hop])
      (by rcases hop with hop | hop <;> simp [hop])

section

variable [DecidableEq ν]

theorem staged_move {r r' : State κ ν} {l : Label κ ν} (hfits : Fits r) (h : Staged r) (hmove : Move r l r') :
    Staged r' := by
  have hgraded := h.graded
  cases hmove with
  | @idle context verdict closing _ _ _ _ hpublished =>
    unfold Staged at h ⊢
    dsimp only
    rw [hpublished]
    exact h
  | send _ hpending => exact staged_sent hfits h hpending _
  | start hphase =>
    simp only [Staged, hphase] at h
    exact ⟨rfl, h.2, _, .inl ⟨rfl, h.1, rfl⟩⟩
  | restart hphase =>
    refine ⟨rfl, r.log, _, .inl ⟨rfl, rfl, rfl⟩, ?_⟩
    rcases hphase with hphase | ⟨event, hphase⟩ <;> simp only [Staged, hphase] at h
    · simp [h.1]
    · obtain ⟨hop, -, seq, hwriting⟩ := h
      rcases hwriting.log_eq with hlog | hlog <;> simp [hlog, hop]
  | failStarted hphase hne =>
    -- before the start has been published nothing has
    rcases hphase with hphase | ⟨event, hphase⟩ <;> simp only [Staged, hphase] at h
    · exact absurd h.2 hne
    · exact absurd h.2.1 hne
  | started hphase =>
    simp only [Staged, hphase] at h
    obtain ⟨hop, -, seq, hwriting⟩ := h
    exact plain_of_writing hwriting (by simp [Plain]) (by simp [hop]) (by simp [hop])
  | restarted _ hphase | giveUpStart _ _ hphase =>
    simp only [Staged, hphase] at h
    obtain ⟨hop, base, seq, hwriting, hbase⟩ := h
    show Plain r.log
    exact plain_of_writing hwriting (plain_of_starts hbase) (by simp [hop]) (by simp [hop])
  | begin hphase | prepared hphase =>
    simp only [Staged, hphase] at h
    exact h
  | accept hphase hop =>
    simp only [Staged, hphase] at h
    exact ⟨hop, r.log, _, .inl ⟨rfl, rfl, rfl⟩, h⟩
  | resumed _ hphase =>
    simp only [Staged, hphase] at h
    obtain ⟨hop, base, seq, hwriting, hbase⟩ := h
    exact plain_of_writing hwriting hbase (by rcases hop with hop | hop <;> simp [hop])
      (by rcases hop with hop | hop <;> simp [hop])
  | endBusiness hbusiness =>
    show Plain r.log
    exact plain_of_business h hbusiness
  | refused hphase =>
    simp only [Staged, hphase] at h
    exact h
  | finalize _ hphase =>
    simp only [Staged, hphase] at h
    unfold State.finalize State.beginEnd
    dsimp only
    split
    -- no error, an error, or one that cannot be encoded
    · exact ⟨rfl, r.log, [], _, .inl ⟨rfl, by simp [State.log], rfl⟩, h, .inl rfl, rfl⟩
    · split
      · exact ⟨rfl, r.log, _, .inl ⟨rfl, rfl, rfl⟩, h⟩
      · exact .lost (show r.log = r.log ++ [] by rw [List.append_nil]) rfl h (.inr rfl) rfl rfl
  | @errorStored outcome event hphase hpending =>
    simp only [Staged, hphase] at h
    obtain ⟨hop, base, seq, hwriting, hbase⟩ := h
    refine ⟨rfl, base, [event], _, .inl ⟨rfl, ?_, rfl⟩, hbase, .inr ⟨event, rfl, hop⟩, rfl⟩
    exact (hwriting.of_pending_nil hpending).1
  -- the publish has failed before its `XADD` or behind it
  | @errorLost outcome event hphase =>
    simp only [Staged, hphase] at h
    obtain ⟨hop, base, seq, hwriting, hbase⟩ := h
    rcases hwriting.log_eq with hlog | hlog
    · exact .lost (show r.log = base ++ [] by rw [List.append_nil, hlog]) rfl hbase (.inr rfl) hop rfl
    · exact .lost hlog rfl hbase (.inl rfl) hop rfl
  | @endStored outcome terminal event hphase hpending =>
    simp only [Staged, hphase] at h
    obtain ⟨hop, base, errors, seq, hwriting, hbase, herrors, rfl⟩ := h
    exact .ended (hwriting.of_pending_nil hpending).1 rfl hbase herrors hop (.inl rfl)
  | @endLost outcome terminal event hphase =>
    simp only [Staged, hphase] at h
    obtain ⟨hop, base, errors, seq, hwriting, hbase, herrors, rfl⟩ := h
    rcases hwriting.log_eq with hlog | hlog
    · exact .ended (show r.log = base ++ errors ++ [] by rw [List.append_nil, hlog]) rfl hbase herrors hop
        (.inr ⟨rfl, rfl⟩)
    · exact .ended hlog rfl hbase herrors hop (.inl rfl)
  | @finish outcome terminal hphase =>
    simp only [Staged, hphase] at h
    unfold Staged State.finish
    cases outcome.reraises
    · exact h
    · exact hgraded
  | die => exact hgraded

end

/-! ## The start -/

/-- The second publish of a start fails before its `XADD`, and so has the first. -/
def losesStart (r : State κ ν) : Label κ ν → Bool
  | .fails error => (r.phase matches .restarting _ _) && !error.cancelled && r.log.isEmpty
  | _ => false

/-- The stream begins with a start. -/
def Opened (r : State κ ν) : Prop := ∃ first rest, r.log = first :: rest ∧ first.op = .start

/-- The start has been lost for good. -/
def Startless (r : State κ ν) : Prop := r.phase.begun = true ∧ ∀ event ∈ r.log, event.op ≠ .start

theorem opened_of_starts {r : State κ ν} (hne : r.log ≠ []) (h : ∀ event ∈ r.log, event.op = .start) : Opened r := by
  obtain ⟨first, rest, hlog⟩ := List.exists_cons_of_ne_nil hne
  exact ⟨first, rest, hlog, h first (by rw [hlog]; exact List.mem_cons_self)⟩

theorem starts_of_writing {event : Envelope ν} {base : List (Envelope ν)} {seq : ℕ} {r : State κ ν}
    (h : r.Writing event base seq) (hop : event.op = .start) (hbase : ∀ e ∈ base, e.op = .start) :
    ∀ e ∈ r.log, e.op = .start := by
  intro e he
  rcases h.log_eq with hlog | hlog <;> rw [hlog] at he
  · exact hbase e he
  · rcases List.mem_append.mp he with he | he
    · exact hbase e he
    · rwa [List.mem_singleton.mp he]

/-- What is appended after the start is no start. -/
theorem startless_sent {r : State κ ν} (hfits : Fits r) (hstaged : Staged r) (hbegun : r.phase.begun = true)
    (hnone : ∀ event ∈ r.log, event.op ≠ .start) {command : Command ν} {rest : List (Command ν)}
    (hpending : r.pending = command :: rest) (fresh : κ) :
    ∀ event ∈ (r.sent fresh command rest).log, event.op ≠ .start := by
  have hwriting : ∀ {event : Envelope ν} {base : List (Envelope ν)} {seq : ℕ}, r.Writing event base seq →
      event.op ≠ .start → ∀ e ∈ (r.sent fresh command rest).log, e.op ≠ .start := by
    intro event base seq hwriting hop e he
    have hbase : ∀ e ∈ base, e ∈ r.log := fun e he => by
      rcases hwriting.log_eq with hlog | hlog <;> rw [hlog]
      · exact he
      · exact List.mem_append_left _ he
    rcases (hwriting.sent hpending fresh).log_eq with hlog | hlog <;> rw [hlog] at he
    · exact hnone e (hbase e he)
    · rcases List.mem_append.mp he with he | he
      · exact hnone e (hbase e he)
      · rwa [List.mem_singleton.mp he]
  have hnil := hfits
  unfold Fits at hnil
  unfold Staged at hstaged
  cases hphase : r.phase <;> simp only [hphase, hpending, Phase.begun, reduceCtorEq] at hnil hstaged hbegun
  case publishing =>
    obtain ⟨hop, base, seq, hw, -⟩ := hstaged
    exact hwriting hw (by rcases hop with hop | hop <;> simp [hop])
  case publishingError =>
    obtain ⟨hop, base, seq, hw, -⟩ := hstaged
    exact hwriting hw (by simp [hop])
  case publishingEnd =>
    obtain ⟨hop, base, errors, seq, hw, -⟩ := hstaged
    exact hwriting hw (by simp [hop])
  case marking =>
    rcases hfits.marks hphase hpending with rfl | rfl | rfl <;> exact hnone

section

variable [DecidableEq ν]

/-- The stream only grows. -/
theorem log_move {r r' : State κ ν} {l : Label κ ν} (hmove : Move r l r') : ∃ more, r'.log = r.log ++ more := by
  rcases store_move hmove with hstore | ⟨fresh, command, rest, -, -, rfl⟩
  · exact ⟨[], by rw [State.log, hstore, List.append_nil]; rfl⟩
  · cases command with
    | xadd event => exact ⟨[event], log_sent_xadd ..⟩
    | _ => exact ⟨[], by rw [List.append_nil]; rfl⟩

theorem Opened.move {r r' : State κ ν} {l : Label κ ν} (h : Opened r) (hmove : Move r l r') : Opened r' := by
  obtain ⟨first, rest, hlog, hop⟩ := h
  obtain ⟨more, hmore⟩ := log_move hmove
  exact ⟨first, rest ++ more, by rw [hmore, hlog, List.cons_append], hop⟩

/-- Unless the start is lost, a run that goes on without it has stored it. -/
theorem opened_move {r r' : State κ ν} {l : Label κ ν} (hstaged : Staged r) (hkept : losesStart r l = false)
    (h : r.phase.begun = true → r.phase ≠ .raised → Opened r) (hmove : Move r l r') :
    r'.phase.begun = true → r'.phase ≠ .raised → Opened r' := by
  by_cases hopened : Opened r
  · exact fun _ _ => hopened.move hmove
  intro hbegun hraised
  -- a phase behind the start would have it
  have hnot : r.phase.begun = true → r.phase = .raised := fun hb => by
    by_contra hne
    exact hopened (h hb hne)
  cases hmove with
  | idle => exact absurd (hnot hbegun) hraised
  | send => exact absurd (hnot hbegun) hraised
  | start | restart => simp [State.beginStart, Phase.begun] at hbegun
  | failStarted hphase hne =>
    rcases hphase with hphase | ⟨event, hphase⟩ <;> simp only [Staged, hphase] at hstaged
    · exact absurd hstaged.2 hne
    · exact absurd hstaged.2.1 hne
  | started hphase hpending =>
    simp only [Staged, hphase] at hstaged
    obtain ⟨hop, -, seq, hwriting⟩ := hstaged
    exact ⟨_, [], (hwriting.of_pending_nil hpending).1, hop⟩
  | restarted _ hphase hpending =>
    simp only [Staged, hphase] at hstaged
    obtain ⟨hop, base, seq, hwriting, hbase⟩ := hstaged
    have hlog := (hwriting.of_pending_nil hpending).1
    exact absurd (opened_of_starts (by rw [hlog]; simp) (starts_of_writing hwriting hop hbase)) hopened
  -- with an empty stream this is the loss that is excluded
  | giveUpStart hl hcancelled hphase =>
    simp only [Staged, hphase] at hstaged
    obtain ⟨hop, base, seq, hwriting, hbase⟩ := hstaged
    have hne : r.log ≠ [] := by
      rintro hnil
      simp [hl, losesStart, hphase, hcancelled, hnil] at hkept
    exact absurd (opened_of_starts hne (starts_of_writing hwriting hop hbase)) hopened
  | die => exact absurd rfl hraised
  | begin hphase | prepared hphase | accept hphase | resumed _ hphase | refused hphase | finalize _ hphase
  | errorStored hphase | errorLost hphase | endStored hphase | endLost hphase | finish hphase =>
    simp [hphase, Phase.begun] at hnot
  | endBusiness hbusiness =>
    cases hphase : r.phase <;> simp [hphase, Phase.inBusiness, Phase.begun] at hbusiness hnot

/-- No step goes back before the start. -/
theorem begun_move {r r' : State κ ν} {l : Label κ ν} (h : r.phase.begun = true) (hmove : Move r l r') :
    r'.phase.begun = true := by
  cases hmove with
  | idle => exact h
  | send => exact h
  | start hphase => simp [hphase, Phase.begun] at h
  | restart hphase => rcases hphase with hphase | ⟨event, hphase⟩ <;> simp [hphase, Phase.begun] at h
  | finalize =>
    unfold State.finalize State.beginEnd
    dsimp only
    split
    · rfl
    · split <;> rfl
  | finish =>
    unfold State.finish
    dsimp only
    split_ifs <;> rfl
  | _ => rfl

/-- The result of a run stays. -/
theorem returned_move {r r' : State κ ν} {l : Label κ ν} {terminal : List (TerminalEvent ν)}
    (h : r.phase = .returned terminal) (hmove : Move r l r') : r'.phase = .returned terminal := by
  cases hmove with
  | idle => exact h
  | send => exact h
  | endBusiness hbusiness => simp [h, Phase.inBusiness] at hbusiness
  | die _ hover => simp [h, Phase.isOver] at hover
  | restart hphase | failStarted hphase => simp [h] at hphase
  | start hphase | started hphase | restarted _ hphase | giveUpStart _ _ hphase | begin hphase | prepared hphase
  | accept hphase | resumed _ hphase | refused hphase | finalize _ hphase | errorStored hphase | errorLost hphase
  | endStored hphase | endLost hphase | finish hphase => simp [h] at hphase

/-- A run that has lost its start never has one. -/
theorem startless_move {r r' : State κ ν} {l : Label κ ν} (hfits : Fits r) (hstaged : Staged r) (h : Startless r)
    (hmove : Move r l r') : Startless r' := by
  refine ⟨begun_move h.1 hmove, ?_⟩
  -- only a command appends, and the ones behind the start append no start
  rcases store_move hmove with hstore | ⟨fresh, command, rest, -, hpending, rfl⟩
  · rw [State.log, hstore]
    exact h.2
  · exact startless_sent hfits hstaged h.1 h.2 hpending fresh

/-- The step that loses the start. -/
theorem startless_of_losesStart [LinearOrder κ] {r r' : State κ ν} {l : Label κ ν} (hlost : losesStart r l = true)
    (hstep : step r l = some r') : Startless r' := by
  cases l with simp only [losesStart, reduceCtorEq] at hlost
  | fails error =>
    simp only [step] at hstep
    split_ifs at hstep
    unfold State.fails at hstep
    cases hphase : r.phase <;> simp only [hphase, Bool.false_and, reduceCtorEq] at hlost
    case restarting first event =>
      simp only [Bool.true_and, Bool.and_eq_true, Bool.not_eq_true', List.isEmpty_iff] at hlost
      obtain ⟨hcancelled, hnil⟩ := hlost
      simp only [hphase, hcancelled, Bool.false_eq_true, ↓reduceIte, Option.some.injEq] at hstep
      subst hstep
      have hlog : (r.complete .preStart (some first)).log = [] := hnil
      exact ⟨rfl, by rw [hlog]; simp⟩

end

end AgentUE.PythonRunner.Run
