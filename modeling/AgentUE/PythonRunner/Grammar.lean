import AgentUE.PythonRunner.Run
import Mathlib.Data.List.ReduceOption

/-!
# Python runner: the events of an undisturbed run

Reference: `run`, `_execute`, `_run_business` and `_finalize` in `sdks/python/src/agentue/runner/runner.py`. When
no command fails and nothing is cancelled from outside, the stream of a run that is over is a start, the patches
that were accepted, an error if something went wrong, and an end. Two slips break that: an instance of `PatchEvent` is
not validated before it is stored, and an exception that is false is passed over.
-/

namespace AgentUE.PythonRunner.Run

open Data
open Live (TerminalEvent)
open Lifecycle (CompletionSource)

variable {κ ν : Type}

/-- No command fails, nothing is cancelled from outside, and what is raised has a well-formed text. -/
def Label.undisturbed : Label κ ν → Bool
  | .fails _ | .interrupts _ _ | .abandons => false
  | .raises error | .yields _ error => error.encodable
  | _ => true

/-- A callback raises. -/
def Label.isRaise : Label κ ν → Bool
  | .raises _ => true
  | _ => false

/-- What `stream` yields. -/
def Label.value? : Label κ ν → Option (Yielded ν)
  | .yields value _ => some value
  | _ => none

/-- The values that `stream` has yielded. -/
def values (labels : List (Label κ ν)) : List (Yielded ν) := labels.filterMap Label.value?

/-- The events of some values, valid or not. -/
def events (vs : List (Yielded ν)) : List (Envelope ν) := vs.filterMap Yielded.event?

/-- `complete` runs after an exception that is false. -/
def Phase.passesOver : Phase ν → Bool
  | .completing _ error => error.any fun error => !error.truthy
  | _ => false

theorem values_concat (labels : List (Label κ ν)) (l : Label κ ν) :
    values (labels ++ [l]) = values labels ++ l.value?.toList := by
  unfold values
  rw [List.filterMap_append]
  cases h : l.value? <;> simp [h]

theorem cancels_of_undisturbed {l : Label κ ν} (h : l.undisturbed = true) : l.cancels = false := by
  cases l <;> first | rfl | exact absurd h (by simp [Label.undisturbed])

section Accepted

variable [DecidableEq ν]

/-- A valid set or append event that raises the published number and that the reducer accepts, with the number and
the snapshot after it. -/
def accept (p : ℕ × JsonObject ν) (value : Yielded ν) : Option (ℕ × JsonObject ν) := do
  let event ← value.event?
  if (event.op = .set ∨ event.op = .append) ∧ p.1 < event.seq then
    (Python.applyPatch p.2 event).state?.map fun snapshot => (event.seq, snapshot)
  else none

/-- The longest prefix of the values that is accepted. -/
def accepted (p : ℕ × JsonObject ν) : List (Yielded ν) → List (Envelope ν)
  | [] => []
  | value :: rest =>
    match value.event?, accept p value with
    | some event, some p => event :: accepted p rest
    | _, _ => []

/-- Something went wrong: a callback raised, or a value was refused. -/
def Failed (vs : List (Yielded ν)) (raised : Bool) (data : List (Envelope ν)) : Prop :=
  raised = true ∨ data.length < vs.length

/-- A start, and the accepted prefix of the values after it. -/
structure Story (vs : List (Yielded ν)) (first : Envelope ν) (data : List (Envelope ν)) : Prop where
  startOp : first.op = .start
  accepted : ∃ model, first.model = some model ∧ data = accepted (first.seq, model) vs

/-- What holds once `complete` has been invoked, with the error event if there is one. -/
structure Completed (vs : List (Yielded ν)) (completions : List (Completion ν)) (first : Envelope ν)
    (data : List (Envelope ν)) (error : Option (Envelope ν)) : Prop where
  story : Story vs first data
  errorOp : ∀ event ∈ error, event.op = .error
  once : ∃ c, completions = [c] ∧ c.stored = first :: data

/-- The stream, the calls of `complete` and the status of a run that is over, with an error or without one. -/
structure Written (vs : List (Yielded ν)) (r : State κ ν) (first : Envelope ν) (data : List (Envelope ν))
    (error : Option (Envelope ν)) (last : Envelope ν) : Prop where
  completed : Completed vs r.completions first data error
  log : r.log = first :: data ++ error.toList ++ [last]
  endOp : last.op = .end_
  status : r.store.status = if error.isSome then .failed else .completed

/-- There is an error exactly when something went wrong. -/
structure Finished (vs : List (Yielded ν)) (raised : Bool) (r : State κ ν) (first : Envelope ν)
    (data : List (Envelope ν)) (error : Option (Envelope ν)) (last : Envelope ν) : Prop extends
    Written vs r first data error last where
  failed : error.isSome = true ↔ Failed vs raised data

/-- The event of a value that is published is valid, and `complete` does not return after an exception that is
false. -/
def Regular (r : State κ ν) : Label κ ν → Prop
  | .yields value error => (r.taken value error).isSome = true → value.isValid = true
  | .returns => r.phase.passesOver = false
  | _ => True

instance (r : State κ ν) : ∀ l, Decidable (Regular r l)
  | .yields _ _ => inferInstanceAs (Decidable (_ → _))
  | .returns => inferInstanceAs (Decidable (_ = _))
  | .emits _ | .remodels _ | .raises _ | .send _ | .resumes | .fails _ | .interrupts _ _ | .abandons | .closes =>
    isTrue trivial

/-! ## The accepted prefix -/

theorem accept_eq_some {p p' : ℕ × JsonObject ν} {value : Yielded ν} (h : accept p value = some p') :
    ∃ event, value.event? = some event := by
  obtain ⟨event, hevent, -⟩ := Option.bind_eq_some_iff.mp h
  exact ⟨event, hevent⟩

theorem accepted_of_accept {p q : ℕ × JsonObject ν} {value : Yielded ν} {event : Envelope ν}
    (hevent : value.event? = some event) (h : accept p value = some q) (rest : List (Yielded ν)) :
    accepted p (value :: rest) = event :: accepted q rest := by
  simp only [accepted, hevent, h]

theorem accepted_append {p p' : ℕ × JsonObject ν} {vs : List (Yielded ν)} (h : Machine.exec accept p vs = some p')
    (ws : List (Yielded ν)) : accepted p (vs ++ ws) = events vs ++ accepted p' ws := by
  induction vs generalizing p with
  | nil =>
    obtain rfl := Option.some.inj h
    rfl
  | cons value vs ih =>
    obtain ⟨q, hq, hrest⟩ := Option.bind_eq_some_iff.mp h
    obtain ⟨event, hevent⟩ := accept_eq_some hq
    rw [List.cons_append, accepted_of_accept hevent hq, ih hrest, events, events,
      List.filterMap_cons_some hevent, List.cons_append]

theorem accepted_eq {p p' : ℕ × JsonObject ν} {vs : List (Yielded ν)} (h : Machine.exec accept p vs = some p') :
    accepted p vs = events vs ∧ (accepted p vs).length = vs.length := by
  induction vs generalizing p with
  | nil => exact ⟨rfl, rfl⟩
  | cons value vs ih =>
    obtain ⟨q, hq, hrest⟩ := Option.bind_eq_some_iff.mp h
    obtain ⟨event, hevent⟩ := accept_eq_some hq
    obtain ⟨heq, hlength⟩ := ih hrest
    rw [accepted_of_accept hevent hq]
    exact ⟨by rw [heq, events, events, List.filterMap_cons_some hevent], by simp only [List.length_cons, hlength]⟩

/-- A value that is refused ends the prefix, whatever comes after it. -/
theorem accepted_refused {p p' : ℕ × JsonObject ν} {vs : List (Yielded ν)} {value : Yielded ν}
    (h : Machine.exec accept p vs = some p') (hvalue : accept p' value = none) (ws : List (Yielded ν)) :
    accepted p (vs ++ value :: ws) = events vs := by
  have hnil : accepted p' (value :: ws) = [] := by
    unfold accepted
    rw [hvalue]
    cases value.event? <;> rfl
  rw [accepted_append h, hnil, List.append_nil]

theorem length_accepted_refused {p p' : ℕ × JsonObject ν} {vs : List (Yielded ν)} {value : Yielded ν}
    (h : Machine.exec accept p vs = some p') : (events vs).length < (vs ++ [value]).length := by
  obtain ⟨heq, hlength⟩ := accepted_eq h
  rw [← heq, hlength, List.length_append, List.length_singleton]
  exact Nat.lt_succ_self _

/-- The accepted prefix is determined by the values and the start. -/
theorem Story.data_eq {vs : List (Yielded ν)} {first : Envelope ν} {data data' : List (Envelope ν)}
    (h : Story vs first data) (h' : Story vs first data') : data = data' := by
  obtain ⟨model, hmodel, rfl⟩ := h.accepted
  obtain ⟨model', hmodel', rfl⟩ := h'.accepted
  obtain rfl : model = model' := Option.some.inj (hmodel.symm.trans hmodel')
  rfl

/-! ## What a value comes to -/

theorem accept_of_event {value : Yielded ν} {event : Envelope ν} (h : value.event? = some event)
    (p : ℕ × JsonObject ν) : accept p value =
      if (event.op = .set ∨ event.op = .append) ∧ p.1 < event.seq then
        (Python.applyPatch p.2 event).state?.map fun snapshot => (event.seq, snapshot)
      else none := by
  simp only [accept, h, Option.bind_eq_bind, Option.bind_some]

/-- What is not coerced is not valid. -/
theorem accept_of_coercePatch_error {error raised : Raised} {value : Yielded ν}
    (h : coercePatch error value = .error raised) (p : ℕ × JsonObject ν) :
    raised = error ∧ accept p value = none := by
  cases value with
  | patch event =>
    simp only [coercePatch] at h
    split at h
    · rename_i r hvalid
      refine ⟨(Except.error.inj h).symm, ?_⟩
      rw [accept_of_event rfl, Python.applyPatch, hvalid]
      simp
    · simp at h
  | made event => simp [coercePatch] at h
  | other => exact ⟨(Except.error.inj h).symm, rfl⟩

omit [DecidableEq ν] in
theorem encodable_of_checkPatch_error {seq : ℕ} {event : Envelope ν} {raised : Raised}
    (h : checkPatch seq event = .error raised) : raised.encodable = true := by
  unfold checkPatch check at h
  split_ifs at h <;> simp only [bind, Except.bind, Except.error.injEq, reduceCtorEq] at h <;> subst h <;> rfl

/-! ## The run -/

/-- An error is stored where something went wrong; if that has not been heeded, it is not. -/
structure Heeded (heeded : Bool) (failed : Prop) (error : Option (Envelope ν)) : Prop where
  error_iff : error.isSome = true ↔ failed ∧ heeded = true
  failed_of_not : heeded = false → failed

/-- The run in every phase, after the values `vs` have been yielded; `heeded` says whether no exception has been passed
over. -/
def Told (heeded : Bool) (vs : List (Yielded ν)) (raised : Bool) (r : State κ ν) : Prop :=
  match r.phase with
  | .preStart => heeded = true ∧ vs = [] ∧ raised = false ∧ r.completions = [] ∧ r.context.publishedSeq = 0 ∧
      r.log = []
  | .starting event => heeded = true ∧ vs = [] ∧ raised = false ∧ r.completions = [] ∧
      ∃ (model : Model ν) (n seq : ℕ),
        event = startEvent model.doc n ∧ r.context.snapshot = model.doc ∧ r.Writing event [] seq
  | .restarting error event => heeded = true ∧ vs = [] ∧ raised = true ∧ r.completions = [] ∧
      error.encodable = true ∧ ∃ (model : Model ν) (n seq : ℕ), event = startEvent model.doc n ∧
        r.Writing event [] seq
  | .spawned | .preparing | .streaming => heeded = true ∧ raised = false ∧ r.completions = [] ∧ ∃ first model,
      first.op = .start ∧ first.model = some model ∧ r.log = first :: events vs ∧
      Machine.exec accept (first.seq, model) vs = some (r.context.publishedSeq, r.context.snapshot)
  | .publishing event _ => heeded = true ∧ raised = false ∧ r.completions = [] ∧ ∃ first model base seq,
      first.op = .start ∧ first.model = some model ∧ base ++ [event] = events vs ∧
      Machine.exec accept (first.seq, model) vs = some (event.seq, r.context.snapshot) ∧
      r.Writing event (first :: base) seq
  | .completing _ error => heeded = true ∧ (∀ e ∈ error, e.encodable = true) ∧ ∃ first data, Story vs first data ∧
      r.log = first :: data ∧ (error.isSome = true ↔ Failed vs raised data) ∧
      ∃ c, r.completions = [c] ∧ c.stored = first :: data
  | .publishingError outcome event => outcome.error.isSome = true ∧ ∃ first data seq,
      Completed vs r.completions first data (some event) ∧ Heeded heeded (Failed vs raised data) (some event) ∧
      r.Writing event (first :: data) seq
  | .publishingEnd outcome _ event => event.op = .end_ ∧ ∃ first data error seq,
      outcome.error.isSome = error.isSome ∧ Completed vs r.completions first data error ∧
      Heeded heeded (Failed vs raised data) error ∧ r.Writing event (first :: data ++ error.toList) seq
  -- the status is the first of the three commands
  | .marking outcome _ => ∃ first data error last, outcome.error.isSome = error.isSome ∧
      Completed vs r.completions first data error ∧ Heeded heeded (Failed vs raised data) error ∧ last.op = .end_ ∧
        r.log = first :: data ++ error.toList ++ [last] ∧
      (r.pending = markTerminal outcome.status ∨ r.store.status = outcome.status)
  | .returned _ | .raised => ∃ first data error last, Written vs r first data error last ∧
      Heeded heeded (Failed vs raised data) error

theorem told_sent {heeded : Bool} {vs : List (Yielded ν)} {raised : Bool} {r : State κ ν} (hfits : Fits r)
    (h : Told heeded vs raised r) {command : Command ν} {rest : List (Command ν)}
    (hpending : r.pending = command :: rest) (fresh : κ) : Told heeded vs raised (r.sent fresh command rest) := by
  have hnil := hfits
  unfold Fits at hnil
  unfold Told at h ⊢
  cases hphase : r.phase <;> simp only [hphase, hpending, State.sent, reduceCtorEq] at hnil h ⊢
  case starting =>
    obtain ⟨hheeded, hvs, hraised, hnone, model, n, seq, hevent, hsnapshot, hwriting⟩ := h
    exact ⟨hheeded, hvs, hraised, hnone, model, n, seq, hevent, hsnapshot, hwriting.sent hpending fresh⟩
  case restarting =>
    obtain ⟨hheeded, hvs, hraised, hnone, hencodable, model, n, seq, hevent, hwriting⟩ := h
    exact ⟨hheeded, hvs, hraised, hnone, hencodable, model, n, seq, hevent, hwriting.sent hpending fresh⟩
  case publishing =>
    obtain ⟨hheeded, hraised, hnone, first, model, base, seq, hop, hmodel, hbase, hexec, hwriting⟩ := h
    exact ⟨hheeded, hraised, hnone, first, model, base, seq, hop, hmodel, hbase, hexec,
      hwriting.sent hpending fresh⟩
  case publishingError =>
    obtain ⟨hsome, first, data, seq, hcompleted, hheeded, hwriting⟩ := h
    exact ⟨hsome, first, data, seq, hcompleted, hheeded, hwriting.sent hpending fresh⟩
  case publishingEnd =>
    obtain ⟨hop, first, data, error, seq, hsome, hcompleted, hheeded, hwriting⟩ := h
    exact ⟨hop, first, data, error, seq, hsome, hcompleted, hheeded, hwriting.sent hpending fresh⟩
  case marking outcome terminal =>
    obtain ⟨first, data, error, last, hsome, hcompleted, hheeded, hop, hlog, hmark⟩ := h
    refine ⟨first, data, error, last, hsome, hcompleted, hheeded, hop, ?_, ?_⟩
    -- no command of `mark_terminal` touches the stream, and the first one writes the status
    · rcases hfits.marks hphase hpending with rfl | rfl | rfl <;> exact hlog
    · rcases hmark with hmark | hmark
      · obtain ⟨rfl, -⟩ : .hsetStatus outcome.status = command ∧ _ = rest := by
          simpa [markTerminal, eq_comm] using hmark
        exact .inr rfl
      · rcases hfits.marks hphase hpending with rfl | rfl | rfl
        · exact .inr rfl
        · exact .inr hmark
        · exact .inr hmark

/-- `complete` is invoked. -/
theorem told_complete {vs : List (Yielded ν)} {raised : Bool} {r : State κ ν} {first : Envelope ν}
    {data : List (Envelope ν)} (hstory : Story vs first data) (hlog : r.log = first :: data)
    (hnone : r.completions = [])
    {error : Option Raised} (hencodable : ∀ e ∈ error, e.encodable = true)
    (hfailed : error.isSome = true ↔ Failed vs raised data) (source : CompletionSource) :
    Told true vs raised (r.complete source error) :=
  ⟨rfl, hencodable, first, data, hstory, hlog, hfailed, _, by rw [State.complete, hnone]; rfl, hlog⟩

omit [DecidableEq ν] in
/-- Without a verdict the end of the business invokes `complete` with its own exception. -/
theorem endBusiness_of_none {r : State κ ν} (h : r.verdict = none) (error : Option Raised) :
    ∃ source, r.endBusiness error = r.complete source error := by
  unfold State.endBusiness
  rw [h]
  cases error with
  | none => exact ⟨_, rfl⟩
  | some error =>
    cases hcancelled : error.cancelled
    · exact ⟨.execute, by simp [hcancelled]⟩
    · exact ⟨if r.closing then .shutdown else .cancelled, by simp [hcancelled]⟩

/-- A value is published, and then it is accepted if it is valid; or it is refused with an exception, and then the
reducer may have left another snapshot. -/
theorem yielded_cases {r : State κ ν} (hverdict : r.verdict = none) (value : Yielded ν) {error : Raised}
    (hencodable : error.encodable = true) :
    (∃ event snapshot, value.event? = some event ∧ (event.op = .set ∨ event.op = .append) ∧
      (r.taken value error).isSome = true ∧
      (if value.isValid then accept (r.context.publishedSeq, r.context.snapshot) value = some (event.seq, snapshot)
        else accept (r.context.publishedSeq, r.context.snapshot) value = none) ∧
      r.yielded value error = { r with
        phase := .publishing event r.context.snapshot
        context := { r.context with snapshot := snapshot }
        pending := publish event }) ∨
    (accept (r.context.publishedSeq, r.context.snapshot) value = none ∧ (r.taken value error).isSome = false ∧
      ∃ raised snapshot source, raised.encodable = true ∧
      r.yielded value error = { r with context := { r.context with snapshot := snapshot } }.complete source
        (some raised)) := by
  have hrefused : ∀ (raised : Raised) (snapshot : JsonObject ν), raised.encodable = true → ∃ raised' snapshot' source,
      raised'.encodable = true ∧ { r with context := { r.context with snapshot := snapshot } }.endBusiness
        (some raised) =
        { r with context := { r.context with snapshot := snapshot' } }.complete source (some raised') := by
    intro raised snapshot hraised
    obtain ⟨source, heq⟩ := endBusiness_of_none
      (r := { r with context := { r.context with snapshot := snapshot } }) hverdict (some raised)
    exact ⟨raised, snapshot, source, hraised, heq⟩
  cases hcoerce : coercePatch error value with
  | error raised =>
    obtain ⟨rfl, haccept⟩ := accept_of_coercePatch_error hcoerce (r.context.publishedSeq, r.context.snapshot)
    refine .inr ⟨haccept, by rw [State.taken, hcoerce]; rfl, ?_⟩
    rw [State.yielded, hcoerce]
    exact hrefused raised _ hencodable
  | ok event =>
    have hevent := event_of_coercePatch hcoerce
    have haccept := accept_of_event hevent (r.context.publishedSeq, r.context.snapshot)
    cases hcheck : checkPatch r.context.publishedSeq event with
    | error raised =>
      have hnot : ¬ ((event.op = .set ∨ event.op = .append) ∧ r.context.publishedSeq < event.seq) := by
        rw [← checkPatch_eq_ok, hcheck]
        simp
      refine .inr ⟨by rw [haccept, if_neg hnot], by simp [State.taken, hcoerce, hcheck, Except.isOk, Except.toBool], ?_⟩
      simp only [State.yielded, hcoerce, hcheck]
      exact hrefused raised _ (encodable_of_checkPatch_error hcheck)
    | ok =>
      obtain ⟨hop, hseq⟩ := checkPatch_eq_ok.mp hcheck
      rw [if_pos ⟨hop, hseq⟩] at haccept
      cases happly : Python.applyEvent r.context.snapshot event with
      | raised _ snapshot =>
        refine .inr ⟨?_, by simp [State.taken, hcoerce, hcheck, happly], ?_⟩
        · rw [haccept, Python.applyPatch]
          cases Python.validateOperation event <;> simp [happly]
        · simp only [State.yielded, hcoerce, hcheck, happly]
          exact hrefused error snapshot hencodable
      | returned snapshot =>
        refine .inl ⟨event, snapshot, hevent, hop, by simp [State.taken, hcoerce, hcheck, happly, Except.isOk,
          Except.toBool], ?_, by simp only [State.yielded, hcoerce, hcheck, happly]⟩
        rw [haccept, Yielded.isValid, hevent, Python.applyPatch]
        cases hvalid : Python.validateOperation event <;> simp [hvalid, happly, Except.isOk, Except.toBool]

/-- `complete` has returned or raised. -/
theorem told_finalize {heeded : Bool} {vs : List (Yielded ν)} {raised : Bool} {r : State κ ν} {first : Envelope ν}
    {data : List (Envelope ν)} (hstory : Story vs first data) (hlog : r.log = first :: data)
    (honce : ∃ c, r.completions = [c] ∧ c.stored = first :: data) {outcome : Outcome}
    (hencodable : ∀ e ∈ outcome.error, e.encodable = true)
    (hfailed : outcome.error.isSome = true ↔ Failed vs raised data ∧ heeded = true)
    (hpassed : heeded = false → Failed vs raised data) : Told heeded vs raised (r.finalize outcome) := by
  unfold State.finalize
  cases herror : outcome.error with
  | none =>
    rw [herror] at hfailed
    refine ⟨rfl, first, data, none, r.store.lastSeq, by rw [herror]; rfl, ⟨hstory, by simp, honce⟩,
      ⟨hfailed, hpassed⟩, .inl ⟨rfl, ?_, rfl⟩⟩
    rw [Option.toList_none, List.append_nil]
    exact hlog
  | some error =>
    dsimp only
    rw [if_pos (hencodable error herror)]
    rw [herror] at hfailed
    refine ⟨by rw [herror]; rfl, first, data, r.store.lastSeq, ⟨hstory, ?_, honce⟩, ⟨hfailed, hpassed⟩,
      .inl ⟨rfl, hlog, rfl⟩⟩
    rintro event ⟨⟩
    rfl

/-- A false exception is passed over where `complete` returns. -/
theorem told_returns {heeded : Bool} {vs : List (Yielded ν)} {raised : Bool} {r r' : State κ ν}
    (hverdict : r.verdict = none) (h : Told heeded vs raised r) (hstep : r.returns = some r') :
    Told (heeded && !r.phase.passesOver) vs raised r' := by
  unfold State.returns at hstep
  unfold Told at h
  cases hphase : r.phase <;> simp only [hphase, Option.some.injEq, reduceCtorEq] at hstep <;> subst hstep <;>
    simp only [hphase] at h
  case preStart =>
    obtain ⟨rfl, hvs, hraised, hnone, -, hlog⟩ := h
    exact ⟨rfl, hvs, hraised, hnone, r.context.model, _, r.store.lastSeq, rfl, rfl, .inl ⟨rfl, hlog, rfl⟩⟩
  case spawned | preparing =>
    obtain ⟨rfl, h⟩ := h
    exact ⟨rfl, h⟩
  case streaming =>
    obtain ⟨rfl, hraised, hnone, first, model, hop, hmodel, hlog, hexec⟩ := h
    obtain ⟨source, heq⟩ := endBusiness_of_none hverdict none
    obtain ⟨haccepted, hlength⟩ := accepted_eq hexec
    rw [heq]
    apply told_complete ⟨hop, model, hmodel, haccepted.symm⟩ hlog hnone (by simp)
    rw [haccepted] at hlength
    simp [Failed, hraised, hlength]
  case completing source error =>
    obtain ⟨rfl, hencodable, first, data, hstory, hlog, hfailed, honce⟩ := h
    cases error with
    | none =>
      refine told_finalize hstory hlog honce (by simp [outcomeOf, effectiveError]) ?_ (by simp [Phase.passesOver])
      simpa [outcomeOf, effectiveError, Phase.passesOver] using hfailed
    | some e =>
      have hfailed : Failed vs raised data := hfailed.mp rfl
      cases htruthy : e.truthy with
      | true =>
        refine told_finalize hstory hlog honce ?_ ?_ fun _ => hfailed
        · simpa [outcomeOf, effectiveError, htruthy] using hencodable
        · simp [outcomeOf, effectiveError, Phase.passesOver, htruthy, hfailed]
      | false =>
        refine told_finalize hstory hlog honce ?_ ?_ fun _ => hfailed
        · simp [outcomeOf, effectiveError, htruthy]
        · simp [outcomeOf, effectiveError, Phase.passesOver, htruthy]

theorem told_raises {heeded : Bool} {vs : List (Yielded ν)} {raised : Bool} {r r' : State κ ν} {error : Raised}
    (hverdict : r.verdict = none) (hencodable : error.encodable = true) (h : Told heeded vs raised r)
    (hstep : r.raises error = some r') : Told heeded vs true r' := by
  unfold State.raises at hstep
  unfold Told at h
  cases hphase : r.phase <;> simp only [hphase, Option.some.injEq, reduceCtorEq] at hstep <;> subst hstep <;>
    simp only [hphase] at h
  case preStart =>
    obtain ⟨rfl, hvs, -, hnone, hzero, hlog⟩ := h
    rw [State.failPreStart, if_pos hzero]
    exact ⟨rfl, hvs, rfl, hnone, hencodable, r.context.model, _, r.store.lastSeq, rfl, .inl ⟨rfl, hlog, rfl⟩⟩
  case preparing | streaming =>
    obtain ⟨rfl, -, hnone, first, model, hop, hmodel, hlog, hexec⟩ := h
    obtain ⟨source, heq⟩ := endBusiness_of_none hverdict (some error)
    rw [heq]
    apply told_complete ⟨hop, model, hmodel, (accepted_eq hexec).1.symm⟩ hlog hnone
    · rintro e ⟨⟩
      exact hencodable
    · simp [Failed]
  case completing source inner =>
    obtain ⟨rfl, hinner, first, data, hstory, hlog, -, honce⟩ := h
    -- the error that was there comes first if it is true, and there is one in any case
    have heffective : ∃ e, effectiveError inner (some error) = some e ∧ e.encodable = true := by
      unfold effectiveError
      cases inner with
      | none => exact ⟨error, rfl, hencodable⟩
      | some e =>
        dsimp only
        split_ifs
        · exact ⟨e, rfl, hinner e rfl⟩
        · exact ⟨error, rfl, hencodable⟩
    obtain ⟨e, he, hencodable'⟩ := heffective
    refine told_finalize hstory hlog honce ?_ ?_ (by simp)
    · simpa [outcomeOf, he] using hencodable'
    · simp [outcomeOf, he, Failed]

theorem told_yielded {heeded : Bool} {vs : List (Yielded ν)} {raised : Bool} {r : State κ ν}
    (hphase : r.phase = .streaming) (hverdict : r.verdict = none) (h : Told heeded vs raised r) (value : Yielded ν)
    {error : Raised} (hencodable : error.encodable = true)
    (hvalid : (r.taken value error).isSome = true → value.isValid = true) :
    Told heeded (vs ++ [value]) raised (r.yielded value error) := by
  simp only [Told, hphase] at h
  obtain ⟨rfl, hraised, hnone, first, model, hop, hmodel, hlog, hexec⟩ := h
  rcases yielded_cases hverdict value hencodable with ⟨event, snapshot, hevent, -, htaken, haccept, heq⟩ |
    ⟨haccept, -, error', snapshot, source, hencodable', heq⟩ <;> rw [heq]
  · rw [if_pos (hvalid htaken)] at haccept
    refine ⟨rfl, hraised, hnone, first, model, events vs, r.store.lastSeq, hop, hmodel, ?_, ?_, .inl ⟨rfl, hlog, rfl⟩⟩
    · simp [events, List.filterMap_append, hevent]
    · rw [Machine.exec_concat, hexec]
      exact haccept
  -- the value ends the prefix; the reducer may have left another snapshot, but nothing is published
  · have haccepted := accepted_refused hexec haccept []
    apply told_complete (r := { r with context := { r.context with snapshot := snapshot } })
      ⟨hop, model, hmodel, haccepted.symm⟩ hlog hnone
    · rintro e ⟨⟩
      exact hencodable'
    · exact ⟨fun _ => .inr (length_accepted_refused hexec), fun _ => rfl⟩

theorem told_resumes {heeded : Bool} {vs : List (Yielded ν)} {raised : Bool} {r r' : State κ ν}
    (hpending : r.pending = []) (h : Told heeded vs raised r) (hstep : r.resumes = some r') :
    Told heeded vs raised r' := by
  unfold State.resumes at hstep
  unfold Told at h
  cases hphase : r.phase <;> simp only [hphase, Option.some.injEq, reduceCtorEq] at hstep <;> subst hstep <;>
    simp only [hphase] at h
  case starting =>
    obtain ⟨hheeded, rfl, hraised, hnone, model, n, seq, rfl, hsnapshot, hwriting⟩ := h
    refine ⟨hheeded, hraised, hnone, _, model.doc, rfl, rfl, (hwriting.of_pending_nil hpending).1, ?_⟩
    simp only [Machine.exec, State.published, hsnapshot]
  case restarting =>
    obtain ⟨rfl, rfl, rfl, hnone, hencodable, model, n, seq, rfl, hwriting⟩ := h
    apply told_complete ⟨rfl, model.doc, rfl, rfl⟩ (hwriting.of_pending_nil hpending).1 hnone
    · rintro e ⟨⟩
      exact hencodable
    · simp [Failed]
  case publishing =>
    obtain ⟨hheeded, hraised, hnone, first, model, base, seq, hop, hmodel, hbase, hexec, hwriting⟩ := h
    refine ⟨hheeded, hraised, hnone, first, model, hop, hmodel, ?_, hexec⟩
    rw [← hbase]
    exact (hwriting.of_pending_nil hpending).1
  case publishingError outcome event =>
    obtain ⟨hsome, first, data, seq, hcompleted, hheeded, hwriting⟩ := h
    refine ⟨rfl, first, data, some event, r.store.lastSeq, hsome, hcompleted, hheeded, .inl ⟨rfl, ?_, rfl⟩⟩
    exact (hwriting.of_pending_nil hpending).1
  case publishingEnd =>
    obtain ⟨hop, first, data, error, seq, hsome, hcompleted, hheeded, hwriting⟩ := h
    exact ⟨first, data, error, _, hsome, hcompleted, hheeded, hop, (hwriting.of_pending_nil hpending).1, .inl rfl⟩
  case marking outcome terminal =>
    obtain ⟨first, data, error, last, hsome, hcompleted, hheeded, hop, hlog, hmark⟩ := h
    -- nothing is left to send, so the status has been written
    have hstatus : r.store.status = outcome.status := by
      rcases hmark with hmark | hmark
      · simp [markTerminal, hpending] at hmark
      · exact hmark
    have hwritten : Written vs (r.finish outcome terminal) first data error last :=
      ⟨hcompleted, hlog, hop, by rw [← hsome]; exact hstatus⟩
    unfold Told
    cases hreraises : outcome.reraises <;> simp only [State.finish, hreraises]
    · exact ⟨first, data, error, last, by simpa [State.finish, hreraises] using hwritten, hheeded⟩
    · exact ⟨first, data, error, last, by simpa [State.finish, hreraises] using hwritten, hheeded⟩

/-! ## One step -/

/-- What no phase reads. -/
theorem told_idle {heeded : Bool} {vs : List (Yielded ν)} {raised : Bool} {r : State κ ν} (h : Told heeded vs raised r)
    (context : Context ν) (hsnapshot : context.snapshot = r.context.snapshot)
    (hseq : context.publishedSeq = r.context.publishedSeq) (verdict : Option Verdict) (closing : Bool) :
    Told heeded vs raised { r with context := context, verdict := verdict, closing := closing } := by
  unfold Told at h ⊢
  dsimp only
  rw [hsnapshot, hseq]
  cases hphase : r.phase <;> simp only [hphase] at h ⊢
  case returned | raised =>
    obtain ⟨first, data, error, last, hwritten, hheeded⟩ := h
    exact ⟨first, data, error, last, ⟨hwritten.completed, hwritten.log, hwritten.endOp, hwritten.status⟩, hheeded⟩
  all_goals exact h

theorem told_silent {heeded : Bool} {vs : List (Yielded ν)} {raised : Bool} {r : State κ ν}
    (h : Told heeded vs raised r) : Told (heeded && !false) (vs ++ []) (raised || false) r := by
  rwa [Bool.not_false, Bool.and_true, List.append_nil, Bool.or_false]

/-- The step passes an exception over. -/
def overlooks (r : State κ ν) : Label κ ν → Bool
  | .returns => r.phase.passesOver
  | _ => false

/-- A step adds what it yields to the values, and its exception to what has been raised. -/
theorem told_step [LinearOrder κ] {heeded : Bool} {vs : List (Yielded ν)} {raised : Bool} {r r' : State κ ν}
    {l : Label κ ν} (hl : l.undisturbed = true) (hfits : Fits r) (hverdict : r.verdict = none)
    (h : Told heeded vs raised r)
    (hvalid : ∀ value error, l = .yields value error → (r.taken value error).isSome = true → value.isValid = true)
    (hstep : step r l = some r') :
    Told (heeded && !overlooks r l) (vs ++ l.value?.toList) (raised || l.isRaise) r' := by
  cases l with simp only [Label.undisturbed, reduceCtorEq] at hl
  | emits offset =>
    simp only [step] at hstep
    split_ifs at hstep
    obtain rfl := Option.some.inj hstep
    exact told_silent (told_idle h { r.context with offset := offset } rfl rfl _ _)
  | remodels model =>
    simp only [step] at hstep
    split_ifs at hstep
    obtain rfl := Option.some.inj hstep
    exact told_silent (told_idle h { r.context with model := model } rfl rfl _ _)
  | yields value error =>
    simp only [step] at hstep
    cases hphase : r.phase <;> simp only [hphase, reduceCtorEq] at hstep
    split_ifs at hstep
    obtain rfl := Option.some.inj hstep
    simpa [Label.value?, Label.isRaise, overlooks] using
      told_yielded hphase hverdict h value hl (hvalid value error rfl)
  | returns =>
    have htold := told_returns hverdict h hstep
    simpa [Label.value?, Label.isRaise, overlooks] using htold
  | raises error => simpa [Label.value?, Label.isRaise, overlooks] using told_raises hverdict hl h hstep
  | send fresh =>
    simp only [step] at hstep
    cases hpending : r.pending with
    | nil => simp [hpending] at hstep
    | cons command rest =>
      simp only [hpending] at hstep
      split_ifs at hstep
      obtain rfl := Option.some.inj hstep
      exact told_silent (told_sent hfits h hpending fresh)
  | resumes =>
    simp only [step] at hstep
    split_ifs at hstep with hpending
    exact told_silent (told_resumes (List.isEmpty_iff.mp hpending) h hstep)
  | closes =>
    obtain rfl := Option.some.inj hstep
    exact told_silent (told_idle h _ rfl rfl _ _)

/-! ## An event that is not valid -/

/-- Whatever is yielded from now on, the accepted prefix is `base`; an event that is not part of it is in the stream
behind it, or about to be. -/
def Strayed (vs : List (Yielded ν)) (r : State κ ν) : Prop :=
  ∃ (first : Envelope ν) (base : List (Envelope ν)) (event : Envelope ν),
    (event.op = .set ∨ event.op = .append) ∧ (∀ ws data, Story (vs ++ ws) first data → data = base) ∧
    ((∃ before, r.phase = .publishing event before) ∧ r.pending = publish event ∧ r.log = first :: base ∨
      first :: base ++ [event] <+: r.log)

/-- The value that is published without being valid. -/
theorem strayed_yielded {heeded : Bool} {vs : List (Yielded ν)} {raised : Bool} {r : State κ ν}
    (hphase : r.phase = .streaming) (hverdict : r.verdict = none) (h : Told heeded vs raised r) {value : Yielded ν}
    {error : Raised} (hencodable : error.encodable = true) (htaken : (r.taken value error).isSome = true)
    (hinvalid : value.isValid = false) : Strayed (vs ++ [value]) (r.yielded value error) := by
  simp only [Told, hphase] at h
  obtain ⟨rfl, -, -, first, model, -, hmodel, hlog, hexec⟩ := h
  rcases yielded_cases hverdict value hencodable with ⟨event, snapshot, hevent, hop, -, haccept, heq⟩ |
    ⟨-, hnot, -⟩
  · rw [hinvalid, if_neg Bool.false_ne_true] at haccept
    refine ⟨first, events vs, event, hop, fun ws data hstory => ?_, .inl ?_⟩
    · obtain ⟨model', hmodel', rfl⟩ := hstory.accepted
      obtain rfl : model = model' := Option.some.inj (hmodel.symm.trans hmodel')
      rw [List.append_assoc]
      exact accepted_refused hexec haccept ws
    · rw [heq]
      exact ⟨⟨_, rfl⟩, rfl, hlog⟩
  · simp [hnot] at htaken

omit [DecidableEq ν] in
theorem log_prefix_of_store {r r' : State κ ν}
    (h : r'.store = r.store ∨ ∃ fresh command rest, r' = r.sent fresh command rest) : r.log <+: r'.log := by
  rcases h with hstore | ⟨fresh, command, rest, rfl⟩
  · rw [State.log, State.log, hstore]
  · cases command with
    | xadd event => rw [log_sent_xadd]; exact List.prefix_append _ _
    | _ => exact List.prefix_rfl

/-- Nothing comes between the publish of the event and its `XADD`, and nothing is taken out of the stream. -/
theorem strayed_step [LinearOrder κ] {vs : List (Yielded ν)} {r r' : State κ ν} {l : Label κ ν}
    (hl : l.undisturbed = true) (h : Strayed vs r) (hstep : step r l = some r') :
    Strayed (vs ++ l.value?.toList) r' := by
  obtain ⟨first, base, event, hop, hstory, hplace⟩ := h
  refine ⟨first, base, event, hop, fun ws data h => hstory _ data (by rwa [List.append_assoc] at h), ?_⟩
  rcases hplace with ⟨⟨before, hphase⟩, hpending, hlog⟩ | hstored
  · cases l with simp only [Label.undisturbed, reduceCtorEq] at hl
    | send fresh =>
      simp only [step, hpending, publish] at hstep
      split_ifs at hstep
      obtain rfl := Option.some.inj hstep
      refine .inr ?_
      show first :: base ++ [event] <+: (r.sent fresh (.xadd event) [.expireStream, .hsetLastSeq event.seq]).log
      rw [log_sent_xadd, hlog]
    | closes =>
      obtain rfl := Option.some.inj hstep
      exact .inl ⟨⟨before, hphase⟩, hpending, hlog⟩
    | emits | remodels | yields | returns | raises | resumes =>
      simp [step, State.returns, State.raises, hphase, hpending, publish, Phase.inCallback] at hstep
  · refine .inr (hstored.trans (log_prefix_of_store ?_))
    rcases store_move (move_of_step hstep) with hstore | ⟨fresh, command, rest, -, -, heq⟩
    · exact .inl hstore
    · exact .inr ⟨fresh, command, rest, heq⟩

omit [DecidableEq ν] in
theorem not_finished_of_strayed [DecidableEq ν] {vs : List (Yielded ν)} {raised : Bool} {r : State κ ν}
    (hover : r.phase.isOver = true) (h : Strayed vs r) {first : Envelope ν} {data : List (Envelope ν)}
    {error : Option (Envelope ν)} {last : Envelope ν} : ¬ Finished vs raised r first data error last := by
  intro hfinished
  obtain ⟨first', base, event, hop, hstory, ⟨⟨before, hphase⟩, -⟩ | hstored⟩ := h
  · simp [hphase, Phase.isOver] at hover
  · rw [hfinished.log] at hstored
    obtain ⟨rfl, hstored⟩ := List.cons_prefix_cons.mp (by simpa using hstored)
    have hdata := hstory [] data (by rw [List.append_nil]; exact hfinished.completed.story)
    subst hdata
    -- behind the accepted prefix there is an error or the end
    rw [List.append_assoc, List.prefix_append_right_inj] at hstored
    cases error with
    | none =>
      obtain ⟨rfl, -⟩ := List.cons_prefix_cons.mp hstored
      rcases hop with hop | hop <;> simp [hfinished.endOp] at hop
    | some e =>
      obtain ⟨rfl, -⟩ := List.cons_prefix_cons.mp hstored
      have he := hfinished.completed.errorOp event rfl
      rcases hop with hop | hop <;> simp [he] at hop

/-! ## Whole runs -/

/-- The run is in its grammar; `heeded` says whether no exception has been passed over. -/
structure Grammatical (heeded : Bool) (labels : List (Label κ ν)) (r : State κ ν) : Prop where
  fits : Fits r
  verdict : r.verdict = none
  told : Told heeded (values labels) (labels.any Label.isRaise) r

theorem grammatical_init (model : Model ν) (time : ℕ) : Grammatical true [] (State.init model time : State κ ν) :=
  ⟨rfl, rfl, rfl, rfl, rfl, rfl, rfl, rfl⟩

theorem grammatical_step [LinearOrder κ] {heeded : Bool} {labels : List (Label κ ν)} {r r' : State κ ν} {l : Label κ ν}
    (hl : l.undisturbed = true) (h : Grammatical heeded labels r)
    (hvalid : ∀ value error, l = .yields value error → (r.taken value error).isSome = true → value.isValid = true)
    (hstep : step r l = some r') : Grammatical (heeded && !overlooks r l) (labels ++ [l]) r' := by
  have hmove := move_of_step hstep
  refine ⟨fits_move h.fits hmove, ?_, ?_⟩
  · rw [verdict_move (cancels_of_undisturbed hl) hmove, h.verdict]
  · rw [values_concat, List.any_append, List.any_cons, List.any_nil, Bool.or_false]
    exact told_step hl h.fits h.verdict h.told hvalid hstep

/-- A run that is over has stored an error exactly when something went wrong, unless that has been passed over. -/
theorem finished_iff_of_grammatical {heeded : Bool} {labels : List (Label κ ν)} {r : State κ ν}
    (h : Grammatical heeded labels r) (hover : r.phase.isOver = true) :
    (∃ first data error last, Finished (values labels) (labels.any Label.isRaise) r first data error last) ↔
      heeded = true := by
  have htold := h.told
  have hend : ∃ first data error last, Written (values labels) r first data error last ∧
      Heeded heeded (Failed (values labels) (labels.any Label.isRaise) data) error := by
    unfold Told at htold
    cases hphase : r.phase <;> simp only [hphase, Phase.isOver, reduceCtorEq] at hover htold
    all_goals exact htold
  obtain ⟨first, data, error, last, hwritten, hheeded⟩ := hend
  constructor
  · rintro ⟨first', data', error', last', hfinished⟩
    by_contra hnot
    rw [Bool.not_eq_true] at hnot
    -- something went wrong, and the stream has no error
    have hnone : error = none := by
      have hsome := hheeded.error_iff
      simpa [hnot] using hsome
    have hlog := hwritten.log.symm.trans hfinished.log
    rw [hnone] at hlog
    obtain ⟨rfl, hlog⟩ := List.cons.inj hlog
    obtain rfl := hwritten.completed.story.data_eq hfinished.completed.story
    have herror : error'.isSome = true := hfinished.failed.mpr (hheeded.failed_of_not hnot)
    obtain ⟨e, rfl⟩ := Option.isSome_iff_exists.mp herror
    simpa using congrArg List.length hlog
  · intro hheeded'
    exact ⟨first, data, error, last, hwritten, hheeded.error_iff.trans (and_iff_left hheeded')⟩

end Accepted

/-- `stream` yields a title and then a value that is no patch, and `complete` raises. -/
def refusesChat : List (Label ℕ ℕ) :=
  startsChat ++ [.yields (.patch (titleEvent 2)) silentError, .send 2, .send 3, .send 3, .resumes,
    .yields .other silentError, .emits 2, .raises silentError, .send 3, .send 4, .send 4, .resumes, .send 4, .send 5,
    .send 5, .resumes, .send 5, .send 5, .send 5, .resumes]

/-- The claim of the grammar for one run of a chat. -/
def EndsWell (labels : List (Label ℕ ℕ)) : Prop :=
  (∀ l ∈ labels, l.undisturbed = true) → ∀ r : State ℕ ℕ,
    Machine.exec step (State.init chatModel 0) labels = some r → r.phase.isOver = true →
      ∃ first data error last, Finished (values labels) (labels.any Label.isRaise) r first data error last

/-- A set with a block beside its metadata, as `PatchEvent.model_construct` makes it. -/
def twofoldEvent : Envelope ℕ := { titleEvent 2 with block := some [("id", .str "b")] }

/-- `stream` yields an instance that is not valid. -/
def constructsChat : List (Label ℕ ℕ) :=
  startsChat ++ [.yields (.made twofoldEvent) silentError, .send 2, .send 3, .send 3, .resumes, .emits 2, .returns,
    .returns, .send 3, .send 4, .send 4, .resumes, .send 4, .send 4, .send 4, .resumes]

/-- `stream` raises an exception whose class has a `__len__` that gives 0, and `complete` returns. -/
def raisesFalse : List (Label ℕ ℕ) :=
  startsChat ++ [.raises { silentError with truthy := false }, .returns, .send 3, .send 4, .send 4, .resumes, .send 4,
    .send 4, .send 4, .resumes]

end AgentUE.PythonRunner.Run
