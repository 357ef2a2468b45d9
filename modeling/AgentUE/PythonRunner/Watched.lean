import AgentUE.PythonRunner.Closing

/-!
# Python runner: a run and the consumer that watches it

Reference: `run` and `_stream_live` in `sdks/python/src/agentue/runner/runner.py`. The commands of the run may fail,
the reads do not. The generator reads the stream while the execute task writes it, and adds the terminal events that
have not been persisted when it finds nothing more.
-/

namespace AgentUE.PythonRunner.Watched

open Data
open Live (Generator Pc TerminalEvent isControl)
open Run (Plain AtMostOne Graded Closed Staged Fits)

variable {κ ν : Type}

/-- The future `execution` as `_stream_live` sees it. -/
inductive Execution (ν : Type) where
  | pending
  | returned (terminal : List (TerminalEvent ν))
  | raised

/-- The terminal events that `_stream_live` yields itself. -/
def missing (controls : List PatchOp) (terminal : List (TerminalEvent ν)) : List (Envelope ν) :=
  (terminal.filter fun t => !t.persisted && !controls.contains t.data.op).map TerminalEvent.data

/-- One step of `_stream_live`: from one suspension to the next, or a `yield`. -/
def next (execution : Execution ν) (g : Generator κ ν) : Option (Generator κ ν) :=
  match g.pc with
  | .replied [] _ =>
    match execution with
    | .returned terminal => some { g with pc := .unpersisted (missing g.controls terminal) }
    | .raised => some { g with pc := .raised }
    -- the read has waited for as long as it may
    | .pending => some { g with pc := .requested, yielded := g.yielded ++ [.ping] }
  | .replied reply _ => some { g with pc := .delivering reply }
  | .delivering (item :: rest) =>
    some { g with
      pc := if item.data.op = .end_ then .ended else .delivering rest
      cursor := some item.cursor
      controls := if isControl item.data.op then item.data.op :: g.controls else g.controls
      yielded := g.yielded ++ [.stored item] }
  | .delivering [] => some { g with pc := .requested }
  | .ended => some { g with pc := .returned }
  | .unpersisted (event :: rest) =>
    some { g with pc := .unpersisted rest, yielded := g.yielded ++ [.unpersisted event] }
  | .unpersisted [] => some { g with pc := .returned }
  | .requested | .returned | .raised => none

/-- The future of an execute task whose commands do not fail. -/
def ofExecutor (executor : Executor ν) : Execution ν :=
  match executor.phase with
  | .returned terminal => .returned (Live.executionResult terminal)
  | .aborted => .raised
  | _ => .pending

/-- The loop is the one that watches such an execute task. -/
theorem advance_eq_next (executor : Executor ν) (g : Generator κ ν) :
    g.advance executor = next (ofExecutor executor) g := by
  unfold Generator.advance next ofExecutor
  cases g.pc with
  | replied reply seen =>
    cases reply with
    | nil => cases executor.phase <;> rfl
    | cons item rest => rfl
  | delivering batch => cases batch <;> rfl
  | unpersisted events => cases events <;> rfl
  | _ => rfl

/-- The future of a run. -/
def ofPhase : Run.Phase ν → Execution ν
  | .returned terminal => .returned terminal
  | .raised => .raised
  | _ => .pending

/-- A run with the generator that `run()` is: `execution` says that the execute task has been created, the generator
begins when the coroutine gets to `_stream_live`. -/
structure World (κ ν : Type) where
  run : Run.State κ ν
  execution : Bool
  live : Option (Generator κ ν)

/-- After `initialize`. -/
def World.init (model : Run.Model ν) (time : ℕ) : World κ ν := ⟨.init model time, false, none⟩

/-- A step of the run, the begin of `_stream_live`, the moment at which Redis computes the reply to a read, or a
step of the generator. -/
inductive Label (κ ν : Type) where
  | run (l : Run.Label κ ν)
  | begins
  | evaluate
  | advance

/-- The execute task has been created. -/
def isSpawned : Run.Phase ν → Bool
  | .spawned => true
  | _ => false

/-- `_finalize` has returned. -/
def isReturned : Run.Phase ν → Bool
  | .returned _ => true
  | _ => false

/-- One step. `_stream_live` follows the creation of the execute task, or a `_finalize` before it. -/
def step [LinearOrder κ] [DecidableEq ν] (count : ℕ) (w : World κ ν) : Label κ ν → Option (World κ ν)
  | .run l => (Run.step w.run l).map fun r => { w with run := r, execution := w.execution || isSpawned r.phase }
  | .begins =>
    if w.live.isNone ∧ (w.execution || isReturned w.run.phase) then some { w with live := some .init } else none
  | .evaluate =>
    match w.live with
    | some g =>
      if g.pc matches .requested then
        some { w with live := some { g with
          pc := .replied (w.run.store.read count g.cursor) w.run.store.events.length } }
      else none
    | none => none
  | .advance =>
    match w.live with
    | some g => (next (ofPhase w.run.phase) g).map fun g => { w with live := some g }
    | none => none

/-! ## What is asked of the runs -/

/-- The operation of a delivery; pings are left aside. -/
def op? : Live.Delivery κ ν → Option PatchOp
  | .stored item => some item.data.op
  | .ping => none
  | .unpersisted event => some event.op

/-- The operations of what a generator has yielded, pings aside. -/
def opsOf (g : Generator κ ν) : List PatchOp := g.yielded.filterMap op?

/-- The operations end with the one end, and the one error, if there is one, stands directly before it. -/
def Shape (ops : List PatchOp) : Prop :=
  ∃ body errors, ops = body ++ errors ++ [.end_] ∧ (errors = [] ∨ errors = [.error]) ∧ .error ∉ body ∧ .end_ ∉ body

/-- What is yielded begins with a start, and a generator that has returned has yielded the shape of a delivery. -/
def Delivered (w : World κ ν) : Prop :=
  ∀ g ∈ w.live, (∀ op ∈ (opsOf g).head?, op = .start) ∧ (g.pc = .returned → Shape (opsOf g))

/-- The generator looks at an old empty reply after the end has been persisted. -/
def isStale (r : Run.State κ ν) (g : Generator κ ν) : Bool :=
  match g.pc, r.phase with
  | .replied [] seen, .returned terminal =>
    (terminal.any fun t => t.data.op == .end_ && t.persisted) && r.store.events.length != seen
  | _, _ => false

/-- The start is not lost, and the reply that ends the generator is not stale. -/
def Kept (w : World κ ν) : Label κ ν → Prop
  | .run l => Run.losesStart w.run l = false
  | .advance => ∀ g ∈ w.live, isStale w.run g = false
  | _ => True

instance [DecidableEq ν] (w : World κ ν) : ∀ l, Decidable (Kept w l)
  | .run l => inferInstanceAs (Decidable (Run.losesStart w.run l = false))
  | .advance => inferInstanceAs (Decidable (∀ g ∈ w.live, isStale w.run g = false))
  | .begins | .evaluate => isTrue trivial

/-! ## The shape of what is yielded -/

/-- The operations of stored events. -/
def storedOps (items : List (Stored κ ν)) : List PatchOp := items.map fun item => item.data.op

/-- No end among them. -/
def NoEnd (items : List (Stored κ ν)) : Prop := ∀ item ∈ items, item.data.op ≠ .end_

/-- The end has not been persisted. -/
def EndMissing (terminal : List (TerminalEvent ν)) : Prop := ∀ t ∈ terminal, t.data.op = .end_ → t.persisted = false

theorem not_mem_ops_of_plain {events : List (Envelope ν)} (h : Plain events) :
    .error ∉ events.map Envelope.op ∧ .end_ ∉ events.map Envelope.op := by
  constructor <;> intro hmem <;> obtain ⟨event, hevent, hop⟩ := List.mem_map.mp hmem
  · exact (h event hevent).1 hop
  · exact (h event hevent).2 hop

theorem Plain.of_prefix {events past : List (Envelope ν)} (h : Plain events) (hpast : past <+: events) : Plain past :=
  fun event hevent => h event (hpast.subset hevent)

/-- Plain events, at most one error and one end have the shape of a delivery. -/
theorem shape_of_parts {base errors : List (Envelope ν)} {last : Envelope ν} (hbase : Plain base)
    (herrors : AtMostOne .error errors) (hlast : last.op = .end_) :
    Shape ((base ++ errors ++ [last]).map Envelope.op) := by
  obtain ⟨herror, hend⟩ := not_mem_ops_of_plain hbase
  refine ⟨base.map Envelope.op, errors.map Envelope.op, by simp [hlast], ?_, herror, hend⟩
  rcases herrors with rfl | ⟨error, rfl, hop⟩
  · exact .inl rfl
  · exact .inr (by simp [hop])

theorem storedOps_eq (items : List (Stored κ ν)) : storedOps items = (items.map Stored.data).map Envelope.op := by
  simp [storedOps]

theorem noEnd_of_parts {base errors : List (Envelope ν)} (hbase : Plain base) (herrors : AtMostOne .error errors) :
    ∀ event ∈ base ++ errors, event.op ≠ .end_ := by
  intro event hevent
  rcases List.mem_append.mp hevent with hevent | hevent
  · exact (hbase event hevent).2
  · rcases herrors with rfl | ⟨error, rfl, hop⟩
    · simp at hevent
    · rw [List.mem_singleton.mp hevent, hop]
      simp

/-- A first part of plain events and an error is plain, or has the error. -/
theorem prefix_parts {base errors past : List (Envelope ν)} (herrors : AtMostOne .error errors)
    (h : past <+: base ++ errors) : past <+: base ∨ past = base ++ errors := by
  rcases herrors with rfl | ⟨error, rfl, -⟩
  · exact .inl (by rwa [List.append_nil] at h)
  · exact (List.prefix_concat_iff.mp h).symm

/-- The stream through its end. -/
theorem shape_of_throughEnd {past rest : List (Stored κ ν)} (hgraded : Graded ((past ++ rest).map Stored.data))
    (h : Live.ThroughEnd past) : Shape (storedOps past) := by
  obtain ⟨base, errors, ends, hevents, hbase, herrors, hends⟩ := hgraded
  obtain ⟨before, last, rfl, hop, -⟩ := h
  rw [List.map_append] at hevents
  have hpast : (before ++ [last]).map Stored.data <+: base ++ errors ++ ends := ⟨_, hevents⟩
  -- what is read has an end, so it is the whole stream
  have hnot : ¬ (before ++ [last]).map Stored.data <+: base ++ errors := fun hparts =>
    noEnd_of_parts hbase herrors last.data (hparts.subset (by simp)) hop
  rw [storedOps_eq]
  rcases hends with rfl | ⟨final, rfl, hfinal⟩
  · rw [List.append_nil] at hpast
    exact absurd hpast hnot
  · rw [(List.prefix_concat_iff.mp hpast).resolve_right hnot]
    exact shape_of_parts hbase herrors hfinal

/-- The stream that has been read, and the terminal events that it does not have. -/
theorem shape_of_missing {past rest : List (Stored κ ν)} {terminal : List (TerminalEvent ν)} {controls : List PatchOp}
    (hclosed : Closed ((past ++ rest).map Stored.data) terminal) (hmissing : EndMissing terminal)
    (hnoEnd : NoEnd past)
    (hcontrols : ∀ op, op ∈ controls ↔ isControl op = true ∧ op ∈ storedOps past) :
    Shape (storedOps past ++ (missing controls terminal).map Envelope.op) := by
  have hend : .end_ ∉ controls := by
    rw [hcontrols]
    rintro ⟨-, hmem⟩
    obtain ⟨item, hitem, hop⟩ := List.mem_map.mp hmem
    exact hnoEnd item hitem hop
  have hpast : past.map Stored.data <+: (past ++ rest).map Stored.data := by
    rw [List.map_append]
    exact List.prefix_append _ _
  rw [storedOps_eq]
  cases hclosed with
  -- the error, if there is one, is stored: only the end is yielded
  | @ended base errors ends last persisted hevents hterminal hbase herrors hlast hends =>
    subst hterminal
    obtain rfl : persisted = false := hmissing ⟨last, persisted⟩ (by simp) hlast
    have hyields : missing controls (errors.map (⟨·, true⟩) ++ [⟨last, false⟩]) = [last] := by
      simp [missing, hlast, hend]
    have hparts : past.map Stored.data <+: base ++ errors := by
      rw [hevents] at hpast
      rcases hends with rfl | ⟨rfl, -⟩
      · refine (List.prefix_concat_iff.mp hpast).resolve_left fun hall => ?_
        have hmem : last ∈ past.map Stored.data := by rw [hall]; simp
        obtain ⟨item, hitem, rfl⟩ := List.mem_map.mp hmem
        exact hnoEnd item hitem hlast
      · rwa [List.append_nil] at hpast
    rw [hyields, ← List.map_append]
    rcases prefix_parts herrors hparts with hbefore | hall
    · rw [← List.append_nil (past.map Stored.data)]
      exact shape_of_parts (Plain.of_prefix hbase hbefore) (.inl rfl) hlast
    · rw [hall]
      exact shape_of_parts hbase herrors hlast
  -- the publish of the error has failed: it may be in the stream nevertheless
  | @lost base errors error last hevents hterminal hbase herrors herror hlast =>
    subst hterminal
    rw [hevents] at hpast
    have hone : AtMostOne .error errors := by
      rcases herrors with rfl | rfl
      · exact .inr ⟨error, rfl, herror⟩
      · exact .inl rfl
    have hsplit := prefix_parts hone hpast
    by_cases hread : .error ∈ controls
    -- the error has been read from the stream
    · have hnotPlain : ¬ Plain (past.map Stored.data) := fun hplain => by
        have hmem := ((hcontrols .error).mp hread).2
        rw [storedOps_eq] at hmem
        exact (not_mem_ops_of_plain hplain).1 hmem
      have hall : past.map Stored.data = base ++ [error] := by
        rcases hsplit with hbefore | hall
        · exact absurd (Plain.of_prefix hbase hbefore) hnotPlain
        · rcases herrors with rfl | rfl
          · exact hall
          · rw [List.append_nil] at hall
            exact absurd (hall ▸ hbase) hnotPlain
      have hyields : missing controls [⟨error, false⟩, ⟨last, false⟩] = [last] := by
        simp [missing, herror, hlast, hend, hread]
      rw [hyields, hall, ← List.map_append]
      exact shape_of_parts hbase (.inr ⟨error, rfl, herror⟩) hlast
    · have hbefore : past.map Stored.data <+: base := by
        rcases hsplit with hbefore | hall
        · exact hbefore
        · rcases herrors with rfl | rfl
          · have hmem : .error ∈ storedOps past := by
              rw [storedOps_eq, hall]
              simp [herror]
            exact absurd ((hcontrols .error).mpr ⟨rfl, hmem⟩) hread
          · rw [hall, List.append_nil]
      have hyields : missing controls [⟨error, false⟩, ⟨last, false⟩] = [error, last] := by
        simp [missing, herror, hlast, hend, hread]
      rw [hyields, ← List.map_append]
      simpa using shape_of_parts (Plain.of_prefix hbase hbefore) (.inr ⟨error, rfl, herror⟩) hlast

/-! ## The generator in the stream -/

/-- What the place of the generator says: it has yielded the stored events `past`, `rest` is ahead. -/
def Place (phase : Run.Phase ν) (g : Generator κ ν) (past rest : List (Stored κ ν)) : Prop :=
  match g.pc with
  | .requested => NoEnd past ∧ opsOf g = storedOps past
  | .replied reply seen =>
    NoEnd past ∧ opsOf g = storedOps past ∧ reply <+: rest ∧ (reply = [] → seen = past.length)
  | .delivering batch => NoEnd past ∧ opsOf g = storedOps past ∧ batch <+: rest
  | .ended => Live.ThroughEnd past ∧ opsOf g = storedOps past
  | .unpersisted events => ∃ terminal given, phase = .returned terminal ∧ NoEnd past ∧
      missing g.controls terminal = given ++ events ∧ opsOf g = storedOps past ++ given.map Envelope.op
  | .returned => Live.ThroughEnd past ∧ opsOf g = storedOps past ∨ ∃ terminal, phase = .returned terminal ∧
      NoEnd past ∧ opsOf g = storedOps past ++ (missing g.controls terminal).map Envelope.op
  | .raised => opsOf g = storedOps past

/-- The generator with the stream. -/
structure Tracks (r : Run.State κ ν) (g : Generator κ ν) (past rest : List (Stored κ ν)) : Prop where
  events : r.store.events = past ++ rest
  cursor : g.cursor = past.getLast?.map Stored.cursor
  controls : ∀ op, op ∈ g.controls ↔ isControl op = true ∧ op ∈ storedOps past
  place : Place r.phase g past rest

/-- The ids of the stream increase. -/
def Sorted [LinearOrder κ] (events : List (Stored κ ν)) : Prop := events.Pairwise fun a b => a.cursor < b.cursor

theorem opsOf_yield (g : Generator κ ν) (pc : Pc κ ν) (cursor : Option κ) (controls : List PatchOp)
    (delivery : Live.Delivery κ ν) :
    opsOf ⟨pc, cursor, controls, g.yielded ++ [delivery]⟩ = opsOf g ++ (op? delivery).toList := by
  unfold opsOf
  rw [List.filterMap_append]
  cases h : op? delivery <;> simp [h]

theorem tracks_init (r : Run.State κ ν) : Tracks r .init [] r.store.events where
  events := rfl
  cursor := rfl
  controls := fun op => by simp [Generator.init, storedOps]
  place := ⟨by simp [NoEnd], rfl⟩

/-- What is ahead of the generator is what it has not read. -/
theorem Tracks.unread [LinearOrder κ] {r : Run.State κ ν} {g : Generator κ ν} {past rest : List (Stored κ ν)}
    (h : Tracks r g past rest) (hsorted : Sorted r.store.events) : unread g.cursor r.store.events = rest := by
  unfold Sorted at hsorted
  rw [h.events] at hsorted
  rw [h.events, h.cursor, unread_append hsorted]

/-- The stream is longer, and a result stays. -/
theorem Tracks.grow {r r' : Run.State κ ν} {g : Generator κ ν} {past rest more : List (Stored κ ν)}
    (h : Tracks r g past rest) (hevents : r'.store.events = r.store.events ++ more)
    (hphase : ∀ terminal, r.phase = .returned terminal → r'.phase = .returned terminal) :
    Tracks r' g past (rest ++ more) := by
  refine ⟨by rw [hevents, h.events, List.append_assoc], h.cursor, h.controls, ?_⟩
  have hplace := h.place
  unfold Place at hplace ⊢
  cases hpc : g.pc <;> simp only [hpc] at hplace ⊢
  case requested | ended | raised => exact hplace
  case replied =>
    obtain ⟨hnoEnd, hops, hreply, hseen⟩ := hplace
    exact ⟨hnoEnd, hops, hreply.trans (List.prefix_append _ _), hseen⟩
  case delivering =>
    obtain ⟨hnoEnd, hops, hbatch⟩ := hplace
    exact ⟨hnoEnd, hops, hbatch.trans (List.prefix_append _ _)⟩
  case unpersisted =>
    obtain ⟨terminal, given, hreturned, hrest⟩ := hplace
    exact ⟨terminal, given, hphase terminal hreturned, hrest⟩
  case returned =>
    rcases hplace with hended | ⟨terminal, hreturned, hrest⟩
    · exact .inl hended
    · exact .inr ⟨terminal, hphase terminal hreturned, hrest⟩

theorem ofPhase_eq_returned {phase : Run.Phase ν} {terminal : List (TerminalEvent ν)} :
    ofPhase phase = .returned terminal ↔ phase = .returned terminal := by
  cases phase <;> simp [ofPhase]

theorem mem_controls {controls : List PatchOp} {op op' : PatchOp} :
    op ∈ (if isControl op' then op' :: controls else controls) ↔ op ∈ controls ∨ isControl op = true ∧ op = op' := by
  split_ifs with h
  · rw [List.mem_cons]
    constructor
    · rintro (rfl | hmem)
      · exact .inr ⟨h, rfl⟩
      · exact .inl hmem
    · rintro (hmem | ⟨-, rfl⟩)
      · exact .inr hmem
      · exact .inl rfl
  · constructor
    · exact .inl
    · rintro (hmem | ⟨hcontrol, rfl⟩)
      · exact hmem
      · exact absurd hcontrol h

/-- A step of the generator: it reads on, or leaves its loop. -/
theorem tracks_advance {r : Run.State κ ν} {g g' : Generator κ ν} {past rest : List (Stored κ ν)}
    (h : Tracks r g past rest) (hstep : next (ofPhase r.phase) g = some g') :
    ∃ past' rest', Tracks r g' past' rest' := by
  have hplace := h.place
  unfold next at hstep
  cases hpc : g.pc <;> simp only [hpc, Place, reduceCtorEq] at hstep hplace
  case replied reply seen =>
    obtain ⟨hnoEnd, hops, hreply, -⟩ := hplace
    cases reply with
    | nil =>
      dsimp only at hstep
      split at hstep <;> obtain rfl := Option.some.inj hstep
      · rename_i terminal hexecution
        have hphase := ofPhase_eq_returned.mp hexecution
        exact ⟨past, rest, h.events, h.cursor, h.controls, terminal, [], hphase, hnoEnd, rfl,
          by rw [List.map_nil, List.append_nil]; exact hops⟩
      · exact ⟨past, rest, h.events, h.cursor, h.controls, hops⟩
      · exact ⟨past, rest, h.events, h.cursor, h.controls, hnoEnd, by rw [opsOf_yield]; simpa [op?] using hops⟩
    | cons item more =>
      obtain rfl := Option.some.inj hstep
      exact ⟨past, rest, h.events, h.cursor, h.controls, hnoEnd, hops, hreply⟩
  case delivering batch =>
    obtain ⟨hnoEnd, hops, hbatch⟩ := hplace
    cases batch with
    | nil =>
      obtain rfl := Option.some.inj hstep
      exact ⟨past, rest, h.events, h.cursor, h.controls, hnoEnd, hops⟩
    | cons item more =>
      -- the first event of the batch goes behind the generator
      obtain ⟨ahead, rfl⟩ := hbatch
      obtain rfl := Option.some.inj hstep
      refine ⟨past ++ [item], more ++ ahead, by rw [h.events, List.append_assoc]; rfl, by simp, fun op => ?_, ?_⟩
      · rw [mem_controls, h.controls]
        simp only [storedOps, List.map_append, List.map_cons, List.map_nil, List.mem_append, List.mem_singleton]
        constructor
        · rintro (⟨hcontrol, hmem⟩ | ⟨hcontrol, rfl⟩)
          · exact ⟨hcontrol, .inl hmem⟩
          · exact ⟨hcontrol, .inr rfl⟩
        · rintro ⟨hcontrol, hmem | rfl⟩
          · exact .inl ⟨hcontrol, hmem⟩
          · exact .inr ⟨hcontrol, rfl⟩
      · have hyield : ∀ pc controls, opsOf ⟨pc, some item.cursor, controls, g.yielded ++ [.stored item]⟩ =
            storedOps (past ++ [item]) := fun pc controls => by
          rw [opsOf_yield, hops]
          simp [op?, storedOps]
        unfold Place
        dsimp only
        by_cases hop : item.data.op = .end_
        · rw [if_pos hop]
          exact ⟨⟨past, item, rfl, hop, hnoEnd⟩, hyield ..⟩
        · rw [if_neg hop]
          refine ⟨fun e he => ?_, hyield .., List.prefix_append _ _⟩
          rcases List.mem_append.mp he with he | he
          · exact hnoEnd e he
          · rwa [List.mem_singleton.mp he]
  case ended =>
    obtain rfl := Option.some.inj hstep
    exact ⟨past, rest, h.events, h.cursor, h.controls, .inl hplace⟩
  case unpersisted events =>
    obtain ⟨terminal, given, hphase, hnoEnd, hmissing, hops⟩ := hplace
    cases events with
    | nil =>
      obtain rfl := Option.some.inj hstep
      rw [List.append_nil] at hmissing
      exact ⟨past, rest, h.events, h.cursor, h.controls,
        .inr ⟨terminal, hphase, hnoEnd, by rw [hmissing]; exact hops⟩⟩
    | cons event more =>
      obtain rfl := Option.some.inj hstep
      refine ⟨past, rest, h.events, h.cursor, h.controls, terminal, given ++ [event], hphase, hnoEnd, ?_, ?_⟩
      · rw [hmissing, List.append_assoc]
        rfl
      · rw [opsOf_yield, hops]
        simp [op?]

theorem log_eq_of_tracks {r : Run.State κ ν} {g : Generator κ ν} {past rest : List (Stored κ ν)}
    (h : Tracks r g past rest) : r.log = (past ++ rest).map Stored.data := by
  rw [Run.State.log, h.events]

theorem cursor_ne_none_iff {r : Run.State κ ν} {g : Generator κ ν} {past rest : List (Stored κ ν)}
    (h : Tracks r g past rest) : g.cursor ≠ none ↔ past ≠ [] := by
  rw [h.cursor]
  simp

/-! ## How a generator leaves its loop -/

/-- A generator that may leave its loop has read something. -/
def Anchored (g : Generator κ ν) : Prop :=
  match g.pc with
  | .replied [] _ | .unpersisted _ | .returned => g.cursor ≠ none
  | _ => True

/-- What is yielded is what is behind, and from an anchored generator the rest only after it. -/
theorem ops_of_tracks {r : Run.State κ ν} {g : Generator κ ν} {past rest : List (Stored κ ν)}
    (h : Tracks r g past rest)
    (hanchored : Anchored g) : ∃ more, opsOf g = storedOps past ++ more ∧ (past = [] → more = []) := by
  have hplace := h.place
  have hbehind := cursor_ne_none_iff h
  unfold Place at hplace
  unfold Anchored at hanchored
  cases hpc : g.pc <;> simp only [hpc] at hplace hanchored
  case requested | ended => exact ⟨[], by rw [List.append_nil]; exact hplace.2, fun _ => rfl⟩
  case replied | delivering => exact ⟨[], by rw [List.append_nil]; exact hplace.2.1, fun _ => rfl⟩
  case raised => exact ⟨[], by rw [List.append_nil]; exact hplace, fun _ => rfl⟩
  case unpersisted =>
    obtain ⟨terminal, given, -, -, -, hops⟩ := hplace
    exact ⟨_, hops, fun hnil => absurd hnil (hbehind.mp hanchored)⟩
  case returned =>
    rcases hplace with ⟨-, hops⟩ | ⟨terminal, -, -, hops⟩
    · exact ⟨[], by rw [List.append_nil]; exact hops, fun _ => rfl⟩
    · exact ⟨_, hops, fun hnil => absurd hnil (hbehind.mp hanchored)⟩

/-- A reply that is not stale ends the generator only where the end has not been persisted. -/
theorem endMissing_of_fresh {r : Run.State κ ν} {g : Generator κ ν} {past rest : List (Stored κ ν)} {seen : ℕ}
    {terminal : List (TerminalEvent ν)} (hstaged : Staged r) (h : Tracks r g past rest)
    (hpc : g.pc = .replied [] seen)
    (hphase : r.phase = .returned terminal) (hfresh : isStale r g = false) : EndMissing terminal := by
  intro t ht hop
  by_contra hpersisted
  rw [Bool.not_eq_false] at hpersisted
  have hplace := h.place
  simp only [Place, hpc] at hplace
  obtain ⟨hnoEnd, -, -, hseen⟩ := hplace
  have hlength : r.store.events.length = seen := by
    simp only [isStale, hpc, hphase, Bool.and_eq_false_imp, List.any_eq_true, Bool.and_eq_true, beq_iff_eq,
      bne_eq_false_iff_eq] at hfresh
    exact hfresh ⟨t, ht, hop, hpersisted⟩
  -- nothing has come since the reply, so the generator has read all, and no end
  have hnil : rest = [] := by
    rw [h.events, List.length_append, hseen trivial] at hlength
    exact List.length_eq_zero_iff.mp (by omega)
  obtain ⟨event, hevent, hend⟩ := (hstaged.closed hphase).exists_end ht hop hpersisted
  rw [log_eq_of_tracks h, hnil, List.append_nil] at hevent
  obtain ⟨item, hitem, rfl⟩ := List.mem_map.mp hevent
  exact hnoEnd item hitem hend

/-- Where the end is persisted all terminal events are. -/
theorem missing_eq_nil {events : List (Envelope ν)} {terminal : List (TerminalEvent ν)}
    (h : Run.Closed events terminal)
    (hpersisted : (terminal.any fun t => t.data.op == .end_ && t.persisted) = true) (controls : List PatchOp) :
    missing controls terminal = [] := by
  cases h with
  | @ended base errors ends last persisted _ hterminal _ herrors hlast =>
    subst hterminal
    have hend : persisted = true := by
      rcases herrors with rfl | ⟨error, rfl, herror⟩
      · simpa [hlast] using hpersisted
      · simpa [herror, hlast] using hpersisted
    simp [missing, hend]
  | lost _ hterminal =>
    subst hterminal
    simp at hpersisted

theorem good_advance {r : Run.State κ ν} {g g' : Generator κ ν} {past rest : List (Stored κ ν)} (hstaged : Staged r)
    (h : Tracks r g past rest) (hfresh : isStale r g = false) (hanchored : Anchored g)
    (hmissing : ∀ events terminal, g.pc = .unpersisted events → r.phase = .returned terminal → EndMissing terminal)
    (hstep : next (ofPhase r.phase) g = some g') :
    Anchored g' ∧ (∀ events terminal, g'.pc = .unpersisted events → r.phase = .returned terminal →
      EndMissing terminal) ∧ (g'.pc = .returned → Shape (opsOf g')) := by
  have hplace := h.place
  unfold next at hstep
  unfold Anchored at hanchored
  cases hpc : g.pc <;> simp only [hpc, Place, reduceCtorEq] at hstep hplace hanchored
  case replied reply seen =>
    cases reply with
    | nil =>
      dsimp only at hstep
      split at hstep <;> obtain rfl := Option.some.inj hstep
      · refine ⟨hanchored, fun events terminal _ hphase => ?_, by simp⟩
        exact endMissing_of_fresh hstaged h hpc hphase hfresh
      · exact ⟨trivial, by simp, by simp⟩
      · exact ⟨trivial, by simp, by simp⟩
    | cons item more =>
      obtain rfl := Option.some.inj hstep
      exact ⟨trivial, by simp, by simp⟩
  case delivering batch =>
    cases batch with
    | nil =>
      obtain rfl := Option.some.inj hstep
      exact ⟨trivial, by simp, by simp⟩
    | cons item more =>
      obtain rfl := Option.some.inj hstep
      unfold Anchored
      dsimp only
      split_ifs <;> simp
  case ended =>
    obtain rfl := Option.some.inj hstep
    have hne : past ≠ [] := by
      obtain ⟨before, last, rfl, -⟩ := hplace.1
      simp
    refine ⟨(cursor_ne_none_iff h).mpr hne, by simp, fun _ => ?_⟩
    show Shape (opsOf g)
    rw [hplace.2]
    exact shape_of_throughEnd (log_eq_of_tracks h ▸ hstaged.graded) hplace.1
  case unpersisted events =>
    cases events with
    | nil =>
      obtain rfl := Option.some.inj hstep
      refine ⟨hanchored, by simp, fun _ => ?_⟩
      obtain ⟨terminal, given, hphase, hnoEnd, hgiven, hops⟩ := hplace
      rw [List.append_nil] at hgiven
      show Shape (opsOf g)
      rw [hops, ← hgiven]
      exact shape_of_missing (log_eq_of_tracks h ▸ hstaged.closed hphase) (hmissing [] terminal hpc hphase) hnoEnd
        h.controls
    | cons event more =>
      obtain rfl := Option.some.inj hstep
      exact ⟨hanchored, fun events terminal _ hphase => hmissing _ terminal hpc hphase, by simp⟩

/-! ## Every state -/

/-- What holds in a run in which nothing is lost. -/
structure Good (w : World κ ν) : Prop where
  opened : w.execution = true ∨ w.run.phase.begun = true ∧ w.run.phase ≠ .raised → Run.Opened w.run
  begun : ∀ g ∈ w.live, w.execution = true ∨ isReturned w.run.phase = true
  anchored : ∀ g ∈ w.live, Anchored g
  missing : ∀ g ∈ w.live, ∀ events terminal, g.pc = .unpersisted events → w.run.phase = .returned terminal →
    EndMissing terminal
  shape : ∀ g ∈ w.live, g.pc = .returned → Shape (opsOf g)

/-- The start is lost, or the generator has left its loop without an end. -/
def Bad (w : World κ ν) : Prop :=
  Run.Startless w.run ∨ ∃ g ∈ w.live, (g.pc = .unpersisted [] ∨ g.pc = .returned) ∧ .end_ ∉ opsOf g

theorem good_init (model : Run.Model ν) (time : ℕ) : Good (World.init model time : World κ ν) where
  opened := by simp [World.init, Run.State.init, Run.Phase.begun]
  begun := by simp [World.init]
  anchored := by simp [World.init]
  missing := by simp [World.init]
  shape := by simp [World.init]

/-- Where the generator is, the start has been stored. -/
theorem Good.opened_of_live {w : World κ ν} (h : Good w) {g : Generator κ ν} (hg : g ∈ w.live) :
    Run.Opened w.run := by
  apply h.opened
  rcases h.begun g hg with hexecution | hreturned
  · exact .inl hexecution
  · refine .inr ?_
    cases hphase : w.run.phase <;> simp [hphase, isReturned, Run.Phase.begun] at hreturned ⊢

section

variable [LinearOrder κ]

/-- What holds whatever fails. -/
structure Sound (w : World κ ν) : Prop where
  fits : Fits w.run
  staged : Staged w.run
  sorted : Sorted w.run.store.events
  tracks : ∀ g ∈ w.live, ∃ past rest, Tracks w.run g past rest

theorem sound_init (model : Run.Model ν) (time : ℕ) : Sound (World.init model time : World κ ν) where
  fits := rfl
  staged := Run.staged_init model time
  sorted := .nil
  tracks := by simp [World.init]

/-- The reply to a read is what is ahead of the generator. -/
theorem tracks_evaluate {r : Run.State κ ν} {g : Generator κ ν} {past rest : List (Stored κ ν)} {count : ℕ}
    (hcount : 0 < count) (hsorted : Sorted r.store.events) (h : Tracks r g past rest) (hpc : g.pc = .requested) :
    Tracks r { g with pc := .replied (r.store.read count g.cursor) r.store.events.length } past rest := by
  have hplace := h.place
  simp only [Place, hpc] at hplace
  have hread : r.store.read count g.cursor = rest.take count := by rw [Store.read, h.unread hsorted]
  refine ⟨h.events, h.cursor, h.controls, hplace.1, hplace.2, ?_, fun hnil => ?_⟩
  · rw [hread]
    exact List.take_prefix _ _
  · have hrest : rest = [] := by
      rw [hread, List.take_eq_nil_iff] at hnil
      exact hnil.resolve_left hcount.ne'
    rw [h.events, hrest, List.append_nil]

/-- An empty reply comes after the start. -/
theorem anchored_evaluate {r : Run.State κ ν} {g : Generator κ ν} {past rest : List (Stored κ ν)} {count : ℕ}
    (hcount : 0 < count) (hsorted : Sorted r.store.events) (hopened : Run.Opened r) (h : Tracks r g past rest)
    (hpc : g.pc = .requested) :
    Anchored { g with pc := .replied (r.store.read count g.cursor) r.store.events.length } := by
  have hplace := (tracks_evaluate hcount hsorted h hpc).place
  obtain ⟨first, more, hlog, -⟩ := hopened
  cases hreply : r.store.read count g.cursor with
  | nil =>
    -- an empty reply at the beginning is that of an empty stream
    simp only [Place, hreply] at hplace
    have hlength := hplace.2.2.2 trivial
    refine (cursor_ne_none_iff h).mpr ?_
    rintro rfl
    rw [Run.State.log, List.length_eq_zero_iff.mp hlength] at hlog
    simp at hlog
  | cons item more => trivial

/-- In a run in which nothing is lost the shape is right. -/
theorem delivered_of_good {w : World κ ν} (hsound : Sound w) (h : Good w) : Delivered w := by
  intro g hg
  refine ⟨fun op hop => ?_, h.shape g hg⟩
  obtain ⟨past, rest, htracks⟩ := hsound.tracks g hg
  obtain ⟨first, more, hlog, hstart⟩ := h.opened_of_live hg
  obtain ⟨tail, hops, hnil⟩ := ops_of_tracks htracks (h.anchored g hg)
  rw [log_eq_of_tracks htracks] at hlog
  cases past with
  | nil => simp [hops, hnil rfl, storedOps] at hop
  | cons item past =>
    obtain ⟨rfl, -⟩ := List.cons.inj hlog
    simp only [hops, storedOps, List.map_cons, List.cons_append, List.head?_cons, Option.mem_def,
      Option.some.injEq] at hop
    rw [← hop]
    exact hstart

/-- A generator that has returned after a loss has not yielded the shape of a delivery. -/
theorem not_delivered_of_bad {w : World κ ν} {g : Generator κ ν} (hsound : Sound w) (h : Bad w) (hg : g ∈ w.live)
    (hpc : g.pc = .returned) : ¬ Delivered w := by
  intro hdelivered
  obtain ⟨hhead, hshape⟩ := hdelivered g hg
  obtain ⟨body, errors, hops, -⟩ := hshape hpc
  rcases h with ⟨-, hstartless⟩ | ⟨g', hg', -, hend⟩
  · -- the first operation is a start, and none of the stream and of the terminal events is
    have hstart : .start ∈ opsOf g := by
      cases hfirst : opsOf g with
      | nil => simp [hfirst] at hops
      | cons op ops =>
        rw [hhead op (by simp [hfirst])]
        exact List.mem_cons_self
    obtain ⟨past, rest, htracks⟩ := hsound.tracks g hg
    have hpast : .start ∉ storedOps past := by
      intro hmem
      obtain ⟨item, hitem, hop⟩ := List.mem_map.mp hmem
      refine hstartless item.data ?_ hop
      rw [log_eq_of_tracks htracks, List.map_append]
      exact List.mem_append_left _ (List.mem_map_of_mem hitem)
    have hplace := htracks.place
    simp only [Place, hpc] at hplace
    rcases hplace with ⟨-, hops⟩ | ⟨terminal, hphase, -, hops⟩ <;> rw [hops] at hstart
    · exact hpast hstart
    · rcases List.mem_append.mp hstart with hmem | hmem
      · exact hpast hmem
      · simp only [missing, List.map_map, List.mem_map, List.mem_filter, Function.comp_apply] at hmem
        obtain ⟨t, ⟨ht, -⟩, hop⟩ := hmem
        rcases (hsound.staged.closed hphase).op ht with herror | hendOp
        · simp [herror] at hop
        · simp [hendOp] at hop
  · obtain rfl := Option.some.inj (Option.mem_def.mp hg' |>.symm.trans hg)
    exact hend (by rw [hops]; simp)

/-! ## Every step -/

variable [DecidableEq ν]

/-- The stream after a step of the run. -/
theorem events_step {r r' : Run.State κ ν} {l : Run.Label κ ν} (hsorted : Sorted r.store.events)
    (hstep : Run.step r l = some r') :
    ∃ more, r'.store.events = r.store.events ++ more ∧ Sorted r'.store.events := by
  rcases Run.store_move (Run.move_of_step hstep) with hstore | ⟨fresh, command, rest, rfl, hpending, rfl⟩
  · exact ⟨[], by rw [hstore, List.append_nil], by rwa [hstore]⟩
  · simp only [Run.step, hpending] at hstep
    split_ifs at hstep with hfresh
    exact Live.runOption_events hfresh hsorted (some command)

/-- What one step does. -/
inductive Move (count : ℕ) (w : World κ ν) : Label κ ν → World κ ν → Prop
  | run {l : Run.Label κ ν} {r : Run.State κ ν} : Run.step w.run l = some r →
    Move count w (.run l) { w with run := r, execution := w.execution || isSpawned r.phase }
  | begins : w.live = none → (w.execution = true ∨ isReturned w.run.phase = true) →
    Move count w .begins { w with live := some .init }
  | evaluate {g : Generator κ ν} : w.live = some g → g.pc = .requested →
    Move count w .evaluate { w with live := some { g with
      pc := .replied (w.run.store.read count g.cursor) w.run.store.events.length } }
  | advance {g g' : Generator κ ν} : w.live = some g → next (ofPhase w.run.phase) g = some g' →
    Move count w .advance { w with live := some g' }

theorem move_of_step {count : ℕ} {w w' : World κ ν} {l : Label κ ν} (hstep : step count w l = some w') :
    Move count w l w' := by
  cases l with
  | run l =>
    obtain ⟨r, hr, rfl⟩ := Option.map_eq_some_iff.mp hstep
    exact .run hr
  | begins =>
    simp only [step] at hstep
    split_ifs at hstep with hguard
    obtain rfl := Option.some.inj hstep
    exact .begins (by simpa using hguard.1) (by simpa using hguard.2)
  | evaluate =>
    simp only [step] at hstep
    cases hlive : w.live with
    | none => simp [hlive] at hstep
    | some g =>
      simp only [hlive] at hstep
      split at hstep
      · rename_i hmatches
        obtain rfl := Option.some.inj hstep
        have hpc : g.pc = .requested := by
          cases hpc : g.pc <;> simp [hpc] at hmatches
          rfl
        exact .evaluate hlive hpc
      · simp at hstep
  | advance =>
    simp only [step] at hstep
    cases hlive : w.live with
    | none => simp [hlive] at hstep
    | some g =>
      simp only [hlive] at hstep
      obtain ⟨g', hg', rfl⟩ := Option.map_eq_some_iff.mp hstep
      exact .advance hlive hg'

theorem sound_move {count : ℕ} (hcount : 0 < count) {w w' : World κ ν} {l : Label κ ν} (h : Sound w)
    (hmove : Move count w l w') : Sound w' := by
  cases hmove with
  | run hr =>
    have hrun := Run.move_of_step hr
    obtain ⟨more, hevents, hsorted⟩ := events_step h.sorted hr
    refine ⟨Run.fits_move h.fits hrun, Run.staged_move h.fits h.staged hrun, hsorted, fun g hg => ?_⟩
    obtain ⟨past, rest, htracks⟩ := h.tracks g hg
    exact ⟨past, rest ++ more, htracks.grow hevents fun terminal hphase => Run.returned_move hphase hrun⟩
  | begins =>
    refine ⟨h.fits, h.staged, h.sorted, ?_⟩
    rintro g ⟨⟩
    exact ⟨[], _, tracks_init w.run⟩
  | evaluate hlive hpc =>
    refine ⟨h.fits, h.staged, h.sorted, ?_⟩
    rintro _ ⟨⟩
    obtain ⟨past, rest, htracks⟩ := h.tracks _ hlive
    exact ⟨past, rest, tracks_evaluate hcount h.sorted htracks hpc⟩
  | advance hlive hnext =>
    refine ⟨h.fits, h.staged, h.sorted, ?_⟩
    rintro _ ⟨⟩
    obtain ⟨past, rest, htracks⟩ := h.tracks _ hlive
    exact tracks_advance htracks hnext

theorem good_move {count : ℕ} (hcount : 0 < count) {w w' : World κ ν} {l : Label κ ν} (hsound : Sound w) (h : Good w)
    (hkept : Kept w l) (hmove : Move count w l w') : Good w' := by
  cases hmove with
  | @run l r hr =>
    have hrun := Run.move_of_step hr
    have hopened := Run.opened_move hsound.staged hkept (fun hbegun hraised => h.opened (.inr ⟨hbegun, hraised⟩)) hrun
    refine ⟨?_, fun g hg => ?_, h.anchored, fun g hg events terminal hpc hphase => ?_, h.shape⟩
    · rintro (hexecution | ⟨hbegun, hraised⟩)
      · rcases Bool.or_eq_true_iff.mp hexecution with hexecution | hspawned
        · exact (h.opened (.inl hexecution)).move hrun
        · have hphase : r.phase = .spawned := by
            cases hphase : r.phase <;> simp [hphase, isSpawned] at hspawned
            rfl
          exact hopened (by rw [hphase]; rfl) (by simp [hphase])
      · exact hopened hbegun hraised
    · rcases h.begun g hg with hexecution | hreturned
      · exact .inl (by simp [hexecution])
      · refine .inr ?_
        cases hphase : w.run.phase <;> simp only [hphase, isReturned, reduceCtorEq] at hreturned
        show isReturned r.phase = true
        rw [Run.returned_move hphase hrun]
        rfl
    -- the generator that yields terminal events has seen the result, which stays
    · obtain ⟨past, rest, htracks⟩ := hsound.tracks g hg
      have hplace := htracks.place
      simp only [Place, hpc] at hplace
      obtain ⟨terminal', given, hphase', -⟩ := hplace
      obtain rfl : terminal' = terminal := by
        have hsame := (Run.returned_move hphase' hrun).symm.trans hphase
        simpa using hsame
      exact h.missing g hg events terminal' hpc hphase'
  | begins _ hbegun =>
    refine ⟨h.opened, ?_, ?_, ?_, ?_⟩
    · rintro g ⟨⟩
      exact hbegun
    all_goals
      rintro g ⟨⟩
      simp [Anchored, Generator.init]
  | @evaluate g hlive hpc =>
    obtain ⟨past, rest, htracks⟩ := hsound.tracks g hlive
    refine ⟨h.opened, ?_, ?_, ?_, ?_⟩
    · rintro _ ⟨⟩
      exact h.begun g hlive
    · rintro _ ⟨⟩
      exact anchored_evaluate hcount hsound.sorted (h.opened_of_live hlive) htracks hpc
    all_goals
      rintro _ ⟨⟩
      simp
  | @advance g g' hlive hnext =>
    obtain ⟨past, rest, htracks⟩ := hsound.tracks g hlive
    obtain ⟨hanchored, hmissing, hshape⟩ := good_advance hsound.staged htracks (hkept g hlive) (h.anchored g hlive)
      (h.missing g hlive) hnext
    refine ⟨h.opened, ?_, ?_, ?_, ?_⟩
    · rintro _ ⟨⟩
      exact h.begun g hlive
    · rintro _ ⟨⟩
      exact hanchored
    · rintro _ ⟨⟩
      exact hmissing
    · rintro _ ⟨⟩
      exact hshape

/-- What is lost stays lost. -/
theorem bad_move {count : ℕ} {w w' : World κ ν} {l : Label κ ν} (hsound : Sound w) (h : Bad w)
    (hmove : Move count w l w') : Bad w' := by
  rcases h with hstartless | ⟨g, hg, hpc, hend⟩
  · cases hmove with
    | run hr => exact .inl (Run.startless_move hsound.fits hsound.staged hstartless (Run.move_of_step hr))
    | begins | evaluate | advance => exact .inl hstartless
  -- a generator behind its loop yields nothing more
  · cases hmove with
    | run => exact .inr ⟨g, hg, hpc, hend⟩
    | begins hnone => simp [hnone] at hg
    | evaluate hlive hrequested =>
      obtain rfl := Option.some.inj (hlive.symm.trans hg)
      rcases hpc with hpc | hpc <;> simp [hpc] at hrequested
    | advance hlive hnext =>
      obtain rfl := Option.some.inj (hlive.symm.trans hg)
      rcases hpc with hpc | hpc <;> simp only [next, hpc, reduceCtorEq] at hnext
      obtain rfl := Option.some.inj hnext
      exact .inr ⟨_, rfl, .inr rfl, hend⟩

theorem bad_of_not_kept {count : ℕ} {w w' : World κ ν} {l : Label κ ν} (hsound : Sound w) (hkept : ¬ Kept w l)
    (hmove : Move count w l w') : Bad w' := by
  cases hmove with
  | run hr => exact .inl (Run.startless_of_losesStart (by simpa [Kept] using hkept) hr)
  | begins | evaluate => exact absurd trivial hkept
  | @advance g g' hlive hnext =>
    have hstale : isStale w.run g = true := by
      by_contra hfresh
      refine hkept fun g' hg' => ?_
      obtain rfl := Option.some.inj (hlive.symm.trans hg')
      simpa using hfresh
    obtain ⟨past, rest, htracks⟩ := hsound.tracks g hlive
    have hplace := htracks.place
    unfold isStale at hstale
    split at hstale
    · rename_i hpc hphase
      simp only [next, hpc, hphase, ofPhase, Option.some.injEq] at hnext
      subst hnext
      simp only [Place, hpc] at hplace
      refine .inr ⟨_, rfl, .inl ?_, ?_⟩
      · rw [missing_eq_nil (hsound.staged.closed hphase) (Bool.and_eq_true_iff.mp hstale).1]
      · show .end_ ∉ opsOf g
        rw [hplace.2.1]
        intro hmem
        obtain ⟨item, hitem, hop⟩ := List.mem_map.mp hmem
        exact hplace.1 item hitem hop
    · simp at hstale

/-! ## The shape of a delivery -/

/-- Whatever commands fail: while no step loses the start and no stale reply ends the generator, the shape of what
is yielded is right in every state. A generator that has returned has yielded the right shape exactly then. -/
theorem delivery_shape_iff (count : ℕ) (hcount : 0 < count) (model : Run.Model ν) (time : ℕ)
    (labels : List (Label κ ν))
    (w : World κ ν) (hrun : Machine.exec (step count) (World.init model time) labels = some w) :
    (Machine.AllSteps (step count) Kept (World.init model time) labels →
      Machine.AllStates (step count) Delivered (World.init model time) labels) ∧
    ∀ g ∈ w.live, g.pc = .returned →
      (Delivered w ↔ Machine.AllSteps (step count) Kept (World.init model time) labels) := by
  have hsoundStep : ∀ (w : World κ ν) l w', Sound w → step count w l = some w' → Sound w' :=
    fun w l w' h hstep => sound_move hcount h (move_of_step hstep)
  have hforward : Machine.AllSteps (step count) Kept (World.init model time) labels →
      Machine.AllStates (step count) (fun w => Sound w ∧ Good w) (World.init model time) labels := by
    refine Machine.allStates_of_allSteps (fun w l w' h hkept hstep => ?_)
      ⟨sound_init model time, good_init model time⟩
    exact ⟨hsoundStep w l w' h.1 hstep, good_move hcount h.1 h.2 hkept (move_of_step hstep)⟩
  have hdelivered := fun hkept => (hforward hkept).mono fun w h => delivered_of_good h.1 h.2
  refine ⟨hdelivered, fun g hg hpc => ⟨fun h => ?_, fun hkept => (hdelivered hkept).last hrun⟩⟩
  -- a step that is not kept leaves a bad state, and no state with this end is bad
  have hbadStep : ∀ (w : World κ ν) l w', Sound w ∧ Bad w → step count w l = some w' → Sound w' ∧ Bad w' :=
    fun w l w' h hstep => ⟨hsoundStep w l w' h.1 hstep, bad_move h.1 h.2 (move_of_step hstep)⟩
  have hsound := Machine.exec_invariant hsoundStep (sound_init model time) hrun
  have hnotBad : ¬ (Sound w ∧ Bad w) := fun hbad => not_delivered_of_bad hsound hbad.2 hg hpc h
  refine Machine.allSteps_of_good_end hsoundStep hbadStep (fun w l w' h hstep hbad => ?_) (sound_init model time) hrun
    hnotBad
  by_contra hkept
  exact hbad ⟨hsoundStep w l w' h hstep, bad_of_not_kept h hkept (move_of_step hstep)⟩

end

/-- The publish of the error fails, so that the generator adds the error and the end. -/
def losesError : List (Label ℕ ℕ) :=
  Run.startsChat.map .run ++ [.run (.raises Run.silentError), .begins, .evaluate, .advance, .advance, .advance,
    .run .returns, .run (.fails Run.silentError), .run (.send 2), .run (.send 2), .run (.send 2), .run .resumes,
    .evaluate, .advance, .advance, .advance, .advance]

theorem delivery_shape_iff_losesError : ∃ w g,
    Machine.exec (step 100) (World.init Run.chatModel 0) losesError = some w ∧ w.live = some g ∧ g.pc = .returned ∧
    (Delivered w ↔ Machine.AllSteps (step 100) Kept (World.init Run.chatModel 0) losesError) := by
  have hrun : ((Machine.exec (step 100) (World.init Run.chatModel 0) losesError).bind World.live).map
      (fun g => (opsOf g, g.pc matches .returned)) = some ([.start, .error, .end_], true) := by decide +kernel
  obtain ⟨g, hg, hreturned⟩ := Option.map_eq_some_iff.mp hrun
  obtain ⟨w, hw, hlive⟩ := Option.bind_eq_some_iff.mp hg
  have hpc : g.pc = .returned := by
    cases hpc : g.pc <;> simp [hpc] at hreturned
    rfl
  exact ⟨w, g, hw, hlive, hpc, (delivery_shape_iff 100 (by decide) Run.chatModel 0 losesError w hw).2 g hlive hpc⟩

/-- Both publishes of the start fail, and nothing else: what is yielded begins with the error. -/
theorem losing_start_breaks_shape :
    ¬ ∀ (model : Run.Model ℕ) (labels : List (Label ℕ ℕ)) (w : World ℕ ℕ),
      (∀ error, .run (.fails error) ∈ labels → error.cancelled = false) →
      Machine.exec (step 100) (World.init model 0) labels = some w → Delivered w := by
  intro h
  let labels : List (Label ℕ ℕ) := [.run .returns, .run (.fails Run.silentError), .run (.fails Run.silentError),
    .run .returns, .run (.send 1), .run (.send 2), .run (.send 2), .run .resumes, .run (.send 2), .run (.send 3),
    .run (.send 3), .run .resumes, .run (.send 3), .run (.send 3), .run (.send 3), .run .resumes, .begins, .evaluate,
    .advance, .advance, .advance, .advance]
  have hrun : ((Machine.exec (step 100) (World.init Run.chatModel 0) labels).bind World.live).map opsOf =
      some [.error, .end_] := by decide +kernel
  obtain ⟨g, hg, hops⟩ := Option.map_eq_some_iff.mp hrun
  obtain ⟨w, hw, hlive⟩ := Option.bind_eq_some_iff.mp hg
  have hfails : ∀ error, .run (.fails error) ∈ labels → error.cancelled = false := by
    intro error hmem
    simp only [labels, List.mem_cons, Label.run.injEq, Run.Label.fails.injEq, reduceCtorEq, List.not_mem_nil,
      false_or, or_false, or_self] at hmem
    subst hmem
    rfl
  have hhead := (h Run.chatModel labels w hfails hw g hlive).1 .error (by rw [hops]; rfl)
  exact absurd hhead (by decide)

end AgentUE.PythonRunner.Watched
