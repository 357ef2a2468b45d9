import AgentUE.Data.Cursors
import AgentUE.Data.Machine
import AgentUE.PythonRunner.Executor

/-!
# Python runner: live delivery

Reference: `_stream_live` in `sdks/python/src/agentue/runner/runner.py`. The loop reads the stream of the
task while its execute task writes it; Redis computes the reply to a read at one moment and the loop looks
at it at a later one. The loop that ends by itself has yielded the whole stream exactly when it never took
an old empty reply for the end of an ended task.
-/

namespace AgentUE.PythonRunner.Live

open Data

variable {κ ν : Type}

/-- `_TerminalEvent` -/
structure TerminalEvent (ν : Type) where
  data : Envelope ν
  persisted : Bool
deriving DecidableEq

/-- `_ExecutionResult`: no publish fails, so every terminal event is stored. -/
def executionResult (terminal : List (Envelope ν)) : List (TerminalEvent ν) := terminal.map fun event => ⟨event, true⟩

/-- `DeliveryEvent`: a stored event, a ping or a terminal event that is not stored. -/
inductive Delivery (κ ν : Type) where
  | stored (item : Stored κ ν)
  | ping
  | unpersisted (event : Envelope ν)
deriving DecidableEq

/-- Where the generator stands. -/
inductive Pc (κ ν : Type) where
  /-- `read` has been sent -/
  | requested
  /-- Redis has computed the reply; `seen` is the length of the stream at that moment, which no code reads -/
  | replied (reply : List (Stored κ ν)) (seen : ℕ)
  /-- in the loop over a reply -/
  | delivering (batch : List (Stored κ ν))
  /-- behind the `yield` of an end -/
  | ended
  /-- in the loop over the terminal events that are not stored -/
  | unpersisted (events : List (Envelope ν))
  | returned
  /-- `execution.result()` raises the cancellation of the execute task -/
  | raised
deriving DecidableEq

/-- The generator with `current_cursor`, `delivered_control_ops` and what it has yielded. -/
structure Generator (κ ν : Type) where
  pc : Pc κ ν
  cursor : Option κ
  controls : List PatchOp
  yielded : List (Delivery κ ν)
deriving DecidableEq

/-- A generator that has sent its first read, from `"0-0"`. -/
def Generator.init : Generator κ ν := ⟨.requested, none, [], []⟩

/-- The operation is noted in `delivered_control_ops`. -/
def isControl (op : PatchOp) : Bool := op == .start || op == .error || op == .end_

/-- One step of the generator: from one suspension to the next, or a `yield`. -/
def Generator.advance (executor : Executor ν) (g : Generator κ ν) : Option (Generator κ ν) :=
  match g.pc with
  | .replied [] _ =>
    match executor.phase with
    | .returned terminal =>
      let missing := (executionResult terminal).filter fun t => !t.persisted && !g.controls.contains t.data.op
      some { g with pc := .unpersisted (missing.map TerminalEvent.data) }
    | .aborted => some { g with pc := .raised }
    -- the task goes on
    | _ => some { g with pc := .requested, yielded := g.yielded ++ [.ping] }
  | .replied reply _ => some { g with pc := .delivering reply }
  | .delivering (item :: rest) =>
    some { g with
      pc := if item.data.op = .end_ then .ended else .delivering rest
      cursor := some item.cursor
      controls := if isControl item.data.op then item.data.op :: g.controls else g.controls
      yielded := g.yielded ++ [.stored item] }
  | .delivering [] => some { g with pc := .requested }
  | .ended => some { g with pc := .returned }
  | .unpersisted (event :: rest) =>
    some { g with pc := .unpersisted rest, yielded := g.yielded ++ [.unpersisted event] }
  | .unpersisted [] => some { g with pc := .returned }
  | .requested | .returned | .raised => none

/-- The keys of the task, its execute task and the generator. -/
structure World (κ ν : Type) where
  store : Store κ ν
  executor : Executor ν
  live : Generator κ ν
deriving DecidableEq

/-- A step of the execute task, the moment at which Redis computes the reply to a read, or a step of the
generator. -/
inductive Label (κ ν : Type) where
  | execute (action : Action ν) (fresh : κ)
  | evaluate
  | advance
deriving DecidableEq

/-- One step; `count` is `stream_read_count`. An empty reply is computed when the read has waited for as long
as it may. -/
def step [LinearOrder κ] (count : ℕ) (w : World κ ν) : Label κ ν → Option (World κ ν)
  | .execute action fresh =>
    match w.executor.step action with
    | none => none
    | some (command, executor) =>
      if w.store.accepts fresh then some { w with store := w.store.runOption fresh command, executor := executor }
      else none
  | .evaluate =>
    if w.live.pc matches .requested then
      some { w with live := { w.live with pc := .replied (w.store.read count w.live.cursor) w.store.events.length } }
    else none
  | .advance => (w.live.advance w.executor).map fun live => { w with live := live }

/-! ## What is asked of the runs -/

/-- The stored events among the deliveries. -/
def storedOf (yielded : List (Delivery κ ν)) : List (Stored κ ν) :=
  yielded.filterMap fun delivery => match delivery with
    | .stored item => some item
    | _ => none

/-- The events end with an end and hold no other. -/
def ThroughEnd (items : List (Stored κ ν)) : Prop :=
  ∃ before last, items = before ++ [last] ∧ last.data.op = .end_ ∧ ∀ item ∈ before, item.data.op ≠ .end_

/-- The stored events that have been yielded are those of the stream through its end, in their order. -/
def Complete (w : World κ ν) : Prop :=
  storedOf w.live.yielded <+: w.store.events ∧ ThroughEnd (storedOf w.live.yielded)

/-- Where the generator looks at an empty reply after the execute task is done, nothing has been stored since
Redis computed that reply. -/
def Prompt (w : World κ ν) (l : Label κ ν) : Prop :=
  l = .advance → ∀ seen, w.live.pc = .replied [] seen → w.executor.done = true → w.store.events.length = seen

/-- A task that is executed, with no end in its stream, and a generator that begins. -/
structure Begun [LinearOrder κ] (w : World κ ν) : Prop where
  sorted : w.store.events.Pairwise fun a b => a.cursor < b.cursor
  noEnd : ∀ item ∈ w.store.events, item.data.op ≠ .end_
  phase : w.executor.phase = .business
  pending : w.executor.pending = []
  live : w.live = .init

/-! ## The end of an execute task -/

/-- A task that has come to its terminal events has its end ahead or has stored it, and one that has returned
has nothing ahead. -/
structure Settled (executor : Executor ν) (events : List (Stored κ ν)) : Prop where
  sound : executor.Sound
  finalizing : ∀ terminal, executor.phase = .finalizing terminal → Course .ending executor.pending ∨ Ended events
  returned : ∀ terminal, executor.phase = .returned terminal → Ended events

theorem ended_run {fresh : κ} {command : Command ν} {store : Store κ ν} (h : Ended store.events) :
    Ended (store.run fresh command).events := by
  cases command with
  | xadd event => exact ended_append.mpr (.inl h)
  | _ => exact h

/-- The first command of a course to an end is that end, or leaves it ahead. -/
theorem ended_or_course {command : Command ν} {rest : List (Command ν)} (h : Course .ending (command :: rest))
    (fresh : κ) (store : Store κ ν) : Course .ending rest ∨ Ended (store.run fresh command).events := by
  cases h with
  | plain _ _ hrest => exact .inl hrest
  | end_ hop _ => exact .inr (ended_append.mpr (.inr hop))

theorem settled_of_phase {e : Executor ν} {events : List (Stored κ ν)} (hsound : e.Sound)
    (hfinalizing : ∀ terminal, e.phase ≠ .finalizing terminal)
    (hreturned : ∀ terminal, e.phase ≠ .returned terminal) :
    Settled e events :=
  ⟨hsound, fun terminal h => absurd h (hfinalizing terminal), fun terminal h => absurd h (hreturned terminal)⟩

theorem settled_step {e e' : Executor ν} {store : Store κ ν} {action : Action ν} {command : Option (Command ν)}
    (h : Settled e store.events) (hstep : e.step action = some (command, e')) (fresh : κ) :
    Settled e' (store.runOption fresh command).events := by
  have hsound : e'.Sound := by
    cases Executor.move_step h.sound hstep <;> assumption
  cases Executor.stepped_of_step hstep with
  | emits hphase =>
    rcases hphase with hphase | ⟨error, hphase⟩
    · exact settled_of_phase hsound (by simp [hphase]) (by simp [hphase])
    · exact settled_of_phase hsound (by simp [hphase]) (by simp [hphase])
  | yields => exact settled_of_phase hsound (by simp) (by simp)
  | @sendEvent seq command rest hphase hpending =>
    exact settled_of_phase hsound (by cases rest <;> simp [Executor.sent, hphase])
      (by cases rest <;> simp [Executor.sent, hphase])
  | @sendEnd terminal command rest hphase hpending =>
    refine ⟨hsound, fun _ _ => ?_, by simp [Executor.sent, hphase]⟩
    simp only [Executor.sent, hphase, Store.runOption]
    rcases h.finalizing terminal hphase with hcourse | hended
    · rw [hpending] at hcourse
      exact ended_or_course hcourse fresh store
    · exact .inr (ended_run hended)
  | finish => exact settled_of_phase hsound (by simp) (by simp)
  | completed => exact ⟨hsound, fun _ _ => .inl (course_finalizeCommands _ _), by simp⟩
  | exit hphase hpending =>
    refine ⟨hsound, by simp, fun _ _ => ?_⟩
    rcases h.finalizing _ hphase with hcourse | hended
    · rw [hpending] at hcourse
      cases hcourse
    · exact hended
  | abort => exact settled_of_phase hsound (by simp) (by simp)

/-! ## The loop -/

/-- The generator is reading. -/
def Pc.reading : Pc κ ν → Bool
  | .requested | .replied _ _ | .delivering _ => true
  | _ => false

/-- The generator has yielded `past`, `rest` is ahead. -/
structure Loop [LinearOrder κ] (w : World κ ν) (past rest : List (Stored κ ν)) : Prop where
  events : w.store.events = past ++ rest
  sorted : w.store.events.Pairwise fun a b => a.cursor < b.cursor
  settled : Settled w.executor w.store.events
  cursor : w.live.cursor = past.getLast?.map Stored.cursor
  yielded : storedOf w.live.yielded = past
  noEnd : w.live.pc.reading = true → ∀ item ∈ past, item.data.op ≠ .end_
  reply : ∀ reply seen, w.live.pc = .replied reply seen → reply <+: rest ∧ (reply = [] → seen = past.length)
  batch : ∀ batch, w.live.pc = .delivering batch → batch <+: rest
  ended : w.live.pc = .ended → ThroughEnd past

/-- A command lengthens the stream, if it changes it, by an entry behind all others. -/
theorem runOption_events [LinearOrder κ] {store : Store κ ν} {fresh : κ} (hfresh : store.accepts fresh = true)
    (hsorted : store.events.Pairwise fun a b => a.cursor < b.cursor) (command : Option (Command ν)) :
    ∃ more, (store.runOption fresh command).events = store.events ++ more ∧
      (store.runOption fresh command).events.Pairwise fun a b => a.cursor < b.cursor := by
  have hsame : ∃ more, store.events = store.events ++ more ∧ store.events.Pairwise fun a b => a.cursor < b.cursor :=
    ⟨[], by simp, hsorted⟩
  cases command with
  | none => exact hsame
  | some command =>
    cases command with
    | xadd event =>
      refine ⟨_, rfl, List.pairwise_append.mpr ⟨hsorted, by simp, fun a ha b hb => ?_⟩⟩
      obtain rfl := List.mem_singleton.mp hb
      simpa using List.all_eq_true.mp hfresh a ha
    | _ => exact hsame

/-- A step of the execute task only lengthens what is ahead of the generator. -/
theorem loop_execute [LinearOrder κ] {w : World κ ν} {past rest : List (Stored κ ν)} (h : Loop w past rest)
    {action : Action ν} {command : Option (Command ν)} {executor : Executor ν} {fresh : κ}
    (hstep : w.executor.step action = some (command, executor)) (hfresh : w.store.accepts fresh = true) :
    ∃ more, Loop { w with store := w.store.runOption fresh command, executor := executor } past (rest ++ more) := by
  obtain ⟨more, hmore, hsorted⟩ := runOption_events hfresh h.sorted command
  refine ⟨more, ?_, hsorted, settled_step h.settled hstep fresh, h.cursor, h.yielded, h.noEnd, ?_, ?_, h.ended⟩
  · rw [hmore, h.events, List.append_assoc]
  -- a reply that was ahead is still ahead, and an empty one is as old as before
  · intro reply seen hpc
    obtain ⟨hreply, hseen⟩ := h.reply reply seen hpc
    exact ⟨hreply.trans (List.prefix_append _ _), hseen⟩
  · intro batch hpc
    exact (h.batch batch hpc).trans (List.prefix_append _ _)

/-- The reply to a read is what is ahead of the generator at that moment. -/
theorem loop_evaluate [LinearOrder κ] {w : World κ ν} {past rest : List (Stored κ ν)} (h : Loop w past rest)
    {count : ℕ} (hcount : 0 < count) (hpc : w.live.pc = .requested) :
    Loop { w with live := { w.live with
      pc := .replied (w.store.read count w.live.cursor) w.store.events.length } } past rest := by
  have hread : w.store.read count w.live.cursor = rest.take count := by
    have hsorted := h.sorted
    rw [h.events] at hsorted
    rw [Store.read, h.events, h.cursor, unread_append hsorted]
  refine ⟨h.events, h.sorted, h.settled, h.cursor, h.yielded, fun _ => h.noEnd (by rw [hpc]; rfl),
    ?_, by simp, by simp⟩
  rintro reply seen hreplied
  obtain ⟨rfl, rfl⟩ : w.store.read count w.live.cursor = reply ∧ w.store.events.length = seen := by
    simpa using hreplied
  refine ⟨by rw [hread]; exact List.take_prefix _ _, fun hempty => ?_⟩
  have hnil : rest = [] := by
    rw [hread, List.take_eq_nil_iff] at hempty
    exact hempty.resolve_left hcount.ne'
  rw [h.events, hnil, List.append_nil]

/-- The same place in the stream. -/
theorem Loop.congr [LinearOrder κ] {w : World κ ν} {past rest : List (Stored κ ν)} (h : Loop w past rest)
    {g : Generator κ ν} (hcursor : g.cursor = w.live.cursor) (hyielded : storedOf g.yielded = storedOf w.live.yielded)
    (hnoEnd : g.pc.reading = true → ∀ item ∈ past, item.data.op ≠ .end_)
    (hreply : ∀ reply seen, g.pc ≠ .replied reply seen) (hbatch : ∀ batch, g.pc = .delivering batch → batch <+: rest)
    (hended : g.pc ≠ .ended) : Loop { w with live := g } past rest where
  events := h.events
  sorted := h.sorted
  settled := h.settled
  cursor := hcursor.trans h.cursor
  yielded := hyielded.trans h.yielded
  noEnd := hnoEnd
  reply reply seen hpc := absurd hpc (hreply reply seen)
  batch := hbatch
  ended hpc := absurd hpc hended

theorem storedOf_concat_stored (yielded : List (Delivery κ ν)) (item : Stored κ ν) :
    storedOf (yielded ++ [.stored item]) = storedOf yielded ++ [item] := by
  simp [storedOf]

/-- A step of the generator leaves it in its loop, or has ended it. -/
theorem loop_advance [LinearOrder κ] {w : World κ ν} {past rest : List (Stored κ ν)} (h : Loop w past rest)
    {g : Generator κ ν} (hstep : w.live.advance w.executor = some g) :
    ∃ past' rest', Loop { w with live := g } past' rest' := by
  unfold Generator.advance at hstep
  cases hpc : w.live.pc with
  | requested => simp [hpc] at hstep
  | returned => simp [hpc] at hstep
  | raised => simp [hpc] at hstep
  | replied reply seen =>
    have hnoEnd := h.noEnd (by rw [hpc]; rfl)
    cases reply with
    | nil =>
      simp only [hpc] at hstep
      split at hstep <;> obtain rfl := Option.some.inj hstep
      · exact ⟨past, rest, h.congr rfl rfl (fun _ => hnoEnd) (by simp) (by simp) (by simp)⟩
      · exact ⟨past, rest, h.congr rfl rfl (fun _ => hnoEnd) (by simp) (by simp) (by simp)⟩
      · exact ⟨past, rest, h.congr rfl (by simp [storedOf]) (fun _ => hnoEnd) (by simp) (by simp) (by simp)⟩
    | cons item more =>
      simp only [hpc, Option.some.injEq] at hstep
      subst hstep
      refine ⟨past, rest, h.congr rfl rfl (fun _ => hnoEnd) (by simp) ?_ (by simp)⟩
      rintro batch hbatch
      obtain rfl : item :: more = batch := by simpa using hbatch
      exact (h.reply _ _ hpc).1
  | delivering batch =>
    have hnoEnd := h.noEnd (by rw [hpc]; rfl)
    cases batch with
    | nil =>
      simp only [hpc, Option.some.injEq] at hstep
      subst hstep
      exact ⟨past, rest, h.congr rfl rfl (fun _ => hnoEnd) (by simp) (by simp) (by simp)⟩
    | cons item more =>
      -- the event goes behind the generator; an end takes it out of the loop
      obtain ⟨ahead, rfl⟩ := h.batch _ hpc
      simp only [hpc, Option.some.injEq] at hstep
      subst hstep
      refine ⟨past ++ [item], more ++ ahead, ?_, h.sorted, h.settled, by simp, ?_, ?_, ?_, ?_, ?_⟩
      · rw [h.events, List.append_assoc]
        rfl
      · rw [storedOf_concat_stored, h.yielded]
      · intro hreading e he
        rcases List.mem_append.mp he with he | he
        · exact hnoEnd e he
        · rw [List.mem_singleton.mp he]
          intro hop
          simp [hop, Pc.reading] at hreading
      · intro reply seen
        dsimp only
        split_ifs <;> simp
      · intro batch hbatch
        dsimp only at hbatch
        split_ifs at hbatch
        obtain rfl : more = batch := by simpa using hbatch
        exact List.prefix_append _ _
      · intro hended
        dsimp only at hended
        split_ifs at hended with hop
        exact ⟨past, item, rfl, hop, hnoEnd⟩
  | ended =>
    simp only [hpc, Option.some.injEq] at hstep
    subst hstep
    exact ⟨past, rest, h.congr rfl rfl (by simp [Pc.reading]) (by simp) (by simp) (by simp)⟩
  | unpersisted events =>
    cases events <;> simp only [hpc, Option.some.injEq] at hstep <;> subst hstep
    · exact ⟨past, rest, h.congr rfl rfl (by simp [Pc.reading]) (by simp) (by simp) (by simp)⟩
    · exact ⟨past, rest, h.congr rfl (by simp [storedOf]) (by simp [Pc.reading]) (by simp) (by simp) (by simp)⟩

/-- What one step can do. -/
theorem step_cases [LinearOrder κ] {count : ℕ} {w w' : World κ ν} {l : Label κ ν} (h : step count w l = some w') :
    (∃ action fresh command executor, l = .execute action fresh ∧ w.executor.step action = some (command, executor) ∧
        w.store.accepts fresh = true ∧
        w' = { w with store := w.store.runOption fresh command, executor := executor }) ∨
      (l = .evaluate ∧ w.live.pc = .requested ∧ w' = { w with live := { w.live with
        pc := .replied (w.store.read count w.live.cursor) w.store.events.length } }) ∨
      (l = .advance ∧ ∃ g, w.live.advance w.executor = some g ∧ w' = { w with live := g }) := by
  cases l with
  | execute action fresh =>
    simp only [step] at h
    cases haction : w.executor.step action with
    | none => simp [haction] at h
    | some p =>
      simp only [haction] at h
      split at h
      · rename_i hfresh
        exact .inl ⟨action, fresh, p.1, p.2, rfl, haction, hfresh, (Option.some.inj h).symm⟩
      · simp at h
  | evaluate =>
    simp only [step] at h
    split at h
    · rename_i hpc
      refine .inr (.inl ⟨rfl, ?_, (Option.some.inj h).symm⟩)
      cases hreq : w.live.pc <;> simp [hreq] at hpc
      rfl
    · simp at h
  | advance =>
    obtain ⟨g, hg, rfl⟩ := Option.map_eq_some_iff.mp h
    exact .inr (.inr ⟨rfl, g, hg, rfl⟩)

/-- The generator is somewhere in the stream. -/
def InLoop [LinearOrder κ] (w : World κ ν) : Prop := ∃ past rest, Loop w past rest

theorem inLoop_step [LinearOrder κ] {count : ℕ} (hcount : 0 < count) {w w' : World κ ν} {l : Label κ ν}
    (h : InLoop w) (hstep : step count w l = some w') : InLoop w' := by
  obtain ⟨past, rest, hloop⟩ := h
  rcases step_cases hstep with ⟨action, fresh, command, executor, -, haction, hfresh, rfl⟩ | ⟨-, hpc, rfl⟩ |
    ⟨-, g, hg, rfl⟩
  · obtain ⟨more, hloop⟩ := loop_execute hloop haction hfresh
    exact ⟨past, rest ++ more, hloop⟩
  · exact ⟨past, rest, loop_evaluate hloop hcount hpc⟩
  · exact loop_advance hloop hg

theorem Begun.inLoop [LinearOrder κ] {w : World κ ν} (h : Begun w) : InLoop w := by
  refine ⟨[], w.store.events, rfl, h.sorted, ?_, by rw [h.live]; rfl, by rw [h.live]; rfl, by simp,
    by simp [h.live, Generator.init], by simp [h.live, Generator.init], by simp [h.live, Generator.init]⟩
  have hsound : w.executor.Sound :=
    ⟨⟨.quiet, by rw [h.pending]; exact .nil⟩, fun _ => h.pending, by simp [h.phase], by simp [h.phase]⟩
  exact settled_of_phase hsound (by simp [h.phase]) (by simp [h.phase])

/-! ## Ending by itself -/

/-- The generator has left its loop without an end, or fails. -/
def Missed (w : World κ ν) : Prop :=
  w.live.pc = .raised ∨
    ((∃ events, w.live.pc = .unpersisted events) ∨ w.live.pc = .returned) ∧
      ∀ item ∈ storedOf w.live.yielded, item.data.op ≠ .end_

/-- The generator that has left its loop has yielded an end. -/
def Reached (w : World κ ν) : Prop :=
  (∀ events, w.live.pc ≠ .unpersisted events) ∧
    (w.live.pc = .ended ∨ w.live.pc = .returned → ThroughEnd (storedOf w.live.yielded))

theorem missed_step [LinearOrder κ] {count : ℕ} {w w' : World κ ν} {l : Label κ ν} (h : Missed w)
    (hstep : step count w l = some w') : Missed w' := by
  rcases step_cases hstep with ⟨action, fresh, command, executor, -, -, -, rfl⟩ | ⟨-, hpc, rfl⟩ | ⟨-, g, hg, rfl⟩
  · exact h
  · simp [Missed, hpc] at h
  · unfold Generator.advance at hg
    rcases h with hpc | ⟨⟨events, hpc⟩ | hpc, hnoEnd⟩
    · simp [hpc] at hg
    · cases events with
      | nil =>
        simp only [hpc, Option.some.injEq] at hg
        subst hg
        exact .inr ⟨.inr rfl, hnoEnd⟩
      | cons event rest =>
        simp only [hpc, Option.some.injEq] at hg
        subst hg
        exact .inr ⟨.inl ⟨rest, rfl⟩, by simpa [storedOf] using hnoEnd⟩
    · simp [hpc] at hg

/-- A generator that takes an empty reply for the end of an ended task has missed the end. -/
theorem missed_of_emptyReply [LinearOrder κ] {w : World κ ν} {past rest : List (Stored κ ν)} (h : Loop w past rest)
    {seen : ℕ} (hpc : w.live.pc = .replied [] seen) (hdone : w.executor.done = true) {g : Generator κ ν}
    (hstep : w.live.advance w.executor = some g) : Missed { w with live := g } := by
  have hnoEnd := h.noEnd (by rw [hpc]; rfl)
  rw [← h.yielded] at hnoEnd
  unfold Generator.advance at hstep
  simp only [hpc] at hstep
  cases hphase : w.executor.phase <;> simp only [hphase, Option.some.injEq] at hstep <;>
    simp [Executor.done, hphase] at hdone
  · subst hstep
    exact .inr ⟨.inl ⟨_, rfl⟩, hnoEnd⟩
  · subst hstep
    exact .inl rfl

/-- A prompt reply is not empty when the task has returned: its end would be ahead. -/
theorem not_emptyReply [LinearOrder κ] {w : World κ ν} {past rest : List (Stored κ ν)} (h : Loop w past rest)
    {seen : ℕ} (hpc : w.live.pc = .replied [] seen) (hprompt : Prompt w .advance) (terminal : List (Envelope ν)) :
    w.executor.phase ≠ .returned terminal := by
  intro hphase
  obtain ⟨item, hitem, hop⟩ := h.settled.returned terminal hphase
  -- nothing was ahead when the reply was computed, and nothing has come since
  have hlength := hprompt rfl seen hpc (by simp [Executor.done, hphase])
  rw [(h.reply [] seen hpc).2 rfl, h.events, List.length_append] at hlength
  have hnil : rest = [] := List.eq_nil_of_length_eq_zero (by omega)
  rw [h.events, hnil, List.append_nil] at hitem
  exact h.noEnd (by rw [hpc]; rfl) item hitem hop

theorem reached_advance [LinearOrder κ] {w : World κ ν} {past rest : List (Stored κ ν)} (h : Loop w past rest)
    (hreached : Reached w) (hprompt : Prompt w .advance) {g : Generator κ ν}
    (hstep : w.live.advance w.executor = some g) : Reached { w with live := g } := by
  obtain ⟨past', rest', hloop'⟩ := loop_advance h hstep
  unfold Generator.advance at hstep
  cases hpc : w.live.pc with
  | requested => simp [hpc] at hstep
  | returned => simp [hpc] at hstep
  | raised => simp [hpc] at hstep
  | replied reply seen =>
    cases reply with
    | nil =>
      simp only [hpc] at hstep
      split at hstep
      -- with an empty reply: the task has returned, been aborted, or goes on
      · exact absurd ‹_› (not_emptyReply h hpc hprompt _)
      · obtain rfl := Option.some.inj hstep
        exact ⟨by simp, by simp⟩
      · obtain rfl := Option.some.inj hstep
        exact ⟨by simp, by simp⟩
    | cons item more =>
      simp only [hpc, Option.some.injEq] at hstep
      subst hstep
      exact ⟨by simp, by simp⟩
  | delivering batch =>
    cases batch with
    | nil =>
      simp only [hpc, Option.some.injEq] at hstep
      subst hstep
      exact ⟨by simp, by simp⟩
    | cons item more =>
      simp only [hpc, Option.some.injEq] at hstep
      subst hstep
      refine ⟨fun events => by dsimp only; split_ifs <;> simp, ?_⟩
      rintro (hended | hreturned)
      · rw [hloop'.yielded]
        exact hloop'.ended hended
      · dsimp only at hreturned
        split_ifs at hreturned
  | ended =>
    simp only [hpc, Option.some.injEq] at hstep
    subst hstep
    exact ⟨by simp, fun _ => hreached.2 (.inl hpc)⟩
  | unpersisted events => exact absurd hpc (hreached.1 events)

theorem reached_step [LinearOrder κ] {count : ℕ} {w w' : World κ ν} {l : Label κ ν} (hloop : InLoop w)
    (h : Reached w) (hprompt : Prompt w l) (hstep : step count w l = some w') : Reached w' := by
  obtain ⟨past, rest, hloop⟩ := hloop
  rcases step_cases hstep with ⟨action, fresh, command, executor, -, -, -, rfl⟩ | ⟨-, -, rfl⟩ | ⟨rfl, g, hg, rfl⟩
  · exact h
  · exact ⟨by simp, by simp⟩
  · exact reached_advance hloop h hprompt hg

/-- In every run in which the generator ends by itself: it has yielded the events of the stream through its
end, each once and in order, exactly when it never looked at an empty reply of a done task to whose stream
something had been added since Redis computed that reply. -/
theorem complete_iff_prompt [LinearOrder κ] {count : ℕ} {w w' : World κ ν} {labels : List (Label κ ν)}
    (hcount : 0 < count) (hbegun : Begun w) (hexec : Machine.exec (step count) w labels = some w')
    (hreturned : w'.live.pc = .returned) : Complete w' ↔ Machine.AllSteps (step count) Prompt w labels := by
  constructor
  -- what has been missed stays missed, so a complete run has not missed anything on its way
  · rintro ⟨-, before, last, heq, hop, -⟩
    have hgood : ¬ Missed w' := by
      rintro (hpc | ⟨-, hnoEnd⟩)
      · simp [hreturned] at hpc
      · exact hnoEnd last (by rw [heq]; simp) hop
    refine Machine.allSteps_of_good_end (fun w l w' h hstep => inLoop_step hcount h hstep)
      (fun w l w' h hstep => missed_step h hstep) ?_ hbegun.inLoop hexec hgood
    rintro w l w' ⟨past, rest, hloop⟩ hstep hgood rfl seen hpc hdone
    obtain ⟨g, hg, rfl⟩ := Option.map_eq_some_iff.mp hstep
    exact absurd (missed_of_emptyReply hloop hpc hdone hg) hgood
  · intro hprompt
    have hreached : Reached w := ⟨by simp [hbegun.live, Generator.init], by simp [hbegun.live, Generator.init]⟩
    have h : InLoop w' ∧ Reached w' := by
      refine Machine.exec_invariant_of_allSteps (p := fun w => InLoop w ∧ Reached w) ?_ ⟨hbegun.inLoop, hreached⟩
        hprompt hexec
      exact fun w l w' h hprompt hstep => ⟨inLoop_step hcount h.1 hstep, reached_step h.1 h.2 hprompt hstep⟩
    obtain ⟨⟨past, rest, hloop⟩, hreached⟩ := h
    refine ⟨?_, hreached.2 (.inr hreturned)⟩
    rw [hloop.yielded, hloop.events]
    exact List.prefix_append _ _

/-- A chat whose start has been published. -/
def chatWorld : World ℕ ℕ := ⟨⟨.running, 1, none, [⟨1, startEvent [] 1⟩], some 0, false⟩, .init, .init⟩

theorem begun_chatWorld : Begun chatWorld := ⟨List.pairwise_singleton _ _, by decide, rfl, rfl, rfl⟩

/-- The generator reads the start. -/
def readsStart : List (Label ℕ ℕ) := [.evaluate, .advance, .advance, .advance]

/-- The execute task comes to its end. -/
def finishesChat : List (Label ℕ ℕ) :=
  [.execute (.finish none) 2, .execute (.completed none) 2, .execute .send 2] ++
    List.replicate 5 (.execute .send 3) ++ [.execute .exit 3]

/-- The generator reads the end when the task has ended, or has asked for more before. -/
def readsEnd : List (Label ℕ ℕ) := readsStart ++ finishesChat ++ [.evaluate, .advance, .advance, .advance]

def asksBefore : List (Label ℕ ℕ) := readsStart ++ [.evaluate] ++ finishesChat ++ [.advance, .advance]

/-- Where a run leaves the generator, with what it has yielded and the stream. -/
def outcome (labels : List (Label ℕ ℕ)) : Option (Pc ℕ ℕ × List (Stored ℕ ℕ) × List (Stored ℕ ℕ)) :=
  (Machine.exec (step 100) chatWorld labels).map fun w => (w.live.pc, storedOf w.live.yielded, w.store.events)

theorem complete_iff_prompt_readsEnd : ∃ w, Machine.exec (step 100) chatWorld readsEnd = some w ∧
    Complete w ∧ Machine.AllSteps (step 100) Prompt chatWorld readsEnd := by
  have houtcome : outcome readsEnd = some (.returned, [⟨1, startEvent [] 1⟩, ⟨2, endEvent 2⟩],
      [⟨1, startEvent [] 1⟩, ⟨2, endEvent 2⟩]) := by
    decide
  obtain ⟨w, hw, heq⟩ := Option.map_eq_some_iff.mp houtcome
  simp only [Prod.mk.injEq] at heq
  obtain ⟨hreturned, hyielded, hevents⟩ := heq
  have hcomplete : Complete w := by
    refine ⟨by rw [hyielded, hevents], [⟨1, startEvent [] 1⟩], ⟨2, endEvent 2⟩, by rw [hyielded]; rfl, rfl, by decide⟩
  exact ⟨w, hw, hcomplete, (complete_iff_prompt (by decide) begun_chatWorld hw hreturned).mp hcomplete⟩

/-- A generator that has asked before the task came to its end returns without the end that is stored. -/
theorem asksBefore_misses_end : Begun chatWorld ∧ ∃ w, Machine.exec (step 100) chatWorld asksBefore = some w ∧
    w.live.pc = .returned ∧ w.executor.done = true ∧ w.store.events = [⟨1, startEvent [] 1⟩, ⟨2, endEvent 2⟩] ∧
    storedOf w.live.yielded = [⟨1, startEvent [] 1⟩] ∧ ¬ Complete w := by
  have houtcome : outcome asksBefore = some (.returned, [⟨1, startEvent [] 1⟩],
      [⟨1, startEvent [] 1⟩, ⟨2, endEvent 2⟩]) := by
    decide
  have hdone : (Machine.exec (step 100) chatWorld asksBefore).map (fun w => w.executor.done) = some true := by
    decide
  obtain ⟨w, hw, heq⟩ := Option.map_eq_some_iff.mp houtcome
  simp only [Prod.mk.injEq] at heq
  obtain ⟨hreturned, hyielded, hevents⟩ := heq
  refine ⟨begun_chatWorld, w, hw, hreturned, by simpa [hw] using hdone, hevents, hyielded, ?_⟩
  rintro ⟨-, before, last, hlast, hop, -⟩
  have hstart : last ∈ [(⟨1, startEvent [] 1⟩ : Stored ℕ ℕ)] := by rw [← hyielded, hlast]; simp
  rw [List.mem_singleton.mp hstart] at hop
  simp [startEvent] at hop

end AgentUE.PythonRunner.Live
