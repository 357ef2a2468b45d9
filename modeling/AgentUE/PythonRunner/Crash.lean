import AgentUE.PythonRunner.ScanOnce
import AgentUE.PythonRunner.Timeline

/-!
# Python runner: recovery of a task whose process has died

Reference: `publish`, `last_seq` and `mark_terminal` in `sdks/python/src/agentue/runner/redis_bridge.py`,
`_recover_task` in `runner.py`. Recovery numbers its events from `last_seq` on and looks at nothing else of the
stream, so what it makes of a task depends on what the dead process has stored beside it.
-/

namespace AgentUE.PythonRunner.Crash

open Data
open Run (Increasing UpTo)

variable {κ ν : Type}

/-- The numbers increase, and the last event is the one end. -/
def WellEnded (events : List (Envelope ν)) : Prop :=
  Increasing events ∧ ∃ before last, events = before ++ [last] ∧ last.op = .end_ ∧ ∀ event ∈ before, event.op ≠ .end_

/-- What the dead process has stored can be continued: it is in order, `last_seq` is not behind it, and no end
is in it. -/
structure Continuable (store : Store κ ν) : Prop where
  increasing : Increasing (store.events.map Stored.data)
  upTo : UpTo store.lastSeq (store.events.map Stored.data)
  noEnd : ∀ item ∈ store.events, item.data.op ≠ .end_

/-- The task of a dead process among the scanners. -/
def crashed (store : Store κ ν) : Scan.World κ ν Unit Unit where
  now := 0
  stores := fun _ => store
  claims := fun _ => none
  calls := fun _ => .next []
  completions := fun _ => 0

theorem quiet_crashed (store : Store κ ν) : Scan.Quiet (crashed store) :=
  ⟨fun _ => rfl, fun _ => rfl, fun _ => rfl⟩

/-! ## A stream and what recovery adds to it -/

/-- Events that are numbered from `n + 1` on. -/
theorem increasing_append_iff {n : ℕ} {events gained : List (Envelope ν)} (hne : gained ≠ [])
    (hseqs : gained.map Envelope.seq = List.range' (n + 1) gained.length) :
    Increasing (events ++ gained) ↔ Increasing events ∧ UpTo n events := by
  have hgained : Increasing gained := by
    have hsorted : (gained.map Envelope.seq).Pairwise (· < ·) := hseqs ▸ List.pairwise_lt_range'
    exact List.pairwise_map.mp hsorted
  have hrange : ∀ b ∈ gained, n + 1 ≤ b.seq := fun b hb => by
    have hmem : b.seq ∈ List.range' (n + 1) gained.length := hseqs ▸ List.mem_map_of_mem hb
    exact (List.mem_range'_1.mp hmem).1
  have hfirst : ∃ b ∈ gained, b.seq = n + 1 := by
    have hmem : n + 1 ∈ gained.map Envelope.seq := by
      rw [hseqs, List.mem_range'_1]
      have hpos := List.length_pos_iff.mpr hne
      omega
    exact List.mem_map.mp hmem
  -- the first of the new numbers is the bound
  have hbounds : (∀ a ∈ events, ∀ b ∈ gained, a.seq < b.seq) ↔ UpTo n events := by
    obtain ⟨b, hb, hseq⟩ := hfirst
    constructor
    · intro h a ha
      have hlt := h a ha b hb
      omega
    · intro h a ha b hb
      have hle := h a ha
      have hge := hrange b hb
      omega
  rw [Increasing, List.pairwise_append, hbounds]
  exact ⟨fun h => ⟨h.1, h.2.2⟩, fun h => ⟨h.1, hgained, h.2⟩⟩

/-- A recovered stream is well ended exactly when what was there could be continued. -/
theorem wellEnded_iff {before after : Store κ ν} (h : Scan.Recovered before after) :
    WellEnded (after.events.map Stored.data) ↔ Continuable before := by
  obtain ⟨gained, hevents, hgained⟩ := h.stream
  obtain ⟨error, last, herror, hlast, heq⟩ := hgained.events
  have hne : gained.map Stored.data ≠ [] := by simp [heq]
  have hnumbers : Increasing (after.events.map Stored.data) ↔
      Increasing (before.events.map Stored.data) ∧ UpTo before.lastSeq (before.events.map Stored.data) := by
    rw [hevents, List.map_append]
    exact increasing_append_iff hne hgained.seqs
  -- the events of recovery before its end are a start, if there is one, and the error
  have hnew : ∀ event ∈
      (if before.lastSeq = 0 then before.initialModel.toList.map (startEvent · 1) else []) ++ [error],
      event.op ≠ .end_ := by
    intro event hevent
    rcases List.mem_append.mp hevent with hstart | herr
    · split_ifs at hstart
      · obtain ⟨model, -, rfl⟩ := List.mem_map.mp hstart
        simp [startEvent]
      · simp at hstart
    · rw [List.mem_singleton.mp herr, herror]
      simp
  have hsplit : after.events.map Stored.data = (before.events.map Stored.data ++
      ((if before.lastSeq = 0 then before.initialModel.toList.map (startEvent · 1) else []) ++ [error])) ++
        [last] := by
    rw [hevents, List.map_append, heq]
    simp
  constructor
  · rintro ⟨hincreasing, pre, final, hpre, -, hnone⟩
    obtain ⟨rfl, -⟩ := List.append_inj' (hsplit.symm.trans hpre) rfl
    obtain ⟨hfirst, hupTo⟩ := hnumbers.mp hincreasing
    exact ⟨hfirst, hupTo, fun item hitem => hnone _ (List.mem_append_left _ (List.mem_map_of_mem hitem))⟩
  · intro hcontinuable
    refine ⟨hnumbers.mpr ⟨hcontinuable.increasing, hcontinuable.upTo⟩, _, last, hsplit, hlast, fun event hevent => ?_⟩
    rcases List.mem_append.mp hevent with hold | hadded
    · obtain ⟨item, hitem, rfl⟩ := List.mem_map.mp hold
      exact hcontinuable.noEnd item hitem
    · exact hnew event hadded

/-! ## Where a process dies -/

/-- The number of the last event. -/
def lastNumber (events : List (Envelope ν)) : ℕ := (events.getLast?.map Envelope.seq).getD 0

/-- The process is between the `XADD` of a publish and the `HSET` of its number. -/
def MidPublish (r : Run.State κ ν) : Prop :=
  ∃ seq, r.pending = [.expireStream, .hsetLastSeq seq] ∨ r.pending = [.hsetLastSeq seq]

/-- `last_seq` is the number of the last event, and in a publish that of the last event before it. -/
inductive Mirrored (r : Run.State κ ν) : Prop
  | writing {event : Envelope ν} {base : List (Envelope ν)} : 0 < event.seq →
    r.Writing event base (lastNumber base) → Mirrored r
  | settled (before : List (Command ν)) (status : Status) : before ++ r.pending = markTerminal status →
    r.store.lastSeq = lastNumber r.log → Mirrored r

theorem lastNumber_concat (events : List (Envelope ν)) (event : Envelope ν) :
    lastNumber (events ++ [event]) = event.seq := by
  simp [lastNumber]

theorem upTo_lastNumber {events : List (Envelope ν)} (h : Increasing events) : UpTo (lastNumber events) events := by
  rcases List.eq_nil_or_concat events with rfl | ⟨before, last, rfl⟩
  · simp [UpTo]
  · rw [List.concat_eq_append] at h ⊢
    rw [lastNumber_concat, UpTo.concat]
    have hbefore := (List.pairwise_append.mp h).2.2
    exact ⟨fun event hevent => (hbefore event hevent last (List.mem_singleton.mpr rfl)).le, le_rfl⟩

theorem lastNumber_lt {base : List (Envelope ν)} {event : Envelope ν} (h : Increasing (base ++ [event]))
    (hpos : 0 < event.seq) : lastNumber base < event.seq := by
  rcases List.eq_nil_or_concat base with rfl | ⟨before, last, rfl⟩
  · exact hpos
  · rw [List.concat_eq_append] at h ⊢
    rw [lastNumber_concat]
    exact (List.pairwise_append.mp h).2.2 last (by simp) event (List.mem_singleton.mpr rfl)

/-- `last_seq` is behind the stream exactly in the middle of a publish. -/
theorem Mirrored.upTo_iff {r : Run.State κ ν} (h : Mirrored r) (hincreasing : Increasing r.log) :
    UpTo r.store.lastSeq r.log ↔ ¬ MidPublish r := by
  cases h with
  | @writing event base hpos hwriting =>
    -- the number of an event that has just been appended is still ahead
    have hbehind : r.log = base ++ [event] → r.store.lastSeq = lastNumber base → ¬ UpTo r.store.lastSeq r.log := by
      intro hlog hseq hupTo
      rw [hlog] at hincreasing hupTo
      exact absurd (lastNumber_lt hincreasing hpos) (not_lt.mpr (hseq ▸ (UpTo.concat.mp hupTo).2))
    rcases hwriting with ⟨hp, hlog, hseq⟩ | ⟨hp, hlog, hseq⟩ | ⟨hp, hlog, hseq⟩ | ⟨hp, hlog, hseq⟩
    · refine iff_of_true ?_ ?_
      · rw [hseq, ← hlog]
        exact upTo_lastNumber hincreasing
      · rintro ⟨seq, hmid | hmid⟩ <;> simp [hp, publish] at hmid
    · exact iff_of_false (hbehind hlog hseq) (not_not.mpr ⟨event.seq, .inl hp⟩)
    · exact iff_of_false (hbehind hlog hseq) (not_not.mpr ⟨event.seq, .inr hp⟩)
    · refine iff_of_true ?_ ?_
      · have hlast := upTo_lastNumber hincreasing
        rwa [hlog, lastNumber_concat, ← hseq, ← hlog] at hlast
      · rintro ⟨seq, hmid | hmid⟩ <;> simp [hp] at hmid
  | settled before status hmark hseq =>
    refine iff_of_true ?_ ?_
    · rw [hseq]
      exact upTo_lastNumber hincreasing
    · rintro ⟨seq, hmid⟩
      have hmem : .hsetLastSeq seq ∈ (markTerminal status : List (Command ν)) := by
        rw [← hmark]
        rcases hmid with hmid | hmid <;> simp [hmid]
      simp [markTerminal] at hmem

theorem Mirrored.of_pending_nil {r : Run.State κ ν} (h : Mirrored r) (hpending : r.pending = []) :
    r.store.lastSeq = lastNumber r.log := by
  cases h with
  | writing _ hwriting =>
    obtain ⟨hlog, hseq⟩ := hwriting.of_pending_nil hpending
    rw [hlog, lastNumber_concat, hseq]
  | settled _ _ _ hseq => exact hseq

theorem Mirrored.sent {r : Run.State κ ν} (h : Mirrored r) {command : Command ν} {rest : List (Command ν)}
    (hpending : r.pending = command :: rest) (fresh : κ) : Mirrored (r.sent fresh command rest) := by
  cases h with
  | writing hpos hwriting => exact .writing hpos (hwriting.sent hpending fresh)
  | settled before status hmark hseq =>
    have hrest : (before ++ [command]) ++ rest = markTerminal status := by rw [← hmark, hpending]; simp
    refine .settled _ status hrest ?_
    -- no command of `mark_terminal` touches the stream or its number
    have hmem : command ∈ (markTerminal status : List (Command ν)) := by rw [← hrest]; simp
    simp only [markTerminal, List.mem_cons, List.not_mem_nil, or_false] at hmem
    rcases hmem with rfl | rfl | rfl <;> exact hseq

section

variable [DecidableEq ν]

/-- What a step begins to send when nothing is ahead. -/
theorem pending_move {r r' : Run.State κ ν} {l : Run.Label κ ν} (h : r.pending = []) (hmove : Run.Move r l r') :
    r'.pending = [] ∨ (∃ event, 0 < event.seq ∧ r'.pending = publish event) ∨
      ∃ status, r'.pending = markTerminal status := by
  have hbeginEnd : ∀ (r : Run.State κ ν) outcome terminal persisted,
      (∃ event, 0 < event.seq ∧ (r.beginEnd outcome terminal persisted).pending = publish event) ∨
        ∃ status, (r.beginEnd outcome terminal persisted).pending = markTerminal status := by
    intro r outcome terminal persisted
    cases persisted
    · exact .inr ⟨outcome.status, rfl⟩
    · exact .inl ⟨endEvent (r.context.offset + 1), Nat.succ_pos _, rfl⟩
  cases hmove with
  | idle => exact .inl h
  | send _ hpending => simp [h] at hpending
  | start | restart => exact .inr (.inl ⟨_, Nat.succ_pos _, rfl⟩)
  | started | begin | prepared | resumed => exact .inl h
  | accept _ _ hseq => exact .inr (.inl ⟨_, Nat.zero_lt_of_lt hseq, rfl⟩)
  | finalize =>
    unfold Run.State.finalize
    split
    · exact .inr (hbeginEnd ..)
    · dsimp only
      split
      · exact .inr (.inl ⟨_, Nat.succ_pos _, rfl⟩)
      · exact .inr (hbeginEnd ..)
  | errorStored | errorLost => exact .inr (hbeginEnd ..)
  | endStored | endLost => exact .inr (.inr ⟨_, rfl⟩)
  | failStarted | restarted | giveUpStart | endBusiness | refused | finish | die => exact .inl rfl

variable [LinearOrder κ]

/-- A step that is no failure sends the next command, or it leaves keys and commands alone, or nothing is ahead. -/
theorem pending_of_step {r r' : Run.State κ ν} {l : Run.Label κ ν} (hfits : Run.Fits r) (hl : l.isFailure = false)
    (hstep : Run.step r l = some r') :
    (∃ fresh command rest, r.pending = command :: rest ∧ r' = r.sent fresh command rest) ∨
      (r'.pending = r.pending ∧ r'.store = r.store) ∨ r.pending = [] := by
  have hnil := hfits
  unfold Run.Fits at hnil
  cases l with
  | emits | remodels | interrupts =>
    simp only [Run.step] at hstep
    split_ifs at hstep
    obtain rfl := Option.some.inj hstep
    exact .inr (.inl ⟨rfl, rfl⟩)
  | closes =>
    obtain rfl := Option.some.inj hstep
    exact .inr (.inl ⟨rfl, rfl⟩)
  | yields =>
    simp only [Run.step] at hstep
    cases hphase : r.phase <;> simp only [hphase, reduceCtorEq] at hstep hnil
    exact .inr (.inr hnil)
  | returns =>
    simp only [Run.step, Run.State.returns] at hstep
    cases hphase : r.phase <;> simp only [hphase, reduceCtorEq] at hstep hnil
    all_goals exact .inr (.inr hnil)
  | raises =>
    simp only [Run.step, Run.State.raises] at hstep
    cases hphase : r.phase <;> simp only [hphase, reduceCtorEq] at hstep hnil
    all_goals exact .inr (.inr hnil)
  | send fresh =>
    cases hpending : r.pending with
    | nil => exact .inr (.inr rfl)
    | cons command rest =>
      simp only [Run.step, hpending] at hstep
      split_ifs at hstep
      exact .inl ⟨fresh, command, rest, rfl, (Option.some.inj hstep).symm⟩
  | resumes =>
    simp only [Run.step] at hstep
    split_ifs at hstep with hpending
    exact .inr (.inr (List.isEmpty_iff.mp hpending))
  | fails => simp [Run.Label.isFailure] at hl
  | abandons =>
    simp only [Run.step] at hstep
    split at hstep
    · rename_i hphase
      simp only [hphase] at hnil
      exact .inr (.inr hnil)
    · split_ifs at hstep
      obtain rfl := Option.some.inj hstep
      exact .inr (.inl ⟨rfl, rfl⟩)
    · simp at hstep

theorem mirrored_step {r r' : Run.State κ ν} {l : Run.Label κ ν} (hfits : Run.Fits r) (h : Mirrored r)
    (hl : l.isFailure = false) (hstep : Run.step r l = some r') : Mirrored r' := by
  have hmove := Run.move_of_step hstep
  rcases pending_of_step hfits hl hstep with ⟨fresh, command, rest, hpending, rfl⟩ | ⟨hpending, hstore⟩ | hpending
  · exact h.sent hpending fresh
  · cases h with
    | writing hpos hwriting => exact .writing hpos (hwriting.congr hpending hstore)
    | settled before status hmark hseq =>
      refine .settled before status (hpending ▸ hmark) ?_
      rw [Run.State.log, hstore]
      exact hseq
  · have hstore : r'.store = r.store := by
      rcases Run.store_move hmove with hstore | ⟨_, command, rest, -, hne, -⟩
      · exact hstore
      · simp [hpending] at hne
    have hseq : r'.store.lastSeq = lastNumber r'.log := by
      rw [Run.State.log, hstore]
      exact h.of_pending_nil hpending
    rcases pending_move hpending hmove with hnil | ⟨event, hpos, hpublish⟩ | ⟨status, hmark⟩
    · exact .settled (markTerminal .completed) .completed (by rw [hnil, List.append_nil]) hseq
    · exact .writing hpos (.inl ⟨hpublish, rfl, hseq⟩)
    · exact .settled [] status hmark hseq

/-- Where no command fails, what a process leaves can be continued exactly when it is in order and has no end, and
the process has not died between the `XADD` of a publish and the `HSET` of its number. -/
theorem continuable_iff (model : Run.Model ν) (time : ℕ) {labels : List (Run.Label κ ν)} {r : Run.State κ ν}
    (hlabels : ∀ l ∈ labels, l.isFailure = false)
    (hrun : Machine.exec Run.step (Run.State.init model time) labels = some r) :
    Continuable r.store ↔ Increasing r.log ∧ (∀ event ∈ r.log, event.op ≠ .end_) ∧ ¬ MidPublish r := by
  have hmirrored : Mirrored r := by
    have hinit : Mirrored (Run.State.init model time : Run.State κ ν) :=
      .settled (markTerminal .completed) .completed (List.append_nil _) rfl
    have hsteps : Machine.AllSteps Run.step (fun _ l => l.isFailure = false) (Run.State.init model time) labels :=
      Machine.allSteps_of_labels (fun l hl _ => hlabels l hl) _
    have hkept : ∀ (r : Run.State κ ν) l r', Run.Fits r ∧ Mirrored r → l.isFailure = false →
        Run.step r l = some r' → Run.Fits r' ∧ Mirrored r' := fun r l r' h hl hstep =>
      ⟨Run.fits_move h.1 (Run.move_of_step hstep), mirrored_step h.1 h.2 hl hstep⟩
    have hfits : Run.Fits (Run.State.init model time : Run.State κ ν) := rfl
    exact (Machine.exec_invariant_of_allSteps hkept ⟨hfits, hinit⟩ hsteps hrun).2
  have hnoEnd : (∀ item ∈ r.store.events, item.data.op ≠ .end_) ↔ ∀ event ∈ r.log, event.op ≠ .end_ := by
    simp [Run.State.log]
  constructor
  · intro h
    exact ⟨h.increasing, hnoEnd.mp h.noEnd, (hmirrored.upTo_iff h.increasing).mp h.upTo⟩
  · rintro ⟨hincreasing, hend, hmid⟩
    exact ⟨hincreasing, (hmirrored.upTo_iff hincreasing).mpr hmid, hnoEnd.mpr hend⟩

end

/-- A process dies with the status still running, wherever its run has led it, and the task is recovered by one
call: the stream is well ended exactly when what the process has stored can be continued. -/
theorem crash_recovery_iff [LinearOrder κ] [DecidableEq ν] (ttl : ℕ) (r : Run.State κ ν)
    (hrunning : r.store.status = .running)
    (labels : List (Scan.Label κ ν Unit Unit)) (w : Scan.World κ ν Unit Unit)
    (hsmooth : Machine.AllSteps (Scan.step ttl) Scan.Smooth (crashed r.store) labels)
    (hrun : Machine.exec (Scan.step ttl) (crashed r.store) labels = some w) (hlisted : Scan.Listed labels ())
    (hreturned : (w.calls ()).ids = []) :
    WellEnded ((w.stores ()).events.map Stored.data) ↔ Continuable r.store := by
  have hprogress := Scan.progress_of_run (quiet_crashed r.store) hsmooth hrun
  have hdone := Scan.done_of_listed hprogress (fun _ => hreturned) hrunning hlisted
  exact wellEnded_iff (Scan.recovered_of_ran hdone.ran)

/-- One call lists the task and goes through `steps` steps. -/
def recoversAlone (steps : ℕ) : List (Scan.Label ℕ ℕ Unit Unit) :=
  .lists () 0 [()] :: (List.range steps).map fun n => .advance () (n + 2)

/-- A run, and the recovery of what it leaves. -/
def dies (labels : List (Run.Label ℕ ℕ)) (steps : ℕ) : Option (Run.State ℕ ℕ × Scan.World ℕ ℕ Unit Unit) := do
  let r ← Machine.exec Run.step (Run.State.init Run.chatModel 0) labels
  let w ← Machine.exec (Scan.step 60) (crashed r.store) (recoversAlone steps)
  return (r, w)

theorem dies_eq_some {labels : List (Run.Label ℕ ℕ)} {steps : ℕ} {r : Run.State ℕ ℕ} {w : Scan.World ℕ ℕ Unit Unit}
    (h : dies labels steps = some (r, w)) :
    Machine.exec Run.step (Run.State.init Run.chatModel 0) labels = some r ∧
      Machine.exec (Scan.step 60) (crashed r.store) (recoversAlone steps) = some w := by
  simp only [dies, Option.bind_eq_bind, Option.bind_eq_some_iff, Option.pure_def, Option.some.injEq,
    Prod.mk.injEq] at h
  obtain ⟨r', hr, w', hw, rfl, rfl⟩ := h
  exact ⟨hr, hw⟩

theorem listed_recoversAlone (steps : ℕ) : Scan.Listed (recoversAlone steps) () :=
  ⟨(), 0, [()], List.mem_cons_self, List.mem_cons_self⟩

/-- Calls without pauses are smooth. -/
theorem smooth_recoversAlone (store : Store ℕ ℕ) (steps : ℕ) :
    Machine.AllSteps (Scan.step 60) Scan.Smooth (crashed store) (recoversAlone steps) := by
  apply Machine.allSteps_of_labels
  intro l hl w
  rcases List.mem_cons.mp hl with rfl | hl
  · exact ⟨rfl, trivial⟩
  · obtain ⟨n, -, rfl⟩ := List.mem_map.mp hl
    exact ⟨rfl, trivial⟩

/-- A process that dies in `prepare`. -/
theorem crash_recovery_iff_startsChat : ∃ r w, dies Run.startsChat 14 = some (r, w) ∧
    (WellEnded ((w.stores ()).events.map Stored.data) ↔ Continuable r.store) := by
  have hdies : (dies Run.startsChat 14).map (fun p => (p.1.store.status, (p.2.calls ()).ids)) =
    some (.running, []) := by
    decide +kernel
  obtain ⟨⟨r, w⟩, h, hfacts⟩ := Option.map_eq_some_iff.mp hdies
  obtain ⟨hrunning, hreturned⟩ := Prod.mk.inj hfacts
  exact ⟨r, w, h, crash_recovery_iff 60 r hrunning (recoversAlone 14) w (smooth_recoversAlone r.store 14)
    (dies_eq_some h).2 (listed_recoversAlone 14) hreturned⟩

/-- A process that dies between the `XADD` of the start and the `HSET` of its number: recovery publishes another
start with the same number. -/
theorem crash_in_publish_spoils_stream :
    ¬ ∀ (model : Run.Model ℕ) (dead : List (Run.Label ℕ ℕ)) (r : Run.State ℕ ℕ)
      (labels : List (Scan.Label ℕ ℕ Unit Unit)) (w : Scan.World ℕ ℕ Unit Unit), (∀ l ∈ dead, l.isFailure = false) →
      Machine.exec Run.step (Run.State.init model 0) dead = some r → r.store.status = .running →
      Machine.AllSteps (Scan.step 60) Scan.Smooth (crashed r.store) labels →
      Machine.exec (Scan.step 60) (crashed r.store) labels = some w → Scan.Listed labels () → (w.calls ()).ids = [] →
      WellEnded ((w.stores ()).events.map Stored.data) := by
  intro h
  have hdies : (dies [.returns, .send 1] 18).map (fun p =>
      (p.1.store.status, (p.2.calls ()).ids, ((p.2.stores ()).events.map Stored.data).map Envelope.seq)) =
      some (.running, [], [1, 1, 2, 3]) := by
    decide +kernel
  obtain ⟨⟨r, w⟩, hrw, hfacts⟩ := Option.map_eq_some_iff.mp hdies
  obtain ⟨hrunning, hrest⟩ := Prod.mk.inj hfacts
  obtain ⟨hreturned, hseqs⟩ := Prod.mk.inj hrest
  obtain ⟨hr, hw⟩ := dies_eq_some hrw
  obtain ⟨hincreasing, -⟩ := h Run.chatModel [.returns, .send 1] r (recoversAlone 18) w (by decide) hr hrunning
    (smooth_recoversAlone r.store 18) hw (listed_recoversAlone 18) hreturned
  have hsorted : (((w.stores ()).events.map Stored.data).map Envelope.seq).Pairwise (· < ·) :=
    List.pairwise_map.mpr hincreasing
  rw [hseqs] at hsorted
  exact absurd hsorted (by decide)

end AgentUE.PythonRunner.Crash
