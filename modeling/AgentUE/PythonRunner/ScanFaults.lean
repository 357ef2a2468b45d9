import AgentUE.PythonRunner.ScanOnce

/-!
# Python runner: a recovery that fails

One call of `recover_timeouts` with no other party, from its list of ids to its return. What is raised by
`_recover_task` passes the `finally` and leaves the loop: the tasks that are listed behind the failing one are not
recovered by this scan, nor by a later one for as long as the failing task is listed first.

Reference: `recover_timeouts` and `_recover_task` in `sdks/python/src/agentue/runner/runner.py`.
-/

namespace AgentUE.PythonRunner.Scan

open Data

variable {κ ν τ : Type}

/-- The commands are run one after the other; `pick` is the id of `XADD` for a stream. -/
def runCommands (pick : Store κ ν → κ) (commands : List (Command ν)) (store : Store κ ν) : Store κ ν :=
  commands.foldl (fun store command => store.run (pick store) command) store

/-- `_recover_task`, and whether it returns: with a fault it raises behind so many of its commands, with none of
them where a read fails or the stored model is invalid. -/
def recoverTask (pick : Store κ ν → κ) (fault : Option ℕ) (store : Store κ ν) : Bool × Store κ ν :=
  let commands := recoveryCommands store.lastSeq store.initialModel
  match fault with
  | none => (true, runCommands pick commands store)
  | some sent => (false, runCommands pick (commands.take sent) store)

/-- `recover_timeouts` behind its list of ids: the number of recovered tasks, `none` where it raises, and the keys
that it leaves. -/
def recoverTimeouts [DecidableEq τ] (pick : Store κ ν → κ) (fault : τ → Option ℕ) :
    List τ → (τ → Store κ ν) → Option ℕ × (τ → Store κ ν)
  | [], stores => (some 0, stores)
  | t :: rest, stores =>
    -- `claim_recovery`
    if (stores t).claimed then recoverTimeouts pick fault rest stores
    else
      let store := { stores t with claimed := true }
      if store.status = .running then
        let (returned, store) := recoverTask pick (fault t) store
        -- `finally`
        let stores := Function.update stores t { store with claimed := false }
        if returned then
          let (recovered, stores) := recoverTimeouts pick fault rest stores
          (recovered.map (· + 1), stores)
        else (none, stores)
      else
        let store := runCommands pick forgetHeartbeat store
        recoverTimeouts pick fault rest (Function.update stores t { store with claimed := false })

/-- The task is running and its recovery raises. -/
def Fails (stores : τ → Store κ ν) (fault : τ → Option ℕ) (t : τ) : Prop :=
  (stores t).status = .running ∧ (fault t).isSome = true

/-- The task is running and its recovery does not raise. -/
def Healthy (stores : τ → Store κ ν) (fault : τ → Option ℕ) (t : τ) : Prop :=
  (stores t).status = .running ∧ (fault t).isSome = false

/-- The scan recovers every listed task that is healthy, and leaves no claim of a listed task. -/
structure RecoversOthers (stores : τ → Store κ ν) (fault : τ → Option ℕ) (ids : List τ)
    (after : τ → Store κ ν) : Prop where
  recovered : ∀ t ∈ ids, Healthy stores fault t → Recovered (stores t) (after t)
  released : ∀ t ∈ ids, (after t).claimed = false

/-! ## One task -/

theorem ran_runCommands (pick : Store κ ν → κ) (commands : List (Command ν)) (store : Store κ ν) :
    Ran store commands (runCommands pick commands store) := by
  unfold runCommands
  induction commands using List.reverseRecOn with
  | nil => exact .nil
  | append_singleton commands command ih =>
    rw [List.foldl_concat]
    exact ih.snoc command _

/-- A recovery that returns has recovered its task. -/
theorem recovered_recoverTask (pick : Store κ ν → κ) (store : Store κ ν) :
    Recovered store { (recoverTask pick none { store with claimed := true }).2 with claimed := false } := by
  have h := recovered_of_ran (ran_runCommands pick (recoveryCommands store.lastSeq store.initialModel)
    { store with claimed := true })
  exact ⟨h.stream, h.status, h.heartbeat⟩

/-! ## The loop -/

section

variable [DecidableEq τ] {pick : Store κ ν → κ} {fault : τ → Option ℕ} {t : τ} {rest : List τ}
  {stores : τ → Store κ ν}

/-- Behind a task that does not fail the scan goes on; the task is recovered when it has been running. -/
theorem recoverTimeouts_of_not_fails (pick : Store κ ν → κ) (rest : List τ) (hclaim : (stores t).claimed = false)
    (h : ¬ Fails stores fault t) :
    ∃ store, store.claimed = false ∧ ((stores t).status = .running → Recovered (stores t) store) ∧
      (recoverTimeouts pick fault (t :: rest) stores).2 =
        (recoverTimeouts pick fault rest (Function.update stores t store)).2 := by
  rw [recoverTimeouts, if_neg (by rw [hclaim]; exact Bool.false_ne_true)]
  dsimp only
  by_cases hstatus : (stores t).status = .running
  · have hfault : fault t = none := by
      cases hfault : fault t with
      | none => rfl
      | some sent => exact absurd ⟨hstatus, by rw [hfault]; rfl⟩ h
    rw [if_pos hstatus, hfault]
    exact ⟨_, rfl, fun _ => recovered_recoverTask pick (stores t), rfl⟩
  · rw [if_neg hstatus]
    exact ⟨_, rfl, fun hrunning => absurd hrunning hstatus, rfl⟩

/-- A failing task ends the scan. -/
theorem recoverTimeouts_of_fails (pick : Store κ ν → κ) (rest : List τ) (hclaim : (stores t).claimed = false)
    (h : Fails stores fault t) :
    ∃ store : Store κ ν, store.claimed = false ∧
      recoverTimeouts pick fault (t :: rest) stores = (none, Function.update stores t store) := by
  obtain ⟨sent, hfault⟩ := Option.isSome_iff_exists.mp h.2
  rw [recoverTimeouts, if_neg (by rw [hclaim]; exact Bool.false_ne_true)]
  dsimp only
  rw [if_pos h.1, hfault]
  exact ⟨_, rfl, rfl⟩

/-- The scan leaves the keys of the tasks that it has not listed. -/
theorem recoverTimeouts_of_not_mem {ids : List τ} (h : t ∉ ids) (stores : τ → Store κ ν) :
    (recoverTimeouts pick fault ids stores).2 t = stores t := by
  induction ids generalizing stores with
  | nil => rfl
  | cons t' rest ih =>
    obtain ⟨hne, hrest⟩ := not_or.mp (mt List.mem_cons.mpr h)
    rw [recoverTimeouts]
    dsimp only
    split_ifs
    · exact ih hrest stores
    · rw [ih hrest, Function.update_of_ne hne]
    · exact Function.update_of_ne hne _ _
    · rw [ih hrest, Function.update_of_ne hne]

/-- A task that is listed at the head is not touched by the scan of the others. -/
theorem recoverTimeouts_head (ht : t ∉ rest) (stores : τ → Store κ ν) (store : Store κ ν) :
    (recoverTimeouts pick fault rest (Function.update stores t store)).2 t = store := by
  rw [recoverTimeouts_of_not_mem ht, Function.update_self]

omit [DecidableEq τ] in
/-- The scan has ended at its first task: the keys of the others are as they were `before`. -/
theorem recoversOthers_cons_of_fails {before after : τ → Store κ ν} (h : Fails before fault t)
    (hfree : (after t).claimed = false) (hclaims : ∀ t' ∈ rest, (before t').claimed = false)
    (hrest : ∀ t' ∈ rest, after t' = before t') :
    RecoversOthers before fault (t :: rest) after ↔ ∀ t' ∈ rest, ¬ Healthy before fault t' := by
  constructor
  · intro hall t' ht' hhealthy
    have hstatus := (hall.recovered t' (List.mem_cons_of_mem t ht') hhealthy).status
    rw [hrest t' ht', hhealthy.1] at hstatus
    cases hstatus
  · intro hnone
    constructor
    · rintro t' (_ | ⟨_, ht'⟩) hhealthy
      · exact absurd (hhealthy.2.symm.trans h.2) Bool.false_ne_true
      · exact absurd hhealthy (hnone t' ht')
    · rintro t' (_ | ⟨_, ht'⟩)
      · exact hfree
      · rw [hrest t' ht', hclaims t' ht']

omit [DecidableEq τ] in
/-- The scan has gone on behind its first task. -/
theorem recoversOthers_cons {before after : τ → Store κ ν}
    (hrecovered : Healthy before fault t → Recovered (before t) (after t)) (hfree : (after t).claimed = false) :
    RecoversOthers before fault (t :: rest) after ↔ RecoversOthers before fault rest after := by
  constructor
  · exact fun hall => ⟨fun t' ht' => hall.recovered t' (List.mem_cons_of_mem t ht'),
      fun t' ht' => hall.released t' (List.mem_cons_of_mem t ht')⟩
  · exact fun hall => ⟨List.forall_mem_cons.mpr ⟨hrecovered, hall.recovered⟩,
      List.forall_mem_cons.mpr ⟨hfree, hall.released⟩⟩

/-- The scan of a part of the list, where the keys of that part are as they were `before`. -/
theorem recoversOthers_iff_of_agree {ids : List τ} {before : τ → Store κ ν} (hnodup : ids.Nodup)
    (hclaims : ∀ t ∈ ids, (before t).claimed = false) (hagree : ∀ t ∈ ids, stores t = before t) :
    RecoversOthers before fault ids (recoverTimeouts pick fault ids stores).2 ↔
      ids.Pairwise fun t t' => Fails before fault t → ¬ Healthy before fault t' := by
  induction ids generalizing stores with
  | nil => exact iff_of_true ⟨by simp, by simp⟩ .nil
  | cons t rest ih =>
    obtain ⟨ht, hnodup⟩ := List.nodup_cons.mp hnodup
    obtain ⟨hclaim, hclaims⟩ := List.forall_mem_cons.mp hclaims
    obtain ⟨hsame, hagree⟩ := List.forall_mem_cons.mp hagree
    have hclaimed : (stores t).claimed = false := by rw [hsame, hclaim]
    have hupdate : ∀ store, ∀ t' ∈ rest, Function.update stores t store t' = before t' := by
      intro store t' ht'
      have hne : t' ≠ t := by
        rintro rfl
        exact ht ht'
      rw [Function.update_of_ne hne, hagree t' ht']
    have hfails : Fails stores fault t ↔ Fails before fault t := by rw [Fails, hsame, Fails]
    rw [List.pairwise_cons]
    by_cases h : Fails before fault t
    · -- the scan ends: what is listed behind keeps its keys
      obtain ⟨store, hfree, heq⟩ := recoverTimeouts_of_fails pick rest hclaimed (hfails.mpr h)
      rw [heq, recoversOthers_cons_of_fails h (by rw [Function.update_self, hfree]) hclaims (hupdate store)]
      constructor
      · exact fun hnone => ⟨fun t' ht' _ => hnone t' ht',
          List.pairwise_of_forall_mem_list fun _ _ t' ht' _ => hnone t' ht'⟩
      · exact fun hnone t' ht' => hnone.1 t' ht' h
    · -- the scan goes on with the rest of the list
      obtain ⟨store, hfree, hrecovered, heq⟩ :=
        recoverTimeouts_of_not_fails pick rest hclaimed (mt hfails.mp h)
      have hhead : (recoverTimeouts pick fault rest (Function.update stores t store)).2 t = store :=
        recoverTimeouts_head ht stores store
      rw [heq, and_iff_right fun t' _ hf => absurd hf h, ← ih hnodup hclaims (hupdate store)]
      refine recoversOthers_cons (fun hhealthy => ?_) (by rw [hhead, hfree])
      rw [hhead, ← hsame]
      exact hrecovered (by rw [hsame]; exact hhealthy.1)

/-- A scan recovers every healthy task, and leaves no claim, exactly when no failing task is listed before a healthy
one. -/
theorem recoversOthers_iff {ids : List τ} (hnodup : ids.Nodup) (hclaims : ∀ t ∈ ids, (stores t).claimed = false) :
    RecoversOthers stores fault ids (recoverTimeouts pick fault ids stores).2 ↔
      ids.Pairwise fun t t' => Fails stores fault t → ¬ Healthy stores fault t' :=
  recoversOthers_iff_of_agree hnodup hclaims fun _ _ => rfl

end

/-- Two tasks that run and one that has been completed. -/
def threeTasks (t : Fin 3) : Store ℕ ℕ := if t = 2 then { oldTask with status := .completed } else oldTask

/-- The recovery of the first of them raises before it has sent anything. -/
def firstRaises (t : Fin 3) : Option ℕ := if t = 0 then some 0 else none

/-- The id behind the last one of a stream. -/
def nextCursor (store : Store ℕ ℕ) : ℕ := (store.events.map Stored.cursor).foldr max 0 + 1

/-- Listed behind the others, the task whose recovery raises stops none of them. -/
theorem recoversOthers_failing_last :
    RecoversOthers threeTasks firstRaises [2, 1, 0]
      (recoverTimeouts nextCursor firstRaises [2, 1, 0] threeTasks).2 := by
  refine (recoversOthers_iff (by decide) (by decide)).mpr ?_
  simp [Fails, Healthy, threeTasks, firstRaises]

/-- Listed before them, it keeps the others from being recovered. -/
theorem failing_task_stops_the_scan :
    ((recoverTimeouts nextCursor firstRaises [0, 1, 2] threeTasks).2 1).status = .running ∧
      ¬ RecoversOthers threeTasks firstRaises [0, 1, 2]
        (recoverTimeouts nextCursor firstRaises [0, 1, 2] threeTasks).2 := by
  have hstatus : ((recoverTimeouts nextCursor firstRaises [0, 1, 2] threeTasks).2 1).status = .running := by decide
  refine ⟨hstatus, fun h => ?_⟩
  have hfailed := (h.recovered 1 (by decide) ⟨by decide, by decide⟩).status
  exact nomatch hstatus.symm.trans hfailed

/-! ## The scan as a run of its call -/

section

variable {ι : Type} [LinearOrder κ] [DecidableEq τ] [DecidableEq ι] {ttl : ℕ} {i : ι} {t : τ} {rest : List τ}
  {w w₀ w₁ w₂ : World κ ν τ ι} {store : Store κ ν} {pick : Store κ ν → κ} {fault : τ → Option ℕ}

/-- The ids of `XADD` are behind the streams that they are for. -/
def Picks (pick : Store κ ν → κ) : Prop := ∀ store : Store κ ν, store.accepts (pick store) = true

/-- The call gets from one state to the other by steps and failures of its own. -/
def Reaches (ttl : ℕ) (i : ι) (w₁ w₂ : World κ ν τ ι) : Prop :=
  ∃ labels : List (Label κ ν τ ι), (∀ l ∈ labels, (∃ fresh, l = .advance i fresh) ∨ l = .fails i) ∧
    Machine.exec (step ttl) w₁ labels = some w₂

theorem Reaches.refl (w : World κ ν τ ι) : Reaches ttl i w w := ⟨[], by simp, rfl⟩

theorem Reaches.trans {w₃ : World κ ν τ ι} (h : Reaches ttl i w₁ w₂) (h' : Reaches ttl i w₂ w₃) :
    Reaches ttl i w₁ w₃ := by
  obtain ⟨labels, hown, hexec⟩ := h
  obtain ⟨labels', hown', hexec'⟩ := h'
  refine ⟨labels ++ labels', List.forall_mem_append.mpr ⟨hown, hown'⟩, ?_⟩
  rw [Machine.exec_append, hexec, Option.bind_some, hexec']

/-- The call has got to its task; these are the keys of the task, and those of the others are as they were. -/
structure Stands (ttl : ℕ) (i : ι) (w₀ : World κ ν τ ι) (call : Call τ ν) (t : τ) (store : Store κ ν)
    (w : World κ ν τ ι) : Prop where
  reached : Reaches ttl i w₀ w
  call : w.calls i = call
  store : w.store = Function.update w₀.store t store

theorem Stands.init {call : Call τ ν} (h : w.calls i = call) : Stands ttl i w call t (w.store t) w :=
  ⟨.refl w, h, (Function.update_eq_self t w.store).symm⟩

omit [LinearOrder κ] in
theorem runOption_claimed (fresh : κ) (command : Option (Command ν)) (store : Store κ ν) (claimed : Bool) :
    { store with claimed := claimed }.runOption fresh command =
      { store.runOption fresh command with claimed := claimed } := by
  cases command with
  | none => rfl
  | some command => cases command <;> rfl

omit [LinearOrder κ] in
/-- A step of the call is a step of the recoverer on the keys of the task. -/
theorem store_advance (fresh : κ) (w : World κ ν τ ι) :
    (w.advance ttl i t rest fresh).store = Function.update w.store t
      { (w.store t).runOption fresh ((w.calls i).recoverer.step 0 (w.store t)).1 with
        claimed := ((w.calls i).recoverer.step 0 (w.store t)).2.1 } := by
  funext t'
  unfold World.advance
  generalize hstep : (w.calls i).recoverer.step 0 (w.store t) = p
  obtain ⟨command, claimed, recoverer⟩ := p
  by_cases ht : t' = t
  · subst ht
    rw [Function.update_self, World.store, World.store, runOption_claimed]
    simp only [Function.update_self]
    cases claimed <;> simp
  · rw [Function.update_of_ne ht, World.store, World.store]
    simp only [Function.update_of_ne ht]

theorem Stands.advance (hpick : Picks pick) {recoverer : Recoverer ν} (command : Option (Command ν)) (claimed : Bool)
    (recoverer' : Recoverer ν) (h : Stands ttl i w₀ ⟨t :: rest, recoverer⟩ t store w)
    (hstep : recoverer.step 0 store = (command, claimed, recoverer')) :
    ∃ w', Stands ttl i w₀ (if recoverer'.phase = .idle then .next rest else ⟨t :: rest, recoverer'⟩) t
      { store.runOption (pick store) command with claimed := claimed } w' := by
  have hstore : w.store t = store := by rw [h.store, Function.update_self]
  have haccepts : (w.stores t).accepts (pick store) = true := by
    rw [← hstore]
    exact hpick (w.store t)
  refine ⟨w.advance ttl i t rest (pick store), h.reached.trans ⟨[.advance i (pick store)], ?_, ?_⟩, ?_, ?_⟩
  · simp
  · simp [Machine.exec, step, h.call, haccepts]
  · simp [World.advance, h.call, hstore, hstep]
  · rw [store_advance, h.call, hstore, hstep, h.store, Function.update_idem]

/-- What is raised between the claim and the release leaves the release to do, and nothing else. -/
theorem Stands.fails {phase : RecoveryPhase} {pending : List (Command ν)}
    (hphase : phase = .readingSeq ∨ phase = .sending) (h : Stands ttl i w₀ ⟨t :: rest, ⟨phase, pending⟩⟩ t store w) :
    ∃ w', Stands ttl i w₀ ⟨[t], ⟨.releasing, []⟩⟩ t store w' := by
  have hfails : (w.calls i).fails = some ⟨[t], ⟨.releasing, []⟩⟩ := by
    rw [h.call]
    rcases hphase with rfl | rfl <;> rfl
  refine ⟨w.setCall i ⟨[t], ⟨.releasing, []⟩⟩, h.reached.trans ⟨[.fails i], by simp, ?_⟩, ?_, h.store⟩
  · simp [Machine.exec, step, hfails]
  · exact World.setCall_self i _ w

/-- The commands that are sent before others. -/
theorem Stands.sends (hpick : Picks pick) {commands more : List (Command ν)}
    (hmore : more ≠ []) (h : Stands ttl i w₀ ⟨t :: rest, ⟨.sending, commands ++ more⟩⟩ t store w) :
    ∃ w', Stands ttl i w₀ ⟨t :: rest, ⟨.sending, more⟩⟩ t (runCommands pick commands store) w' := by
  induction commands generalizing store w with
  | nil => exact ⟨w, h⟩
  | cons command commands ih =>
    obtain ⟨w', hw'⟩ := Stands.advance hpick (some command) store.claimed ⟨.sending, commands ++ more⟩ h
      (by simp [Recoverer.step, hmore])
    rw [if_neg (by simp), ← runOption_claimed] at hw'
    exact ih hw'

/-- A step that sends nothing and does not leave the task. -/
theorem Stands.goes (hpick : Picks pick) {recoverer : Recoverer ν} (claimed : Bool) (recoverer' : Recoverer ν)
    (h : Stands ttl i w₀ ⟨t :: rest, recoverer⟩ t store w)
    (hstep : recoverer.step 0 store = (none, claimed, recoverer')) (hphase : recoverer'.phase ≠ .idle) :
    ∃ w', Stands ttl i w₀ ⟨t :: rest, recoverer'⟩ t { store with claimed := claimed } w' := by
  obtain ⟨w', hw'⟩ := Stands.advance hpick none claimed recoverer' h hstep
  rw [if_neg hphase] at hw'
  exact ⟨w', hw'⟩

theorem Stands.release (hpick : Picks pick) (h : Stands ttl i w₀ ⟨t :: rest, ⟨.releasing, []⟩⟩ t store w) :
    ∃ w', Stands ttl i w₀ (.next rest) t { store with claimed := false } w' :=
  Stands.advance hpick none false ⟨.idle, []⟩ h rfl

/-- All commands, and the release. -/
theorem Stands.finish (hpick : Picks pick) {commands : List (Command ν)} (hne : commands ≠ [])
    (h : Stands ttl i w₀ ⟨t :: rest, ⟨.sending, commands⟩⟩ t store w) :
    ∃ w', Stands ttl i w₀ (.next rest) t { runCommands pick commands store with claimed := false } w' := by
  obtain ⟨front, last, rfl⟩ := List.eq_nil_or_concat' commands |>.resolve_left hne
  obtain ⟨w₁, h₁⟩ := h.sends hpick (List.cons_ne_nil last [])
  obtain ⟨w₂, h₂⟩ := Stands.advance hpick (some last) (runCommands pick front store).claimed ⟨.releasing, []⟩ h₁
    (by simp [Recoverer.step])
  rw [if_neg (by simp)] at h₂
  obtain ⟨w₃, h₃⟩ := h₂.release hpick
  refine ⟨w₃, ?_⟩
  rw [runCommands, List.foldl_concat]
  exact h₃

/-- A claimed task that is running, up to the first command of its recovery. -/
theorem Stands.begin (hpick : Picks pick) (hstatus : store.status = .running)
    (h : Stands ttl i w₀ ⟨t :: rest, ⟨.claimed, []⟩⟩ t store w) :
    ∃ w', Stands ttl i w₀ ⟨t :: rest, ⟨.sending, recoveryCommands store.lastSeq store.initialModel⟩⟩ t store w' := by
  obtain ⟨w₁, h₁⟩ := Stands.goes hpick store.claimed ⟨.completing, []⟩ h (by simp [Recoverer.step, hstatus]) (by simp)
  obtain ⟨w₂, h₂⟩ := Stands.goes hpick store.claimed ⟨.readingSeq, []⟩ h₁ rfl (by simp)
  by_cases hzero : store.lastSeq = 0
  · obtain ⟨w₃, h₃⟩ := Stands.goes hpick store.claimed ⟨.readingModel, []⟩ h₂ (by simp [Recoverer.step, hzero])
      (by simp)
    rw [hzero]
    exact Stands.goes hpick store.claimed _ h₃ rfl (by simp)
  · rw [← recoveryCommands_none hzero store.initialModel]
    exact Stands.goes hpick store.claimed _ h₂ (by simp [Recoverer.step, hzero]) (by simp)

/-- The scan is a run of its call: every one of its outcomes is an outcome of the machine, where a fault stands for a
command that raises. -/
theorem reaches_recoverTimeouts (ttl : ℕ) (hpick : Picks pick)
    (hfault : ∀ t sent, fault t = some sent → ∀ store : Store κ ν,
      sent < (recoveryCommands store.lastSeq store.initialModel : List (Command ν)).length)
    (ids : List τ) {w : World κ ν τ ι} (hcall : w.calls i = .next ids) :
    ∃ w', Reaches ttl i w w' ∧ w'.calls i = .next [] ∧ w'.store = (recoverTimeouts pick fault ids w.store).2 := by
  induction ids generalizing w with
  | nil => exact ⟨w, .refl w, hcall, rfl⟩
  | cons t rest ih =>
    -- what is left of the list is scanned from the state that the task leaves
    have hrest : ∀ {store : Store κ ν} {w₁ : World κ ν τ ι}, Stands ttl i w (.next rest) t store w₁ →
        ∃ w', Reaches ttl i w w' ∧ w'.calls i = .next [] ∧
          w'.store = (recoverTimeouts pick fault rest (Function.update w.store t store)).2 := by
      intro store w₁ h
      obtain ⟨w', hreached, hidle, hstore⟩ := ih h.call
      exact ⟨w', h.reached.trans hreached, hidle, by rw [hstore, h.store]⟩
    have hinit : Stands ttl i w ⟨t :: rest, ⟨.listed, []⟩⟩ t (w.store t) w := .init hcall
    rw [recoverTimeouts]
    by_cases hclaim : (w.store t).claimed = true
    · rw [if_pos hclaim]
      obtain ⟨w₁, h₁⟩ := Stands.advance hpick none true ⟨.idle, []⟩ hinit (by simp [Recoverer.step, hclaim])
      have hsame : { w.store t with claimed := true } = w.store t := by rw [← hclaim]
      rw [Store.runOption, hsame] at h₁
      obtain ⟨w', hw'⟩ := hrest h₁
      rw [Function.update_eq_self] at hw'
      exact ⟨w', hw'⟩
    rw [if_neg hclaim]
    obtain ⟨w₁, h₁⟩ := Stands.goes hpick true ⟨.claimed, []⟩ hinit (by simp [Recoverer.step, hclaim]) (by simp)
    dsimp only
    by_cases hstatus : (w.store t).status = .running
    · rw [if_pos hstatus]
      obtain ⟨w₂, h₂⟩ := Stands.begin hpick (show { w.store t with claimed := true }.status = .running from hstatus) h₁
      cases hf : fault t with
      | none =>
        obtain ⟨w₃, h₃⟩ := h₂.finish hpick (recoveryCommands_ne_nil _ _)
        exact hrest h₃
      | some sent =>
        have hmore := List.drop_eq_nil_iff.not.mpr (not_le.mpr (hfault t sent hf (w.store t)))
        rw [← List.take_append_drop sent (recoveryCommands _ _)] at h₂
        obtain ⟨w₃, h₃⟩ := h₂.sends hpick hmore
        obtain ⟨w₄, h₄⟩ := h₃.fails (.inr rfl)
        obtain ⟨w₅, h₅⟩ := h₄.release hpick
        exact ⟨w₅, h₅.reached, h₅.call, h₅.store⟩
    · rw [if_neg hstatus]
      obtain ⟨w₂, h₂⟩ := Stands.goes hpick true ⟨.sending, forgetHeartbeat⟩ h₁ (by simp [Recoverer.step, hstatus])
        (by simp)
      obtain ⟨w₃, h₃⟩ := h₂.finish hpick (List.cons_ne_nil _ _)
      exact hrest h₃

end

end AgentUE.PythonRunner.Scan
