import AgentUE.Data.Expiring
import AgentUE.GoRunner.Bridge
import Mathlib.Order.Max

/-!
# Go runner: the lifetime of a task

Reference: `NewRedisEventBridge`, `ttlSeconds` and the scripts of `sdks/go/runner/redis_bridge.go`, command by command
with their `EXPIRE`. The server has a clock, in milliseconds, that stands still while a script runs. Whatever lifetimes
the clients ask for, the hash and the stream of a task have one deadline, so that they disappear together, and what is
seen of them is what the scripts without a clock leave where an expiry is a call of its own.
-/

namespace AgentUE.GoRunner

open Data

/-! ## The options of a bridge -/

/-- `BridgeOptions`; the durations are in nanoseconds. -/
structure BridgeOptions where
  keyPrefix : String
  taskTTL : ℤ
  readBlock : ℤ
  readCount : ℤ
deriving DecidableEq

/-- `NewRedisEventBridge` fills in what is missing. -/
def newRedisEventBridge (options : BridgeOptions) : BridgeOptions where
  keyPrefix := if options.keyPrefix = "" then "agentue:runner" else options.keyPrefix
  taskTTL := if options.taskTTL ≤ 0 then 24 * 3600 * 1000000000 else options.taskTTL
  readBlock := if options.readBlock ≤ 0 then 1000000000 else options.readBlock
  readCount := if options.readCount ≤ 0 then 100 else options.readCount

/-- `ttlSeconds` -/
def BridgeOptions.ttlSeconds (options : BridgeOptions) : ℕ :=
  let seconds := options.taskTTL.tdiv 1000000000
  if seconds < 1 then 1 else seconds.toNat

/-- A lifetime is at least a second. -/
theorem ttlSeconds_pos (options : BridgeOptions) : 0 < options.ttlSeconds := by
  unfold BridgeOptions.ttlSeconds
  dsimp only
  split_ifs with h
  · exact Nat.one_pos
  · omega

/-! ## The server -/

variable {κ ε : Type}

/-- The keys of a server with their deadlines, and its clock. -/
structure TimedRedis (κ ε : Type) where
  now : ℕ
  hashes : String → Option (Held (TaskHash κ ε))
  streams : String → Option (Held (List (Entry κ ε)))

namespace TimedRedis

/-- A server without any key. -/
def empty : TimedRedis κ ε := ⟨0, fun _ => none, fun _ => none⟩

/-- `HGET` and `EXISTS` -/
def hash (base : String) (t : TimedRedis κ ε) : Option (TaskHash κ ε) := Expiring.get t.now t.hashes (stateKey base)

/-- `XADD`, which creates a missing stream. -/
def xadd (base : String) (entry : Entry κ ε) (t : TimedRedis κ ε) : TimedRedis κ ε :=
  let events := (Expiring.get t.now t.streams (streamKey base)).getD []
  { t with streams := Expiring.put t.now (streamKey base) (events ++ [entry]) t.streams }

/-- `HSET` -/
def hset (base : String) (fields : TaskHash κ ε) (t : TimedRedis κ ε) : TimedRedis κ ε :=
  { t with hashes := Expiring.put t.now (stateKey base) fields t.hashes }

/-- `EXPIRE` of both keys -/
def renew (base : String) (seconds : ℕ) (t : TimedRedis κ ε) : TimedRedis κ ε where
  now := t.now
  hashes := Expiring.expire t.now (stateKey base) (1000 * seconds) t.hashes
  streams := Expiring.expire t.now (streamKey base) (1000 * seconds) t.streams

/-- `DEL` of both keys -/
def del (base : String) (t : TimedRedis κ ε) : TimedRedis κ ε where
  now := t.now
  hashes := Expiring.remove (stateKey base) t.hashes
  streams := Expiring.remove (streamKey base) t.streams

/-- `initializeScript` -/
def initializeScript (base : String) (seconds : ℕ) (fresh : κ) (seq : ℕ) (initialModel startEvent : ε)
    (t : TimedRedis κ ε) : Reply κ × TimedRedis κ ε :=
  match t.hash base with
  | some _ => (.conflict, t)
  | none =>
    let t := t.xadd base ⟨fresh, startEvent, seq⟩
    let t := t.hset base ⟨.running, seq, initialModel, startEvent, fresh⟩
    (.cursor fresh, t.renew base seconds)

/-- `publishScript` -/
def publishScript [DecidableEq ε] (base : String) (seconds : ℕ) (fresh : κ) (seq : ℕ) (event : ε)
    (t : TimedRedis κ ε) : Reply κ × TimedRedis κ ε :=
  match t.hash base with
  | none => (.notFound, t)
  | some hash =>
    if tonumber seq = tonumber hash.lastSeq ∧ hash.lastEvent = event then (.cursor hash.lastCursor, t)
    else if hash.status ≠ .running then (.conflict, t)
    else if tonumber seq ≤ tonumber hash.lastSeq then (.conflict, t)
    else
      let t := t.xadd base ⟨fresh, event, seq⟩
      let t := t.hset base { hash with lastSeq := seq, lastEvent := event, lastCursor := fresh }
      (.cursor fresh, t.renew base seconds)

/-- `MarkTerminal` with `markTerminalScript` -/
def markTerminal (base : String) (seconds : ℕ) (status : Status) (t : TimedRedis κ ε) : Reply κ × TimedRedis κ ε :=
  if !status.terminal then (.invalidStatus, t)
  else match t.hash base with
  | none => (.notFound, t)
  | some hash =>
    if hash.status ≠ .running ∧ hash.status ≠ status then (.conflict, t)
    else (.ok, (t.hset base { hash with status := status }).renew base seconds)

/-- A call of the bridge of one client; nobody calls for an expiry. -/
def run [DecidableEq ε] (base : String) (seconds : ℕ) (fresh : κ) :
    Call ε → TimedRedis κ ε → Reply κ × TimedRedis κ ε
  | .initialize_ initialModel startEvent seq, t => initializeScript base seconds fresh seq initialModel startEvent t
  | .publish event seq, t => publishScript base seconds fresh seq event t
  | .markTerminal status, t => markTerminal base seconds status t
  | .delete, t => (.ok, t.del base)
  | .expire, t => (.ok, t)

/-- What a reader sees. -/
def visible (t : TimedRedis κ ε) : Redis κ ε where
  hashes := Expiring.get t.now t.hashes
  streams name := (Expiring.get t.now t.streams name).getD []

/-- The deadlines of the two keys of a task, as far as the keys are there. -/
def lifetimes (base : String) (t : TimedRedis κ ε) : Option (Option ℕ) × Option (Option ℕ) :=
  ((Expiring.heldAt t.now (t.hashes (stateKey base))).map Held.deadline,
    (Expiring.heldAt t.now (t.streams (streamKey base))).map Held.deadline)

end TimedRedis

/-- The two keys of a task are there with one deadline, or neither is there. -/
def Together (base : String) (t : TimedRedis κ ε) : Prop :=
  t.lifetimes base = (none, none) ∨ ∃ d, t.lifetimes base = (some (some d), some (some d))

/-! ## The scripts and the clock -/

section Visible

theorem put_keys (r : Redis κ ε) (base : String) : r.put base (r.keys base) = r := by
  simp [Redis.put, Redis.keys]

theorem put_put (r : Redis κ ε) (base : String) (first second : Keys κ ε) :
    (r.put base first).put base second = r.put base second := by
  simp [Redis.put]

@[simp] theorem keys_visible (t : TimedRedis κ ε) (base : String) :
    t.visible.keys base = ⟨t.hash base, (Expiring.get t.now t.streams (streamKey base)).getD []⟩ := rfl

theorem visible_xadd (t : TimedRedis κ ε) (base : String) (entry : Entry κ ε) :
    (t.xadd base entry).visible =
      t.visible.put base ⟨t.hash base, (t.visible.keys base).events ++ [entry]⟩ := by
  simp only [TimedRedis.visible, TimedRedis.xadd, Redis.put, TimedRedis.hash, Redis.mk.injEq]
  refine ⟨(Function.update_eq_self _ _).symm, ?_⟩
  rw [Expiring.get_put]
  exact Function.comp_update (fun events => Option.getD events []) _ _ _

theorem visible_hset (t : TimedRedis κ ε) (base : String) (fields : TaskHash κ ε) :
    (t.hset base fields).visible = t.visible.put base ⟨some fields, (t.visible.keys base).events⟩ := by
  simp only [TimedRedis.visible, TimedRedis.hset, Redis.put, Redis.mk.injEq]
  exact ⟨Expiring.get_put .., (Function.update_eq_self _ _).symm⟩

@[simp] theorem visible_renew (t : TimedRedis κ ε) (base : String) (seconds : ℕ) :
    (t.renew base seconds).visible = t.visible := by
  simp [TimedRedis.visible, TimedRedis.renew, Expiring.get_expire]

theorem visible_del (t : TimedRedis κ ε) (base : String) :
    (t.del base).visible = t.visible.put base GoRunner.delete := by
  simp only [TimedRedis.visible, TimedRedis.del, Redis.put, GoRunner.delete, Redis.mk.injEq]
  refine ⟨Expiring.get_remove .., ?_⟩
  rw [Expiring.get_remove]
  exact Function.comp_update (fun events => Option.getD events []) _ _ _

/-- An entry and a hash, written one after the other. -/
theorem visible_store (t : TimedRedis κ ε) (base : String) (entry : Entry κ ε) (fields : TaskHash κ ε)
    (seconds : ℕ) : (((t.xadd base entry).hset base fields).renew base seconds).visible =
      t.visible.put base ⟨some fields, (t.visible.keys base).events ++ [entry]⟩ := by
  rw [visible_renew, visible_hset, visible_xadd, keys_put_self, put_put]

variable [DecidableEq ε]

/-- What a reader sees after a call is what the call without a clock leaves, and the reply is the same. -/
theorem run_visible (t : TimedRedis κ ε) (base : String) (seconds : ℕ) (fresh : κ) {call : Call ε}
    (hcall : call ≠ .expire) :
    (t.run base seconds fresh call).1 = (call.run fresh (t.visible.keys base)).1 ∧
      (t.run base seconds fresh call).2.visible = t.visible.put base (call.run fresh (t.visible.keys base)).2 := by
  have hkeep : t.visible = t.visible.put base (t.visible.keys base) := (put_keys ..).symm
  cases call with
  | initialize_ initialModel startEvent seq =>
    simp only [TimedRedis.run, TimedRedis.initializeScript, Call.run, initializeScript, keys_visible]
    cases hhash : t.hash base with
    | some hash => exact ⟨rfl, by simpa [hhash] using hkeep⟩
    | none => exact ⟨rfl, visible_store ..⟩
  | publish event seq =>
    simp only [TimedRedis.run, TimedRedis.publishScript, Call.run, publishScript, keys_visible]
    cases hhash : t.hash base with
    | none => exact ⟨rfl, by simpa [hhash] using hkeep⟩
    | some hash =>
      have hkeep' : t.visible = t.visible.put base
          ⟨some hash, (Expiring.get t.now t.streams (streamKey base)).getD []⟩ := by simpa [hhash] using hkeep
      dsimp only
      split_ifs
      · exact ⟨rfl, hkeep'⟩
      · exact ⟨rfl, hkeep'⟩
      · exact ⟨rfl, hkeep'⟩
      · exact ⟨rfl, visible_store ..⟩
  | markTerminal status =>
    simp only [TimedRedis.run, TimedRedis.markTerminal, Call.run, GoRunner.markTerminal, keys_visible]
    cases hhash : t.hash base with
    | none =>
      have hkeep' : t.visible = t.visible.put base
          ⟨none, (Expiring.get t.now t.streams (streamKey base)).getD []⟩ := by simpa [hhash] using hkeep
      dsimp only
      split_ifs
      · exact ⟨rfl, hkeep'⟩
      · exact ⟨rfl, hkeep'⟩
    | some hash =>
      have hkeep' : t.visible = t.visible.put base
          ⟨some hash, (Expiring.get t.now t.streams (streamKey base)).getD []⟩ := by simpa [hhash] using hkeep
      dsimp only
      split_ifs
      · exact ⟨rfl, hkeep'⟩
      · exact ⟨rfl, hkeep'⟩
      · refine ⟨rfl, ?_⟩
        rw [visible_renew, visible_hset, keys_visible]
  | delete => exact ⟨rfl, visible_del t base⟩
  | expire => exact absurd rfl hcall

end Visible

/-! ## One deadline for a task -/

section Lifetimes

variable {t : TimedRedis κ ε} {base : String}

/-- A key of a task is there exactly when the other one is. -/
theorem Together.isSome_eq (h : Together base t) :
    (t.hash base).isSome = (Expiring.get t.now t.streams (streamKey base)).isSome := by
  simp only [Together, TimedRedis.lifetimes, Prod.mk.injEq, Option.map_eq_none_iff, Option.map_eq_some_iff] at h
  rcases h with ⟨hhash, hstream⟩ | ⟨d, ⟨held, hhash, -⟩, held', hstream, -⟩
  · simp [TimedRedis.hash, Expiring.get, hhash, hstream]
  · simp [TimedRedis.hash, Expiring.get, hhash, hstream]

/-- Both keys get one deadline. -/
theorem together_renew (seconds : ℕ)
    (h : (t.hash base).isSome = (Expiring.get t.now t.streams (streamKey base)).isSome) :
    Together base (t.renew base seconds) := by
  simp only [Together, TimedRedis.lifetimes, TimedRedis.renew, Expiring.heldAt_expire_self, Option.map_map]
  rw [TimedRedis.hash, Expiring.get, Expiring.get, Option.isSome_map, Option.isSome_map] at h
  cases hhash : Expiring.heldAt t.now (t.hashes (stateKey base)) with
  | none =>
    have hstream : Expiring.heldAt t.now (t.streams (streamKey base)) = none := by
      rwa [hhash, Option.isSome_none, eq_comm, Option.isSome_eq_false_iff, Option.isNone_iff_eq_none] at h
    exact .inl (by rw [hstream]; rfl)
  | some held =>
    obtain ⟨held', hstream⟩ : ∃ held', Expiring.heldAt t.now (t.streams (streamKey base)) = some held' := by
      rwa [hhash, Option.isSome_some, eq_comm, Option.isSome_iff_exists] at h
    exact .inr ⟨t.now + 1000 * seconds, by rw [hstream]; rfl⟩

/-- Both keys have been written and get one deadline. -/
theorem together_store (entry : Entry κ ε) (fields : TaskHash κ ε) (seconds : ℕ) :
    Together base (((t.xadd base entry).hset base fields).renew base seconds) := by
  refine together_renew seconds ?_
  simp only [TimedRedis.hash, TimedRedis.hset, TimedRedis.xadd, Expiring.get, Expiring.heldAt_put_self]
  rfl

variable [DecidableEq ε]

/-- A call keeps one deadline for its task. -/
theorem together_run (h : Together base t) (seconds : ℕ) (fresh : κ) (call : Call ε) :
    Together base (t.run base seconds fresh call).2 := by
  cases call with
  | initialize_ initialModel startEvent seq =>
    simp only [TimedRedis.run, TimedRedis.initializeScript]
    cases t.hash base with
    | some hash => exact h
    | none => exact together_store ..
  | publish event seq =>
    simp only [TimedRedis.run, TimedRedis.publishScript]
    cases t.hash base with
    | none => exact h
    | some hash =>
      dsimp only
      split_ifs
      · exact h
      · exact h
      · exact h
      · exact together_store ..
  | markTerminal status =>
    simp only [TimedRedis.run, TimedRedis.markTerminal]
    cases hhash : t.hash base with
    | none => split_ifs <;> exact h
    | some hash =>
      dsimp only
      split_ifs
      · exact h
      · exact h
      · refine together_renew seconds ?_
        have hboth := h.isSome_eq
        simp only [TimedRedis.hash, TimedRedis.hset, Expiring.get, Expiring.heldAt_put_self, Option.isSome_map]
        rw [hhash, Expiring.get, Option.isSome_map] at hboth
        exact hboth
  | delete =>
    exact .inl (by simp [TimedRedis.run, TimedRedis.del, TimedRedis.lifetimes, Expiring.heldAt])
  | expire => exact h

/-- A call touches its own two keys only, and no clock. -/
theorem run_of_ne (t : TimedRedis κ ε) (base : String) (seconds : ℕ) (fresh : κ) (call : Call ε) :
    (t.run base seconds fresh call).2.now = t.now ∧
      (∀ name, name ≠ stateKey base → (t.run base seconds fresh call).2.hashes name = t.hashes name) ∧
      ∀ name, name ≠ streamKey base → (t.run base seconds fresh call).2.streams name = t.streams name := by
  have hstore : ∀ (entry : Entry κ ε) (fields : TaskHash κ ε),
      (∀ name, name ≠ stateKey base →
        (((t.xadd base entry).hset base fields).renew base seconds).hashes name = t.hashes name) ∧
      ∀ name, name ≠ streamKey base →
        (((t.xadd base entry).hset base fields).renew base seconds).streams name = t.streams name := by
    intro entry fields
    refine ⟨fun name hne => ?_, fun name hne => ?_⟩
    · exact (Expiring.expire_of_ne _ hne _ _).trans (Expiring.put_of_ne _ hne _ _)
    · exact (Expiring.expire_of_ne _ hne _ _).trans (Expiring.put_of_ne _ hne _ _)
  have hkeep : t.now = t.now ∧ (∀ name, name ≠ stateKey base → t.hashes name = t.hashes name) ∧
      ∀ name, name ≠ streamKey base → t.streams name = t.streams name := ⟨rfl, fun _ _ => rfl, fun _ _ => rfl⟩
  cases call with
  | initialize_ initialModel startEvent seq =>
    simp only [TimedRedis.run, TimedRedis.initializeScript]
    cases t.hash base with
    | some hash => exact hkeep
    | none => exact ⟨rfl, hstore ..⟩
  | publish event seq =>
    simp only [TimedRedis.run, TimedRedis.publishScript]
    cases t.hash base with
    | none => exact hkeep
    | some hash =>
      dsimp only
      split_ifs
      · exact hkeep
      · exact hkeep
      · exact hkeep
      · exact ⟨rfl, hstore ..⟩
  | markTerminal status =>
    simp only [TimedRedis.run, TimedRedis.markTerminal]
    cases t.hash base with
    | none => split_ifs <;> exact hkeep
    | some hash =>
      dsimp only
      split_ifs
      · exact hkeep
      · exact hkeep
      · exact ⟨rfl, fun name hne => (Expiring.expire_of_ne _ hne _ _).trans (Expiring.put_of_ne _ hne _ _),
          fun name hne => Expiring.expire_of_ne _ hne _ _⟩
  | delete => exact ⟨rfl, fun name hne => Expiring.remove_of_ne hne _, fun name hne => Expiring.remove_of_ne hne _⟩
  | expire => exact hkeep

end Lifetimes

/-! ## Runs -/

/-- A request of a client that has been given these options. -/
structure TimedRequest (κ ε : Type) where
  options : BridgeOptions
  taskID : String
  call : Call ε
  fresh : κ

/-- The request without its lifetime. -/
def TimedRequest.plain (req : TimedRequest κ ε) : Request κ ε :=
  ⟨(newRedisEventBridge req.options).keyPrefix, req.taskID, req.call, req.fresh⟩

/-- What happens next. -/
inductive TimedLabel (κ ε : Type) where
  | elapse (milliseconds : ℕ)
  | request (req : TimedRequest κ ε)

/-- The requests among the labels. -/
def plainRequests (labels : List (TimedLabel κ ε)) : List (Request κ ε) :=
  labels.filterMap fun
    | .elapse _ => none
    | .request req => some req.plain

section Runs

variable [LinearOrder κ] [DecidableEq ε]

/-- The reply to a request. -/
def TimedRequest.reply (t : TimedRedis κ ε) (req : TimedRequest κ ε) : Reply κ :=
  (t.run req.plain.base (newRedisEventBridge req.options).ttlSeconds req.fresh req.call).1

/-- A server without deadlines, whose new cursors are behind all of their stream. -/
def answer (r : Redis κ ε) (req : Request κ ε) : Option (Redis κ ε) :=
  if req.isFresh r then some (r.put req.base (req.call.run req.fresh (r.keys req.base)).2) else none

/-- The clock goes on, or the server takes a request of a client. -/
def timedStep (t : TimedRedis κ ε) : TimedLabel κ ε → Option (TimedRedis κ ε)
  | .elapse milliseconds => some { t with now := t.now + milliseconds }
  | .request req =>
    if req.call ≠ .expire ∧ req.plain.isFresh t.visible then
      some (t.run req.plain.base (newRedisEventBridge req.options).ttlSeconds req.fresh req.call).2
    else none

/-- Only the keys of these tasks have been written. -/
structure Within (tasks : List (String × String)) (t : TimedRedis κ ε) : Prop where
  hashes : ∀ name, t.hashes name ≠ none → ∃ task ∈ tasks, name = stateKey (baseKey task.1 task.2)
  streams : ∀ name, t.streams name ≠ none → ∃ task ∈ tasks, name = streamKey (baseKey task.1 task.2)

omit [LinearOrder κ] in
theorem within_run {tasks : List (String × String)} {t : TimedRedis κ ε} (h : Within tasks t) (task : String × String)
    (seconds : ℕ) (fresh : κ) (call : Call ε) :
    Within (task :: tasks) (t.run (baseKey task.1 task.2) seconds fresh call).2 := by
  obtain ⟨-, hhashes, hstreams⟩ := run_of_ne t (baseKey task.1 task.2) seconds fresh call
  refine ⟨fun name hname => ?_, fun name hname => ?_⟩
  · by_cases heq : name = stateKey (baseKey task.1 task.2)
    · exact ⟨task, List.mem_cons_self, heq⟩
    · rw [hhashes name heq] at hname
      exact (h.hashes name hname).imp fun _ ⟨hmem, hkey⟩ => ⟨List.mem_cons_of_mem _ hmem, hkey⟩
  · by_cases heq : name = streamKey (baseKey task.1 task.2)
    · exact ⟨task, List.mem_cons_self, heq⟩
    · rw [hstreams name heq] at hname
      exact (h.streams name hname).imp fun _ ⟨hmem, hkey⟩ => ⟨List.mem_cons_of_mem _ hmem, hkey⟩

omit [DecidableEq ε] in
/-- A cursor behind all of a stream. -/
theorem exists_behind [NoMaxOrder κ] [Nonempty κ] (events : List (Entry κ ε)) :
    ∃ fresh, ∀ entry ∈ events, entry.cursor < fresh := by
  induction events with
  | nil => exact ⟨Classical.arbitrary κ, by simp⟩
  | cons entry events ih =>
    obtain ⟨fresh, hfresh⟩ := ih
    obtain ⟨later, hlater⟩ := exists_gt (max entry.cursor fresh)
    refine ⟨later, fun other hother => ?_⟩
    rcases List.mem_cons.mp hother with rfl | hmem
    · exact (le_max_left _ _).trans_lt hlater
    · exact ((hfresh other hmem).trans_le (le_max_right _ _)).trans hlater

/-- An expiry for each of some tasks removes their keys and no other ones. -/
theorem exists_expiries [NoMaxOrder κ] [Nonempty κ] (r : Redis κ ε) (tasks : List (String × String)) :
    ∃ reqs r', Machine.exec answer r reqs = some r' ∧ (∀ req ∈ reqs, req.call = .expire) ∧
      (∀ name, r'.hashes name =
        if name ∈ tasks.map (fun task => stateKey (baseKey task.1 task.2)) then none else r.hashes name) ∧
      ∀ name, r'.streams name =
        if name ∈ tasks.map (fun task => streamKey (baseKey task.1 task.2)) then [] else r.streams name := by
  induction tasks generalizing r with
  | nil => exact ⟨[], r, rfl, by simp, by simp, by simp⟩
  | cons task tasks ih =>
    obtain ⟨fresh, hfresh⟩ := exists_behind (r.keys (baseKey task.1 task.2)).events
    let req : Request κ ε := ⟨task.1, task.2, .expire, fresh⟩
    have hanswer : answer r req = some (r.put (baseKey task.1 task.2) GoRunner.delete) := by
      have hnew : req.isFresh r = true := by
        simp only [Request.isFresh, List.all_eq_true, decide_eq_true_eq]
        exact hfresh
      rw [answer, if_pos hnew]
      rfl
    obtain ⟨reqs, r', hexec, hexpire, hhashes, hstreams⟩ := ih (r.put (baseKey task.1 task.2) GoRunner.delete)
    refine ⟨req :: reqs, r', ?_, ?_, fun name => ?_, fun name => ?_⟩
    · rw [Machine.exec, hanswer]
      exact hexec
    · intro other hother
      rcases List.mem_cons.mp hother with rfl | hmem
      · rfl
      · exact hexpire other hmem
    · rw [hhashes name, List.map_cons]
      by_cases heq : name = stateKey (baseKey task.1 task.2)
      · subst heq
        simp [Redis.put, GoRunner.delete]
      · rw [show (r.put _ _).hashes name = r.hashes name from Function.update_of_ne heq _ _]
        simp only [List.mem_cons, heq, false_or]
    · rw [hstreams name, List.map_cons]
      by_cases heq : name = streamKey (baseKey task.1 task.2)
      · subst heq
        simp [Redis.put, GoRunner.delete]
      · rw [show (r.put _ _).streams name = r.streams name from Function.update_of_ne heq _ _]
        simp only [List.mem_cons, heq, false_or]

omit [LinearOrder κ] [DecidableEq ε] in
/-- Time takes both keys of a task away, or none. -/
theorem together_elapse {t : TimedRedis κ ε} {base : String} (h : Together base t) (milliseconds : ℕ) :
    Together base { t with now := t.now + milliseconds } := by
  have hle : t.now ≤ t.now + milliseconds := Nat.le_add_right _ _
  simp only [Together, TimedRedis.lifetimes, Prod.mk.injEq, Option.map_eq_none_iff, Option.map_eq_some_iff] at h ⊢
  rw [← Expiring.heldAt_heldAt hle (t.hashes (stateKey base)), ← Expiring.heldAt_heldAt hle (t.streams (streamKey base))]
  rcases h with ⟨hhash, hstream⟩ | ⟨d, ⟨held, hhash, hd⟩, held', hstream, hd'⟩
  · exact .inl ⟨by rw [hhash]; rfl, by rw [hstream]; rfl⟩
  · rw [hhash, hstream]
    by_cases hlive : t.now + milliseconds ≤ d
    · exact .inr ⟨d, ⟨held, by simp [Expiring.heldAt, hd, hlive], hd⟩, held', by simp [Expiring.heldAt, hd', hlive], hd'⟩
    · exact .inl ⟨by simpa [Expiring.heldAt, hd] using hlive, by simpa [Expiring.heldAt, hd'] using hlive⟩

omit [LinearOrder κ] [DecidableEq ε] in
/-- What is there later is there now. -/
theorem get_of_later {α : Type} {now later : ℕ} (h : now ≤ later) {space : String → Option (Held α)} {name : String}
    (hlater : (Expiring.get later space name).isSome = true) :
    Expiring.get later space name = Expiring.get now space name := by
  obtain ⟨value, hvalue⟩ := Option.isSome_iff_exists.mp hlater
  obtain ⟨held, hheld, rfl⟩ := Expiring.get_eq_some.mp hvalue
  rw [← Expiring.heldAt_heldAt h] at hheld
  rw [hvalue]
  exact (Expiring.get_eq_some.mpr ⟨held, (Expiring.heldAt_eq_some.mp hheld).1, rfl⟩).symm

/-- What is seen after some time is what expiries of the tasks that are gone leave. -/
theorem exists_elapse [NoMaxOrder κ] [Nonempty κ] {t : TimedRedis κ ε} (htogether : ∀ base, Together base t)
    {tasks : List (String × String)} (hwithin : Within tasks t) (milliseconds : ℕ) :
    ∃ reqs, Machine.exec answer t.visible reqs = some { t with now := t.now + milliseconds }.visible ∧
      ∀ req ∈ reqs, req.call = .expire := by
  set t' : TimedRedis κ ε := { t with now := t.now + milliseconds } with ht'
  have hle : t.now ≤ t'.now := Nat.le_add_right _ _
  have hlater : ∀ base, Together base t' := fun base => together_elapse (htogether base) milliseconds
  obtain ⟨reqs, r', hexec, hexpire, hhashes, hstreams⟩ :=
    exists_expiries t.visible (tasks.filter fun task => (t'.hash (baseKey task.1 task.2)).isNone)
  refine ⟨reqs, ?_, hexpire⟩
  rw [hexec, Option.some.injEq, TimedRedis.visible, Redis.mk.injEq]
  refine ⟨funext fun name => ?_, funext fun name => ?_⟩
  · rw [hhashes name]
    split_ifs with hgone
    · -- the task is gone
      obtain ⟨task, hmem, rfl⟩ := List.mem_map.mp hgone
      exact (Option.isNone_iff_eq_none.mp (List.mem_filter.mp hmem).2).symm
    · by_cases hraw : t.hashes name = none
      · simp [TimedRedis.visible, Expiring.get, Expiring.heldAt, hraw, ht']
      · obtain ⟨task, hmem, rfl⟩ := hwithin.hashes name hraw
        have hlive : (t'.hash (baseKey task.1 task.2)).isSome = true := by
          by_contra hnone
          refine hgone (List.mem_map.mpr ⟨task, List.mem_filter.mpr ⟨hmem, ?_⟩, rfl⟩)
          simpa using hnone
        exact (get_of_later hle hlive).symm
  · rw [hstreams name]
    split_ifs with hgone
    · obtain ⟨task, hmem, rfl⟩ := List.mem_map.mp hgone
      have hnone := (hlater (baseKey task.1 task.2)).isSome_eq
      rw [Option.isNone_iff_eq_none.mp (List.mem_filter.mp hmem).2, Option.isSome_none, eq_comm,
        Option.isSome_eq_false_iff, Option.isNone_iff_eq_none] at hnone
      rw [hnone]
      rfl
    · by_cases hraw : t.streams name = none
      · simp [TimedRedis.visible, Expiring.get, Expiring.heldAt, hraw, ht']
      · obtain ⟨task, hmem, rfl⟩ := hwithin.streams name hraw
        have hlive : (t'.hash (baseKey task.1 task.2)).isSome = true := by
          by_contra hnone
          refine hgone (List.mem_map.mpr ⟨task, List.mem_filter.mpr ⟨hmem, ?_⟩, rfl⟩)
          simpa using hnone
        rw [(hlater _).isSome_eq] at hlive
        exact congrArg (Option.getD · []) (get_of_later hle hlive).symm

/-- A server with a clock serves its clients as the one without does, to whom an expiry of a whole task is one more
request. -/
structure Serves (labels : List (TimedLabel κ ε)) (t : TimedRedis κ ε) : Prop where
  /-- The keys of a task are there together and have one deadline. -/
  together : ∀ base, Together base t
  /-- What is seen is what the requests and some expiries lead to. -/
  refines : ∃ reqs, Machine.exec answer Redis.empty reqs = some t.visible ∧
    reqs.filter (fun req => req.call ≠ .expire) = plainRequests labels
  /-- The next reply is the same. -/
  replies : ∀ req : TimedRequest κ ε, req.call ≠ .expire → req.reply t = req.plain.reply t.visible

omit [LinearOrder κ] [DecidableEq ε] in
theorem plainRequests_append (labels more : List (TimedLabel κ ε)) :
    plainRequests (labels ++ more) = plainRequests labels ++ plainRequests more :=
  List.filterMap_append

/-- Any clients with any options, and any time between their requests. -/
theorem serves_of_exec [NoMaxOrder κ] [Nonempty κ] {labels : List (TimedLabel κ ε)} {t : TimedRedis κ ε}
    (h : Machine.exec timedStep TimedRedis.empty labels = some t) : Serves labels t := by
  have hinv : (∀ base, Together base t) ∧ (∃ tasks, Within tasks t) ∧
      ∃ reqs, Machine.exec answer Redis.empty reqs = some t.visible ∧
        reqs.filter (fun req => req.call ≠ .expire) = plainRequests labels := by
    refine Machine.exec_history
      (p := fun labels t => (∀ base, Together base t) ∧ (∃ tasks, Within tasks t) ∧
        ∃ reqs, Machine.exec answer Redis.empty reqs = some t.visible ∧
          reqs.filter (fun req => req.call ≠ .expire) = plainRequests labels) ?_ ?_ h
    · exact ⟨fun base => .inl rfl, ⟨[], fun name hname => absurd rfl hname, fun name hname => absurd rfl hname⟩,
        [], rfl, rfl⟩
    · rintro labels t label t' ⟨htogether, ⟨tasks, hwithin⟩, reqs, hexec, hreqs⟩ hstep
      cases label with
      | elapse milliseconds =>
        obtain rfl := Option.some.inj hstep
        obtain ⟨more, hmore, hexpire⟩ := exists_elapse htogether hwithin milliseconds
        refine ⟨fun base => together_elapse (htogether base) milliseconds,
          ⟨tasks, hwithin.hashes, hwithin.streams⟩, reqs ++ more, ?_, ?_⟩
        · rw [Machine.exec_append, hexec]
          exact hmore
        · have hnone : more.filter (fun req => req.call ≠ .expire) = [] := by
            rw [List.filter_eq_nil_iff]
            exact fun req hreq => by simpa using hexpire req hreq
          rw [List.filter_append, hnone, hreqs, plainRequests_append]
          rfl
      | request req =>
        simp only [timedStep] at hstep
        split_ifs at hstep with hguard
        obtain rfl := Option.some.inj hstep
        obtain ⟨-, hvisible⟩ := run_visible t req.plain.base (newRedisEventBridge req.options).ttlSeconds req.fresh
          hguard.1
        refine ⟨fun base => ?_, ⟨_, within_run hwithin (req.plain.keyPrefix, req.plain.taskID) _ _ _⟩,
          reqs ++ [req.plain], ?_, ?_⟩
        · by_cases hbase : base = req.plain.base
          · subst hbase
            exact together_run (htogether _) ..
          · obtain ⟨hnow, hhashes, hstreams⟩ := run_of_ne t req.plain.base
              (newRedisEventBridge req.options).ttlSeconds req.fresh req.call
            have := htogether base
            simp only [Together, TimedRedis.lifetimes, hnow, hhashes _ (fun heq => hbase (stateKey_injective heq)),
              hstreams _ (fun heq => hbase (streamKey_injective heq))] at this ⊢
            exact this
        · rw [Machine.exec_concat, hexec, Option.bind_some, answer, if_pos hguard.2, hvisible]
          rfl
        · rw [List.filter_append, hreqs, plainRequests_append]
          congr 1
          have hcall : req.plain.call ≠ .expire := hguard.1
          simp [plainRequests, hcall]
  exact ⟨hinv.1, hinv.2.2, fun req hcall => (run_visible t _ _ _ hcall).1⟩

/-- Two bridges ask for lifetimes of two seconds and of none, which means a day; the retry of the second publish does
not renew anything. The first task is gone when the last publish comes. -/
def outlives : List (TimedLabel ℕ String) :=
  [.request ⟨⟨"", 2500000000, 0, 0⟩, "a", .initialize_ "m" "s" 1, 10⟩,
    .request ⟨⟨"", 0, 0, 0⟩, "b", .initialize_ "m" "s" 1, 20⟩, .elapse 1500,
    .request ⟨⟨"", 2500000000, 0, 0⟩, "a", .publish "e" 2, 11⟩, .elapse 1500,
    .request ⟨⟨"", 2500000000, 0, 0⟩, "a", .publish "e" 2, 12⟩, .elapse 1000,
    .request ⟨⟨"", 2500000000, 0, 0⟩, "a", .publish "f" 3, 13⟩]

theorem serves_outlives :
    ∃ t, Machine.exec timedStep TimedRedis.empty outlives = some t ∧ Serves outlives t := by
  have hsome : (Machine.exec timedStep TimedRedis.empty outlives).isSome = true := by decide
  obtain ⟨t, ht⟩ := Option.isSome_iff_exists.mp hsome
  exact ⟨t, ht, serves_of_exec ht⟩

end Runs

end AgentUE.GoRunner
