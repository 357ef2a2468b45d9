import AgentUE.Data.Expiring
import AgentUE.PythonRunner.Closing

/-!
# Python runner: the lifetimes of the keys of a task

Reference: `initialize`, `publish`, `mark_terminal` and the names of the keys in
`sdks/python/src/agentue/runner/redis_bridge.py`, with `RunnerOptions` in `runner/types.py`. Each command is a step of
its own at a time of its own, in milliseconds. A publish renews the stream and not the hash: for `task_ttl` after
`initialize` the readers see what a server without a clock would show them, and a task that has not been marked by then
has no status any more.
-/

namespace AgentUE.PythonRunner.Lifetimes

open Data
open Run (Fits)

/-- `RunnerOptions` as far as the keys depend on them; `__post_init__` refuses other values. -/
structure RunnerOptions where
  keyPrefix : String
  taskTtl : ℕ
  keyPrefix_ne : keyPrefix ≠ ""
  taskTtl_pos : 0 < taskTtl

/-- What the keys of a task begin with. -/
def RunnerOptions.base (options : RunnerOptions) (task : String) : String := options.keyPrefix ++ ":" ++ task

/-- `task_ttl` in milliseconds. -/
def RunnerOptions.lifetime (options : RunnerOptions) : ℕ := 1000 * options.taskTtl

/-- `_state_key` -/
def stateKey (base : String) : String := base ++ ":state"

/-- `_stream_key` -/
def streamKey (base : String) : String := base ++ ":events"

theorem stateKey_injective {base base' : String} (h : stateKey base = stateKey base') : base = base' := by
  simpa [stateKey] using h

theorem streamKey_injective {base base' : String} (h : streamKey base = streamKey base') : base = base' := by
  simpa [streamKey] using h

/-- The fields of the hash of a task. -/
structure TaskHash (ν : Type) where
  status : Option Status
  lastSeq : Option ℕ
  initialModel : Option (JsonObject ν)

variable {κ ν : Type}

/-- The hashes and streams of a server with their deadlines, and its clock. -/
structure Server (κ ν : Type) where
  now : ℕ
  hashes : String → Option (Held (TaskHash ν))
  streams : String → Option (Held (List (Stored κ ν)))

namespace Server

/-- The hash of a task, as far as it is there. -/
def hash (base : String) (s : Server κ ν) : Option (Held (TaskHash ν)) :=
  Expiring.heldAt s.now (s.hashes (stateKey base))

/-- The stream of a task, as far as it is there. -/
def stream (base : String) (s : Server κ ν) : Option (Held (List (Stored κ ν))) :=
  Expiring.heldAt s.now (s.streams (streamKey base))

/-- Time passes. -/
def elapse (milliseconds : ℕ) (s : Server κ ν) : Server κ ν := { s with now := s.now + milliseconds }

/-- `HSET`, which creates a missing hash. -/
def hset (base : String) (write : TaskHash ν → TaskHash ν) (s : Server κ ν) : Server κ ν :=
  let fields := ((s.hash base).map Held.value).getD ⟨none, none, none⟩
  { s with hashes := Expiring.put s.now (stateKey base) (write fields) s.hashes }

/-- `XADD`, which creates a missing stream. -/
def xadd (base : String) (item : Stored κ ν) (s : Server κ ν) : Server κ ν :=
  let events := ((s.stream base).map Held.value).getD []
  { s with streams := Expiring.put s.now (streamKey base) (events ++ [item]) s.streams }

/-- `EXPIRE` of the hash -/
def expireState (base : String) (lifetime : ℕ) (s : Server κ ν) : Server κ ν :=
  { s with hashes := Expiring.expire s.now (stateKey base) lifetime s.hashes }

/-- `EXPIRE` of the stream -/
def expireStream (base : String) (lifetime : ℕ) (s : Server κ ν) : Server κ ν :=
  { s with streams := Expiring.expire s.now (streamKey base) lifetime s.streams }

/-- The effect of a command. The index of heartbeats has no lifetime. -/
def send (base : String) (lifetime : ℕ) (fresh : κ) : Command ν → Server κ ν → Server κ ν
  | .xadd event, s => s.xadd base ⟨fresh, event⟩
  | .expireStream, s => s.expireStream base lifetime
  | .hsetLastSeq seq, s => s.hset base fun fields => { fields with lastSeq := some seq }
  | .hsetStatus status, s => s.hset base fun fields => { fields with status := some status }
  | .expireState, s => s.expireState base lifetime
  | .zrem, s => s

/-- The `HSET` of `initialize` -/
def hsetInitial (base : String) (initialModel : JsonObject ν) (s : Server κ ν) : Server κ ν :=
  s.hset base fun _ => ⟨some .running, some 0, some initialModel⟩

/-- `initialize`, with the time between its commands. -/
def initialize_ (base : String) (lifetime : ℕ) (initialModel : JsonObject ν) (wait : ℕ) (s : Server κ ν) :
    Server κ ν :=
  ((s.hsetInitial base initialModel).elapse wait).expireState base lifetime

/-! What the bridge reads. -/

/-- `status` -/
def status (base : String) (s : Server κ ν) : Option Status := (s.hash base).bind fun held => held.value.status

/-- `last_seq` -/
def lastSeq (base : String) (s : Server κ ν) : ℕ := ((s.hash base).bind fun held => held.value.lastSeq).getD 0

/-- `initial_model` -/
def initialModel (base : String) (s : Server κ ν) : Option (JsonObject ν) :=
  (s.hash base).bind fun held => held.value.initialModel

/-- `read` -/
def read [LinearOrder κ] (base : String) (count : ℕ) (cursor : Option κ) (s : Server κ ν) : List (Stored κ ν) :=
  (unread cursor (((s.stream base).map Held.value).getD [])).take count

end Server

/-! ## The keys after a command -/

namespace Server

variable (s : Server κ ν) (base : String)

theorem hash_elapse (milliseconds : ℕ) :
    (s.elapse milliseconds).hash base = Expiring.heldAt (s.now + milliseconds) (s.hash base) :=
  (Expiring.heldAt_heldAt (Nat.le_add_right _ _) _).symm

theorem stream_elapse (milliseconds : ℕ) :
    (s.elapse milliseconds).stream base = Expiring.heldAt (s.now + milliseconds) (s.stream base) :=
  (Expiring.heldAt_heldAt (Nat.le_add_right _ _) _).symm

@[simp] theorem stream_hset (other : String) (write : TaskHash ν → TaskHash ν) :
    (s.hset other write).stream base = s.stream base := rfl

@[simp] theorem hash_xadd (other : String) (item : Stored κ ν) : (s.xadd other item).hash base = s.hash base := rfl

@[simp] theorem stream_expireState (other : String) (lifetime : ℕ) :
    (s.expireState other lifetime).stream base = s.stream base := rfl

@[simp] theorem hash_expireStream (other : String) (lifetime : ℕ) :
    (s.expireStream other lifetime).hash base = s.hash base := rfl

theorem hash_hset (write : TaskHash ν → TaskHash ν) : (s.hset base write).hash base =
    some ⟨write (((s.hash base).map Held.value).getD ⟨none, none, none⟩), (s.hash base).bind Held.deadline⟩ :=
  Expiring.heldAt_put_self ..

theorem stream_xadd (item : Stored κ ν) : (s.xadd base item).stream base =
    some ⟨((s.stream base).map Held.value).getD [] ++ [item], (s.stream base).bind Held.deadline⟩ :=
  Expiring.heldAt_put_self ..

theorem hash_expireState (lifetime : ℕ) : (s.expireState base lifetime).hash base =
    (s.hash base).map fun held => { held with deadline := some (s.now + lifetime) } :=
  Expiring.heldAt_expire_self ..

theorem stream_expireStream (lifetime : ℕ) : (s.expireStream base lifetime).stream base =
    (s.stream base).map fun held => { held with deadline := some (s.now + lifetime) } :=
  Expiring.heldAt_expire_self ..

variable {s base}

theorem hash_hset_of_ne {other : String} (h : base ≠ other) (write : TaskHash ν → TaskHash ν) :
    (s.hset other write).hash base = s.hash base :=
  congrArg (Expiring.heldAt s.now) (Expiring.put_of_ne s.now (fun heq => h (stateKey_injective heq)) _ _)

theorem stream_xadd_of_ne {other : String} (h : base ≠ other) (item : Stored κ ν) :
    (s.xadd other item).stream base = s.stream base :=
  congrArg (Expiring.heldAt s.now) (Expiring.put_of_ne s.now (fun heq => h (streamKey_injective heq)) _ _)

theorem hash_expireState_of_ne {other : String} (h : base ≠ other) (lifetime : ℕ) :
    (s.expireState other lifetime).hash base = s.hash base :=
  congrArg (Expiring.heldAt s.now) (Expiring.expire_of_ne s.now (fun heq => h (stateKey_injective heq)) _ _)

theorem stream_expireStream_of_ne {other : String} (h : base ≠ other) (lifetime : ℕ) :
    (s.expireStream other lifetime).stream base = s.stream base :=
  congrArg (Expiring.heldAt s.now) (Expiring.expire_of_ne s.now (fun heq => h (streamKey_injective heq)) _ _)

/-- The commands for another task leave the keys of this one alone. -/
theorem send_of_ne {other : String} (h : base ≠ other) (lifetime : ℕ) (fresh : κ) (command : Command ν) :
    (s.send other lifetime fresh command).now = s.now ∧
      (s.send other lifetime fresh command).hash base = s.hash base ∧
      (s.send other lifetime fresh command).stream base = s.stream base := by
  cases command with
  | xadd event => exact ⟨rfl, rfl, stream_xadd_of_ne h _⟩
  | expireStream => exact ⟨rfl, rfl, stream_expireStream_of_ne h _⟩
  | hsetLastSeq seq => exact ⟨rfl, hash_hset_of_ne h _, rfl⟩
  | hsetStatus status => exact ⟨rfl, hash_hset_of_ne h _, rfl⟩
  | expireState => exact ⟨rfl, hash_expireState_of_ne h _, rfl⟩
  | zrem => exact ⟨rfl, rfl, rfl⟩

end Server

/-! ## A run on a server with a clock -/

/-- A run and the server that its commands are sent to. -/
structure World (κ ν : Type) where
  run : Run.State κ ν
  server : Server κ ν

/-- A step of the run, time, or a command for another task. -/
inductive Label (κ ν : Type) where
  | run (l : Run.Label κ ν)
  | elapse (milliseconds : ℕ)
  | initial (other : String) (initialModel : JsonObject ν)
  | other (other : String) (lifetime : ℕ) (fresh : κ) (command : Command ν)

/-- The server after a step of the run. -/
def follow (base : String) (lifetime : ℕ) (r : Run.State κ ν) (l : Run.Label κ ν) (s : Server κ ν) : Server κ ν :=
  match l, r.pending with
  | .send fresh, command :: _ => s.send base lifetime fresh command
  | _, _ => s

/-- One step. The keys of other tasks have other names. -/
def step [LinearOrder κ] [DecidableEq ν] (base : String) (lifetime : ℕ) (w : World κ ν) :
    Label κ ν → Option (World κ ν)
  | .run l => (Run.step w.run l).map fun r => ⟨r, follow base lifetime w.run l w.server⟩
  | .elapse milliseconds => some { w with server := w.server.elapse milliseconds }
  | .initial other initialModel =>
    if base ≠ other then some { w with server := w.server.hsetInitial other initialModel } else none
  | .other other lifetime fresh command =>
    if base ≠ other then some { w with server := w.server.send other lifetime fresh command } else none

/-- A run after `initialize`. -/
def World.init (base : String) (lifetime : ℕ) (model : Run.Model ν) (time wait : ℕ) (s : Server κ ν) : World κ ν :=
  ⟨.init model time, s.initialize_ base lifetime model.doc wait⟩

/-- The readers see this store. -/
structure Sees [LinearOrder κ] (base : String) (s : Server κ ν) (store : Store κ ν) : Prop where
  status : s.status base = some store.status
  lastSeq : s.lastSeq base = store.lastSeq
  initialModel : s.initialModel base = store.initialModel
  read : ∀ count cursor, s.read base count cursor = store.read count cursor

/-! ## What a run sends -/

/-- What is to be sent is the rest of a publish or of `mark_terminal`. -/
inductive Queued (r : Run.State κ ν) : Prop
  | idle : r.pending = [] → Queued r
  | publish (event : Envelope ν) (before : List (Command ν)) : before ++ r.pending = publish event → Queued r
  | mark (status : Status) (before : List (Command ν)) : status ≠ .running →
    before ++ r.pending = markTerminal status → (before = [] ∨ r.store.status = status) → Queued r

/-- Where one of three commands is the next. -/
theorem append_cons_eq_three {before rest : List (Command ν)} {command a b c : Command ν}
    (h : before ++ command :: rest = [a, b, c]) :
    before = [] ∧ command = a ∧ rest = [b, c] ∨ before = [a] ∧ command = b ∧ rest = [c] ∨
      before = [a, b] ∧ command = c ∧ rest = [] := by
  rcases before with _ | ⟨x, _ | ⟨y, _ | ⟨z, before⟩⟩⟩
  · simp_all
  · simp_all
  · simp_all
  · simp at h

/-- The next command and those behind it. -/
theorem Queued.cases {r : Run.State κ ν} (h : Queued r) {command : Command ν} {rest : List (Command ν)}
    (hpending : r.pending = command :: rest) :
    (∃ event, command = .xadd event ∧ rest = [.expireStream, .hsetLastSeq event.seq]) ∨
    (∃ seq, command = .expireStream ∧ rest = [.hsetLastSeq seq]) ∨ (∃ seq, command = .hsetLastSeq seq ∧ rest = []) ∨
    (∃ status, status ≠ .running ∧ command = .hsetStatus status ∧ rest = [.expireState, .zrem]) ∨
    (command = .expireState ∧ rest = [.zrem] ∧ r.store.status ≠ .running) ∨ command = .zrem ∧ rest = [] := by
  cases h with
  | idle hidle => simp [hidle] at hpending
  | publish event before hbefore =>
    rw [hpending] at hbefore
    rcases append_cons_eq_three hbefore with ⟨-, hcommand, hrest⟩ | ⟨-, hcommand, hrest⟩ | ⟨-, hcommand, hrest⟩
    · exact .inl ⟨event, hcommand, hrest⟩
    · exact .inr (.inl ⟨event.seq, hcommand, hrest⟩)
    · exact .inr (.inr (.inl ⟨event.seq, hcommand, hrest⟩))
  | mark status before hstatus hbefore hstored =>
    rw [hpending] at hbefore
    rcases append_cons_eq_three hbefore with ⟨-, hcommand, hrest⟩ | ⟨rfl, hcommand, hrest⟩ | ⟨-, hcommand, hrest⟩
    · exact .inr (.inr (.inr (.inl ⟨status, hstatus, hcommand, hrest⟩)))
    · have hsent : r.store.status = status := hstored.resolve_left (by simp)
      exact .inr (.inr (.inr (.inr (.inl ⟨hcommand, hrest, by rw [hsent]; exact hstatus⟩))))
    · exact .inr (.inr (.inr (.inr (.inr ⟨hcommand, hrest⟩))))

/-- Only the first command of `mark_terminal` writes the status. -/
theorem Queued.sent {r : Run.State κ ν} (h : Queued r) {command : Command ν} {rest : List (Command ν)}
    (hpending : r.pending = command :: rest) (fresh : κ) : Queued (r.sent fresh command rest) := by
  cases h with
  | idle hidle => simp [hidle] at hpending
  | publish event before hbefore =>
    refine .publish event (before ++ [command]) ?_
    rw [← hbefore, hpending, List.append_assoc]
    rfl
  | mark status before hstatus hbefore hstored =>
    refine .mark status (before ++ [command]) hstatus ?_ (.inr ?_)
    · rw [← hbefore, hpending, List.append_assoc]
      rfl
    · rw [hpending] at hbefore
      rcases append_cons_eq_three hbefore with ⟨-, rfl, -⟩ | ⟨rfl, rfl, -⟩ | ⟨rfl, rfl, -⟩
      · rfl
      · exact hstored.resolve_left (by simp)
      · exact hstored.resolve_left (by simp)

theorem status_ne_running (outcome : Run.Outcome) : outcome.status ≠ .running := by
  unfold Run.Outcome.status
  split_ifs <;> simp

section

variable [DecidableEq ν]

/-- What is to be sent after a step. -/
theorem pending_move {r r' : Run.State κ ν} {l : Run.Label κ ν} (hmove : Run.Move r l r') :
    (∃ fresh command rest, l = .send fresh ∧ r.pending = command :: rest ∧ r' = r.sent fresh command rest) ∨
    r'.store = r.store ∧ (r'.pending = r.pending ∨ r'.pending = [] ∨ (∃ event, r'.pending = publish event) ∨
      ∃ outcome : Run.Outcome, r'.pending = markTerminal outcome.status) := by
  have hbeginEnd : ∀ (outcome : Run.Outcome) terminal persisted (r : Run.State κ ν),
      (∃ event, (r.beginEnd outcome terminal persisted).pending = publish event) ∨
        ∃ outcome : Run.Outcome, (r.beginEnd outcome terminal persisted).pending = markTerminal outcome.status := by
    intro outcome terminal persisted r
    cases persisted
    · exact .inr ⟨outcome, rfl⟩
    · exact .inl ⟨_, rfl⟩
  cases hmove with
  | send hl hpending => exact .inl ⟨_, _, _, hl, hpending, rfl⟩
  | idle | started | resumed | begin | prepared => exact .inr ⟨rfl, .inl rfl⟩
  | start | restart | accept => exact .inr ⟨rfl, .inr (.inr (.inl ⟨_, rfl⟩))⟩
  | failStarted | restarted | giveUpStart | endBusiness | refused | finish | die => exact .inr ⟨rfl, .inr (.inl rfl)⟩
  | finalize =>
    refine .inr ⟨Run.finalize_store _ r, ?_⟩
    unfold Run.State.finalize
    split
    · exact .inr (.inr (hbeginEnd _ _ _ _))
    · dsimp only
      split_ifs
      · exact .inr (.inr (.inl ⟨_, rfl⟩))
      · exact .inr (.inr (.inr ⟨_, rfl⟩))
  | errorStored => exact .inr ⟨Run.beginEnd_store .., .inr (.inr (hbeginEnd _ _ _ _))⟩
  | errorLost => exact .inr ⟨Run.beginEnd_store .., .inr (.inr (.inr ⟨_, rfl⟩))⟩
  | endStored => exact .inr ⟨rfl, .inr (.inr (.inr ⟨_, rfl⟩))⟩
  | endLost => exact .inr ⟨rfl, .inr (.inr (.inr ⟨_, rfl⟩))⟩

theorem queued_move {r r' : Run.State κ ν} {l : Run.Label κ ν} (h : Queued r) (hmove : Run.Move r l r') :
    Queued r' := by
  rcases pending_move hmove with ⟨fresh, command, rest, -, hpending, rfl⟩ |
    ⟨hstore, hsame | hnil | ⟨event, hpublish⟩ | ⟨outcome, hmark⟩⟩
  · exact h.sent hpending fresh
  · cases h with
    | idle hidle => exact .idle (hsame.trans hidle)
    | publish event before hbefore => exact .publish event before (by rw [hsame]; exact hbefore)
    | mark status before hstatus hbefore hstored =>
      exact .mark status before hstatus (by rw [hsame]; exact hbefore) (by rwa [hstore])
  · exact .idle hnil
  · exact .publish event [] hpublish
  · exact .mark outcome.status [] (status_ne_running outcome) hmark (.inl rfl)

end

/-! ## Within the lifetime -/

/-- The hash that a server without a clock has. -/
def hashOf (store : Store κ ν) : TaskHash ν := ⟨some store.status, some store.lastSeq, store.initialModel⟩

/-- The keys of a task whose `initialize` has given its hash the deadline `d`. -/
structure Ages (base : String) (lifetime d : ℕ) (w : World κ ν) : Prop where
  queued : Queued w.run
  renewed : d ≤ w.server.now + lifetime
  hash : w.server.now ≤ d → ∃ e, w.server.hash base = some ⟨hashOf w.run.store, some e⟩ ∧ d ≤ e ∧
    (w.run.store.status = .running → e = d)
  events : w.server.now ≤ d → w.run.store.events = [] ∧ w.server.stream base = none ∨
    ∃ e, w.server.stream base = some ⟨w.run.store.events, e⟩ ∧ ∀ deadline, e = some deadline → d ≤ deadline
  overdue : d < w.server.now → w.run.store.status = .running →
    ∀ held, w.server.hash base = some held → held.value.status = none ∧ held.deadline = none

/-- A step that leaves the two keys alone. -/
theorem Ages.congr {base : String} {lifetime d : ℕ} {w w' : World κ ν} (h : Ages base lifetime d w)
    (hqueued : Queued w'.run) (hfields : hashOf w'.run.store = hashOf w.run.store)
    (hevents : w'.run.store.events = w.run.store.events) (hnow : w'.server.now = w.server.now)
    (hhash : w'.server.hash base = w.server.hash base) (hstream : w'.server.stream base = w.server.stream base) :
    Ages base lifetime d w' := by
  have hstatus : w'.run.store.status = w.run.store.status := Option.some.inj (congrArg TaskHash.status hfields)
  refine ⟨hqueued, by rw [hnow]; exact h.renewed, fun hle => ?_, fun hle => ?_, fun hlt hrunning held hheld => ?_⟩
  · rw [hfields, hhash, hstatus]
    exact h.hash (by rwa [← hnow])
  · rw [hevents, hstream]
    exact h.events (by rwa [← hnow])
  · exact h.overdue (by rwa [← hnow]) (by rwa [← hstatus]) held (by rwa [← hhash])

theorem ages_elapse {base : String} {lifetime d : ℕ} {w : World κ ν} (h : Ages base lifetime d w) (milliseconds : ℕ) :
    Ages base lifetime d { w with server := w.server.elapse milliseconds } where
  queued := h.queued
  renewed := h.renewed.trans (by show w.server.now + lifetime ≤ w.server.now + milliseconds + lifetime; omega)
  hash hle := by
    change w.server.now + milliseconds ≤ d at hle
    obtain ⟨e, hhash, hd, hrunning⟩ := h.hash (by omega)
    refine ⟨e, ?_, hd, hrunning⟩
    show (w.server.elapse milliseconds).hash base = _
    rw [Server.hash_elapse, hhash, Expiring.heldAt_eq_some]
    refine ⟨rfl, ?_⟩
    rintro _ ⟨⟩
    omega
  events hle := by
    change w.server.now + milliseconds ≤ d at hle
    rw [Server.stream_elapse]
    rcases h.events (by omega) with ⟨hnil, hnone⟩ | ⟨e, hstream, hdeadline⟩
    · exact .inl ⟨hnil, by rw [hnone]; rfl⟩
    · refine .inr ⟨e, ?_, hdeadline⟩
      rw [hstream, Expiring.heldAt_eq_some]
      refine ⟨rfl, fun deadline hsome => ?_⟩
      have := hdeadline deadline hsome
      omega
  overdue hlt hstatus held hheld := by
    change d < w.server.now + milliseconds at hlt
    change (w.server.elapse milliseconds).hash base = some held at hheld
    rw [Server.hash_elapse] at hheld
    obtain ⟨hsome, hlive⟩ := Expiring.heldAt_eq_some.mp hheld
    by_cases hle : w.server.now ≤ d
    · -- the deadline has passed meanwhile
      obtain ⟨e, hhash, -, hrunning⟩ := h.hash hle
      obtain rfl := hrunning hstatus
      obtain rfl := Option.some.inj (hhash.symm.trans hsome)
      have := hlive e rfl
      omega
    · exact h.overdue (by omega) hstatus held hsome

theorem ages_send {base : String} {lifetime d : ℕ} {w : World κ ν} (h : Ages base lifetime d w) {command : Command ν}
    {rest : List (Command ν)} (hpending : w.run.pending = command :: rest) (fresh : κ) :
    Ages base lifetime d ⟨w.run.sent fresh command rest, w.server.send base lifetime fresh command⟩ := by
  have hqueued := h.queued.sent hpending fresh
  rcases h.queued.cases hpending with ⟨event, rfl, rfl⟩ | ⟨seq, rfl, rfl⟩ | ⟨seq, rfl, rfl⟩ | ⟨status, hne, rfl, rfl⟩ |
    ⟨rfl, rfl, hne⟩ | ⟨rfl, rfl⟩
  -- an event is added: a new stream has no deadline yet
  · refine ⟨hqueued, h.renewed, h.hash, fun hle => .inr ?_, h.overdue⟩
    show ∃ e, (w.server.xadd base ⟨fresh, event⟩).stream base = some ⟨w.run.store.events ++ [⟨fresh, event⟩], e⟩ ∧ _
    rw [Server.stream_xadd]
    rcases h.events hle with ⟨hnil, hnone⟩ | ⟨e, hstream, hdeadline⟩
    · exact ⟨none, by rw [hnone, hnil]; rfl, by simp⟩
    · exact ⟨e, by rw [hstream]; rfl, hdeadline⟩
  · refine ⟨hqueued, h.renewed, h.hash, fun hle => ?_, h.overdue⟩
    show w.run.store.events = [] ∧ (w.server.expireStream base lifetime).stream base = none ∨
      ∃ e, (w.server.expireStream base lifetime).stream base = some ⟨w.run.store.events, e⟩ ∧ _
    rw [Server.stream_expireStream]
    rcases h.events hle with ⟨hnil, hnone⟩ | ⟨e, hstream, -⟩
    · exact .inl ⟨hnil, by rw [hnone]; rfl⟩
    · refine .inr ⟨some (w.server.now + lifetime), by rw [hstream]; rfl, ?_⟩
      rintro _ ⟨⟩
      exact h.renewed
  -- the hash keeps its deadline; one that is gone comes back without any
  · refine ⟨hqueued, h.renewed, fun hle => ?_, h.events, fun hlt hrunning held hheld => ?_⟩
    · obtain ⟨e, hhash, hd, hrunning⟩ := h.hash hle
      refine ⟨e, ?_, hd, hrunning⟩
      show (w.server.hset base _).hash base = _
      rw [Server.hash_hset, hhash]
      rfl
    · change (w.server.hset base _).hash base = some held at hheld
      rw [Server.hash_hset] at hheld
      obtain rfl := Option.some.inj hheld
      cases hbefore : w.server.hash base with
      | none => exact ⟨rfl, rfl⟩
      | some before => exact h.overdue hlt hrunning before hbefore
  · refine ⟨hqueued, h.renewed, fun hle => ?_, h.events, fun _ hrunning => absurd hrunning hne⟩
    obtain ⟨e, hhash, hd, -⟩ := h.hash hle
    refine ⟨e, ?_, hd, fun hrunning => absurd hrunning hne⟩
    show (w.server.hset base _).hash base = _
    rw [Server.hash_hset, hhash]
    rfl
  · refine ⟨hqueued, h.renewed, fun hle => ?_, h.events, fun _ hrunning => absurd hrunning hne⟩
    obtain ⟨e, hhash, hd, -⟩ := h.hash hle
    refine ⟨w.server.now + lifetime, ?_, h.renewed, fun hrunning => absurd hrunning hne⟩
    show (w.server.expireState base lifetime).hash base = _
    rw [Server.hash_expireState, hhash]
    rfl
  · exact h.congr hqueued rfl rfl rfl rfl rfl

theorem hash_initialize {base : String} {s : Server κ ν} (hhash : s.hash base = none) (lifetime : ℕ)
    (model : JsonObject ν) (wait : ℕ) : (s.initialize_ base lifetime model wait).hash base =
      some ⟨⟨some .running, some 0, some model⟩, some (s.now + wait + lifetime)⟩ := by
  rw [Server.initialize_, Server.hash_expireState, Server.hash_elapse, Server.hsetInitial, Server.hash_hset, hhash]
  rfl

theorem stream_initialize {base : String} {s : Server κ ν} (hstream : s.stream base = none) (lifetime : ℕ)
    (model : JsonObject ν) (wait : ℕ) : (s.initialize_ base lifetime model wait).stream base = none := by
  rw [Server.initialize_, Server.stream_expireState, Server.stream_elapse, Server.hsetInitial, Server.stream_hset,
    hstream]
  rfl

/-- No time has passed since the last command of `initialize`. -/
theorem ages_init {base : String} {s : Server κ ν} (hhash : s.hash base = none) (hstream : s.stream base = none)
    (lifetime : ℕ) (model : Run.Model ν) (time wait : ℕ) :
    Ages base lifetime (s.now + wait + lifetime) (World.init base lifetime model time wait s) where
  queued := .idle rfl
  renewed := le_rfl
  hash _ := ⟨s.now + wait + lifetime, hash_initialize hhash lifetime model.doc wait, le_rfl, fun _ => rfl⟩
  events _ := .inl ⟨rfl, stream_initialize hstream lifetime model.doc wait⟩
  overdue hlt := by
    change s.now + wait + lifetime < s.now + wait at hlt
    omega

section

variable [LinearOrder κ] [DecidableEq ν]

/-- What one step does to the run and to the server. -/
theorem step_cases {base : String} {lifetime : ℕ} {w w' : World κ ν} {l : Label κ ν}
    (hstep : step base lifetime w l = some w') :
    (∃ fresh command rest, l = .run (.send fresh) ∧ w.run.pending = command :: rest ∧
      w' = ⟨w.run.sent fresh command rest, w.server.send base lifetime fresh command⟩) ∨
    (∃ l', l = .run l' ∧ (∀ fresh, l' ≠ .send fresh) ∧ Run.step w.run l' = some w'.run ∧ w'.server = w.server) ∨
    (∃ milliseconds, w' = { w with server := w.server.elapse milliseconds }) ∨
    w'.run = w.run ∧ w'.server.now = w.server.now ∧ w'.server.hash base = w.server.hash base ∧
      w'.server.stream base = w.server.stream base := by
  cases l with
  | elapse milliseconds => exact .inr (.inr (.inl ⟨milliseconds, (Option.some.inj hstep).symm⟩))
  | initial other initialModel =>
    simp only [step] at hstep
    split_ifs at hstep with hne
    obtain rfl := Option.some.inj hstep
    exact .inr (.inr (.inr ⟨rfl, rfl, Server.hash_hset_of_ne hne _, rfl⟩))
  | other other lifetime' fresh command =>
    simp only [step] at hstep
    split_ifs at hstep with hne
    obtain rfl := Option.some.inj hstep
    exact .inr (.inr (.inr ⟨rfl, Server.send_of_ne hne _ _ _⟩))
  | run l =>
    obtain ⟨r, hr, rfl⟩ := Option.map_eq_some_iff.mp hstep
    cases l with
    | send fresh =>
      cases hpending : w.run.pending with
      | nil => simp [Run.step, hpending] at hr
      | cons command rest =>
        simp only [Run.step, hpending] at hr
        split_ifs at hr
        obtain rfl := Option.some.inj hr
        refine .inl ⟨fresh, command, rest, rfl, rfl, ?_⟩
        simp only [follow, hpending]
        rfl
    | _ => exact .inr (.inl ⟨_, rfl, by simp, hr, rfl⟩)

theorem ages_step {base : String} {lifetime d : ℕ} {w w' : World κ ν} {l : Label κ ν} (h : Ages base lifetime d w)
    (hstep : step base lifetime w l = some w') : Ages base lifetime d w' := by
  rcases step_cases hstep with ⟨fresh, command, rest, -, hpending, rfl⟩ | ⟨l', -, hsend, hr, hserver⟩ |
    ⟨milliseconds, rfl⟩ | ⟨hrun, hnow, hhash, hstream⟩
  · exact ages_send h hpending fresh
  · have hmove := Run.move_of_step hr
    rcases Run.store_move hmove with hstore | ⟨fresh, _, _, rfl, -⟩
    · exact h.congr (queued_move h.queued hmove) (by rw [hstore]) (by rw [hstore]) (by rw [hserver]) (by rw [hserver])
        (by rw [hserver])
    · exact absurd rfl (hsend fresh)
  · exact ages_elapse h milliseconds
  · exact h.congr (by rw [hrun]; exact h.queued) (by rw [hrun]) (by rw [hrun]) hnow hhash hstream

end

theorem Ages.sees [LinearOrder κ] {base : String} {lifetime d : ℕ} {w : World κ ν} (h : Ages base lifetime d w)
    (hle : w.server.now ≤ d) : Sees base w.server w.run.store := by
  obtain ⟨e, hhash, -⟩ := h.hash hle
  refine ⟨by rw [Server.status, hhash]; rfl, by rw [Server.lastSeq, hhash]; rfl,
    by rw [Server.initialModel, hhash]; rfl, fun count cursor => ?_⟩
  rcases h.events hle with ⟨hnil, hnone⟩ | ⟨e, hstream, -⟩
  · rw [Server.read, Store.read, hnone, hnil]
    rfl
  · rw [Server.read, Store.read, hstream]
    rfl

/-- A task that has not been marked has a status for as long as its `initialize` has said. -/
theorem Ages.status {base : String} {lifetime d : ℕ} {w : World κ ν} (h : Ages base lifetime d w)
    (hrunning : w.run.store.status = .running) :
    w.server.status base = if w.server.now ≤ d then some .running else none := by
  split_ifs with hle
  · obtain ⟨e, hhash, -⟩ := h.hash hle
    rw [Server.status, hhash, ← hrunning]
    rfl
  · rw [Server.status]
    cases hhash : w.server.hash base with
    | none => rfl
    | some held => exact (h.overdue (by omega) hrunning held hhash).1

/-! ## After the run -/

/-- `_finalize` has come to `mark_terminal`. -/
def isMarked : Run.Phase ν → Bool
  | .marking _ _ | .returned _ => true
  | _ => false

/-- Every key has a deadline that is not far away, or is given one by a command that is still to be sent. -/
structure Dies (base : String) (lifetime : ℕ) (w : World κ ν) : Prop where
  fits : Fits w.run
  queued : Queued w.run
  hashSoon : ∀ held, w.server.hash base = some held → ∀ d, held.deadline = some d → d ≤ w.server.now + lifetime
  streamSoon : ∀ held, w.server.stream base = some held → ∀ d, held.deadline = some d → d ≤ w.server.now + lifetime
  hash : isMarked w.run.phase = true → .expireState ∉ w.run.pending →
    ∀ held, w.server.hash base = some held → held.deadline ≠ none
  stream : ∀ held, w.server.stream base = some held → held.deadline = none → .expireStream ∈ w.run.pending

theorem Dies.gone {base : String} {lifetime : ℕ} {w : World κ ν} (h : Dies base lifetime w)
    {terminal : List (Live.TerminalEvent ν)} (hphase : w.run.phase = .returned terminal) {more : ℕ}
    (hmore : lifetime < more) :
    (w.server.elapse more).hash base = none ∧ (w.server.elapse more).stream base = none := by
  have hpending : w.run.pending = [] := by simpa only [Fits, hphase] using h.fits
  rw [Server.hash_elapse, Server.stream_elapse, Option.eq_none_iff_forall_ne_some, Option.eq_none_iff_forall_ne_some]
  refine ⟨fun held hheld => ?_, fun held hheld => ?_⟩
  · obtain ⟨hsome, hlive⟩ := Expiring.heldAt_eq_some.mp hheld
    have hne := h.hash (by rw [hphase]; rfl) (by simp [hpending]) held hsome
    obtain ⟨d, hd⟩ := Option.ne_none_iff_exists'.mp hne
    have hsoon := h.hashSoon held hsome d hd
    have hlate := hlive d hd
    omega
  · obtain ⟨hsome, hlive⟩ := Expiring.heldAt_eq_some.mp hheld
    have hne : held.deadline ≠ none := fun hnone => by simpa [hpending] using h.stream held hsome hnone
    obtain ⟨d, hd⟩ := Option.ne_none_iff_exists'.mp hne
    have hsoon := h.streamSoon held hsome d hd
    have hlate := hlive d hd
    omega

theorem dies_init {base : String} {s : Server κ ν} (hhash : s.hash base = none) (hstream : s.stream base = none)
    (lifetime : ℕ) (model : Run.Model ν) (time wait : ℕ) :
    Dies base lifetime (World.init base lifetime model time wait s) := by
  have hnow : (World.init base lifetime model time wait s).server.hash base = _ :=
    hash_initialize hhash lifetime model.doc wait
  have hnone : (World.init base lifetime model time wait s).server.stream base = none :=
    stream_initialize hstream lifetime model.doc wait
  refine ⟨rfl, .idle rfl, ?_, by simp [hnone], by simp [World.init, Run.State.init, isMarked], by simp [hnone]⟩
  rw [hnow]
  rintro held ⟨⟩ d ⟨⟩
  exact le_rfl

theorem dies_elapse {base : String} {lifetime : ℕ} {w : World κ ν} (h : Dies base lifetime w) (milliseconds : ℕ) :
    Dies base lifetime { w with server := w.server.elapse milliseconds } := by
  have hhash : ∀ held, (w.server.elapse milliseconds).hash base = some held → w.server.hash base = some held := by
    intro held hheld
    rw [Server.hash_elapse] at hheld
    exact (Expiring.heldAt_eq_some.mp hheld).1
  have hstream : ∀ held, (w.server.elapse milliseconds).stream base = some held →
      w.server.stream base = some held := by
    intro held hheld
    rw [Server.stream_elapse] at hheld
    exact (Expiring.heldAt_eq_some.mp hheld).1
  refine ⟨h.fits, h.queued, fun held hheld d hd => ?_, fun held hheld d hd => ?_,
    fun hphase hsent held hheld => h.hash hphase hsent held (hhash held hheld),
    fun held hheld => h.stream held (hstream held hheld)⟩
  · have := h.hashSoon held (hhash held hheld) d hd
    show d ≤ w.server.now + milliseconds + lifetime
    omega
  · have := h.streamSoon held (hstream held hheld) d hd
    show d ≤ w.server.now + milliseconds + lifetime
    omega

/-- The deadlines of a key after `EXPIRE`. -/
theorem deadline_expire {α : Type} {now lifetime : ℕ} {cell : Option (Held α)} {held : Held α}
    (h : (cell.map fun held => { held with deadline := some (now + lifetime) }) = some held) :
    held.deadline = some (now + lifetime) := by
  obtain ⟨before, -, rfl⟩ := Option.map_eq_some_iff.mp h
  rfl

theorem dies_send {base : String} {lifetime : ℕ} {w : World κ ν} (h : Dies base lifetime w) {command : Command ν}
    {rest : List (Command ν)} (hpending : w.run.pending = command :: rest) (fresh : κ)
    (hfits : Fits (w.run.sent fresh command rest)) :
    Dies base lifetime ⟨w.run.sent fresh command rest, w.server.send base lifetime fresh command⟩ := by
  have hqueued := h.queued.sent hpending fresh
  -- a command that is neither of the two leaves what is to be renewed
  have hhash : command ≠ .expireState → isMarked w.run.phase = true → .expireState ∉ rest →
      ∀ held, w.server.hash base = some held → held.deadline ≠ none := by
    intro hne hphase hrest
    refine h.hash hphase ?_
    rw [hpending, List.mem_cons, not_or]
    exact ⟨hne.symm, hrest⟩
  have hstream : command ≠ .expireStream → ∀ held, w.server.stream base = some held → held.deadline = none →
      .expireStream ∈ rest := by
    intro hne held hheld hnone
    have hmem := h.stream held hheld hnone
    rw [hpending, List.mem_cons] at hmem
    exact hmem.resolve_left hne.symm
  have hsoon : ∀ write held, (w.server.hset base write).hash base = some held → ∀ d, held.deadline = some d →
      d ≤ w.server.now + lifetime := by
    intro write held hheld d hd
    rw [Server.hash_hset] at hheld
    obtain rfl := Option.some.inj hheld
    obtain ⟨before, hbefore, hdeadline⟩ := Option.bind_eq_some_iff.mp hd
    exact h.hashSoon before hbefore d hdeadline
  rcases h.queued.cases hpending with ⟨event, rfl, rfl⟩ | ⟨seq, rfl, rfl⟩ | ⟨seq, rfl, rfl⟩ | ⟨status, hne, rfl, rfl⟩ |
    ⟨rfl, rfl, hne⟩ | ⟨rfl, rfl⟩
  · refine ⟨hfits, hqueued, h.hashSoon, fun held hheld d hd => ?_, hhash (by simp),
      fun _ _ _ => List.mem_cons_self⟩
    change (w.server.xadd base ⟨fresh, event⟩).stream base = some held at hheld
    rw [Server.stream_xadd] at hheld
    obtain rfl := Option.some.inj hheld
    obtain ⟨before, hbefore, hdeadline⟩ := Option.bind_eq_some_iff.mp hd
    exact h.streamSoon before hbefore d hdeadline
  · refine ⟨hfits, hqueued, h.hashSoon, fun held hheld d hd => ?_, hhash (by simp), fun held hheld hnone => ?_⟩
    all_goals
      change (w.server.expireStream base lifetime).stream base = some held at hheld
      rw [Server.stream_expireStream] at hheld
      have hdeadline := deadline_expire hheld
    · rw [hdeadline] at hd
      exact (Option.some.inj hd).ge
    · simp [hdeadline] at hnone
  -- the number is not written any more where the task is marked
  · refine ⟨hfits, hqueued, fun held hheld d hd => ?_, h.streamSoon, fun hphase => ?_, hstream (by simp)⟩
    · exact hsoon _ held hheld d hd
    · change isMarked w.run.phase = true at hphase
      cases hnow : w.run.phase <;> simp only [hnow, isMarked, reduceCtorEq] at hphase
      case marking outcome terminal => simpa using h.fits.marks hnow hpending
      case returned terminal =>
        have hnil : w.run.pending = [] := by simpa only [Fits, hnow] using h.fits
        simp [hnil] at hpending
  · refine ⟨hfits, hqueued, fun held hheld d hd => ?_, h.streamSoon, fun _ hrest => absurd List.mem_cons_self hrest,
      hstream (by simp)⟩
    exact hsoon _ held hheld d hd
  · refine ⟨hfits, hqueued, fun held hheld d hd => ?_, h.streamSoon, fun _ _ held hheld => ?_, hstream (by simp)⟩
    all_goals
      change (w.server.expireState base lifetime).hash base = some held at hheld
      rw [Server.hash_expireState] at hheld
      have hdeadline := deadline_expire hheld
    · rw [hdeadline] at hd
      exact (Option.some.inj hd).ge
    · simp [hdeadline]
  · exact ⟨hfits, hqueued, h.hashSoon, h.streamSoon, hhash (by simp), hstream (by simp)⟩

section

variable [DecidableEq ν]

/-- `mark_terminal` is begun with its three commands ahead. -/
theorem marked_move {r r' : Run.State κ ν} {l : Run.Label κ ν} (hmove : Run.Move r l r')
    (hsend : ∀ fresh, l ≠ .send fresh) (h : isMarked r'.phase = true) :
    isMarked r.phase = true ∧ (r'.pending = r.pending ∨ r'.pending = []) ∨ .expireState ∈ r'.pending := by
  have hbeginEnd : ∀ (outcome : Run.Outcome) terminal persisted (r : Run.State κ ν),
      isMarked (r.beginEnd outcome terminal persisted).phase = true →
        .expireState ∈ (r.beginEnd outcome terminal persisted).pending := by
    intro outcome terminal persisted r hmarked
    cases persisted
    · simp [Run.State.beginEnd, Run.State.beginMark, markTerminal]
    · simp [Run.State.beginEnd, isMarked] at hmarked
  cases hmove with
  | idle => exact .inl ⟨h, .inl rfl⟩
  | @send _ _ fresh hl => exact absurd hl (hsend fresh)
  | start | restart | failStarted | started | restarted | giveUpStart | begin | prepared | accept | resumed
  | endBusiness | refused | die => simp [isMarked, Run.State.beginStart, Run.State.complete] at h
  | finalize =>
    right
    unfold Run.State.finalize at h ⊢
    split at h
    · exact hbeginEnd _ _ _ _ h
    · dsimp only at h ⊢
      split_ifs at h ⊢
      · simp [isMarked] at h
      · exact hbeginEnd _ _ _ _ h
  | errorStored => exact .inr (hbeginEnd _ _ _ _ h)
  | errorLost => simp [Run.State.beginEnd, Run.State.beginMark, markTerminal]
  | endStored => simp [Run.State.beginMark, markTerminal]
  | endLost => simp [Run.State.beginMark, markTerminal]
  | finish hphase => exact .inl ⟨by rw [hphase]; rfl, .inr rfl⟩

variable [LinearOrder κ]

/-- Commands are ahead. -/
def sends : Run.Phase ν → Bool
  | .starting _ | .restarting _ _ | .publishing _ _ | .publishingError _ _ | .publishingEnd _ _ _ | .marking _ _ => true
  | _ => false

/-- Nothing that is to be sent is dropped unless a command fails. -/
theorem pending_kept {r r' : Run.State κ ν} {l : Run.Label κ ν} (hfits : Fits r) (hfailure : l.isFailure = false)
    (hsend : ∀ fresh, l ≠ .send fresh) (hstep : Run.step r l = some r') : r'.pending = r.pending ∨ r.pending = [] := by
  have hnil : sends r.phase = false → r.pending = [] := by
    intro h
    unfold Fits at hfits
    cases hphase : r.phase <;> simp only [hphase, sends, reduceCtorEq] at h hfits
    all_goals exact hfits
  cases l with
  | emits offset | remodels model | interrupts source error =>
    simp only [Run.step] at hstep
    split_ifs at hstep
    obtain rfl := Option.some.inj hstep
    exact .inl rfl
  | closes =>
    obtain rfl := Option.some.inj hstep
    exact .inl rfl
  | yields value error =>
    refine .inr (hnil ?_)
    cases hphase : r.phase <;> simp [Run.step, hphase] at hstep
    rfl
  | returns =>
    refine .inr (hnil ?_)
    cases hphase : r.phase <;> simp [Run.step, Run.State.returns, hphase] at hstep
    all_goals rfl
  | raises error =>
    refine .inr (hnil ?_)
    cases hphase : r.phase <;> simp [Run.step, Run.State.raises, hphase] at hstep
    all_goals rfl
  | send fresh => exact absurd rfl (hsend fresh)
  | resumes =>
    simp only [Run.step] at hstep
    split_ifs at hstep with hempty
    exact .inr (List.isEmpty_iff.mp hempty)
  | fails error => simp [Run.Label.isFailure] at hfailure
  | abandons =>
    simp only [Run.step] at hstep
    split at hstep
    · rename_i hphase
      exact .inr (hnil (by rw [hphase]; rfl))
    · split_ifs at hstep
      obtain rfl := Option.some.inj hstep
      exact .inl rfl
    · simp at hstep

/-- No command of the run fails. -/
def Label.succeeds : Label κ ν → Bool
  | .run l => !l.isFailure
  | _ => true

theorem dies_step {base : String} {lifetime : ℕ} {w w' : World κ ν} {l : Label κ ν} (h : Dies base lifetime w)
    (hl : l.succeeds = true) (hstep : step base lifetime w l = some w') : Dies base lifetime w' := by
  rcases step_cases hstep with ⟨fresh, command, rest, rfl, hpending, rfl⟩ | ⟨l', rfl, hsend, hr, hserver⟩ |
    ⟨milliseconds, rfl⟩ | ⟨hrun, hnow, hhash, hstream⟩
  · exact dies_send h hpending fresh (Run.fits_move (l := .send fresh) h.fits (.send rfl hpending))
  · have hmove := Run.move_of_step hr
    have hkept := pending_kept h.fits (by simpa [Label.succeeds] using hl) hsend hr
    refine ⟨Run.fits_move h.fits hmove, queued_move h.queued hmove, by rw [hserver]; exact h.hashSoon,
      by rw [hserver]; exact h.streamSoon, fun hphase hsent => ?_, fun held hheld hnone => ?_⟩
    · obtain ⟨hbefore, hpending⟩ := (marked_move hmove hsend hphase).resolve_right hsent
      rw [hserver]
      refine h.hash hbefore ?_
      rcases hkept with hsame | hnil
      · rwa [← hsame]
      · simp [hnil]
    · rw [hserver] at hheld
      have hmem := h.stream held hheld hnone
      rcases hkept with hsame | hnil
      · rwa [hsame]
      · simp [hnil] at hmem
  · exact dies_elapse h milliseconds
  · refine ⟨by rw [hrun]; exact h.fits, by rw [hrun]; exact h.queued, ?_, ?_, ?_, ?_⟩
    · rw [hhash, hnow]
      exact h.hashSoon
    · rw [hstream, hnow]
      exact h.streamSoon
    · rw [hrun, hhash]
      exact h.hash
    · rw [hrun, hstream]
      exact h.stream

/-- A run of a fresh task, neither of whose keys is there before `initialize`, takes as long as it likes beside any other
tasks; the `EXPIRE` of its `initialize` has been at `s.now + wait`. Until the lifetime that `initialize` has given has
passed, the readers see what they would see without a clock; until the task is marked they see its status no longer than
that, whatever is published. A run that has returned without a failed command leaves nothing behind: after one more
lifetime both keys are gone. -/
theorem lifetimes_of_exec (options : RunnerOptions) (task : String) {s : Server κ ν}
    (hhash : s.hash (options.base task) = none) (hstream : s.stream (options.base task) = none) (model : Run.Model ν)
    (time wait : ℕ) {labels : List (Label κ ν)} {w : World κ ν}
    (hexec : Machine.exec (step (options.base task) options.lifetime)
      (World.init (options.base task) options.lifetime model time wait s) labels = some w) :
    (w.server.now ≤ s.now + wait + options.lifetime → Sees (options.base task) w.server w.run.store) ∧
    (w.run.store.status = .running → w.server.status (options.base task) =
      if w.server.now ≤ s.now + wait + options.lifetime then some .running else none) ∧
    ((∀ l ∈ labels, l.succeeds = true) → ∀ terminal, w.run.phase = .returned terminal →
      ∀ more, options.lifetime < more → (w.server.elapse more).hash (options.base task) = none ∧
        (w.server.elapse more).stream (options.base task) = none) := by
  have hages := Machine.exec_invariant (fun _ _ _ h hstep => ages_step h hstep)
    (ages_init hhash hstream options.lifetime model time wait) hexec
  refine ⟨hages.sees, hages.status, fun hsucceeds terminal hphase more hmore => ?_⟩
  have hdies := Machine.exec_invariant_of_allSteps (q := fun _ l => l.succeeds = true)
    (fun _ _ _ h hl hstep => dies_step h hl hstep) (dies_init hhash hstream options.lifetime model time wait)
    (Machine.allSteps_of_labels (fun l hl _ => hsucceeds l hl) _) hexec
  exact hdies.gone hphase hmore

end

/-- A lifetime of a second. -/
def briefOptions : RunnerOptions := ⟨"agentue:runner", 1, by decide, by decide⟩

/-- A server without any key. -/
def Server.empty : Server κ ν := ⟨0, fun _ => none, fun _ => none⟩

/-- The chat begins, and its `stream` takes two seconds for its first patch. -/
def outlivesHash : List (Label ℕ ℕ) := Run.startsChat.map .run ++ [.elapse 2000]

theorem lifetimes_of_exec_outlivesHash :
    ∃ w, Machine.exec (step (briefOptions.base "chat") briefOptions.lifetime)
        (World.init (briefOptions.base "chat") briefOptions.lifetime Run.chatModel 0 5 Server.empty) outlivesHash =
          some w ∧
      w.run.store.status = .running ∧ w.server.status (briefOptions.base "chat") =
        if w.server.now ≤ (Server.empty : Server ℕ ℕ).now + 5 + briefOptions.lifetime then some .running else none := by
  have hrun : (Machine.exec (step (briefOptions.base "chat") briefOptions.lifetime)
      (World.init (briefOptions.base "chat") briefOptions.lifetime Run.chatModel 0 5 Server.empty) outlivesHash).map
        (fun w => w.run.store.status) = some .running := by decide +kernel
  obtain ⟨w, hw, hstatus⟩ := Option.map_eq_some_iff.mp hrun
  exact ⟨w, hw, hstatus, (lifetimes_of_exec briefOptions "chat" rfl rfl Run.chatModel 0 5 hw).2.1 hstatus⟩

end AgentUE.PythonRunner.Lifetimes
