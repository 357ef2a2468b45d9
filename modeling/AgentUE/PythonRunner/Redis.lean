import AgentUE.Data.Cursors
import AgentUE.Protocol.Envelope
import Mathlib.Order.Lattice

/-!
# Python runner: the Redis bridge

Reference: `sdks/python/src/agentue/runner/redis_bridge.py`. The keys of one task and the commands that
the bridge sends for it. Every command is a step of its own: a publish is three of them.
-/

namespace AgentUE.PythonRunner

open Data

variable {κ ν : Type}

/-- The texts of the `status` field. -/
inductive Status where
  | running
  | completed
  | failed
deriving DecidableEq

/-- `StoredEvent` -/
structure Stored (κ ν : Type) where
  cursor : κ
  data : Envelope ν
deriving DecidableEq

/-- The keys of a task: the fields of its hash, its stream, its score in the heartbeat index and whether its
recovery is claimed. -/
structure Store (κ ν : Type) where
  status : Status
  lastSeq : ℕ
  initialModel : Option (JsonObject ν)
  events : List (Stored κ ν)
  heartbeat : Option ℕ
  claimed : Bool
deriving DecidableEq

/-- The commands that write events and the outcome of a task. -/
inductive Command (ν : Type) where
  | xadd (event : Envelope ν)
  | expireStream
  | hsetLastSeq (seq : ℕ)
  | hsetStatus (status : Status)
  | expireState
  | zrem
deriving DecidableEq

/-- `publish`; every caller passes the number of the event. -/
def publish (event : Envelope ν) : List (Command ν) := [.xadd event, .expireStream, .hsetLastSeq event.seq]

/-- `mark_terminal` -/
def markTerminal (status : Status) : List (Command ν) := [.hsetStatus status, .expireState, .zrem]

/-- `forget_heartbeat` -/
def forgetHeartbeat : List (Command ν) := [.zrem]

/-- The effect of a command; `fresh` is the id of `XADD`. Here `EXPIRE` does nothing: the keys of
a task last as long as its run, and what the lifetimes do is said with a clock in `Lifetimes`. -/
def Store.run (fresh : κ) : Command ν → Store κ ν → Store κ ν
  | .xadd event, store => { store with events := store.events ++ [⟨fresh, event⟩] }
  | .expireStream, store => store
  | .hsetLastSeq seq, store => { store with lastSeq := seq }
  | .hsetStatus status, store => { store with status := status }
  | .expireState, store => store
  | .zrem, store => { store with heartbeat := none }

/-- The keys after a step that sends a command or none. -/
def Store.runOption (fresh : κ) (command : Option (Command ν)) (store : Store κ ν) : Store κ ν :=
  match command with
  | some command => store.run fresh command
  | none => store

/-- `touch` -/
def Store.touch (time : ℕ) (store : Store κ ν) : Store κ ν := { store with heartbeat := some time }

/-- `expired_task_ids` has the task. -/
def Store.expired (cutoff : ℕ) (store : Store κ ν) : Bool := store.heartbeat.any fun time => decide (time ≤ cutoff)

/-- What a reader has not read of a stream: the entries after its cursor, `none` for `"0-0"`. -/
def unread [LinearOrder κ] (cursor : Option κ) (events : List (Stored κ ν)) : List (Stored κ ν) :=
  events.filter fun item => cursor.all fun c => decide (c < item.cursor)

/-- Behind the cursor of a first part is the rest. -/
theorem unread_append [LinearOrder κ] {past rest : List (Stored κ ν)}
    (hsorted : (past ++ rest).Pairwise fun a b => a.cursor < b.cursor) :
    unread (past.getLast?.map Stored.cursor) (past ++ rest) = rest := Cursors.filter_behind_eq hsorted

/-- `read`: `XREAD` after a cursor, at most `count` entries. -/
def Store.read [LinearOrder κ] (count : ℕ) (cursor : Option κ) (store : Store κ ν) : List (Stored κ ν) :=
  (unread cursor store.events).take count

/-- A new id of `XADD` is behind all of the stream. -/
def Store.accepts [LinearOrder κ] (fresh : κ) (store : Store κ ν) : Bool :=
  store.events.all fun item => decide (item.cursor < fresh)

/-- The stream holds an end. -/
def Ended (events : List (Stored κ ν)) : Prop := ∃ item ∈ events, item.data.op = .end_

theorem ended_append {events : List (Stored κ ν)} {item : Stored κ ν} :
    Ended (events ++ [item]) ↔ Ended events ∨ item.data.op = .end_ := by
  simp [Ended, or_and_right, exists_or]

/-! ## The control events of `PatchEmitter` -/

/-- `start` -/
def startEvent (model : JsonObject ν) (seq : ℕ) : Envelope ν :=
  ⟨.start, seq, none, none, none, none, some model, none, none⟩

/-- `error` -/
def errorEvent (code message : String) (seq : ℕ) : Envelope ν :=
  ⟨.error, seq, none, none, some "meta.error", none, none,
    some [("error", .obj [("code", .str code), ("message", .str message)])], none⟩

/-- `end` -/
def endEvent (seq : ℕ) : Envelope ν := ⟨.end_, seq, none, none, none, none, none, none, none⟩

end AgentUE.PythonRunner
