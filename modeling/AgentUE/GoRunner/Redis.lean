import AgentUE.Data.Rounding
import Mathlib.Data.Nat.Log

/-!
# Go runner: the Redis bridge

Reference: `sdks/go/runner/redis_bridge.go`. Each script runs atomically on the two keys of a task. The
replies of Redis are modelled as far as the scripts use them: `XADD '*'` is given the cursor that Redis
picks, `EXPIRE` only has a part in when the keys go, which the environment decides.
-/

namespace AgentUE.GoRunner

/-- `Status` with its three constants; any other text is refused like `running` where a terminal status
is asked for. -/
inductive Status where
  | running
  | completed
  | failed
deriving DecidableEq

/-- `Status.Terminal` -/
def Status.terminal : Status → Bool
  | .running => false
  | .completed | .failed => true

/-- `tonumber` of a decimal numeral: the nearest binary64 number, to even in the middle. -/
def tonumber (n : ℕ) : ℕ := Data.Rounding.nearest 52 n

/-- Integers below 2^53 are binary64 numbers. -/
theorem tonumber_of_lt {n : ℕ} (h : n < 2 ^ 53) : tonumber n = n := by
  rw [tonumber, Data.Rounding.nearest_of_le h.le]

variable {κ ε : Type}

/-- An entry of the stream. `seq` is the number it was stored under, which Redis does not keep and no
script reads. -/
structure Entry (κ ε : Type) where
  cursor : κ
  event : ε
  seq : ℕ
deriving DecidableEq

/-- The fields of the hash. -/
structure TaskHash (κ ε : Type) where
  status : Status
  lastSeq : ℕ
  initialModel : ε
  lastEvent : ε
  lastCursor : κ
deriving DecidableEq

/-- `KEYS[1]` and `KEYS[2]`: a missing stream is an empty one. -/
structure Keys (κ ε : Type) where
  state : Option (TaskHash κ ε)
  events : List (Entry κ ε)
deriving DecidableEq

/-- What a script returns. -/
inductive Reply (κ : Type) where
  | ok
  | cursor (c : κ)
  /-- `AGENTUE_CONFLICT` -/
  | conflict
  /-- `AGENTUE_NOT_FOUND` -/
  | notFound
  /-- `invalid terminal status`, before any script runs -/
  | invalidStatus
deriving DecidableEq

/-- `initializeScript` -/
def initializeScript (fresh : κ) (seq : ℕ) (initialModel startEvent : ε) (keys : Keys κ ε) :
    Reply κ × Keys κ ε :=
  match keys.state with
  | some _ => (.conflict, keys)
  | none =>
    (.cursor fresh,
      { state := some ⟨.running, seq, initialModel, startEvent, fresh⟩
        events := keys.events ++ [⟨fresh, startEvent, seq⟩] })

/-- `publishScript` -/
def publishScript [DecidableEq ε] (fresh : κ) (seq : ℕ) (event : ε) (keys : Keys κ ε) :
    Reply κ × Keys κ ε :=
  match keys.state with
  | none => (.notFound, keys)
  | some hash =>
    if tonumber seq = tonumber hash.lastSeq ∧ hash.lastEvent = event then (.cursor hash.lastCursor, keys)
    else if hash.status ≠ .running then (.conflict, keys)
    else if tonumber seq ≤ tonumber hash.lastSeq then (.conflict, keys)
    else
      (.cursor fresh,
        { state := some { hash with lastSeq := seq, lastEvent := event, lastCursor := fresh }
          events := keys.events ++ [⟨fresh, event, seq⟩] })

/-- `MarkTerminal` with `markTerminalScript` -/
def markTerminal (status : Status) (keys : Keys κ ε) : Reply κ × Keys κ ε :=
  if !status.terminal then (.invalidStatus, keys)
  else match keys.state with
  | none => (.notFound, keys)
  | some hash =>
    if hash.status ≠ .running ∧ hash.status ≠ status then (.conflict, keys)
    else (.ok, { keys with state := some { hash with status := status } })

/-- `Delete`; both keys also go when they expire. -/
def delete : Keys κ ε := ⟨none, []⟩

/-- `XREAD` after a cursor, `none` for the beginning: at most `count` entries. -/
def read [LinearOrder κ] (count : ℕ) (after : Option κ) (keys : Keys κ ε) : List (Entry κ ε) :=
  (keys.events.filter fun entry => after.all (· < entry.cursor)).take count

/-- `XRANGE` from the beginning through a cursor. -/
def eventsThrough [LinearOrder κ] (through : κ) (keys : Keys κ ε) : List (Entry κ ε) :=
  keys.events.filter fun entry => entry.cursor ≤ through

/-! ## The key space -/

/-- `redisKey` up to its suffix -/
def baseKey (keyPrefix taskID : String) : String := keyPrefix ++ ":" ++ taskID

def stateKey (base : String) : String := base ++ ":state"

def streamKey (base : String) : String := base ++ ":events"

/-- The hashes and the streams of a Redis server. No name is used for both. -/
structure Redis (κ ε : Type) where
  hashes : String → Option (TaskHash κ ε)
  streams : String → List (Entry κ ε)

/-- The keys of a task. -/
def Redis.keys (r : Redis κ ε) (base : String) : Keys κ ε := ⟨r.hashes (stateKey base), r.streams (streamKey base)⟩

/-- Store the keys of a task. -/
def Redis.put (r : Redis κ ε) (base : String) (keys : Keys κ ε) : Redis κ ε where
  hashes := Function.update r.hashes (stateKey base) keys.state
  streams := Function.update r.streams (streamKey base) keys.events

/-- A server without any key. -/
def Redis.empty : Redis κ ε := ⟨fun _ => none, fun _ => []⟩

theorem stateKey_injective {a b : String} (h : stateKey a = stateKey b) : a = b := by
  have := congrArg String.toList h
  simp only [stateKey, String.toList_append, List.append_cancel_right_eq] at this
  exact String.toList_injective this

theorem streamKey_injective {a b : String} (h : streamKey a = streamKey b) : a = b := by
  have := congrArg String.toList h
  simp only [streamKey, String.toList_append, List.append_cancel_right_eq] at this
  exact String.toList_injective this

/-- The two purposes never share a name. -/
theorem stateKey_ne_streamKey (a b : String) : stateKey a ≠ streamKey b := by
  intro h
  have hlast := congrArg (fun s => s.toList.getLast?) h
  simp [stateKey, streamKey] at hlast

@[simp] theorem keys_put_self (r : Redis κ ε) (base : String) (keys : Keys κ ε) :
    (r.put base keys).keys base = keys := by
  simp [Redis.keys, Redis.put]

/-- A script touches the keys of its own task only. -/
theorem keys_put_of_ne (r : Redis κ ε) {base other : String} (h : other ≠ base) (keys : Keys κ ε) :
    (r.put base keys).keys other = r.keys other := by
  have hstate : stateKey other ≠ stateKey base := fun heq => h (stateKey_injective heq)
  have hstream : streamKey other ≠ streamKey base := fun heq => h (streamKey_injective heq)
  simp [Redis.keys, Redis.put, Function.update_of_ne hstate, Function.update_of_ne hstream]

end AgentUE.GoRunner
