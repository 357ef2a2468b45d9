import AgentUE.Data.StopAndWait
import AgentUE.GoRunner.Bridge

/-!
# Go runner: a producer that repeats its publishes

Reference: `Publish` and `publishScript` in `sdks/go/runner/redis_bridge.go`. A producer calls `Publish` for its
events in order and calls it again while it has no answer. A command may be executed after the call has given up on
it, and more than once. The script tells the next event, the last one and an earlier one by their numbers, so that
each event is stored once.
-/

namespace AgentUE.GoRunner

open Data

variable {κ ε : Type} [LinearOrder κ] [DecidableEq ε]

/-- A new cursor is behind all of the stream. -/
def Keys.accepts (fresh : κ) (keys : Keys κ ε) : Bool := keys.events.all fun entry => decide (entry.cursor < fresh)

/-- The call stores an event. -/
def Call.publishes : Call ε → Bool
  | .publish _ _ => true
  | _ => false

/-- The keys of a task as the receiver of a producer's events with their numbers. The other clients neither publish nor
remove the task. -/
def receiver (events : List (ε × ℕ)) : StopAndWait.Receiver (Keys κ ε) (Reply κ) κ (κ × Call ε) where
  take index fresh keys := events[index]?.bind fun (event, seq) =>
    if keys.accepts fresh then some (publishScript fresh seq event keys) else none
  disturb := fun (fresh, call) keys => if call.publishes || call.removes then none else some (call.run fresh keys).2
  taken
    | .cursor _ => true
    | _ => false

/-- An entry as the producer knows it. -/
def Entry.numbered (entry : Entry κ ε) : ε × ℕ := (entry.event, entry.seq)

/-- The first `k` events stand in the stream behind what was there. -/
structure Stores (before : List (Entry κ ε)) (events : List (ε × ℕ)) (k : ℕ) (keys : Keys κ ε) : Prop where
  mirrors : ∃ hash, keys.state = some hash ∧ Mirrors hash keys.events
  stored : ∃ new, keys.events = before ++ new ∧ new.map Entry.numbered = events.take k
  enough : k ≤ events.length

/-- The status of the task is terminal. -/
def MarkedTerminal (keys : Keys κ ε) : Prop := ∃ hash, keys.state = some hash ∧ hash.status.terminal = true

/-- The answer is the cursor of the entry of an event. -/
def Receipt (before : List (Entry κ ε)) (events : List (ε × ℕ)) (index : ℕ) (reply : Reply κ) (keys : Keys κ ε) : Prop :=
  ∃ entry, keys.events[before.length + index]? = some entry ∧ reply = .cursor entry.cursor ∧
    events[index]? = some entry.numbered

/-- The numbers of the events increase from one that is stored already, and are exact floats. -/
structure Numbers (before : List (Entry κ ε)) (events : List (ε × ℕ)) : Prop where
  behind : ∀ entry ∈ before, ∀ pair ∈ events, entry.seq < pair.2
  increasing : events.Pairwise fun a b => a.2 < b.2
  small : ∀ pair ∈ events, pair.2 < 2 ^ 53

section Script

variable {keys : Keys κ ε} {hash : TaskHash κ ε} {fresh : κ} {event : ε} {seq : ℕ}

omit [LinearOrder κ] in
/-- A number behind the last one is stored while the task is running. -/
theorem publishScript_of_gt (hstate : keys.state = some hash) (hlast : hash.lastSeq < 2 ^ 53) (hseq : seq < 2 ^ 53)
    (hgt : hash.lastSeq < seq) :
    publishScript fresh seq event keys =
      if hash.status = .running then
        (.cursor fresh, ⟨some { hash with lastSeq := seq, lastEvent := event, lastCursor := fresh },
          keys.events ++ [⟨fresh, event, seq⟩]⟩)
      else (.conflict, keys) := by
  simp only [publishScript, hstate, tonumber_of_lt hlast, tonumber_of_lt hseq, ne_eq]
  rw [if_neg (fun h => hgt.ne' h.1)]
  by_cases hrunning : hash.status = .running
  · rw [if_neg (not_not.mpr hrunning), if_neg hgt.not_ge, if_pos hrunning]
  · rw [if_pos hrunning, if_neg hrunning]

omit [LinearOrder κ] in
/-- The last event is confirmed with its cursor, also when the task is terminal. -/
theorem publishScript_of_last (hstate : keys.state = some hash) (hseq : hash.lastSeq = seq)
    (hevent : hash.lastEvent = event) :
    publishScript fresh seq event keys = (.cursor hash.lastCursor, keys) := by
  simp [publishScript, hstate, hseq, hevent]

omit [LinearOrder κ] in
/-- A number before the last one is a conflict. -/
theorem publishScript_of_lt (hstate : keys.state = some hash) (hlast : hash.lastSeq < 2 ^ 53) (hlt : seq < hash.lastSeq) :
    publishScript fresh seq event keys = (.conflict, keys) := by
  simp only [publishScript, hstate, tonumber_of_lt hlast, tonumber_of_lt (hlt.trans hlast)]
  rw [if_neg (fun h => hlt.ne h.1), if_pos hlt.le, ite_self]

end Script

section Rules

variable {before : List (Entry κ ε)} {events : List (ε × ℕ)} {k : ℕ} {keys keys' : Keys κ ε}

omit [DecidableEq ε] in
/-- The hash describes the last of the stored events. -/
theorem Stores.last (h : Stores before events (k + 1) keys) :
    ∃ hash, keys.state = some hash ∧ Mirrors hash keys.events ∧
      events[k]? = some (hash.lastEvent, hash.lastSeq) ∧
      keys.events[before.length + k]? = some ⟨hash.lastCursor, hash.lastEvent, hash.lastSeq⟩ := by
  obtain ⟨hash, hstate, hmirrors⟩ := h.mirrors
  obtain ⟨new, hevents, hnew⟩ := h.stored
  have hlength : new.length = k + 1 := by
    have := congrArg List.length hnew
    rwa [List.length_map, List.length_take, Nat.min_eq_left h.enough] at this
  have hlast : new.getLast? = some ⟨hash.lastCursor, hash.lastEvent, hash.lastSeq⟩ := by
    have hne : new ≠ [] := List.ne_nil_of_length_eq_add_one hlength
    have := hmirrors.last
    rwa [hevents, List.getLast?_append_of_ne_nil _ hne] at this
  have hget : new[k]? = some ⟨hash.lastCursor, hash.lastEvent, hash.lastSeq⟩ := by
    rw [← hlast, List.getLast?_eq_getElem?, hlength, Nat.add_sub_cancel]
  refine ⟨hash, hstate, hmirrors, ?_, ?_⟩
  · have := congrArg (fun xs => xs[k]?) hnew
    simpa [hget, List.getElem?_take, Entry.numbered, eq_comm] using this
  · rw [hevents, List.getElem?_append_right (Nat.le_add_right _ _), Nat.add_sub_cancel_left, hget]

omit [DecidableEq ε] in
/-- The next event has a number behind the last one. -/
theorem Stores.lt_next (hnumbers : Numbers before events) (h : Stores before events k keys) {hash : TaskHash κ ε}
    (hstate : keys.state = some hash) {pair : ε × ℕ} (hpair : events[k]? = some pair) : hash.lastSeq < pair.2 := by
  obtain ⟨hash', hstate', hmirrors⟩ := h.mirrors
  obtain rfl := Option.some.inj (hstate.symm.trans hstate')
  obtain ⟨new, hevents, hnew⟩ := h.stored
  obtain ⟨earlier, hlast⟩ := hmirrors.exists_last
  have hmem : (⟨hash.lastCursor, hash.lastEvent, hash.lastSeq⟩ : Entry κ ε) ∈ before ++ new := by
    rw [← hevents, hlast]
    exact List.mem_append_right _ (List.mem_singleton.mpr rfl)
  rcases List.mem_append.mp hmem with hold | hnewmem
  · exact hnumbers.behind _ hold pair (List.mem_of_getElem? hpair)
  · -- an event among the first `k`
    have htake : (hash.lastEvent, hash.lastSeq) ∈ events.take k := by
      rw [← hnew]
      exact List.mem_map.mpr ⟨_, hnewmem, rfl⟩
    have hsplit := hnumbers.increasing
    rw [← List.take_append_drop k events] at hsplit
    refine (List.pairwise_append.mp hsplit).2.2 _ htake pair ?_
    exact List.mem_of_getElem? (i := 0) (by rw [List.getElem?_drop, Nat.add_zero, hpair])

omit [LinearOrder κ] in
/-- A call that neither publishes nor removes leaves the stream and the description of its last entry alone. -/
theorem run_of_other (fresh : κ) {call : Call ε} (hcall : (call.publishes || call.removes) = false)
    {hash : TaskHash κ ε} (hstate : keys.state = some hash) :
    (call.run fresh keys).2.events = keys.events ∧
      ∃ hash', (call.run fresh keys).2.state = some hash' ∧ hash'.lastSeq = hash.lastSeq ∧
        hash'.lastEvent = hash.lastEvent ∧ hash'.lastCursor = hash.lastCursor ∧
        (hash.status.terminal = true → hash'.status.terminal = true) := by
  cases call with
  | initialize_ initialModel startEvent seq =>
    have hrun : (Call.run fresh (.initialize_ initialModel startEvent seq) keys).2 = keys := by
      simp only [Call.run, initializeScript, hstate]
    rw [hrun]
    exact ⟨rfl, hash, hstate, rfl, rfl, rfl, id⟩
  | publish event seq => simp [Call.publishes] at hcall
  | markTerminal status =>
    simp only [Call.run, GoRunner.markTerminal, hstate]
    split_ifs with hinvalid hconflict
    · exact ⟨rfl, hash, hstate, rfl, rfl, rfl, id⟩
    · exact ⟨rfl, hash, hstate, rfl, rfl, rfl, id⟩
    · exact ⟨rfl, _, rfl, rfl, rfl, rfl, fun _ => by simpa using hinvalid⟩
  | delete => simp [Call.removes] at hcall
  | expire => simp [Call.removes] at hcall

theorem receiver_take {index : ℕ} {fresh : κ} {reply : Reply κ}
    (h : (receiver events).take index fresh keys = some (reply, keys')) :
    ∃ event seq, events[index]? = some (event, seq) ∧ (∀ entry ∈ keys.events, entry.cursor < fresh) ∧
      publishScript fresh seq event keys = (reply, keys') := by
  obtain ⟨⟨event, seq⟩, hpair, h⟩ := Option.bind_eq_some_iff.mp h
  split_ifs at h with haccepts
  exact ⟨event, seq, hpair, by simpa [Keys.accepts] using haccepts, Option.some.inj h⟩

theorem receiver_disturb {action : κ × Call ε} (h : (receiver events).disturb action keys = some keys') :
    (action.2.publishes || action.2.removes) = false ∧ keys' = (action.2.run action.1 keys).2 := by
  simp only [receiver] at h
  split_ifs at h with hcall
  exact ⟨by simpa using hcall, (Option.some.inj h).symm⟩

/-- The next event is stored, or the task is terminal. -/
theorem take_next (hnumbers : Numbers before events) {fresh : κ} {reply : Reply κ} (h : Stores before events k keys)
    (htake : (receiver events).take k fresh keys = some (reply, keys')) :
    ((receiver (κ := κ) events).taken reply = true ∧ Stores before events (k + 1) keys' ∧
        Receipt before events k reply keys') ∨
      ((receiver (κ := κ) events).taken reply = false ∧ Stores before events k keys' ∧ MarkedTerminal keys') := by
  obtain ⟨event, seq, hpair, hfresh, hscript⟩ := receiver_take htake
  obtain ⟨hash, hstate, hmirrors⟩ := h.mirrors
  obtain ⟨new, hevents, hnew⟩ := h.stored
  have hlt := h.lt_next hnumbers hstate hpair
  have hsmall := hnumbers.small _ (List.mem_of_getElem? hpair)
  rw [publishScript_of_gt hstate hmirrors.lastSeq_lt hsmall hlt] at hscript
  split_ifs at hscript with hrunning
  · obtain ⟨rfl, rfl⟩ := Prod.mk.inj hscript
    have hk : k < events.length := (List.getElem?_eq_some_iff.mp hpair).1
    have hlength : new.length = k := by
      have := congrArg List.length hnew
      rwa [List.length_map, List.length_take, Nat.min_eq_left h.enough] at this
    refine .inl ⟨rfl, ⟨⟨_, rfl, ?_⟩, ⟨new ++ [⟨fresh, event, seq⟩], ?_, ?_⟩, hk⟩, ⟨fresh, event, seq⟩, ?_, rfl, hpair⟩
    · exact hmirrors.concat { hash with lastSeq := seq, lastEvent := event, lastCursor := fresh } hlt hsmall hfresh
    · rw [← List.append_assoc, ← hevents]
    · rw [List.map_append, hnew, List.take_add_one, hpair]
      rfl
    · rw [hevents, List.append_assoc, List.getElem?_append_right (Nat.le_add_right _ _), Nat.add_sub_cancel_left,
        ← hlength]
      simp
  · obtain ⟨rfl, rfl⟩ := Prod.mk.inj hscript
    exact .inr ⟨rfl, h, hash, hstate, by cases hs : hash.status <;> simp_all [Status.terminal]⟩

/-- The last event is confirmed with its cursor. -/
theorem take_again {fresh : κ} {reply : Reply κ} (h : Stores before events (k + 1) keys)
    (htake : (receiver events).take k fresh keys = some (reply, keys')) :
    (receiver (κ := κ) events).taken reply = true ∧ Stores before events (k + 1) keys' ∧
      Receipt before events k reply keys' := by
  obtain ⟨event, seq, hpair, -, hscript⟩ := receiver_take htake
  obtain ⟨hash, hstate, -, hlast, hentry⟩ := h.last
  obtain ⟨rfl, rfl⟩ := Prod.mk.inj (Option.some.inj (hpair.symm.trans hlast))
  rw [publishScript_of_last hstate rfl rfl] at hscript
  obtain ⟨rfl, rfl⟩ := Prod.mk.inj hscript
  exact ⟨rfl, h, _, hentry, rfl, hlast⟩

/-- An event before the last one is a conflict and changes nothing. -/
theorem take_late (hnumbers : Numbers before events) {index : ℕ} {fresh : κ} {reply : Reply κ}
    (h : Stores before events k keys) (hlate : index + 1 < k)
    (htake : (receiver events).take index fresh keys = some (reply, keys')) :
    (receiver (κ := κ) events).taken reply = false ∧ keys' = keys := by
  obtain ⟨event, seq, hpair, -, hscript⟩ := receiver_take htake
  obtain ⟨m, rfl⟩ : ∃ m, k = m + 1 := ⟨k - 1, by omega⟩
  obtain ⟨hash, hstate, hmirrors, hlast, -⟩ := h.last
  have hlt : seq < hash.lastSeq := by
    obtain ⟨hi, hindex⟩ := List.getElem?_eq_some_iff.mp hpair
    obtain ⟨hm, hmth⟩ := List.getElem?_eq_some_iff.mp hlast
    have := List.pairwise_iff_getElem.mp hnumbers.increasing index m hi hm (by omega)
    rwa [hindex, hmth] at this
  rw [publishScript_of_lt hstate hmirrors.lastSeq_lt hlt] at hscript
  obtain ⟨rfl, rfl⟩ := Prod.mk.inj hscript
  exact ⟨rfl, rfl⟩

/-- A call of another client changes no event. -/
theorem Stores.disturb (h : Stores before events k keys) {action : κ × Call ε}
    (hdisturb : (receiver events).disturb action keys = some keys') :
    Stores before events k keys' ∧ keys'.events = keys.events ∧ (MarkedTerminal keys → MarkedTerminal keys') := by
  obtain ⟨hcall, rfl⟩ := receiver_disturb hdisturb
  obtain ⟨hash, hstate, hmirrors⟩ := h.mirrors
  obtain ⟨hevents, hash', hstate', hseq, hevent, hcursor, hterminal⟩ := run_of_other action.1 hcall hstate
  refine ⟨⟨⟨hash', hstate', ?_⟩, by rw [hevents]; exact h.stored, h.enough⟩, hevents, ?_⟩
  · rw [hevents]
    exact ⟨by rw [hseq, hevent, hcursor]; exact hmirrors.last, hmirrors.seqs, hmirrors.cursors, hmirrors.small⟩
  · rintro ⟨hash'', hstate'', hstatus⟩
    obtain rfl := Option.some.inj (hstate.symm.trans hstate'')
    exact ⟨hash', hstate', hterminal hstatus⟩

omit [LinearOrder κ] [DecidableEq ε] in
/-- The keys only gain entries, so a receipt stays true. -/
theorem Receipt.mono {index : ℕ} {reply : Reply κ} (h : Receipt before events index reply keys)
    (hevents : keys.events <+: keys'.events) : Receipt before events index reply keys' := by
  obtain ⟨entry, hentry, hreply, hevent⟩ := h
  obtain ⟨more, hmore⟩ := hevents
  refine ⟨entry, ?_, hreply, hevent⟩
  rw [← hmore, List.getElem?_append_left (List.getElem?_eq_some_iff.mp hentry).1, hentry]

/-- A publish keeps the entries, and a terminal task. -/
theorem receiver_keeps {index : ℕ} {fresh : κ} {reply : Reply κ}
    (htake : (receiver events).take index fresh keys = some (reply, keys')) :
    keys.events <+: keys'.events ∧ (MarkedTerminal keys → MarkedTerminal keys') := by
  obtain ⟨event, seq, -, -, hscript⟩ := receiver_take htake
  obtain rfl : (publishScript fresh seq event keys).2 = keys' := by rw [hscript]
  refine ⟨?_, ?_⟩
  · unfold publishScript
    split
    · exact List.prefix_rfl
    · split_ifs
      · exact List.prefix_rfl
      · exact List.prefix_rfl
      · exact List.prefix_rfl
      · exact List.prefix_append _ _
  · rintro ⟨hash, hstate, hterminal⟩
    have hkept : ∃ hash', ((Call.publish event seq).run fresh keys).2.state = some hash' ∧ hash'.status = hash.status :=
      (run_of_terminal hstate hterminal rfl).1
    obtain ⟨hash', hstate', hstatus⟩ := hkept
    exact ⟨hash', hstate', by rw [hstatus]; exact hterminal⟩

/-- The scripts are a receiver that takes each event once. -/
theorem receiver_rules (hnumbers : Numbers before events) :
    StopAndWait.Rules (receiver (κ := κ) events) events.length (Stores before events) MarkedTerminal
      (Receipt before events) where
  next h _ htake := take_next hnumbers h htake
  again h htake := take_again h htake
  late h hlate htake := by
    obtain ⟨hanswer, rfl⟩ := take_late hnumbers h hlate htake
    exact ⟨hanswer, h⟩
  others h hdisturb := (h.disturb hdisturb).1
  closed_take _ hterminal htake := (receiver_keeps htake).2 hterminal
  closed_disturb h hterminal hdisturb := (h.disturb hdisturb).2.2 hterminal
  receipt_take _ hreceipt htake := hreceipt.mono (receiver_keeps htake).1
  receipt_disturb h hreceipt hdisturb := hreceipt.mono (by rw [(h.disturb hdisturb).2.1])

end Rules

/-- What a producer has achieved: the first of its events stand behind what was there, in order and once. All of them
but the current one are confirmed, with the cursors that they have, and only a terminal task refuses one. -/
structure Produced (before : List (Entry κ ε)) (events : List (ε × ℕ)) (s : StopAndWait.Session (Keys κ ε) (Reply κ)) :
    Prop where
  stored : ∃ new, s.receiver.events = before ++ new ∧ new.map Entry.numbered = events.take new.length ∧
    s.receipts.length ≤ new.length ∧ new.length ≤ s.receipts.length + 1 ∧
    s.receipts = (new.take s.receipts.length).map fun entry => .cursor entry.cursor
  refused : s.refused = true → MarkedTerminal s.receiver

theorem produced_of_sound {before : List (Entry κ ε)} {events : List (ε × ℕ)} {k : ℕ}
    {s : StopAndWait.Session (Keys κ ε) (Reply κ)}
    (h : StopAndWait.Sound (receiver events) events.length (Stores before events) MarkedTerminal (Receipt before events) k s) :
    Produced before events s := by
  obtain ⟨new, hevents, hnew⟩ := h.holds.stored
  have hlength : new.length = k := by
    have := congrArg List.length hnew
    rwa [List.length_map, List.length_take, Nat.min_eq_left h.holds.enough] at this
  refine ⟨⟨new, hevents, by rw [hnew, hlength], by rw [hlength]; exact h.confirmed, ?_, ?_⟩, h.refused⟩
  · rw [hlength]
    exact h.taken_issued.trans h.issued_next
  · -- each receipt is the cursor of the entry at its place
    refine List.ext_getElem? fun i => ?_
    rcases Nat.lt_or_ge i s.receipts.length with hlt | hge
    · obtain ⟨entry, hentry, hreply, -⟩ := h.receipts i s.receipts[i] (List.getElem?_eq_getElem hlt)
      rw [hevents, List.getElem?_append_right (Nat.le_add_right _ _), Nat.add_sub_cancel_left] at hentry
      rw [List.getElem?_map, List.getElem?_take_of_lt hlt, hentry, List.getElem?_eq_getElem hlt, hreply]
      rfl
    · rw [List.getElem?_eq_none hge, List.getElem?_eq_none (by
        rw [List.length_map, List.length_take]
        exact (min_le_left _ _).trans hge)]

/-- A producer on a running task: whatever is lost, late or executed more than once, and whatever the others do that
does not publish or remove the task, each event is stored once and in order. -/
theorem produced_of_exec {r : Redis κ ε} {reqs : List (Request κ ε)} (hr : Machine.exec serve Redis.empty reqs = some r)
    {base : String} (htask : (r.keys base).state.isSome = true) {events : List (ε × ℕ)}
    (hnumbers : Numbers (r.keys base).events events) {labels : List (StopAndWait.Label κ (κ × Call ε))}
    {s : StopAndWait.Session (Keys κ ε) (Reply κ)}
    (h : Machine.exec (StopAndWait.step (receiver events) events.length) (StopAndWait.Session.init _ (r.keys base))
      labels = some s) : Produced (r.keys base).events events s := by
  obtain ⟨hash, hstate⟩ := Option.isSome_iff_exists.mp htask
  have hmirrors : Mirrors hash (r.keys base).events := by
    simpa [Consistent, hstate] using consistent_of_exec hr base
  have hstart : Stores (r.keys base).events events 0 (r.keys base) :=
    ⟨⟨hash, hstate, hmirrors⟩, ⟨[], by simp, by simp⟩, Nat.zero_le _⟩
  obtain ⟨k, hk⟩ := StopAndWait.sound_of_exec (receiver_rules hnumbers) hstart h
  exact produced_of_sound hk

/-- The first event is executed twice and its first answer is lost; an execution of it is left for the time when the
second one is stored. Then another client marks the task, and the third event is refused. -/
def repeatsAndDelays : List (StopAndWait.Label ℕ (ℕ × Call String)) :=
  [.issue, .arrive 0 11, .issue, .arrive 0 12, .hear 1, .issue, .arrive 1 13, .arrive 0 14, .hear 2,
    .disturb (0, .markTerminal .failed), .arrive 1 15, .issue, .arrive 2 16, .hear 5]

theorem produced_repeatsAndDelays :
    ∃ r s, Machine.exec serve Redis.empty [⟨"agentue:runner", "message/123", .initialize_ "m" "s" 1, 10⟩] = some r ∧
      Machine.exec (StopAndWait.step (receiver [("a", 2), ("b", 3), ("c", 4)]) 3)
        (StopAndWait.Session.init _ (r.keys (baseKey "agentue:runner" "message/123"))) repeatsAndDelays = some s ∧
      s.receipts = [.cursor 11, .cursor 13] ∧ s.refused = true ∧
      Produced (r.keys (baseKey "agentue:runner" "message/123")).events [("a", 2), ("b", 3), ("c", 4)] s := by
  have hsome : (Machine.exec serve (Redis.empty : Redis ℕ String)
      [⟨"agentue:runner", "message/123", .initialize_ "m" "s" 1, 10⟩]).isSome = true := by decide
  obtain ⟨r, hr⟩ := Option.isSome_iff_exists.mp hsome
  have hkeys : r.keys (baseKey "agentue:runner" "message/123") = ⟨some ⟨.running, 1, "m", "s", 10⟩, [⟨10, "s", 1⟩]⟩ := by
    obtain rfl := Option.some.inj hr
    decide
  have hexec : Machine.exec (StopAndWait.step (receiver [("a", 2), ("b", 3), ("c", 4)]) 3)
      (StopAndWait.Session.init _ (r.keys (baseKey "agentue:runner" "message/123"))) repeatsAndDelays =
        some ⟨⟨some ⟨.failed, 3, "m", "b", 13⟩, [⟨10, "s", 1⟩, ⟨11, "a", 2⟩, ⟨13, "b", 3⟩]⟩, 3,
          [(0, .cursor 11), (0, .cursor 11), (1, .cursor 13), (0, .conflict), (1, .cursor 13), (2, .conflict)],
          [.cursor 11, .cursor 13], true⟩ := by
    rw [hkeys]
    rfl
  refine ⟨r, _, hr, hexec, rfl, rfl, ?_⟩
  refine produced_of_exec hr (by rw [hkeys]; rfl) ⟨?_, ?_, ?_⟩ hexec
  · rw [hkeys]
    decide
  · decide
  · decide

end AgentUE.GoRunner
