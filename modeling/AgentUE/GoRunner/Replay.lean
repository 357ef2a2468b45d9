import AgentUE.Data.Cursors
import AgentUE.Data.Machine
import AgentUE.Go.Reducer
import AgentUE.GoRunner.Bridge
import Mathlib.Data.List.Pairwise

/-!
# Go runner: replaying a timeline

Reference: `sdks/go/runner/replay.go`. One call of `Replayer.Stream` is a machine with a step for every
call of the bridge and for every delivery; other clients publish events and mark the task terminal
between its steps.
-/

namespace AgentUE.GoRunner

open Data

variable {κ ν : Type}

/-! ## The call -/

/-- `Delivery`: without a cursor for an event that the call has made up. -/
structure Delivery (κ ν : Type) where
  cursor : Option κ
  data : Envelope ν
deriving DecidableEq

/-- Why a call of `Stream` fails. -/
inductive StreamError where
  | notFound
  | parse (f : Go.Failure)
  | apply (f : Go.Failure)
  | marshal (f : Go.Failure)
  | deliver
deriving DecidableEq

/-- Where a call of `Stream` stands. -/
inductive Pc (κ ν : Type) where
  /-- before the first `State` -/
  | begin_
  /-- before `EventsThrough` -/
  | resume (after : κ)
  /-- before the delivery of the start it has made up -/
  | starting (start : Envelope ν) (seq : ℕ)
  /-- before `Read` -/
  | reading
  /-- in the loop over a batch -/
  | delivering (batch : List (Entry κ (Envelope ν)))
  /-- before `State` at the end of the loop -/
  | checking
  /-- before the delivery of the end it has made up -/
  | ending (seq : ℕ)
  /-- before the delivery of a ping -/
  | pinging
  | returned (err : Option StreamError)
deriving DecidableEq

/-- The variables of `Stream`; `after` is `none` for `""` and `"0-0"`, and so is `cursor`. -/
structure Stream (κ ν : Type) where
  after : Option κ
  pc : Pc κ ν
  cursor : Option κ
  lastSeq : ℕ
  delivered : List (Delivery κ ν)
deriving DecidableEq

/-- A call that begins. -/
def Stream.init (after : Option κ) : Stream κ ν := ⟨after, .begin_, after, 0, []⟩

/-- The loop of `snapshotThrough` -/
def applyStored : List (Entry κ (Envelope ν)) → Option (Go.Map ν) → ℕ → Except StreamError (Option (Go.Map ν) × ℕ)
  | [], snapshot, lastSeq => .ok (snapshot, lastSeq)
  | item :: rest, snapshot, lastSeq =>
    match Go.parse item.event with
    | .error f => .error (.parse f)
    | .ok event =>
      match Go.apply snapshot event with
      | .raised f _ => .error (.apply f)
      | .returned snapshot => applyStored rest snapshot (if event.op = .known .ping then lastSeq else event.seq)

/-- `snapshotThrough`; the text `null` of a nil map is `none`. -/
def snapshotThrough [LinearOrder κ] (keys : Keys κ (Envelope ν)) (cursor : κ) :
    Except StreamError (Option (JsonObject ν) × ℕ) :=
  let stored := eventsThrough cursor keys
  if stored.getLast?.map Entry.cursor = some cursor then do
    let (snapshot, lastSeq) ← applyStored stored (some []) 0
    return (snapshot.map Go.marshalSnapshot, lastSeq)
  else .error .notFound

/-- `ui.Start` and `Marshal` -/
def startData (snapshot : Option (JsonObject ν)) (seq : ℕ) : Except StreamError (Envelope ν) :=
  match (do (← Go.start snapshot seq).marshal) with
  | .ok data => .ok data
  | .error f => .error (.marshal f)

/-- `deliver`: a failure ends the call. -/
def Stream.deliver (s : Stream κ ν) (delivers : Bool) (delivery : Delivery κ ν) (next : Stream κ ν → Stream κ ν) :
    Stream κ ν :=
  if delivers then next { s with delivered := s.delivered ++ [delivery] }
  else { s with pc := .returned (some .deliver) }

/-- One round of the loop over a batch. -/
def Stream.forward (s : Stream κ ν) (delivers : Bool) (stored : Entry κ (Envelope ν))
    (rest : List (Entry κ (Envelope ν))) : Stream κ ν :=
  match Go.parse stored.event with
  | .error f => { s with pc := .returned (some (.parse f)) }
  | .ok event =>
    if s.after.isSome ∧ event.op = .known .start then { s with pc := .delivering rest, cursor := some stored.cursor }
    else s.deliver delivers ⟨some stored.cursor, stored.event⟩ fun s =>
      { s with pc := if event.op = .known .end_ then .returned none else .delivering rest
               cursor := some stored.cursor
               lastSeq := event.seq }

/-- One step of `Stream` on the keys of its task. `delivers` is the outcome of the callback, `pingDue`
whether the ping interval has passed. -/
def Stream.advance [LinearOrder κ] (count : ℕ) (keys : Keys κ (Envelope ν)) (delivers pingDue : Bool)
    (s : Stream κ ν) : Stream κ ν :=
  match s.pc with
  | .begin_ =>
    match keys.state, s.after with
    | none, _ => { s with pc := .returned (some .notFound) }
    | some _, none => { s with pc := .reading }
    | some _, some after => { s with pc := .resume after }
  | .resume after =>
    match (do
      let (snapshot, seq) ← snapshotThrough keys after
      return (← startData snapshot seq, seq)) with
    | .error err => { s with pc := .returned (some err) }
    | .ok (start, seq) => { s with pc := .starting start seq }
  | .starting start seq => s.deliver delivers ⟨none, start⟩ fun s => { s with pc := .reading, lastSeq := seq }
  | .reading => { s with pc := .delivering (read count s.cursor keys) }
  | .delivering [] => { s with pc := .checking }
  | .delivering (stored :: rest) => s.forward delivers stored rest
  | .checking =>
    match keys.state with
    | none => { s with pc := .returned (some .notFound) }
    | some hash =>
      if hash.status.terminal ∧ s.cursor = some hash.lastCursor then { s with pc := .ending hash.lastSeq }
      else if pingDue then { s with pc := .pinging }
      else { s with pc := .reading }
  | .ending seq =>
    match (Go.end_ seq : Go.Event ν).marshal with
    | .error f => { s with pc := .returned (some (.marshal f)) }
    | .ok data => s.deliver delivers ⟨none, data⟩ fun s => { s with pc := .returned none }
  | .pinging =>
    match (Go.ping s.lastSeq : Go.Event ν).marshal with
    | .error f => { s with pc := .returned (some (.marshal f)) }
    | .ok data => s.deliver delivers ⟨none, data⟩ fun s => { s with pc := .reading }
  | .returned _ => s

/-! ## The call among other clients -/

/-- The keys of the task and the call. -/
structure World (κ ν : Type) where
  keys : Keys κ (Envelope ν)
  stream : Stream κ ν
deriving DecidableEq

/-- A step of another client or of the call. -/
inductive Label (κ ν : Type) where
  | publish (event : Envelope ν) (fresh : κ)
  | markTerminal (status : Status)
  | stream (delivers pingDue : Bool)
deriving DecidableEq

/-- One step; a new cursor is behind all of the stream. -/
def step [LinearOrder κ] [DecidableEq ν] (count : ℕ) (w : World κ ν) : Label κ ν → Option (World κ ν)
  | .publish event fresh =>
    if w.keys.events.all fun entry => decide (entry.cursor < fresh) then
      some { w with keys := (publishScript fresh event.seq event w.keys).2 }
    else none
  | .markTerminal status => some { w with keys := (markTerminal status w.keys).2 }
  | .stream delivers pingDue => some { w with stream := w.stream.advance count w.keys delivers pingDue }

/-! ## A live task among its publishers -/

/-- The hash knows the last cursor of a stream whose cursors increase. -/
structure Ordered [LinearOrder κ] (hash : TaskHash κ (Envelope ν)) (events : List (Entry κ (Envelope ν))) : Prop where
  last : events.getLast?.map Entry.cursor = some hash.lastCursor
  cursors : events.Pairwise fun a b => a.cursor < b.cursor

/-- The task is initialized. -/
def Live [LinearOrder κ] (keys : Keys κ (Envelope ν)) : Prop :=
  ∃ hash, keys.state = some hash ∧ Ordered hash keys.events

/-- A task whose hash mirrors its stream is initialized. -/
theorem live_of_mirrors [LinearOrder κ] {keys : Keys κ (Envelope ν)} {hash : TaskHash κ (Envelope ν)}
    (hstate : keys.state = some hash) (h : Mirrors hash keys.events) : Live keys :=
  ⟨hash, hstate, by simp [h.last], h.cursors⟩

/-- The task is marked terminal. -/
def Terminal (keys : Keys κ (Envelope ν)) : Prop :=
  ∃ hash, keys.state = some hash ∧ hash.status.terminal = true

/-- What other clients do to a task: its stream grows, and no longer when the task is terminal. -/
structure Grows [LinearOrder κ] (keys keys' : Keys κ (Envelope ν)) : Prop where
  live : Live keys'
  events : keys.events <+: keys'.events
  terminal : Terminal keys → Terminal keys' ∧ keys'.events = keys.events

theorem Grows.refl [LinearOrder κ] {keys : Keys κ (Envelope ν)} (h : Live keys) : Grows keys keys :=
  ⟨h, List.prefix_refl _, fun ht => ⟨ht, rfl⟩⟩

theorem grows_publish [LinearOrder κ] [DecidableEq ν] {keys : Keys κ (Envelope ν)} (h : Live keys) (seq : ℕ)
    (event : Envelope ν) {fresh : κ} (hfresh : ∀ entry ∈ keys.events, entry.cursor < fresh) :
    Grows keys (publishScript fresh seq event keys).2 := by
  obtain ⟨hash, hstate, hordered⟩ := h
  have hsame : Grows keys keys := .refl ⟨hash, hstate, hordered⟩
  unfold publishScript
  simp only [hstate]
  split_ifs with hretry hstatus hle
  · exact hsame
  · exact hsame
  · exact hsame
  · refine ⟨⟨_, rfl, by simp, ?_⟩, List.prefix_append _ _, fun ⟨hash', hstate', hterminal⟩ => ?_⟩
    · refine List.pairwise_append.mpr ⟨hordered.cursors, by simp, fun a ha b hb => ?_⟩
      obtain rfl := List.mem_singleton.mp hb
      exact hfresh a ha
    · obtain rfl : hash = hash' := by simpa [hstate] using hstate'
      have hrunning : hash.status = .running := not_not.mp hstatus
      simp [hrunning, Status.terminal] at hterminal

theorem grows_markTerminal [LinearOrder κ] {keys : Keys κ (Envelope ν)} (h : Live keys) (status : Status) :
    Grows keys (markTerminal status keys).2 := by
  obtain ⟨hash, hstate, hordered⟩ := h
  have hsame : Grows keys keys := .refl ⟨hash, hstate, hordered⟩
  unfold markTerminal
  simp only [hstate]
  split_ifs with hinvalid hconflict
  · exact hsame
  · exact hsame
  · refine ⟨⟨_, rfl, hordered.last, hordered.cursors⟩, List.prefix_refl _, fun _ => ⟨⟨_, rfl, ?_⟩, rfl⟩⟩
    simpa using hinvalid

/-- A step leaves the call alone and lets the task grow, or is one of the call. -/
theorem step_cases [LinearOrder κ] [DecidableEq ν] {count : ℕ} {w w' : World κ ν} {l : Label κ ν}
    (hlive : Live w.keys) (h : step count w l = some w') :
    (w'.stream = w.stream ∧ Grows w.keys w'.keys) ∨
      ∃ delivers pingDue, w' = { w with stream := w.stream.advance count w.keys delivers pingDue } := by
  cases l with
  | publish event fresh =>
    simp only [step] at h
    split at h
    · rename_i hfresh
      obtain rfl := Option.some.inj h
      exact .inl ⟨rfl, grows_publish hlive _ _ (by simpa using hfresh)⟩
    · simp at h
  | markTerminal status =>
    obtain rfl := Option.some.inj h
    exact .inl ⟨rfl, grows_markTerminal hlive status⟩
  | stream delivers pingDue => exact .inr ⟨delivers, pingDue, (Option.some.inj h).symm⟩

/-! ## The loop -/

/-- A delivery of a stored event. -/
def Delivery.ofEntry (entry : Entry κ (Envelope ν)) : Delivery κ ν := ⟨some entry.cursor, entry.event⟩

/-- The deliveries that carry a cursor. -/
def withCursor (delivered : List (Delivery κ ν)) : List (Delivery κ ν) := delivered.filter fun d => d.cursor.isSome

/-- The call forwards the entry: it is behind the cursor of a resumed call, and is no start then. -/
def forwards [LinearOrder κ] (after : Option κ) (entry : Entry κ (Envelope ν)) : Bool :=
  after.all (fun c => decide (c < entry.cursor)) && !(after.isSome && entry.event.op == .start)

/-- A call from the start forwards everything. -/
theorem filter_forwards_none [LinearOrder κ] (entries : List (Entry κ (Envelope ν))) :
    entries.filter (forwards (none : Option κ)) = entries := by
  rw [List.filter_eq_self]
  simp [forwards]

/-- A ping or an end of the call's own. -/
def MadeUp (data : Envelope ν) : Prop :=
  ∃ seq, data = (Go.ping seq : Go.Event ν).encode .ping ∨ data = (Go.end_ seq : Go.Event ν).encode .end_

/-- A call in its loop, or returned from it: it has come to the end of `past`, `rest` is ahead. `opening`
is what it has delivered before the loop and `tail` since. -/
structure Loop [LinearOrder κ] (opening : List (Delivery κ ν)) (w : World κ ν)
    (past rest : List (Entry κ (Envelope ν))) (tail : List (Delivery κ ν)) : Prop where
  events : w.keys.events = past ++ rest
  cursor : w.stream.cursor = past.getLast?.map Entry.cursor
  after : ∀ c, w.stream.after = some c → ∃ entry ∈ past, entry.cursor = c
  delivered : w.stream.delivered = opening ++ tail
  stored : withCursor tail = (past.filter (forwards w.stream.after)).map Delivery.ofEntry
  madeUp : ∀ d ∈ tail, d.cursor = none → MadeUp d.data
  batch : ∀ batch, w.stream.pc = .delivering batch → batch <+: rest
  ending : ∀ seq, w.stream.pc = .ending seq → Terminal w.keys ∧ rest = []

/-- A read returns what is ahead. -/
theorem read_eq_take [LinearOrder κ] {keys : Keys κ (Envelope ν)} {past rest : List (Entry κ (Envelope ν))}
    {cursor : Option κ} (hevents : keys.events = past ++ rest)
    (hcursor : cursor = past.getLast?.map Entry.cursor)
    (hsorted : keys.events.Pairwise fun a b => a.cursor < b.cursor) (count : ℕ) :
    read count cursor keys = rest.take count := by
  rw [hevents] at hsorted
  rw [read, hevents, hcursor, Cursors.filter_behind_eq hsorted]

/-- The call has everything when its cursor is the last one. -/
theorem rest_eq_nil [LinearOrder κ] {hash : TaskHash κ (Envelope ν)} {past rest : List (Entry κ (Envelope ν))}
    (hordered : Ordered hash (past ++ rest)) (hcursor : past.getLast?.map Entry.cursor = some hash.lastCursor) :
    rest = [] := by
  by_contra hne
  obtain ⟨earlier, last, rfl⟩ := (List.eq_nil_or_concat rest).resolve_left hne
  obtain ⟨p, hp, hpc⟩ := Option.map_eq_some_iff.mp hcursor
  have hlt := (List.pairwise_append.mp hordered.cursors).2.2 p (List.mem_of_getLast? hp) last (by simp)
  have hlast : last.cursor = hash.lastCursor := by simpa [List.concat_eq_append] using hordered.last
  rw [hpc, hlast] at hlt
  exact lt_irrefl _ hlt

theorem parse_eq_ok {e : Envelope ν} {event : Go.Event ν} (h : Go.parse e = .ok event) :
    event = Go.decoded e ∧ event.validate = .ok () := by
  simp only [Go.parse, Go.decode, @bind_eq_ok _ (Go.Event ν), seq_eq_ok, pure, Except.pure, Except.ok.injEq] at h
  obtain ⟨_, ⟨-, -, rfl⟩, hvalid, rfl⟩ := h
  exact ⟨rfl, hvalid⟩

@[simp] theorem marshal_end (seq : ℕ) :
    (Go.end_ seq : Go.Event ν).marshal = .ok ((Go.end_ seq : Go.Event ν).encode .end_) := rfl

@[simp] theorem marshal_ping (seq : ℕ) :
    (Go.ping seq : Go.Event ν).marshal = .ok ((Go.ping seq : Go.Event ν).encode .ping) := rfl

/-- The call has reached its loop. -/
def Pc.inLoop : Pc κ ν → Bool
  | .begin_ | .resume _ | .starting _ _ => false
  | _ => true

/-- What one step in the loop can do. -/
inductive Move [LinearOrder κ] (count : ℕ) (keys : Keys κ (Envelope ν)) (s : Stream κ ν) : Stream κ ν → Prop
  | fail (err : StreamError) : (∀ err, s.pc ≠ .returned err) →
    Move count keys s { s with pc := .returned (some err) }
  | stay (err : Option StreamError) : s.pc = .returned err → Move count keys s s
  | read : s.pc = .reading → Move count keys s { s with pc := .delivering (read count s.cursor keys) }
  | batchDone : s.pc = .delivering [] → Move count keys s { s with pc := .checking }
  | skip (entry : Entry κ (Envelope ν)) (rest : List (Entry κ (Envelope ν))) :
    s.pc = .delivering (entry :: rest) → s.after.isSome = true → entry.event.op = .start →
    Move count keys s { s with pc := .delivering rest, cursor := some entry.cursor }
  | forward (entry : Entry κ (Envelope ν)) (rest : List (Entry κ (Envelope ν))) :
    s.pc = .delivering (entry :: rest) → (s.after.isSome && entry.event.op == .start) = false →
    Move count keys s { s with
      pc := if entry.event.op = .end_ then .returned none else .delivering rest
      cursor := some entry.cursor
      lastSeq := entry.event.seq
      delivered := s.delivered ++ [Delivery.ofEntry entry] }
  | finish (hash : TaskHash κ (Envelope ν)) : s.pc = .checking → keys.state = some hash →
    hash.status.terminal = true → s.cursor = some hash.lastCursor →
    Move count keys s { s with pc := .ending hash.lastSeq }
  | again (pc : Pc κ ν) : s.pc = .checking → pc = .pinging ∨ pc = .reading → Move count keys s { s with pc := pc }
  | end_ (seq : ℕ) : s.pc = .ending seq → Move count keys s { s with
      pc := .returned none
      delivered := s.delivered ++ [⟨none, (Go.end_ seq : Go.Event ν).encode .end_⟩] }
  | ping : s.pc = .pinging → Move count keys s { s with
      pc := .reading
      delivered := s.delivered ++ [⟨none, (Go.ping s.lastSeq : Go.Event ν).encode .ping⟩] }

theorem move_advance [LinearOrder κ] (count : ℕ) (keys : Keys κ (Envelope ν)) (delivers pingDue : Bool)
    {s : Stream κ ν} (hloop : s.pc.inLoop = true) : Move count keys s (s.advance count keys delivers pingDue) := by
  unfold Stream.advance
  cases hpc : s.pc with
  | begin_ => simp [hpc, Pc.inLoop] at hloop
  | resume after => simp [hpc, Pc.inLoop] at hloop
  | starting start seq => simp [hpc, Pc.inLoop] at hloop
  | reading => exact .read hpc
  | delivering batch =>
    cases batch with
    | nil => exact .batchDone hpc
    | cons entry rest =>
      dsimp only [Stream.forward]
      cases hparse : Go.parse entry.event with
      | error f => exact .fail _ (by simp [hpc])
      | ok event =>
        obtain ⟨rfl, -⟩ := parse_eq_ok hparse
        have hop : ∀ op, (Go.decoded entry.event).op = .known op ↔ entry.event.op = op := by simp [Go.decoded]
        simp only [hop]
        by_cases hskip : s.after.isSome = true ∧ entry.event.op = .start
        · rw [if_pos hskip]
          exact .skip entry rest hpc hskip.1 hskip.2
        · rw [if_neg hskip]
          have hnot : (s.after.isSome && entry.event.op == .start) = false := by
            simpa using hskip
          cases delivers with
          | false => exact .fail _ (by simp [hpc])
          | true => exact .forward entry rest hpc hnot
  | checking =>
    dsimp only
    cases hstate : keys.state with
    | none => exact .fail _ (by simp [hpc])
    | some hash =>
      dsimp only
      split_ifs with hterminal hping
      · exact .finish hash hpc hstate hterminal.1 hterminal.2
      · exact .again _ hpc (.inl rfl)
      · exact .again _ hpc (.inr rfl)
  | ending seq =>
    cases delivers with
    | false => exact .fail _ (by simp [hpc])
    | true => exact .end_ seq hpc
  | pinging =>
    cases delivers with
    | false => exact .fail _ (by simp [hpc])
    | true => exact .ping hpc
  | returned err =>
    dsimp only
    exact .stay err hpc

theorem inLoop_of_move [LinearOrder κ] {count : ℕ} {keys : Keys κ (Envelope ν)} {s s' : Stream κ ν}
    (h : Move count keys s s') (hloop : s.pc.inLoop = true) : s'.pc.inLoop = true ∧ s'.after = s.after := by
  cases h with
  | stay err hpc => exact ⟨hloop, rfl⟩
  | forward entry rest hpc hnot => exact ⟨by dsimp only; split_ifs <;> rfl, rfl⟩
  | again pc hpc hnext => exact ⟨by rcases hnext with rfl | rfl <;> rfl, rfl⟩
  | _ => exact ⟨rfl, rfl⟩

theorem withCursor_append (ds es : List (Delivery κ ν)) :
    withCursor (ds ++ es) = withCursor ds ++ withCursor es :=
  List.filter_append ..

/-- Other clients only lengthen what is ahead of the loop. -/
theorem loop_grows [LinearOrder κ] {opening tail : List (Delivery κ ν)} {w w' : World κ ν}
    {past rest : List (Entry κ (Envelope ν))} (h : Loop opening w past rest tail)
    (hstream : w'.stream = w.stream) (hgrows : Grows w.keys w'.keys) :
    ∃ more, Loop opening w' past (rest ++ more) tail := by
  obtain ⟨more, hmore⟩ := hgrows.events
  refine ⟨more, ?_, ?_, ?_, ?_, ?_, h.madeUp, ?_, ?_⟩
  · rw [← hmore, h.events, List.append_assoc]
  · rw [hstream, h.cursor]
  · rw [hstream]
    exact h.after
  · rw [hstream, h.delivered]
  · rw [hstream, h.stored]
  · intro batch hbatch
    rw [hstream] at hbatch
    exact (h.batch batch hbatch).trans (List.prefix_append _ _)
  · intro seq hseq
    rw [hstream] at hseq
    obtain ⟨hterminal, hrest⟩ := h.ending seq hseq
    obtain ⟨hterminal', hevents⟩ := hgrows.terminal hterminal
    have hnil : more = [] := by
      rw [hevents] at hmore
      simpa using hmore
    exact ⟨hterminal', by rw [hrest, hnil]; rfl⟩

/-- The same place in the timeline, with the list of deliveries longer by what the call has made up. -/
theorem Loop.congr [LinearOrder κ] {opening tail m : List (Delivery κ ν)} {w : World κ ν}
    {past rest : List (Entry κ (Envelope ν))} (h : Loop opening w past rest tail) {s : Stream κ ν}
    (hcursor : s.cursor = w.stream.cursor) (hafter : s.after = w.stream.after)
    (hdelivered : s.delivered = w.stream.delivered ++ m)
    (hm : ∀ d ∈ m, d.cursor = none ∧ MadeUp d.data)
    (hbatch : ∀ batch, s.pc = .delivering batch → batch <+: rest)
    (hending : ∀ seq, s.pc = .ending seq → Terminal w.keys ∧ rest = []) :
    Loop opening { w with stream := s } past rest (tail ++ m) where
  events := h.events
  cursor := hcursor.trans h.cursor
  after := by
    rw [hafter]
    exact h.after
  delivered := by rw [hdelivered, h.delivered, List.append_assoc]
  stored := by
    have hnone : withCursor m = [] := by
      rw [withCursor, List.filter_eq_nil_iff]
      intro d hd
      simp [(hm d hd).1]
    rw [withCursor_append, hnone, List.append_nil, hafter]
    exact h.stored
  madeUp d hd hnone := by
    rcases List.mem_append.mp hd with hd | hd
    · exact h.madeUp d hd hnone
    · exact (hm d hd).2
  batch := hbatch
  ending := hending

/-- A call whose cursor moves over the entry in front of it. -/
theorem Loop.over [LinearOrder κ] {opening tail m : List (Delivery κ ν)} {w : World κ ν}
    {past rest : List (Entry κ (Envelope ν))} {entry : Entry κ (Envelope ν)}
    (h : Loop opening w past (entry :: rest) tail) (hlive : Live w.keys) {s : Stream κ ν}
    (hcursor : s.cursor = some entry.cursor) (hafter : s.after = w.stream.after)
    (hdelivered : s.delivered = w.stream.delivered ++ m)
    (hmore : m = if w.stream.after.isSome && entry.event.op == .start then [] else [Delivery.ofEntry entry])
    (hbatch : ∀ batch, s.pc = .delivering batch → batch <+: rest) (hending : ∀ seq, s.pc ≠ .ending seq) :
    Loop opening { w with stream := s } (past ++ [entry]) rest (tail ++ m) where
  events := by rw [h.events, List.append_assoc]; rfl
  cursor := by simpa using hcursor
  after c hc := by
    rw [hafter] at hc
    obtain ⟨e, he, hec⟩ := h.after c hc
    exact ⟨e, List.mem_append_left _ he, hec⟩
  delivered := by rw [hdelivered, h.delivered, List.append_assoc]
  stored := by
    -- the entry is behind the cursor that the call was resumed after
    have hbehind : w.stream.after.all (fun c => decide (c < entry.cursor)) = true := by
      rw [Option.all_eq_true]
      intro c hc
      obtain ⟨e, he, rfl⟩ := h.after c hc
      obtain ⟨hash, -, hordered⟩ := hlive
      have hsorted := hordered.cursors
      rw [h.events, List.pairwise_append] at hsorted
      exact decide_eq_true (hsorted.2.2 e he entry (by simp))
    rw [withCursor_append, h.stored, hafter, List.filter_append, List.map_append, hmore]
    congr 1
    cases hskip : w.stream.after.isSome && entry.event.op == .start <;>
      simp [forwards, hbehind, hskip, withCursor, Delivery.ofEntry]
  madeUp d hd hnone := by
    rcases List.mem_append.mp hd with hd | hd
    · exact h.madeUp d hd hnone
    · rw [hmore] at hd
      split at hd
      · simp at hd
      · rw [List.mem_singleton.mp hd] at hnone
        simp [Delivery.ofEntry] at hnone
  batch := hbatch
  ending seq hseq := absurd hseq (hending seq)

/-- Every step in the loop leaves the call in its loop. -/
theorem loop_move [LinearOrder κ] {opening tail : List (Delivery κ ν)} {w : World κ ν}
    {past rest : List (Entry κ (Envelope ν))} (h : Loop opening w past rest tail) (hlive : Live w.keys)
    {count : ℕ} {s : Stream κ ν} (hmove : Move count w.keys w.stream s) :
    ∃ past' rest' tail', Loop opening { w with stream := s } past' rest' tail' := by
  cases hmove with
  | fail err hpc =>
    exact ⟨past, rest, _, h.congr (m := []) rfl rfl (by simp) (by simp) (by simp) (by simp)⟩
  | stay err hpc => exact ⟨past, rest, tail, h⟩
  | read hpc =>
    obtain ⟨hash, -, hordered⟩ := hlive
    refine ⟨past, rest, _, h.congr (m := []) rfl rfl (by simp) (by simp) ?_ (by simp)⟩
    rintro batch hbatch
    obtain rfl : read count w.stream.cursor w.keys = batch := by simpa using hbatch
    rw [read_eq_take h.events h.cursor hordered.cursors]
    exact List.take_prefix _ _
  | batchDone hpc =>
    exact ⟨past, rest, _, h.congr (m := []) rfl rfl (by simp) (by simp) (by simp) (by simp)⟩
  | skip entry batch hpc hafter hop =>
    obtain ⟨ahead, rfl⟩ := h.batch _ hpc
    exact ⟨past ++ [entry], batch ++ ahead, _, h.over (m := []) hlive rfl rfl (by simp) (by simp [hafter, hop])
      (by simp) (by simp)⟩
  | forward entry batch hpc hnot =>
    obtain ⟨ahead, rfl⟩ := h.batch _ hpc
    refine ⟨past ++ [entry], batch ++ ahead, _, h.over hlive rfl rfl rfl (by simp [hnot]) ?_ ?_⟩
    · intro batch' hbatch
      dsimp only at hbatch
      split_ifs at hbatch
      obtain rfl : batch = batch' := by simpa using hbatch
      exact List.prefix_append _ _
    · intro seq
      dsimp only
      split_ifs <;> simp
  | finish hash hpc hstate hterminal hcursor =>
    refine ⟨past, rest, _, h.congr (m := []) rfl rfl (by simp) (by simp) (by simp) fun seq _ => ?_⟩
    obtain ⟨hash', hstate', hordered⟩ := hlive
    obtain rfl : hash = hash' := by simpa [hstate] using hstate'
    rw [h.events] at hordered
    exact ⟨⟨hash, hstate, hterminal⟩, rest_eq_nil hordered (h.cursor.symm.trans hcursor)⟩
  | again pc hpc hnext =>
    refine ⟨past, rest, _, h.congr (m := []) rfl rfl (by simp) (by simp) ?_ ?_⟩ <;>
      rcases hnext with rfl | rfl <;> simp
  | end_ seq hpc =>
    refine ⟨past, rest, _, h.congr rfl rfl rfl (fun d hd => ?_) (by simp) (by simp)⟩
    rw [List.mem_singleton.mp hd]
    exact ⟨rfl, seq, .inr rfl⟩
  | ping hpc =>
    refine ⟨past, rest, _, h.congr rfl rfl rfl (fun d hd => ?_) (by simp) (by simp)⟩
    rw [List.mem_singleton.mp hd]
    exact ⟨rfl, _, .inl rfl⟩

/-! ## A call from the beginning -/

/-- The sequence number of the last delivered event, 0 if there is none. -/
def lastDelivered (delivered : List (Delivery κ ν)) : ℕ :=
  ((withCursor delivered).getLast?.map fun d => d.data.seq).getD 0

/-- Every ping that the call has made up has the number of the last event delivered before it. -/
def PingsFollow (delivered : List (Delivery κ ν)) : Prop :=
  ∀ before d behind, delivered = before ++ d :: behind → d.cursor = none → d.data.op = .ping →
    d.data.seq = lastDelivered before

/-- The last delivery, and no other, is an end; one that the call has made up stands behind all events of
a terminal task. -/
def EndsOnce (keys : Keys κ (Envelope ν)) (delivered : List (Delivery κ ν)) : Prop :=
  ∃ before d, delivered = before ++ [d] ∧ d.data.op = .end_ ∧ (∀ e ∈ before, e.data.op ≠ .end_) ∧
    (d.cursor = none → Terminal keys ∧ withCursor delivered = keys.events.map Delivery.ofEntry)

theorem PingsFollow.concat {delivered : List (Delivery κ ν)} (h : PingsFollow delivered) {d : Delivery κ ν}
    (hd : d.cursor = none → d.data.op = .ping → d.data.seq = lastDelivered delivered) :
    PingsFollow (delivered ++ [d]) := by
  intro before e behind heq hnone hping
  rcases List.eq_nil_or_concat behind with rfl | ⟨behind, last, rfl⟩
  · obtain ⟨rfl, hde⟩ := List.append_inj' heq rfl
    obtain rfl : d = e := by simpa using hde
    exact hd hnone hping
  · have heq' : delivered ++ [d] = (before ++ e :: behind) ++ [last] := by simpa [List.concat_eq_append] using heq
    exact h before e behind (List.append_inj' heq' rfl).1 hnone hping

theorem lastDelivered_concat_none {delivered : List (Delivery κ ν)} {d : Delivery κ ν} (hd : d.cursor = none) :
    lastDelivered (delivered ++ [d]) = lastDelivered delivered := by
  simp [lastDelivered, withCursor, List.filter_append, hd]

theorem lastDelivered_concat_some {delivered : List (Delivery κ ν)} (entry : Entry κ (Envelope ν)) :
    lastDelivered (delivered ++ [Delivery.ofEntry entry]) = entry.event.seq := by
  simp [lastDelivered, withCursor, List.filter_append, Delivery.ofEntry]

/-- What the deliveries of a call from the beginning look like. -/
structure Tidy [LinearOrder κ] (w : World κ ν) : Prop where
  lastSeq : w.stream.lastSeq = lastDelivered w.stream.delivered
  pings : PingsFollow w.stream.delivered
  noEnd : w.stream.pc ≠ .returned none → ∀ d ∈ w.stream.delivered, d.data.op ≠ .end_
  ends : w.stream.pc = .returned none → EndsOnce w.keys w.stream.delivered

theorem tidy_grows [LinearOrder κ] {w w' : World κ ν} (h : Tidy w) (hstream : w'.stream = w.stream)
    (hgrows : Grows w.keys w'.keys) : Tidy w' where
  lastSeq := by rw [hstream, h.lastSeq]
  pings := by
    rw [hstream]
    exact h.pings
  noEnd := by
    rw [hstream]
    exact h.noEnd
  ends hpc := by
    rw [hstream] at hpc ⊢
    obtain ⟨before, d, heq, hop, hbefore, hmadeUp⟩ := h.ends hpc
    refine ⟨before, d, heq, hop, hbefore, fun hnone => ?_⟩
    obtain ⟨hterminal, hall⟩ := hmadeUp hnone
    obtain ⟨hterminal', hevents⟩ := hgrows.terminal hterminal
    exact ⟨hterminal', by rw [hevents, hall]⟩

/-- A step that delivers nothing and does not finish. -/
theorem Tidy.quiet [LinearOrder κ] {w : World κ ν} (h : Tidy w) {s : Stream κ ν} (hpc : w.stream.pc ≠ .returned none)
    (hpc' : s.pc ≠ .returned none) (hlast : s.lastSeq = w.stream.lastSeq)
    (hdelivered : s.delivered = w.stream.delivered) : Tidy { w with stream := s } where
  lastSeq := by rw [hlast, hdelivered, h.lastSeq]
  pings := by
    rw [hdelivered]
    exact h.pings
  noEnd _ := by
    rw [hdelivered]
    exact h.noEnd hpc
  ends hpc'' := absurd hpc'' hpc'

theorem tidy_move [LinearOrder κ] {tail : List (Delivery κ ν)} {w : World κ ν}
    {past rest : List (Entry κ (Envelope ν))} (hloop : Loop [] w past rest tail) (hafter : w.stream.after = none)
    (h : Tidy w) {count : ℕ} {s : Stream κ ν} (hmove : Move count w.keys w.stream s) :
    Tidy { w with stream := s } := by
  cases hmove with
  | fail err hpc => exact h.quiet (hpc none) (by simp) rfl rfl
  | stay err hpc => exact h
  | read hpc => exact h.quiet (by simp [hpc]) (by simp) rfl rfl
  | batchDone hpc => exact h.quiet (by simp [hpc]) (by simp) rfl rfl
  | skip entry batch hpc hsome hop => simp [hafter] at hsome
  | forward entry batch hpc hnot =>
    have hnoEnd := h.noEnd (by simp [hpc])
    refine ⟨(lastDelivered_concat_some entry).symm, h.pings.concat (by simp [Delivery.ofEntry]), ?_, ?_⟩
    · intro hpc' d hd
      dsimp only at hpc' hd
      rcases List.mem_append.mp hd with hd | hd
      · exact hnoEnd d hd
      · rw [List.mem_singleton.mp hd]
        exact fun hop => hpc' (if_pos hop)
    · intro hpc'
      dsimp only at hpc'
      have hop : entry.event.op = .end_ := by
        by_contra hne
        simp [hne] at hpc'
      exact ⟨_, Delivery.ofEntry entry, rfl, hop, hnoEnd, by simp [Delivery.ofEntry]⟩
  | finish hash hpc hstate hterminal hcursor => exact h.quiet (by simp [hpc]) (by simp) rfl rfl
  | again pc hpc hnext =>
    exact h.quiet (by simp [hpc]) (by rcases hnext with rfl | rfl <;> simp) rfl rfl
  | end_ seq hpc =>
    have hnoEnd := h.noEnd (by simp [hpc])
    refine ⟨?_, h.pings.concat (by simp [Go.Event.encode]), by simp, fun _ => ⟨_, _, rfl, rfl, hnoEnd, fun _ => ?_⟩⟩
    · exact h.lastSeq.trans (lastDelivered_concat_none rfl).symm
    · -- everything has been delivered before the call makes up its end
      obtain ⟨hterminal, rfl⟩ := hloop.ending seq hpc
      refine ⟨hterminal, ?_⟩
      rw [withCursor_append, hloop.events, hloop.delivered, List.nil_append, hloop.stored, hafter,
        filter_forwards_none]
      simp [withCursor]
  | ping hpc =>
    have hnoEnd := h.noEnd (by simp [hpc])
    refine ⟨?_, h.pings.concat fun _ _ => h.lastSeq, fun _ d hd => ?_, by simp⟩
    · exact h.lastSeq.trans (lastDelivered_concat_none rfl).symm
    · rcases List.mem_append.mp hd with hd | hd
      · exact hnoEnd d hd
      · rw [List.mem_singleton.mp hd]
        simp [Go.Event.encode]

/-- A call from the beginning has not begun, or is in its loop. -/
structure FromStart [LinearOrder κ] (w : World κ ν) : Prop where
  live : Live w.keys
  after : w.stream.after = none
  place : w.stream = .init none ∨ w.stream.pc.inLoop = true ∧ ∃ past rest tail, Loop [] w past rest tail
  tidy : Tidy w

theorem fromStart_init [LinearOrder κ] {keys : Keys κ (Envelope ν)} (h : Live keys) :
    FromStart ⟨keys, .init none⟩ where
  live := h
  after := rfl
  place := .inl rfl
  tidy := ⟨rfl, fun before d behind heq => by simp [Stream.init] at heq, fun _ => by simp [Stream.init],
    fun hpc => by simp [Stream.init] at hpc⟩

theorem fromStart_step [LinearOrder κ] [DecidableEq ν] {count : ℕ} {w w' : World κ ν} {l : Label κ ν}
    (h : FromStart w) (hstep : step count w l = some w') : FromStart w' := by
  rcases step_cases h.live hstep with ⟨hstream, hgrows⟩ | ⟨delivers, pingDue, rfl⟩
  · refine ⟨hgrows.live, by rw [hstream, h.after], ?_, tidy_grows h.tidy hstream hgrows⟩
    rw [hstream]
    refine h.place.imp_right fun ⟨hpc, past, rest, tail, hloop⟩ => ⟨hpc, ?_⟩
    obtain ⟨more, hloop⟩ := loop_grows hloop hstream hgrows
    exact ⟨past, rest ++ more, tail, hloop⟩
  · rcases h.place with hinit | ⟨hpc, past, rest, tail, hloop⟩
    · obtain ⟨hash, hstate, -⟩ := h.live
      have hadvance : w.stream.advance count w.keys delivers pingDue =
          { (Stream.init none : Stream κ ν) with pc := .reading } := by
        simp [hinit, Stream.advance, Stream.init, hstate]
      rw [hadvance]
      refine ⟨h.live, rfl, .inr ⟨rfl, [], w.keys.events, [], ?_⟩, ?_⟩
      · exact ⟨rfl, rfl, by simp [Stream.init], rfl, rfl, by simp, by simp, by simp⟩
      · exact h.tidy.quiet (by simp [hinit, Stream.init]) (by simp) (by simp [hinit]) (by simp [hinit])
    · have hmove := move_advance count w.keys delivers pingDue hpc
      obtain ⟨hpc', hafter'⟩ := inLoop_of_move hmove hpc
      exact ⟨h.live, hafter'.trans h.after, .inr ⟨hpc', loop_move hloop h.live hmove⟩,
        tidy_move hloop h.after h.tidy hmove⟩

/-- In every state that a call from the beginning can reach among publishers: its deliveries with a cursor
are the first stored events in their order, its pings follow the last of them, and when it has returned
without an error it has ended with one end, a stored one or one behind all events of a terminal task. -/
theorem stream_complete [LinearOrder κ] [DecidableEq ν] {count : ℕ} {keys : Keys κ (Envelope ν)}
    {labels : List (Label κ ν)} {w : World κ ν} (hlive : Live keys)
    (hexec : Machine.exec (step count) ⟨keys, .init none⟩ labels = some w) :
    withCursor w.stream.delivered <+: w.keys.events.map Delivery.ofEntry ∧
      PingsFollow w.stream.delivered ∧
      (w.stream.pc = .returned none → EndsOnce w.keys w.stream.delivered) := by
  have h : FromStart w :=
    Machine.exec_invariant (fun _ _ _ h hstep => fromStart_step h hstep) (fromStart_init hlive) hexec
  refine ⟨?_, h.tidy.pings, h.tidy.ends⟩
  rcases h.place with hinit | ⟨-, past, rest, tail, hloop⟩
  · rw [hinit]
    exact List.nil_prefix
  · rw [hloop.delivered, List.nil_append, hloop.stored, h.after, filter_forwards_none, hloop.events, List.map_append]
    exact List.prefix_append _ _

/-- The start of a chat and its end. -/
def chatStart : Envelope ℕ :=
  ⟨.start, 1, none, none, none, none,
    some [("version", .str "1.1"), ("biz", .str "chat"), ("meta", .obj []), ("blocks", .arr [])], none, none⟩

def chatEnd : Envelope ℕ := ⟨.end_, 2, none, none, none, none, none, none, none⟩

/-- A task with its start. -/
def chatKeys : Keys ℕ (Envelope ℕ) := ((Call.initialize_ chatStart chatStart 1).run 10 ⟨none, []⟩).2

/-- A call that reads the start, while another client publishes the end, and then reads that. -/
def readsChat : List (Label ℕ ℕ) :=
  [.stream true false, .stream true false, .publish chatEnd 11, .stream true false, .stream true false,
    .stream true false, .stream true false, .stream true false]

theorem stream_complete_readsChat :
    ∃ w, Machine.exec (step 1) ⟨chatKeys, .init none⟩ readsChat = some w ∧ w.stream.pc = .returned none ∧
      withCursor w.stream.delivered <+: w.keys.events.map Delivery.ofEntry ∧
      PingsFollow w.stream.delivered ∧
      (w.stream.pc = .returned none → EndsOnce w.keys w.stream.delivered) := by
  have hreturned : (Machine.exec (step 1) ⟨chatKeys, .init none⟩ readsChat).map (fun w => w.stream.pc) =
    some (.returned none) := by decide +kernel
  obtain ⟨w, hw, hpc⟩ := Option.map_eq_some_iff.mp hreturned
  have hmirrors : Mirrors ⟨.running, 1, chatStart, chatStart, 10⟩ chatKeys.events :=
    ⟨rfl, List.pairwise_singleton _ _, List.pairwise_singleton _ _, by decide⟩
  exact ⟨w, hw, hpc, stream_complete (live_of_mirrors rfl hmirrors) hw⟩

end AgentUE.GoRunner
