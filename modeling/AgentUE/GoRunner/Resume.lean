import AgentUE.Go.RoundTrip
import AgentUE.GoRunner.Replay

/-!
# Go runner: resuming after a cursor

A resumed call opens with a start that it builds from the timeline through its cursor, and forwards the
rest of the timeline without its starts. Reducing what it delivers gives the models of the timeline, event by
event, exactly when each of those starts repeats the model that the events before it lead to.
-/

namespace AgentUE.GoRunner

open Data

variable {κ ν : Type}

/-! ## Reducing events -/

/-- `ui.ApplyAll` on the decoded events. -/
def reduceFrom (snapshot : Option (Go.Map ν)) (events : List (Envelope ν)) : Option (Option (Go.Map ν)) :=
  (Go.applyAll snapshot (events.map Go.decoded)).state?

/-- The model that events lead to from a document; `none` when one of them is refused. -/
def modelFrom (document : JsonObject ν) (events : List (Envelope ν)) : Option (Option (JsonObject ν)) :=
  (reduceFrom (some (Go.ofJsonObject document)) events).map (Option.map Go.marshalSnapshot)

/-- The model that a reader of the deliveries has, who begins with an empty snapshot. -/
def modelOf (delivered : List (Delivery κ ν)) : Option (Option (JsonObject ν)) :=
  modelFrom [] (delivered.map Delivery.data)

/-- Two readers have models, and these are one JSON value: the order of members does not count. -/
def SameModel (a b : Option (Option (JsonObject ν))) : Prop :=
  ∃ s t, a = some (some s) ∧ b = some (some t) ∧ DocTree.Same (.obj s) (.obj t)

theorem SameModel.symm {a b : Option (Option (JsonObject ν))} (h : SameModel a b) : SameModel b a := by
  obtain ⟨s, t, hs, ht, hsame⟩ := h
  exact ⟨t, s, ht, hs, hsame.symm⟩

theorem SameModel.trans {a b c : Option (Option (JsonObject ν))} (hab : SameModel a b) (hbc : SameModel b c) :
    SameModel a c := by
  obtain ⟨s, t, rfl, rfl, hst⟩ := hab
  obtain ⟨t', u, htt', rfl, htu⟩ := hbc
  obtain rfl : t = t' := by simpa using htt'
  exact ⟨s, u, rfl, rfl, hst.trans htu⟩

/-- The events of a timeline through a cursor. -/
def entriesThrough [LinearOrder κ] (cursor : κ) (events : List (Entry κ (Envelope ν))) : List (Entry κ (Envelope ν)) :=
  events.filter fun entry => decide (entry.cursor ≤ cursor)

/-- Those behind it. -/
def entriesBehind [LinearOrder κ] (cursor : κ) (events : List (Entry κ (Envelope ν))) : List (Entry κ (Envelope ν)) :=
  events.filter fun entry => decide (cursor < entry.cursor)

/-- Events without the starts among them. -/
def withoutStarts (events : List (Entry κ (Envelope ν))) : List (Envelope ν) :=
  (events.map Entry.event).filter fun event => event.op != .start

/-- What is heard of the deliveries through a stored event. -/
def heardThrough [LinearOrder κ] (cursor : κ) (delivered : List (Delivery κ ν)) : List (Delivery κ ν) :=
  delivered.filter fun d => d.cursor.all fun c => decide (c ≤ cursor)

/-- The starts behind the cursor tell a reader nothing. -/
structure StartsRepeat [LinearOrder κ] (cursor : κ) (events : List (Entry κ (Envelope ν))) : Prop where
  /-- each of them carries the model that the events before it lead to -/
  model : ∀ before entry behind, events = before ++ entry :: behind → cursor < entry.cursor →
    entry.event.op = .start → SameModel (modelFrom [] (before.map Entry.event)) (some entry.event.model)
  /-- and the other events behind the cursor are accepted on the model at the cursor as they are -/
  accepted : ∀ document, modelFrom [] ((entriesThrough cursor events).map Entry.event) = some (some document) →
    modelFrom document (withoutStarts (entriesBehind cursor events)) ≠ none

theorem reduceFrom_append (snapshot : Option (Go.Map ν)) (events rest : List (Envelope ν)) :
    reduceFrom snapshot (events ++ rest) =
      (reduceFrom snapshot events).bind fun snapshot => reduceFrom snapshot rest := by
  rw [reduceFrom, List.map_append, Go.applyAll, Applied.run_append]
  rfl

theorem reduceFrom_cons (snapshot : Option (Go.Map ν)) (event : Envelope ν) (rest : List (Envelope ν)) :
    reduceFrom snapshot (event :: rest) =
      (Go.apply snapshot (Go.decoded event)).state?.bind fun snapshot => reduceFrom snapshot rest := by
  rw [reduceFrom, List.map_cons, Go.applyAll, Applied.run]
  cases Go.apply snapshot (Go.decoded event) <;> rfl

/-- A snapshot never becomes a nil map. -/
theorem exists_of_reduceFrom {m : Go.Map ν} {events : List (Envelope ν)} {s : Option (Go.Map ν)}
    (h : reduceFrom (some m) events = some s) : ∃ n, s = some n := by
  obtain ⟨n, -, hn, -⟩ := Go.tracks_applyAll Go.congruence_alike (events.map Go.decoded) m m (Go.Alike.refl m) s h
  exact ⟨n, hn⟩

/-- A run that is accepted on a snapshot leads from its document to the same model. -/
theorem modelFrom_marshalSnapshot {m n : Go.Map ν} {events : List (Envelope ν)}
    (h : reduceFrom (some m) events = some (some n)) :
    modelFrom (Go.marshalSnapshot m) events = some (some (Go.marshalSnapshot n)) := by
  obtain ⟨k, k', hk, hrun, halike⟩ := Go.tracks_applyAll Go.congruence_alike (events.map Go.decoded) m _
    (Go.alike_ofJsonObject_marshalSnapshot m) (some n) h
  obtain rfl : n = k := by simpa using hk
  simp only [modelFrom, reduceFrom, hrun, Option.map_some, halike.marshalSnapshot_eq]

/-- What the call makes up changes no model. -/
theorem apply_madeUp (s : Option (Go.Map ν)) {data : Envelope ν} (h : MadeUp data) :
    Go.apply s (Go.decoded data) = .returned s := by
  obtain ⟨seq, rfl | rfl⟩ := h <;> rfl

/-- Only the deliveries with a cursor count. -/
theorem reduceFrom_withCursor {tail : List (Delivery κ ν)} (h : ∀ d ∈ tail, d.cursor = none → MadeUp d.data)
    (s : Option (Go.Map ν)) :
    reduceFrom s (tail.map Delivery.data) = reduceFrom s ((withCursor tail).map Delivery.data) := by
  induction tail generalizing s with
  | nil => rfl
  | cons d tail ih =>
    have htail := ih fun d hd => h d (List.mem_cons_of_mem _ hd)
    rw [List.map_cons, reduceFrom_cons]
    cases hcursor : d.cursor with
    | none =>
      rw [apply_madeUp s (h d (by simp) hcursor), Applied.state?_returned, Option.bind_some, htail]
      simp [withCursor, hcursor]
    | some c =>
      simp only [withCursor, List.filter_cons, hcursor, Option.isSome_some, if_true, List.map_cons, reduceFrom_cons]
      exact congrArg _ (funext htail)

/-! ## The opening -/

/-- The loop of `snapshotThrough` reduces the entries. -/
theorem reduceFrom_of_applyStored {stored : List (Entry κ (Envelope ν))} {s s' : Option (Go.Map ν)} {n n' : ℕ}
    (h : applyStored stored s n = .ok (s', n')) : reduceFrom s (stored.map Entry.event) = some s' := by
  induction stored generalizing s n with
  | nil =>
    simp only [applyStored, Except.ok.injEq, Prod.mk.injEq] at h
    rw [h.1]
    rfl
  | cons item rest ih =>
    rw [List.map_cons, reduceFrom_cons]
    unfold applyStored at h
    cases hparse : Go.parse item.event with
    | error f => simp [hparse] at h
    | ok event =>
      obtain ⟨rfl, -⟩ := parse_eq_ok hparse
      simp only [hparse] at h
      cases happly : Go.apply s (Go.decoded item.event) with
      | raised f t => simp [happly] at h
      | returned t =>
        simp only [happly] at h
        exact ih h

/-- The start that a call resumed after `cursor` opens with: its model is that of the timeline through
the cursor, which is stored. -/
structure Opens [LinearOrder κ] (cursor : κ) (events : List (Entry κ (Envelope ν))) (start : Envelope ν) : Prop where
  stored : ∃ entry ∈ events, entry.cursor = cursor
  model : ∃ m, reduceFrom (some []) ((entriesThrough cursor events).map Entry.event) = some (some m) ∧
    ∀ s, Go.apply s (Go.decoded start) = .returned (some (Go.ofJsonObject (Go.marshalSnapshot m)))

/-- A marshalled start replaces the snapshot by its model. -/
theorem apply_startData {snapshot : Option (JsonObject ν)} {seq : ℕ} {start : Envelope ν}
    (h : startData snapshot seq = .ok start) :
    ∃ document, snapshot = some document ∧
      ∀ s, Go.apply s (Go.decoded start) = .returned (some (Go.ofJsonObject document)) := by
  unfold startData at h
  split at h
  next data hdata =>
    obtain rfl : data = start := by simpa using h
    obtain ⟨event, hevent, hmarshal⟩ := bind_eq_ok.mp hdata
    obtain ⟨hvalid, hevent⟩ := seq_eq_ok.mp hevent
    obtain rfl : _ = event := by simpa [pure, Except.pure] using hevent
    obtain ⟨document, hdocument⟩ := Go.exists_model_of_validate rfl hvalid
    obtain rfl : snapshot = some document := hdocument
    obtain ⟨-, hmarshal⟩ := seq_eq_ok.mp hmarshal
    obtain rfl : _ = data := by simpa [pure, Except.pure] using hmarshal
    refine ⟨document, rfl, fun s => ?_⟩
    -- a valid model is not empty, so it is not left out of the marshalled event
    have hdecoded : Go.decoded ((⟨"", .known .start, seq, none, "", "", some document, none, none⟩ :
        Go.Event ν).encode .start) = ⟨"", .known .start, seq, none, "", "", some document, none, none⟩ := by
      cases document with
      | nil => cases hvalid
      | cons p rest => rfl
    rw [hdecoded, Go.apply, hvalid]
    rfl
  next => simp at h

theorem opens_of_snapshotThrough [LinearOrder κ] {keys : Keys κ (Envelope ν)} {cursor : κ}
    {snapshot : Option (JsonObject ν)} {seq : ℕ} {start : Envelope ν}
    (hsnapshot : snapshotThrough keys cursor = .ok (snapshot, seq)) (hstart : startData snapshot seq = .ok start) :
    Opens cursor keys.events start := by
  unfold snapshotThrough at hsnapshot
  dsimp only at hsnapshot
  split at hsnapshot
  next hlast =>
    obtain ⟨⟨s, n⟩, hstored, hreturn⟩ := bind_eq_ok.mp hsnapshot
    obtain ⟨rfl, rfl⟩ : s.map Go.marshalSnapshot = snapshot ∧ n = seq := by
      simpa [pure, Except.pure] using hreturn
    obtain ⟨document, hdocument, happly⟩ := apply_startData hstart
    obtain ⟨m, rfl, rfl⟩ := Option.map_eq_some_iff.mp hdocument
    obtain ⟨entry, hentry, hcursor⟩ := Option.map_eq_some_iff.mp hlast
    exact ⟨⟨entry, (List.mem_filter.mp (List.mem_of_getLast? hentry)).1, hcursor⟩,
      m, reduceFrom_of_applyStored hstored, happly⟩
  next => simp at hsnapshot

/-- Entries behind a stored cursor do not change what stands through it. -/
theorem Opens.append [LinearOrder κ] {cursor : κ} {events more : List (Entry κ (Envelope ν))} {start : Envelope ν}
    (h : Opens cursor events start) (hsorted : (events ++ more).Pairwise fun a b => a.cursor < b.cursor) :
    Opens cursor (events ++ more) start := by
  obtain ⟨entry, hentry, hcursor⟩ := h.stored
  refine ⟨⟨entry, List.mem_append_left _ hentry, hcursor⟩, ?_⟩
  have hmore : more.filter (fun entry => decide (entry.cursor ≤ cursor)) = [] := by
    rw [List.filter_eq_nil_iff]
    intro later hlater
    have hlt := (List.pairwise_append.mp hsorted).2.2 entry hentry later hlater
    rw [hcursor] at hlt
    simpa using hlt
  rw [entriesThrough, List.filter_append, hmore, List.append_nil]
  exact h.model

/-! ## A resumed call -/

/-- A call resumed after a cursor stands before its opening, has failed, or is in its loop behind it. -/
inductive Place [LinearOrder κ] (cursor : κ) (w : World κ ν) : Prop
  | begin_ : w.stream = .init (some cursor) → Place cursor w
  | resume : w.stream = { (Stream.init (some cursor) : Stream κ ν) with pc := .resume cursor } → Place cursor w
  | starting (start : Envelope ν) (seq : ℕ) :
    w.stream = { (Stream.init (some cursor) : Stream κ ν) with pc := .starting start seq } →
    Opens cursor w.keys.events start → Place cursor w
  | failed (err : StreamError) : w.stream.pc = .returned (some err) → Place cursor w
  | inLoop (start : Envelope ν) (past rest : List (Entry κ (Envelope ν))) (tail : List (Delivery κ ν)) :
    w.stream.pc.inLoop = true → w.stream.after = some cursor → Opens cursor w.keys.events start →
    Loop [⟨none, start⟩] w past rest tail → Place cursor w

theorem place_grows [LinearOrder κ] {cursor : κ} {w w' : World κ ν} (h : Place cursor w)
    (hstream : w'.stream = w.stream) (hgrows : Grows w.keys w'.keys) : Place cursor w' := by
  have hopens : ∀ {start}, Opens cursor w.keys.events start → Opens cursor w'.keys.events start := by
    intro start hopens
    obtain ⟨hash, -, hordered⟩ := hgrows.live
    obtain ⟨more, hmore⟩ := hgrows.events
    have hsorted := hordered.cursors
    rw [← hmore] at hsorted ⊢
    exact hopens.append hsorted
  cases h with
  | begin_ h => exact .begin_ (hstream.trans h)
  | resume h => exact .resume (hstream.trans h)
  | starting start seq h hstart => exact .starting start seq (hstream.trans h) (hopens hstart)
  | failed err h => exact .failed err (by rw [hstream, h])
  | inLoop start past rest tail hpc hafter hstart hloop =>
    obtain ⟨more, hloop⟩ := loop_grows hloop hstream hgrows
    exact .inLoop start past (rest ++ more) tail (by rw [hstream, hpc]) (by rw [hstream, hafter]) (hopens hstart)
      hloop

/-- The loop of a resumed call begins behind the entry with its cursor. -/
theorem loop_of_opens [LinearOrder κ] {cursor : κ} {w : World κ ν} {start : Envelope ν}
    (hlive : Live w.keys) (h : Opens cursor w.keys.events start) {s : Stream κ ν}
    (hs : s = ⟨some cursor, .reading, some cursor, s.lastSeq, [⟨none, start⟩]⟩) :
    ∃ past rest, Loop [⟨none, start⟩] { w with stream := s } past rest [] := by
  obtain ⟨entry, hentry, hcursor⟩ := h.stored
  obtain ⟨hash, -, hordered⟩ := hlive
  obtain ⟨before, behind, hevents⟩ := List.append_of_mem hentry
  refine ⟨before ++ [entry], behind, ?_, ?_, ?_, ?_, ?_, by simp, ?_, ?_⟩
  · rw [hevents, List.append_assoc]
    rfl
  · rw [hs]
    simp [hcursor]
  · rw [hs]
    rintro c hc
    obtain rfl : cursor = c := by simpa using hc
    exact ⟨entry, by simp, hcursor⟩
  · rw [hs]
    rfl
  · -- nothing through the cursor is behind it
    have hnone : (before ++ [entry]).filter (forwards (some cursor)) = [] := by
      rw [List.filter_eq_nil_iff]
      intro e he
      have hle : e.cursor ≤ cursor := by
        have hsorted := hordered.cursors
        rw [hevents, List.pairwise_append] at hsorted
        rcases List.mem_append.mp he with he | he
        · exact hcursor ▸ (hsorted.2.2 e he entry (by simp)).le
        · rw [List.mem_singleton.mp he, hcursor]
      simp [forwards, hle]
    rw [hs]
    simp only [hnone]
    rfl
  · rw [hs]
    simp
  · rw [hs]
    simp

theorem place_step [LinearOrder κ] [DecidableEq ν] {count : ℕ} {cursor : κ} {w w' : World κ ν} {l : Label κ ν}
    (hlive : Live w.keys) (h : Place cursor w) (hstep : step count w l = some w') : Place cursor w' := by
  rcases step_cases hlive hstep with ⟨hstream, hgrows⟩ | ⟨delivers, pingDue, rfl⟩
  · exact place_grows h hstream hgrows
  · obtain ⟨hash, hstate, -⟩ := id hlive
    cases h with
    | begin_ h =>
      refine .resume ?_
      simp [h, Stream.advance, Stream.init, hstate]
    | resume h =>
      simp only [h, Stream.advance]
      split
      · exact .failed _ rfl
      · next start seq hsnapshot =>
        obtain ⟨⟨snapshot, n⟩, hthrough, hrest⟩ := bind_eq_ok.mp hsnapshot
        obtain ⟨data, hdata, hreturn⟩ := bind_eq_ok.mp hrest
        obtain ⟨rfl, rfl⟩ : data = start ∧ n = seq := by simpa [pure, Except.pure] using hreturn
        exact .starting _ _ rfl (opens_of_snapshotThrough hthrough hdata)
    | starting start seq h hopens =>
      simp only [h, Stream.advance]
      cases delivers with
      | false => exact .failed _ rfl
      | true =>
        obtain ⟨past, rest, hloop⟩ := loop_of_opens (s := ⟨some cursor, .reading, some cursor, seq, [⟨none, start⟩]⟩)
          hlive hopens rfl
        exact .inLoop start past rest [] rfl rfl hopens hloop
    | failed err h =>
      refine .failed err ?_
      simp [Stream.advance, h]
    | inLoop start past rest tail hpc hafter hopens hloop =>
      have hmove := move_advance count w.keys delivers pingDue hpc
      obtain ⟨hpc', hafter'⟩ := inLoop_of_move hmove hpc
      obtain ⟨past', rest', tail', hloop'⟩ := loop_move hloop hlive hmove
      exact .inLoop start past' rest' tail' hpc' (hafter'.trans hafter) hopens hloop'

/-! ## The models of two calls -/

/-- The call has come to the end of the timeline, and without an error. -/
structure ThroughEnd (w : World κ ν) : Prop where
  inLoop : w.stream.pc.inLoop = true
  noError : ∀ err, w.stream.pc ≠ .returned (some err)
  cursor : w.stream.cursor = w.keys.events.getLast?.map Entry.cursor

/-- A loop at the end of the timeline has delivered everything that it forwards; `p` picks the stored events that are
heard. -/
theorem Loop.reduce_heard [LinearOrder κ] {opening tail : List (Delivery κ ν)} {w : World κ ν}
    {past rest : List (Entry κ (Envelope ν))} (h : Loop opening w past rest tail) (hlive : Live w.keys)
    (hend : ThroughEnd w) (p : κ → Bool) (s : Option (Go.Map ν)) :
    reduceFrom s ((tail.filter fun d => d.cursor.all p).map Delivery.data) =
      reduceFrom s (((w.keys.events.filter fun entry => p entry.cursor).filter (forwards w.stream.after)).map
        Entry.event) := by
  obtain ⟨hash, -, hordered⟩ := hlive
  have hcursor : past.getLast?.map Entry.cursor = some hash.lastCursor := by
    rw [← h.cursor, hend.cursor, hordered.last]
  have hordered' := hordered
  rw [h.events] at hordered'
  have hevents : w.keys.events = past := by
    rw [h.events, rest_eq_nil hordered' hcursor, List.append_nil]
  have hstored : withCursor (tail.filter fun d => d.cursor.all p) =
      ((w.keys.events.filter fun entry => p entry.cursor).filter (forwards w.stream.after)).map Delivery.ofEntry := by
    have hcomm : withCursor (tail.filter fun d => d.cursor.all p) = (withCursor tail).filter fun d => d.cursor.all p :=
      List.filter_comm ..
    rw [hcomm, h.stored, List.filter_map, hevents, List.filter_comm]
    rfl
  rw [reduceFrom_withCursor (fun d hd => h.madeUp d (List.mem_filter.mp hd).1), hstored, List.map_map]
  rfl

theorem live_step [LinearOrder κ] [DecidableEq ν] {count : ℕ} {w w' : World κ ν} {l : Label κ ν}
    (hlive : Live w.keys) (hstep : step count w l = some w') : Live w'.keys := by
  rcases step_cases hlive hstep with ⟨-, hgrows⟩ | ⟨delivers, pingDue, rfl⟩
  · exact hgrows.live
  · exact hlive

theorem live_of_exec [LinearOrder κ] [DecidableEq ν] {count : ℕ} {w w' : World κ ν} {labels : List (Label κ ν)}
    (hlive : Live w.keys) (hexec : Machine.exec (step count) w labels = some w') : Live w'.keys :=
  Machine.exec_invariant (p := fun w => Live w.keys) (fun _ _ _ h hstep => live_step h hstep) hlive hexec

/-- A call from the beginning delivers the model of the timeline. -/
theorem modelOf_full [LinearOrder κ] [DecidableEq ν] {count : ℕ} {keys : Keys κ (Envelope ν)}
    {labels : List (Label κ ν)} {w : World κ ν} (hlive : Live keys)
    (hexec : Machine.exec (step count) ⟨keys, .init none⟩ labels = some w) (hend : ThroughEnd w) (p : κ → Bool) :
    modelOf (w.stream.delivered.filter fun d => d.cursor.all p) =
      modelFrom [] ((w.keys.events.filter fun entry => p entry.cursor).map Entry.event) := by
  have h : FromStart w :=
    Machine.exec_invariant (fun _ _ _ h hstep => fromStart_step h hstep) (fromStart_init hlive) hexec
  rcases h.place with hinit | ⟨-, past, rest, tail, hloop⟩
  · have hpc := hend.inLoop
    simp [hinit, Stream.init, Pc.inLoop] at hpc
  · rw [modelOf, modelFrom, hloop.delivered, List.nil_append, hloop.reduce_heard h.live hend, h.after,
      filter_forwards_none]
    rfl

/-- A resumed call delivers the model at its cursor and what stands behind it but the starts. -/
theorem modelOf_resumed [LinearOrder κ] [DecidableEq ν] {count : ℕ} {keys : Keys κ (Envelope ν)} {cursor : κ}
    {labels : List (Label κ ν)} {w : World κ ν} (hlive : Live keys)
    (hexec : Machine.exec (step count) ⟨keys, .init (some cursor)⟩ labels = some w) (hend : ThroughEnd w) :
    (∃ entry ∈ w.keys.events, entry.cursor = cursor) ∧
    ∃ m, reduceFrom (some []) ((entriesThrough cursor w.keys.events).map Entry.event) = some (some m) ∧
      ∀ p : κ → Bool, modelOf (w.stream.delivered.filter fun d => d.cursor.all p) = modelFrom (Go.marshalSnapshot m)
        (withoutStarts (entriesBehind cursor (w.keys.events.filter fun entry => p entry.cursor))) := by
  have hplace : Live w.keys ∧ Place cursor w :=
    Machine.exec_invariant (p := fun w => Live w.keys ∧ Place cursor w)
      (fun _ _ _ h hstep => ⟨live_step h.1 hstep, place_step h.1 h.2 hstep⟩) ⟨hlive, .begin_ rfl⟩ hexec
  obtain ⟨hlive', hplace⟩ := hplace
  have hpc := hend.inLoop
  cases hplace with
  | begin_ h => simp [h, Stream.init, Pc.inLoop] at hpc
  | resume h => simp [h, Pc.inLoop] at hpc
  | starting start seq h hopens => simp [h, Pc.inLoop] at hpc
  | failed err h => exact absurd h (hend.noError err)
  | inLoop start past rest tail _ hafter hopens hloop =>
    obtain ⟨m, hm, hstart⟩ := hopens.model
    refine ⟨hopens.stored, m, hm, fun p => ?_⟩
    have hforwards : ∀ events : List (Entry κ (Envelope ν)),
        (events.filter (forwards (some cursor))).map Entry.event = withoutStarts (entriesBehind cursor events) := by
      intro events
      rw [withoutStarts, entriesBehind, List.filter_map, List.filter_filter]
      congr 1
      refine List.filter_congr fun entry _ => ?_
      simp [forwards, Bool.and_comm, bne]
    rw [modelOf, modelFrom, modelFrom, hloop.delivered, List.filter_append, List.filter_cons_of_pos (by simp),
      List.filter_nil, List.map_append, List.map_cons, List.map_nil, List.singleton_append, reduceFrom_cons, hstart,
      Applied.state?_returned, Option.bind_some, hloop.reduce_heard hlive' hend, hafter, hforwards]

/-! ## Two readers behind the cursor -/

/-- Two snapshots with the same members, one of them with nulls in the place of some nil slices of the other. -/
def Agreeing (m r : Go.Map ν) : Prop := Go.Shuffled m r ∨ Go.Shuffled r m

theorem Agreeing.same {m r : Go.Map ν} (h : Agreeing m r) :
    DocTree.Same (.obj (Go.marshalSnapshot m)) (.obj (Go.marshalSnapshot r)) := by
  rcases h with h | h
  · exact h.same
  · exact h.same.symm

/-- An event that both readers accept keeps their snapshots agreeing. -/
theorem Agreeing.step {m r : Go.Map ν} (h : Agreeing m r) {event : Envelope ν} {s t : Option (Go.Map ν)}
    (hs : reduceFrom (some m) [event] = some s) (ht : reduceFrom (some r) [event] = some t) :
    ∃ m' r', s = some m' ∧ t = some r' ∧ Agreeing m' r' := by
  rcases h with h | h
  · obtain ⟨m', r', rfl, hr', h'⟩ := Go.tracks_applyAll Go.congruence_shuffled _ m r h s hs
    exact ⟨m', r', rfl, Option.some.inj (ht.symm.trans hr'), .inl h'⟩
  · obtain ⟨r', m', rfl, hm', h'⟩ := Go.tracks_applyAll Go.congruence_shuffled _ r m h t ht
    exact ⟨m', r', Option.some.inj (hs.symm.trans hm'), rfl, .inr h'⟩

/-- An accepted start leaves its model. -/
theorem reduceFrom_start {s t : Option (Go.Map ν)} {event : Envelope ν} (hop : event.op = .start)
    (h : reduceFrom s [event] = some t) :
    ∃ document, event.model = some document ∧ t = some (Go.ofJsonObject document) := by
  rw [reduceFrom_cons] at h
  obtain ⟨u, hu, hrest⟩ := Option.bind_eq_some_iff.mp h
  obtain rfl : u = t := Option.some.inj hrest
  unfold Go.apply at hu
  cases hvalid : (Go.decoded event).validate with
  | error f => simp [hvalid] at hu
  | ok _ =>
    obtain ⟨document, hdocument⟩ := Go.exists_model_of_validate (congrArg Go.Op.known hop) hvalid
    have hmodel : event.model = some document := hdocument
    have happly : Go.applyEvent s (Go.decoded event) = .returned (some (Go.ofJsonObject document)) := by
      simp [Go.applyEvent, Go.decoded, hop, hmodel, Go.cloneMap]
    simp only [hvalid, happly, Applied.state?_returned, Option.some.injEq] at hu
    exact ⟨document, hmodel, hu.symm⟩

theorem withoutStarts_concat (events : List (Entry κ (Envelope ν))) (entry : Entry κ (Envelope ν)) :
    withoutStarts (events ++ [entry]) =
      withoutStarts events ++ if entry.event.op = .start then [] else [entry.event] := by
  unfold withoutStarts
  rw [List.map_append, List.filter_append]
  by_cases h : entry.event.op = .start <;> simp [h]

/-- A part of an accepted list is accepted. -/
theorem reduceFrom_append_ne_none {s : Option (Go.Map ν)} {events rest : List (Envelope ν)}
    (h : reduceFrom s (events ++ rest) ≠ none) : reduceFrom s events ≠ none := by
  intro hnone
  exact h (by rw [reduceFrom_append, hnone, Option.bind_none])

/-- Behind the cursor, a reader that hears the starts and one that does not stay together while each start repeats the
model of the first. -/
theorem agreeing_behind {m : Go.Map ν} {events : List (Entry κ (Envelope ν))}
    (haccepted : reduceFrom (some m) (events.map Entry.event) ≠ none)
    (hwithout : reduceFrom (some (Go.ofJsonObject (Go.marshalSnapshot m))) (withoutStarts events) ≠ none)
    (hstarts : ∀ before entry behind, events = before ++ entry :: behind → entry.event.op = .start →
      SameModel (modelFrom (Go.marshalSnapshot m) (before.map Entry.event)) (some entry.event.model)) :
    ∃ m' r', reduceFrom (some m) (events.map Entry.event) = some (some m') ∧
      reduceFrom (some (Go.ofJsonObject (Go.marshalSnapshot m))) (withoutStarts events) = some (some r') ∧
        Agreeing m' r' := by
  induction events using List.reverseRecOn with
  | nil => exact ⟨m, _, rfl, rfl, .inl (Go.shuffled_of_same (DocTree.Same.refl _))⟩
  | append_singleton events entry ih =>
    rw [List.map_append] at haccepted
    rw [withoutStarts_concat] at hwithout
    obtain ⟨f, r, hf, hr, hagreeing⟩ := ih (reduceFrom_append_ne_none haccepted) (reduceFrom_append_ne_none hwithout)
      fun before item behind heq => hstarts before item (behind ++ [entry]) (by simp [heq])
    rw [reduceFrom_append, hf, Option.bind_some] at haccepted
    obtain ⟨s, hs⟩ := Option.ne_none_iff_exists'.mp haccepted
    rw [List.map_append, reduceFrom_append, hf, Option.bind_some, hs, withoutStarts_concat, reduceFrom_append, hr,
      Option.bind_some]
    rw [reduceFrom_append, hr, Option.bind_some] at hwithout
    by_cases hop : entry.event.op = .start
    · -- the start that only one of them hears
      obtain ⟨document, hdocument, rfl⟩ := reduceFrom_start hop hs
      obtain ⟨d, d', hd, hd', hsame⟩ := hstarts events entry [] rfl hop
      rw [modelFrom_marshalSnapshot hf] at hd
      obtain rfl : Go.marshalSnapshot f = d := by simpa using hd
      obtain rfl : document = d' := by simpa [hdocument] using hd'
      refine ⟨_, r, rfl, by rw [if_pos hop]; rfl, .inr (Go.shuffled_of_same (hagreeing.same.symm.trans hsame))⟩
    · rw [if_neg hop] at hwithout ⊢
      obtain ⟨t, ht⟩ := Option.ne_none_iff_exists'.mp hwithout
      obtain ⟨m', r', rfl, rfl, h⟩ := hagreeing.step hs ht
      exact ⟨m', r', rfl, ht, h⟩

/-- The same said of the two models after each part of the events. -/
theorem sameModel_behind_iff {m : Go.Map ν} {events : List (Entry κ (Envelope ν))}
    (haccepted : reduceFrom (some m) (events.map Entry.event) ≠ none) :
    (∀ past, past <+: events → SameModel (modelFrom (Go.marshalSnapshot m) (withoutStarts past))
        (modelFrom (Go.marshalSnapshot m) (past.map Entry.event))) ↔
      (∀ before entry behind, events = before ++ entry :: behind → entry.event.op = .start →
        SameModel (modelFrom (Go.marshalSnapshot m) (before.map Entry.event)) (some entry.event.model)) ∧
      modelFrom (Go.marshalSnapshot m) (withoutStarts events) ≠ none := by
  have hpart : ∀ past behind, events = past ++ behind → reduceFrom (some m) (past.map Entry.event) ≠ none := by
    rintro past behind rfl
    rw [List.map_append] at haccepted
    exact reduceFrom_append_ne_none haccepted
  constructor
  · intro h
    refine ⟨?_, ?_⟩
    · rintro before entry behind rfl hop
      have hbefore := h before (List.prefix_append _ _)
      have hthrough := h (before ++ [entry]) ⟨behind, by simp⟩
      rw [withoutStarts_concat, if_pos hop, List.append_nil] at hthrough
      -- the reader of all events has the model of the start now
      obtain ⟨t, ht⟩ := Option.ne_none_iff_exists'.mp (hpart (before ++ [entry]) behind (by simp))
      obtain ⟨s, hs⟩ := Option.ne_none_iff_exists'.mp (hpart before (entry :: behind) rfl)
      have hlast : reduceFrom s [entry.event] = some t := by
        rw [List.map_append, reduceFrom_append, hs, Option.bind_some] at ht
        exact ht
      obtain ⟨document, hdocument, rfl⟩ := reduceFrom_start hop hlast
      rw [modelFrom_marshalSnapshot ht, Go.marshalSnapshot_ofJsonObject, ← hdocument] at hthrough
      exact hbefore.symm.trans hthrough
    · obtain ⟨s, -, hs, -, -⟩ := h events (List.prefix_refl _)
      rw [hs]
      simp
  · rintro ⟨hstarts, hwithout⟩ past ⟨behind, rfl⟩
    have hwithout' : reduceFrom (some (Go.ofJsonObject (Go.marshalSnapshot m))) (withoutStarts past) ≠ none := by
      intro hnone
      refine hwithout ?_
      rw [modelFrom, withoutStarts, List.map_append, List.filter_append]
      change Option.map _ (reduceFrom _ (withoutStarts past ++ _)) = none
      rw [reduceFrom_append, hnone]
      rfl
    obtain ⟨m', r', hm', hr', hagreeing⟩ := agreeing_behind (hpart past behind rfl) hwithout'
      fun before entry rest heq => hstarts before entry (rest ++ behind) (by simp [heq])
    refine ⟨_, _, ?_, modelFrom_marshalSnapshot hm', hagreeing.same.symm⟩
    rw [modelFrom, hr']
    rfl

/-- The events through a stored cursor and those behind it. -/
theorem entriesThrough_append_entriesBehind [LinearOrder κ] {events : List (Entry κ (Envelope ν))}
    (hsorted : events.Pairwise fun a b => a.cursor < b.cursor) (cursor : κ) :
    entriesThrough cursor events ++ entriesBehind cursor events = events :=
  Cursors.filter_through_append_filter_behind hsorted cursor

/-- What stands behind the cursor of an accepted timeline is accepted on the snapshot at the cursor. -/
theorem reduceFrom_entriesBehind [LinearOrder κ] {events : List (Entry κ (Envelope ν))} {cursor : κ} {m : Go.Map ν}
    (hsorted : events.Pairwise fun a b => a.cursor < b.cursor)
    (hm : reduceFrom (some []) ((entriesThrough cursor events).map Entry.event) = some (some m))
    (haccepted : reduceFrom (some []) (events.map Entry.event) ≠ none) :
    reduceFrom (some m) ((entriesBehind cursor events).map Entry.event) ≠ none := by
  rwa [← entriesThrough_append_entriesBehind hsorted cursor, List.map_append, reduceFrom_append, hm,
    Option.bind_some] at haccepted

/-- From the model at the cursor on: what the events through a later one lead to. -/
theorem modelFrom_through [LinearOrder κ] {events past : List (Entry κ (Envelope ν))} {cursor : κ} {m : Go.Map ν}
    (hm : reduceFrom (some []) ((entriesThrough cursor events).map Entry.event) = some (some m))
    (haccepted : reduceFrom (some m) (past.map Entry.event) ≠ none) :
    modelFrom [] ((entriesThrough cursor events ++ past).map Entry.event) =
      modelFrom (Go.marshalSnapshot m) (past.map Entry.event) := by
  obtain ⟨s, hs⟩ := Option.ne_none_iff_exists'.mp haccepted
  obtain ⟨n, rfl⟩ := exists_of_reduceFrom hs
  have hall : reduceFrom (some []) ((entriesThrough cursor events ++ past).map Entry.event) = some (some n) := by
    rw [List.map_append, reduceFrom_append, hm]
    exact hs
  rw [modelFrom_marshalSnapshot hs, modelFrom]
  exact congrArg (Option.map (Option.map Go.marshalSnapshot)) hall

/-- The starts behind the cursor repeat what is there, said of the events behind the cursor alone. -/
theorem startsRepeat_iff [LinearOrder κ] {events : List (Entry κ (Envelope ν))} {cursor : κ} {m : Go.Map ν}
    (hsorted : events.Pairwise fun a b => a.cursor < b.cursor)
    (hm : reduceFrom (some []) ((entriesThrough cursor events).map Entry.event) = some (some m))
    (haccepted : reduceFrom (some m) ((entriesBehind cursor events).map Entry.event) ≠ none) :
    StartsRepeat cursor events ↔
      (∀ before entry behind, entriesBehind cursor events = before ++ entry :: behind → entry.event.op = .start →
        SameModel (modelFrom (Go.marshalSnapshot m) (before.map Entry.event)) (some entry.event.model)) ∧
      modelFrom (Go.marshalSnapshot m) (withoutStarts (entriesBehind cursor events)) ≠ none := by
  have hsplit := entriesThrough_append_entriesBehind hsorted cursor
  have hmodel : modelFrom [] ((entriesThrough cursor events).map Entry.event) = some (some (Go.marshalSnapshot m)) :=
    congrArg (Option.map (Option.map Go.marshalSnapshot)) hm
  have hbefore : ∀ before entry behind, entriesBehind cursor events = before ++ entry :: behind →
      modelFrom [] ((entriesThrough cursor events ++ before).map Entry.event) =
        modelFrom (Go.marshalSnapshot m) (before.map Entry.event) := by
    intro before entry behind heq
    rw [heq, List.map_append] at haccepted
    exact modelFrom_through hm (reduceFrom_append_ne_none haccepted)
  constructor
  · rintro ⟨hstarts, hwithout⟩
    refine ⟨fun before entry behind heq hop => ?_, hwithout _ hmodel⟩
    have hmem : entry ∈ entriesBehind cursor events := by simp [heq]
    rw [← hbefore before entry behind heq]
    exact hstarts _ entry behind (by rw [List.append_assoc, ← heq, hsplit]) (by simpa using (List.mem_filter.mp hmem).2)
      hop
  · rintro ⟨hstarts, hwithout⟩
    refine ⟨fun before entry behind heq hlt hop => ?_, fun document hdocument => ?_⟩
    · -- what stands before the start goes through the cursor
      obtain ⟨past, rfl, hbehind⟩ : ∃ past, before = entriesThrough cursor events ++ past ∧
          entriesBehind cursor events = past ++ entry :: behind := by
        rcases List.append_eq_append_iff.mp (hsplit.trans heq) with ⟨past, hpast, hbehind⟩ | ⟨past, hthrough, hrest⟩
        · exact ⟨past, hpast, hbehind⟩
        · cases past with
          | nil => exact ⟨[], by simpa using hthrough.symm, hrest.symm⟩
          | cons item past =>
            obtain ⟨rfl, -⟩ := List.cons.inj hrest
            have hle : entry ∈ entriesThrough cursor events := by simp [hthrough]
            exact absurd hlt (not_lt.mpr (by simpa using (List.mem_filter.mp hle).2))
      rw [hbefore past entry behind hbehind]
      exact hstarts past entry behind hbehind hop
    · obtain rfl : Go.marshalSnapshot m = document := by simpa [hmodel] using hdocument
      exact hwithout

/-- Where no start stands behind the cursor there is nothing to repeat. -/
theorem startsRepeat_of_noStart [LinearOrder κ] {cursor : κ} {events : List (Entry κ (Envelope ν))}
    (hsorted : events.Pairwise fun a b => a.cursor < b.cursor)
    (haccepted : reduceFrom (some []) (events.map Entry.event) ≠ none)
    (h : ∀ entry ∈ events, cursor < entry.cursor → entry.event.op ≠ .start) : StartsRepeat cursor events := by
  refine ⟨fun before entry behind heq hlt hop => absurd hop (h entry (by simp [heq]) hlt), fun document hdocument => ?_⟩
  have hnone : withoutStarts (entriesBehind cursor events) = (entriesBehind cursor events).map Entry.event := by
    refine List.filter_eq_self.mpr fun event hevent => ?_
    obtain ⟨entry, hentry, rfl⟩ := List.mem_map.mp hevent
    obtain ⟨hmem, hlt⟩ := List.mem_filter.mp hentry
    simpa using h entry hmem (by simpa using hlt)
  obtain ⟨t, ht, hmodel⟩ := Option.map_eq_some_iff.mp hdocument
  obtain ⟨m, rfl⟩ := exists_of_reduceFrom ht
  obtain rfl : Go.marshalSnapshot m = document := by simpa using hmodel
  obtain ⟨s, hs⟩ := Option.ne_none_iff_exists'.mp (reduceFrom_entriesBehind hsorted ht haccepted)
  obtain ⟨n, rfl⟩ := exists_of_reduceFrom hs
  rw [hnone, modelFrom_marshalSnapshot hs]
  simp

/-- A text block, the start of another chat and the end of the task. -/
def chatText : Envelope ℕ :=
  ⟨.set, 2, none, none, none, none, none, none, some [("id", .str "b"), ("type", .str "text"), ("text", .str "hi")]⟩

def chatRestart : Envelope ℕ :=
  ⟨.start, 2, none, none, none, none,
    some [("version", .str "1.1"), ("biz", .str "other"), ("meta", .obj []), ("blocks", .arr [])], none, none⟩

def chatLast : Envelope ℕ := { chatEnd with seq := 3 }

/-- The timeline of a chat with one more event between its start and its end. -/
def chatWith (event : Envelope ℕ) : Keys ℕ (Envelope ℕ) :=
  ((Call.publish chatLast 3).run 12 ((Call.publish event 2).run 11 chatKeys).2).2

/-- The call from the beginning and the one resumed after the start of the chat. -/
def fullChat (event : Envelope ℕ) : Option (World ℕ ℕ) :=
  Machine.exec (step 10) ⟨chatWith event, .init none⟩ (List.replicate 5 (.stream true false))

def resumedChat (event : Envelope ℕ) : Option (World ℕ ℕ) :=
  Machine.exec (step 10) ⟨chatWith event, .init (some 10)⟩ (List.replicate 6 (.stream true false))

/-- The call has returned at the end of the timeline. -/
def World.finished (w : World ℕ ℕ) : Bool :=
  w.stream.pc == .returned none && w.stream.cursor == w.keys.events.getLast?.map Entry.cursor

theorem throughEnd_of_finished {w : World ℕ ℕ} (h : w.finished = true) : ThroughEnd w := by
  obtain ⟨hpc, hcursor⟩ := Bool.and_eq_true_iff.mp h
  rw [beq_iff_eq] at hpc hcursor
  exact ⟨by rw [hpc]; rfl, by simp [hpc], hcursor⟩

end AgentUE.GoRunner
