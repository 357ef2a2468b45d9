import AgentUE.GoRunner.Resume

/-!
# Go runner: a client that reconnects

Reference: `sdks/go/runner/replay.go`. A client reads the deliveries of a call of `Stream`, loses the connection at any
moment, with deliveries on their way, and calls again with the last cursor that it has received. The publishers go on
meanwhile. On a timeline with one start the client has at every moment received each event through its cursor exactly
once, and its model is the one that these events lead to.
-/

namespace AgentUE.GoRunner

open Data

variable {κ ν : Type}

/-- The task with the call that serves a client, the deliveries that the client has received from earlier calls and how
many it has received from this one. -/
structure Reader (κ ν : Type) where
  world : World κ ν
  kept : List (Delivery κ ν)
  read : ℕ

/-- What the client has received. -/
def Reader.received (r : Reader κ ν) : List (Delivery κ ν) := r.kept ++ r.world.stream.delivered.take r.read

/-- The last cursor among deliveries. -/
def lastCursor (deliveries : List (Delivery κ ν)) : Option κ := (deliveries.filterMap Delivery.cursor).getLast?

/-- A client that calls for the first time. -/
def Reader.init (keys : Keys κ (Envelope ν)) : Reader κ ν := ⟨⟨keys, .init none⟩, [], 0⟩

/-- A step of the task or of the call, of the client that receives the next delivery, or a new call. -/
inductive ReaderLabel (κ ν : Type) where
  | world (l : Label κ ν)
  | receive
  | reconnect

/-- One step; what has not been received before a new call is lost. -/
def readerStep [LinearOrder κ] [DecidableEq ν] (count : ℕ) (r : Reader κ ν) : ReaderLabel κ ν → Option (Reader κ ν)
  | .world l => (step count r.world l).map fun w => { r with world := w }
  | .receive => if r.read < r.world.stream.delivered.length then some { r with read := r.read + 1 } else none
  | .reconnect =>
    some { world := { r.world with stream := .init (lastCursor r.received) }, kept := r.received, read := 0 }

/-- Events that the reducer accepts in order, with no start behind the first one. -/
structure SingleStart (events : List (Entry κ (Envelope ν))) : Prop where
  noRestart : ∀ entry ∈ events.tail, entry.event.op ≠ .start
  accepted : reduceFrom (some []) (events.map Entry.event) ≠ none

/-- The timeline stays one with a single start. -/
def KeepsSingleStart [LinearOrder κ] [DecidableEq ν] (count : ℕ) (r : Reader κ ν) (l : ReaderLabel κ ν) : Prop :=
  ∀ r', readerStep count r l = some r' → SingleStart r'.world.keys.events

instance (events : List (Entry κ (Envelope ν))) : Decidable (SingleStart events) :=
  decidable_of_iff ((∀ entry ∈ events.tail, entry.event.op ≠ .start) ∧
    (reduceFrom (some []) (events.map Entry.event)).isSome = true)
    ⟨fun h => ⟨h.1, Option.isSome_iff_ne_none.mp h.2⟩, fun h => ⟨h.noRestart, Option.isSome_iff_ne_none.mpr h.accepted⟩⟩

instance [LinearOrder κ] [DecidableEq ν] (count : ℕ) (r : Reader κ ν) (l : ReaderLabel κ ν) :
    Decidable (KeepsSingleStart count r l) :=
  decidable_of_iff (∀ r' ∈ readerStep count r l, SingleStart r'.world.keys.events) Iff.rfl

/-! ## Following the timeline -/

/-- Deliveries that follow the timeline through `past`: these events, each once, and a model like theirs. -/
structure FollowsThrough (past : List (Entry κ (Envelope ν))) (deliveries : List (Delivery κ ν)) : Prop where
  exactly : withCursor deliveries = past.map Delivery.ofEntry
  model : ∃ s m, reduceFrom (some []) (deliveries.map Delivery.data) = some (some s) ∧
    reduceFrom (some []) (past.map Entry.event) = some (some m) ∧ Go.Alike m s

theorem followsThrough_nil : FollowsThrough ([] : List (Entry κ (Envelope ν))) [] :=
  ⟨rfl, [], [], rfl, rfl, Go.Alike.refl _⟩

theorem filterMap_withCursor (deliveries : List (Delivery κ ν)) :
    (withCursor deliveries).filterMap Delivery.cursor = deliveries.filterMap Delivery.cursor := by
  induction deliveries with
  | nil => rfl
  | cons d ds ih =>
    cases hcursor : d.cursor with
    | none => simpa [withCursor, hcursor] using ih
    | some c => simpa [withCursor, hcursor] using ih

/-- The last cursor is that of the last event. -/
theorem FollowsThrough.lastCursor_eq {past : List (Entry κ (Envelope ν))} {deliveries : List (Delivery κ ν)}
    (h : FollowsThrough past deliveries) : lastCursor deliveries = past.getLast?.map Entry.cursor := by
  have hpast : (past.map Delivery.ofEntry).filterMap Delivery.cursor = past.map Entry.cursor := by
    rw [List.filterMap_map, ← List.filterMap_eq_map]
    rfl
  rw [lastCursor, ← filterMap_withCursor, h.exactly, hpast, List.getLast?_map]

/-- The client's model is the one of the events. -/
theorem FollowsThrough.modelOf_eq {past : List (Entry κ (Envelope ν))} {deliveries : List (Delivery κ ν)}
    (h : FollowsThrough past deliveries) : modelOf deliveries = modelFrom [] (past.map Entry.event) := by
  obtain ⟨s, m, hs, hm, halike⟩ := h.model
  have hmodel : modelOf deliveries = some (some (Go.marshalSnapshot s)) := congrArg (Option.map _) hs
  have hpast : modelFrom [] (past.map Entry.event) = some (some (Go.marshalSnapshot m)) := congrArg (Option.map _) hm
  rw [hmodel, hpast, halike.marshalSnapshot_eq]

/-- A delivery that the call has made up. -/
theorem FollowsThrough.madeUp {past : List (Entry κ (Envelope ν))} {deliveries : List (Delivery κ ν)}
    (h : FollowsThrough past deliveries) {data : Envelope ν} (hdata : MadeUp data) :
    FollowsThrough past (deliveries ++ [⟨none, data⟩]) := by
  obtain ⟨s, m, hs, hm, halike⟩ := h.model
  refine ⟨?_, s, m, ?_, hm, halike⟩
  · rw [withCursor_append, h.exactly]
    simp [withCursor]
  · rw [List.map_append, reduceFrom_append, hs, Option.bind_some, List.map_singleton, reduceFrom_cons,
      apply_madeUp _ hdata]
    rfl

/-- The start of a resumed call, built from the events through the cursor. -/
theorem FollowsThrough.opens [LinearOrder κ] {past : List (Entry κ (Envelope ν))} {deliveries : List (Delivery κ ν)}
    (h : FollowsThrough past deliveries) {cursor : κ} {events : List (Entry κ (Envelope ν))} {start : Envelope ν}
    (hopens : Opens cursor events start) (hpast : events.filter (fun entry => decide (entry.cursor ≤ cursor)) = past) :
    FollowsThrough past (deliveries ++ [⟨none, start⟩]) := by
  obtain ⟨s, m, hs, hm, -⟩ := h.model
  obtain ⟨m', hm', hstart⟩ := hopens.model
  rw [entriesThrough, hpast] at hm'
  obtain rfl : m = m' := by simpa using hm.symm.trans hm'
  refine ⟨?_, _, m, ?_, hm, Go.alike_ofJsonObject_marshalSnapshot m⟩
  · rw [withCursor_append, h.exactly]
    simp [withCursor]
  · rw [List.map_append, reduceFrom_append, hs, Option.bind_some, List.map_singleton, reduceFrom_cons, hstart]
    rfl

/-- The next event. -/
theorem FollowsThrough.forward {past : List (Entry κ (Envelope ν))} {deliveries : List (Delivery κ ν)}
    (h : FollowsThrough past deliveries) {entry : Entry κ (Envelope ν)}
    (haccepted : reduceFrom (some []) ((past ++ [entry]).map Entry.event) ≠ none) :
    FollowsThrough (past ++ [entry]) (deliveries ++ [Delivery.ofEntry entry]) := by
  obtain ⟨s, m, hs, hm, halike⟩ := h.model
  obtain ⟨t, ht⟩ := Option.ne_none_iff_exists'.mp haccepted
  have happly : reduceFrom (some m) [entry.event] = some t := by
    rw [List.map_append, reduceFrom_append, hm] at ht
    exact ht
  obtain ⟨n, n', rfl, hn', halike'⟩ := Go.tracks_applyAll Go.congruence_alike _ m s halike t happly
  refine ⟨?_, n', n, ?_, ht, halike'⟩
  · rw [withCursor_append, h.exactly, List.map_append]
    rfl
  · rw [List.map_append, reduceFrom_append, hs]
    exact hn'

/-- What a first part of an accepted timeline leads to is accepted. -/
theorem SingleStart.prefix_accepted {events before behind : List (Entry κ (Envelope ν))} (h : SingleStart events)
    (hevents : events = before ++ behind) : reduceFrom (some []) (before.map Entry.event) ≠ none := by
  intro hnone
  refine h.accepted ?_
  rw [hevents, List.map_append, reduceFrom_append, hnone]
  rfl

/-! ## The invariant -/

/-- Where the call stands, when everything that it has delivered has been received: the deliveries follow the timeline
through `past`, and `rest` is ahead. -/
structure Serving [LinearOrder κ] (r : Reader κ ν) (past rest : List (Entry κ (Envelope ν))) : Prop where
  events : r.world.keys.events = past ++ rest
  follows : FollowsThrough past (r.kept ++ r.world.stream.delivered)
  cursor : r.world.stream.cursor = past.getLast?.map Entry.cursor
  after : r.world.stream.after.isSome = true → past ≠ []
  opening : r.world.stream.pc.inLoop = false →
    r.world.stream.after = r.world.stream.cursor ∧ r.world.stream.delivered = []
  resumes : ∀ c, r.world.stream.pc = .resume c → r.world.stream.after = some c
  opens : ∀ start seq, r.world.stream.pc = .starting start seq →
    ∃ c, r.world.stream.after = some c ∧ Opens c r.world.keys.events start
  batch : ∀ batch, r.world.stream.pc = .delivering batch → batch <+: rest
  ending : ∀ seq, r.world.stream.pc = .ending seq → Terminal r.world.keys ∧ rest = []
  ended : r.world.stream.pc = .returned none → ∃ before d, r.world.stream.delivered = before ++ [d] ∧
    d.data.op = .end_ ∧ (d.cursor = none → Terminal r.world.keys ∧ rest = [])

/-- The deliveries follow the timeline, however many of them have been received. -/
structure Sound [LinearOrder κ] (r : Reader κ ν) : Prop where
  live : Live r.world.keys
  single : SingleStart r.world.keys.events
  enough : r.read ≤ r.world.stream.delivered.length
  prefixes : ∀ n ≤ r.world.stream.delivered.length, ∃ past, past <+: r.world.keys.events ∧
    FollowsThrough past (r.kept ++ r.world.stream.delivered.take n)
  serving : ∃ past rest, Serving r past rest

/-- One more delivery, or none. -/
theorem prefixes_append [LinearOrder κ] {r : Reader κ ν} (h : Sound r) {keys : Keys κ (Envelope ν)}
    (hkeys : r.world.keys.events <+: keys.events) {more : List (Delivery κ ν)} (hmore : more.length ≤ 1)
    {past : List (Entry κ (Envelope ν))} (hpast : past <+: keys.events)
    (hfollows : FollowsThrough past (r.kept ++ (r.world.stream.delivered ++ more))) :
    ∀ n ≤ (r.world.stream.delivered ++ more).length, ∃ past, past <+: keys.events ∧
      FollowsThrough past (r.kept ++ (r.world.stream.delivered ++ more).take n) := by
  intro n hn
  rcases Nat.lt_or_ge r.world.stream.delivered.length n with hlt | hge
  · refine ⟨past, hpast, ?_⟩
    rw [List.take_of_length_le]
    · exact hfollows
    · rw [List.length_append] at hn ⊢
      omega
  · obtain ⟨earlier, hearlier, hfollows'⟩ := h.prefixes n hge
    rw [List.take_append_of_le_length hge]
    exact ⟨earlier, hearlier.trans hkeys, hfollows'⟩

/-- The others lengthen what is ahead. -/
theorem serving_grows [LinearOrder κ] {r : Reader κ ν} {w : World κ ν} {past rest : List (Entry κ (Envelope ν))}
    (h : Serving r past rest) (hstream : w.stream = r.world.stream) (hgrows : Grows r.world.keys w.keys) :
    ∃ more, Serving { r with world := w } past (rest ++ more) := by
  obtain ⟨more, hmore⟩ := hgrows.events
  have hstays : Terminal r.world.keys ∧ rest = [] → Terminal w.keys ∧ rest ++ more = [] := by
    rintro ⟨hterminal, hrest⟩
    obtain ⟨hterminal', hevents⟩ := hgrows.terminal hterminal
    have hnil : more = [] := by
      rw [hevents] at hmore
      simpa using hmore
    exact ⟨hterminal', by rw [hrest, hnil]; rfl⟩
  refine ⟨more, ?_, ?_, ?_, ?_, ?_, ?_, ?_, ?_, ?_, ?_⟩
  · rw [← hmore, h.events, List.append_assoc]
  · rw [hstream]
    exact h.follows
  · rw [hstream, h.cursor]
  · rw [hstream]
    exact h.after
  · rw [hstream]
    exact h.opening
  · rw [hstream]
    exact h.resumes
  · intro start seq hpc
    rw [hstream] at hpc ⊢
    obtain ⟨c, hafter, hopens⟩ := h.opens start seq hpc
    obtain ⟨hash, -, hordered⟩ := hgrows.live
    have hsorted := hordered.cursors
    rw [← hmore] at hsorted ⊢
    exact ⟨c, hafter, hopens.append hsorted⟩
  · intro batch hbatch
    rw [hstream] at hbatch
    exact (h.batch batch hbatch).trans (List.prefix_append _ _)
  · intro seq hpc
    rw [hstream] at hpc
    exact hstays (h.ending seq hpc)
  · intro hpc
    rw [hstream] at hpc ⊢
    obtain ⟨before, d, hdelivered, hop, hlast⟩ := h.ended hpc
    exact ⟨before, d, hdelivered, hop, fun hnone => hstays (hlast hnone)⟩

/-- A call that stands behind `past` with more deliveries. -/
theorem Serving.next [LinearOrder κ] {r : Reader κ ν} {past' rest' : List (Entry κ (Envelope ν))} {s : Stream κ ν}
    (hevents : r.world.keys.events = past' ++ rest') (hfollows : FollowsThrough past' (r.kept ++ s.delivered))
    (hcursor : s.cursor = past'.getLast?.map Entry.cursor) (hafter : s.after.isSome = true → past' ≠ [])
    (hloop : s.pc.inLoop = true) (hbatch : ∀ batch, s.pc = .delivering batch → batch <+: rest')
    (hending : ∀ seq, s.pc = .ending seq → Terminal r.world.keys ∧ rest' = [])
    (hended : s.pc = .returned none → ∃ before d, s.delivered = before ++ [d] ∧ d.data.op = .end_ ∧
      (d.cursor = none → Terminal r.world.keys ∧ rest' = [])) :
    Serving { r with world := { r.world with stream := s } } past' rest' where
  events := hevents
  follows := hfollows
  cursor := hcursor
  after := hafter
  opening hpc := by simp [hloop] at hpc
  resumes c hpc := by simp [show s.pc = .resume c from hpc, Pc.inLoop] at hloop
  opens start seq hpc := by simp [show s.pc = .starting start seq from hpc, Pc.inLoop] at hloop
  batch := hbatch
  ending := hending
  ended := hended

/-- The places of the loop where no event is in hand, and a return with an error. -/
def Pc.emptyHanded : Pc κ ν → Bool
  | .reading | .checking | .pinging | .returned (some _) => true
  | _ => false

/-- The same where no event is in hand. -/
theorem Serving.emptyHanded [LinearOrder κ] {r : Reader κ ν} {past rest : List (Entry κ (Envelope ν))} {s : Stream κ ν}
    (hevents : r.world.keys.events = past ++ rest) (hfollows : FollowsThrough past (r.kept ++ s.delivered))
    (hcursor : s.cursor = past.getLast?.map Entry.cursor) (hafter : s.after.isSome = true → past ≠ [])
    (hpc : s.pc.emptyHanded = true) : Serving { r with world := { r.world with stream := s } } past rest := by
  have hloop : s.pc.inLoop = true := by
    cases h : s.pc <;> simp [h, Pc.emptyHanded] at hpc <;> rfl
  refine .next hevents hfollows hcursor hafter hloop (fun batch h => ?_) (fun seq h => ?_) fun h => ?_ <;>
    simp [h, Pc.emptyHanded] at hpc

/-- A call that has not reached its loop. -/
theorem Serving.before [LinearOrder κ] {r : Reader κ ν} {past rest : List (Entry κ (Envelope ν))} {s : Stream κ ν}
    (hevents : r.world.keys.events = past ++ rest) (hfollows : FollowsThrough past r.kept)
    (hcursor : s.cursor = past.getLast?.map Entry.cursor) (hafter : s.after = s.cursor) (hdelivered : s.delivered = [])
    (hloop : s.pc.inLoop = false) (hresumes : ∀ c, s.pc = .resume c → s.after = some c)
    (hopens : ∀ start seq, s.pc = .starting start seq →
      ∃ c, s.after = some c ∧ Opens c r.world.keys.events start) :
    Serving { r with world := { r.world with stream := s } } past rest where
  events := hevents
  follows := by
    dsimp only
    rw [hdelivered, List.append_nil]
    exact hfollows
  cursor := hcursor
  after hsome hnil := by
    dsimp only at hsome
    rw [hafter, hcursor, hnil] at hsome
    simp at hsome
  opening _ := ⟨hafter, hdelivered⟩
  resumes := hresumes
  opens := hopens
  batch batch hpc := by simp [show s.pc = .delivering batch from hpc, Pc.inLoop] at hloop
  ending seq hpc := by simp [show s.pc = .ending seq from hpc, Pc.inLoop] at hloop
  ended hpc := by simp [show s.pc = .returned none from hpc, Pc.inLoop] at hloop

/-- A client that has not called. -/
theorem sound_init [LinearOrder κ] {keys : Keys κ (Envelope ν)} (hlive : Live keys) (hsingle : SingleStart keys.events) :
    Sound (.init keys) where
  live := hlive
  single := hsingle
  enough := Nat.zero_le _
  prefixes n _ := ⟨[], List.nil_prefix, by simpa [Reader.init, Stream.init] using followsThrough_nil⟩
  serving := ⟨[], keys.events, .before (r := .init keys) rfl followsThrough_nil rfl rfl rfl rfl
    (fun _ hpc => by cases hpc) (fun _ _ hpc => by cases hpc)⟩

/-- A step in the loop that delivers one event, something made up, or nothing. -/
theorem serving_move [LinearOrder κ] {count : ℕ} {r : Reader κ ν} (hsound : Sound r)
    {past rest : List (Entry κ (Envelope ν))} (h : Serving r past rest)
    {s : Stream κ ν} (hmove : Move count r.world.keys r.world.stream s) :
    ∃ more past' rest', more.length ≤ 1 ∧ s.delivered = r.world.stream.delivered ++ more ∧
      Serving { r with world := { r.world with stream := s } } past' rest' := by
  have hfollows : FollowsThrough past (r.kept ++ (r.world.stream.delivered ++ [])) := by
    rw [List.append_nil]
    exact h.follows
  have hmadeUp : ∀ {data}, MadeUp data →
      FollowsThrough past (r.kept ++ (r.world.stream.delivered ++ [⟨none, data⟩])) := by
    intro data hdata
    rw [← List.append_assoc]
    exact h.follows.madeUp hdata
  cases hmove with
  | fail err hnot =>
    exact ⟨[], past, rest, Nat.zero_le _, by simp, .emptyHanded h.events h.follows h.cursor h.after rfl⟩
  | stay err hreturned => exact ⟨[], past, rest, Nat.zero_le _, by simp, h⟩
  | read hreading =>
    refine ⟨[], past, rest, Nat.zero_le _, by simp,
      .next h.events h.follows h.cursor h.after rfl ?_ (fun _ hpc => by cases hpc) fun hpc => by cases hpc⟩
    obtain ⟨hash, -, hordered⟩ := hsound.live
    rintro batch ⟨rfl⟩
    rw [read_eq_take h.events h.cursor hordered.cursors]
    exact List.take_prefix _ _
  | batchDone hdone =>
    exact ⟨[], past, rest, Nat.zero_le _, by simp, .emptyHanded h.events h.follows h.cursor h.after rfl⟩
  | skip entry batch hbatch hafter hop =>
    -- no start stands behind the first event
    obtain ⟨ahead, rfl⟩ := h.batch _ hbatch
    obtain ⟨first, earlier, rfl⟩ := List.exists_cons_of_ne_nil (h.after hafter)
    refine absurd hop (hsound.single.noRestart entry ?_)
    rw [h.events]
    simp
  | forward entry batch hbatch hnot =>
    obtain ⟨ahead, rfl⟩ := h.batch _ hbatch
    have hevents : r.world.keys.events = (past ++ [entry]) ++ (batch ++ ahead) := by
      rw [h.events, List.append_assoc]
      rfl
    refine ⟨[Delivery.ofEntry entry], past ++ [entry], batch ++ ahead, le_rfl, rfl,
      .next hevents ?_ (by simp) (by simp) ?_ ?_ ?_ ?_⟩
    · rw [← List.append_assoc]
      exact h.follows.forward (hsound.single.prefix_accepted hevents)
    · dsimp only
      split_ifs <;> rfl
    · intro batch' hbatch'
      dsimp only at hbatch'
      split_ifs at hbatch'
      obtain rfl : batch = batch' := by simpa using hbatch'
      exact List.prefix_append _ _
    · intro seq hseq
      dsimp only at hseq
      split_ifs at hseq
    · intro hreturned
      have hop : entry.event.op = .end_ := by
        by_contra hne
        simp [hne] at hreturned
      exact ⟨_, Delivery.ofEntry entry, rfl, hop, fun hnone => by cases hnone⟩
  | finish hash hchecking hstate hterminal hcursor =>
    refine ⟨[], past, rest, Nat.zero_le _, by simp,
      .next h.events h.follows h.cursor h.after rfl (fun _ hpc => by cases hpc) ?_ fun hpc => by cases hpc⟩
    intro seq _
    obtain ⟨hash', hstate', hordered⟩ := hsound.live
    obtain rfl : hash = hash' := by simpa [hstate] using hstate'
    rw [h.events] at hordered
    exact ⟨⟨hash, hstate, hterminal⟩, rest_eq_nil hordered (h.cursor.symm.trans hcursor)⟩
  | again pc hchecking hnext =>
    refine ⟨[], past, rest, Nat.zero_le _, by simp, .emptyHanded h.events h.follows h.cursor h.after ?_⟩
    rcases hnext with rfl | rfl <;> rfl
  | end_ seq hending =>
    exact ⟨[⟨none, _⟩], past, rest, le_rfl, rfl, .next h.events (hmadeUp ⟨seq, .inr rfl⟩) h.cursor h.after rfl
      (fun _ hpc => by cases hpc) (fun _ hpc => by cases hpc) fun _ => ⟨_, _, rfl, rfl, fun _ => h.ending seq hending⟩⟩
  | ping hpinging =>
    exact ⟨[⟨none, _⟩], past, rest, le_rfl, rfl, .emptyHanded h.events (hmadeUp ⟨_, .inl rfl⟩) h.cursor h.after rfl⟩

/-- A step before the loop. -/
theorem serving_opening [LinearOrder κ] (count : ℕ) {r : Reader κ ν} (hsound : Sound r)
    {past rest : List (Entry κ (Envelope ν))} (h : Serving r past rest) (hpc : r.world.stream.pc.inLoop = false)
    (delivers pingDue : Bool) :
    ∃ more, more.length ≤ 1 ∧
      (r.world.stream.advance count r.world.keys delivers pingDue).delivered = r.world.stream.delivered ++ more ∧
      Serving { r with world :=
        { r.world with stream := r.world.stream.advance count r.world.keys delivers pingDue } } past rest := by
  obtain ⟨hash, hstate, hordered⟩ := hsound.live
  obtain ⟨hsame, hnil⟩ := h.opening hpc
  have hkept : FollowsThrough past r.kept := by
    have hfollows := h.follows
    rwa [hnil, List.append_nil] at hfollows
  have hfail : ∀ err, Serving { r with world :=
      { r.world with stream := { r.world.stream with pc := .returned (some err) } } } past rest := fun err =>
    .emptyHanded h.events h.follows h.cursor h.after rfl
  cases hphase : r.world.stream.pc with
  | begin_ =>
    cases hafter : r.world.stream.after with
    | none =>
      have hadvance : r.world.stream.advance count r.world.keys delivers pingDue =
          { r.world.stream with pc := .reading } := by
        simp only [Stream.advance, hphase, hstate, hafter]
      rw [hadvance]
      exact ⟨[], Nat.zero_le _, by simp, .emptyHanded h.events h.follows h.cursor h.after rfl⟩
    | some c =>
      have hadvance : r.world.stream.advance count r.world.keys delivers pingDue =
          { r.world.stream with pc := .resume c } := by
        simp only [Stream.advance, hphase, hstate, hafter]
      rw [hadvance]
      refine ⟨[], Nat.zero_le _, by simp, .before h.events hkept h.cursor hsame hnil rfl ?_ (fun _ _ hpc => by cases hpc)⟩
      rintro c' ⟨rfl⟩
      exact hafter
  | resume c =>
    simp only [Stream.advance, hphase]
    split
    · exact ⟨[], Nat.zero_le _, by simp, hfail _⟩
    · next start seq hsnapshot =>
      obtain ⟨⟨snapshot, n⟩, hthrough, hrest⟩ := bind_eq_ok.mp hsnapshot
      obtain ⟨data, hdata, hreturn⟩ := bind_eq_ok.mp hrest
      obtain ⟨rfl, rfl⟩ : data = start ∧ n = seq := by simpa [pure, Except.pure] using hreturn
      refine ⟨[], Nat.zero_le _, by simp, .before h.events hkept h.cursor hsame hnil rfl (fun _ hpc => by cases hpc) ?_⟩
      rintro _ _ ⟨rfl, rfl⟩
      exact ⟨c, h.resumes c hphase, opens_of_snapshotThrough hthrough hdata⟩
  | starting start seq =>
    cases delivers with
    | false =>
      simp only [Stream.advance, hphase]
      exact ⟨[], Nat.zero_le _, by simp [Stream.deliver], hfail _⟩
    | true =>
      have hadvance : r.world.stream.advance count r.world.keys true pingDue =
          { r.world.stream with
            pc := .reading
            lastSeq := seq
            delivered := r.world.stream.delivered ++ [⟨none, start⟩] } := by
        simp only [Stream.advance, hphase, Stream.deliver, if_true]
      rw [hadvance]
      obtain ⟨c, hafter, hopens⟩ := h.opens start seq hphase
      have hpast : r.world.keys.events.filter (fun entry => decide (entry.cursor ≤ c)) = past := by
        have hsorted := hordered.cursors
        rw [h.events] at hsorted ⊢
        exact Cursors.filter_through_eq hsorted (by rw [← h.cursor, ← hsame, hafter])
      refine ⟨[⟨none, start⟩], le_rfl, rfl, .emptyHanded h.events ?_ h.cursor h.after rfl⟩
      have hopened := h.follows.opens hopens hpast
      rw [List.append_assoc] at hopened
      exact hopened
  | _ => simp [hphase, Pc.inLoop] at hpc

theorem sound_step [LinearOrder κ] [DecidableEq ν] {count : ℕ} {r r' : Reader κ ν} {l : ReaderLabel κ ν} (h : Sound r)
    (hkeeps : KeepsSingleStart count r l) (hstep : readerStep count r l = some r') : Sound r' := by
  have hsingle := hkeeps r' hstep
  obtain ⟨past, rest, hserving⟩ := h.serving
  cases l with
  | world l =>
    obtain ⟨w, hw, rfl⟩ := Option.map_eq_some_iff.mp hstep
    rcases step_cases h.live hw with ⟨hstream, hgrows⟩ | ⟨delivers, pingDue, rfl⟩
    · obtain ⟨more, hmore⟩ := serving_grows hserving hstream hgrows
      refine ⟨hgrows.live, hsingle, by rw [hstream]; exact h.enough, ?_, past, _, hmore⟩
      rw [hstream]
      exact fun n hn => (h.prefixes n hn).imp fun _ ⟨hpast, hfollows⟩ => ⟨hpast.trans hgrows.events, hfollows⟩
    · have hnext : ∃ more past' rest', more.length ≤ 1 ∧
          (r.world.stream.advance count r.world.keys delivers pingDue).delivered =
            r.world.stream.delivered ++ more ∧
          Serving { r with world :=
            { r.world with stream := r.world.stream.advance count r.world.keys delivers pingDue } } past' rest' := by
        cases hpc : r.world.stream.pc.inLoop with
        | true => exact serving_move h hserving (move_advance count r.world.keys delivers pingDue hpc)
        | false =>
          obtain ⟨more, hone, hdelivered, hserving'⟩ := serving_opening count h hserving hpc delivers pingDue
          exact ⟨more, past, rest, hone, hdelivered, hserving'⟩
      obtain ⟨more, past', rest', hone, hdelivered, hserving'⟩ := hnext
      refine ⟨h.live, hsingle, ?_, ?_, past', rest', hserving'⟩
      · dsimp only
        rw [hdelivered, List.length_append]
        exact h.enough.trans (Nat.le_add_right _ _)
      · dsimp only
        have hfollows := hserving'.follows
        dsimp only at hfollows
        rw [hdelivered] at hfollows ⊢
        exact prefixes_append h List.prefix_rfl hone ⟨rest', hserving'.events.symm⟩ hfollows
  | receive =>
    simp only [readerStep] at hstep
    split_ifs at hstep with hlt
    obtain rfl := Option.some.inj hstep
    exact ⟨h.live, h.single, hlt, h.prefixes, past, rest, { hserving with }⟩
  | reconnect =>
    obtain rfl := Option.some.inj hstep
    obtain ⟨past', ⟨rest', hevents⟩, hfollows⟩ := h.prefixes r.read h.enough
    have hcursor : lastCursor r.received = past'.getLast?.map Entry.cursor := hfollows.lastCursor_eq
    refine ⟨h.live, h.single, Nat.zero_le _, fun n _ => ⟨past', ⟨rest', hevents⟩, ?_⟩, past', rest',
      .before (r := ⟨r.world, r.received, 0⟩) hevents.symm hfollows hcursor rfl rfl rfl (fun _ hpc => by cases hpc)
        (fun _ _ hpc => by cases hpc)⟩
    rw [show (Stream.init (lastCursor r.received) : Stream κ ν).delivered = [] from rfl, List.take_nil,
      List.append_nil]
    exact hfollows

/-- A client that has read its call to the end has an end, and everything that is stored when the call has made that
up. -/
def HasEnded [LinearOrder κ] (r : Reader κ ν) : Prop :=
  ∃ before d, r.received = before ++ [d] ∧ d.data.op = .end_ ∧
    (d.cursor = none → Terminal r.world.keys ∧ withCursor r.received = r.world.keys.events.map Delivery.ofEntry)

/-- The client has received the start when it loses the connection, with the text on its way. Its second call opens
with a start of its own, and the text and the end follow. -/
def reconnectsOnce : List (ReaderLabel ℕ ℕ) :=
  let stream : ReaderLabel ℕ ℕ := .world (.stream true false)
  [stream, stream, stream, .receive, .world (.publish chatText 11), stream, stream, stream, stream, .reconnect,
    .world (.publish chatLast 12), stream, stream, stream, .receive, stream, stream, .receive, stream, .receive]

end AgentUE.GoRunner
