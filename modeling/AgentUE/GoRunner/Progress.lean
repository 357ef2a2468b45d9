import AgentUE.GoRunner.Resume

/-!
# Go runner: a call of `Stream` comes to its end

Reference: `sdks/go/runner/replay.go`. When the task is terminal its timeline no longer grows, and a call that reads it
returns after a number of steps of its own that its length bounds, wherever the call has been resumed, how many pings it
puts in between and whatever the other clients try meanwhile.
-/

namespace AgentUE.GoRunner

open Data

variable {κ ν : Type} [LinearOrder κ]

/-- What the call has not read. -/
def ahead (w : World κ ν) : List (Entry κ (Envelope ν)) :=
  w.keys.events.filter fun entry => w.stream.cursor.all fun c => decide (c < entry.cursor)

/-- How many steps of its own a call on a terminal task may still take. A round that delivers at least one event is
followed by a ping; the last round finds nothing. -/
def stepsLeft (w : World κ ν) : ℕ :=
  match w.stream.pc with
  | .begin_ => 5 * w.keys.events.length + 7
  | .resume _ => 5 * w.keys.events.length + 6
  | .starting _ _ => 5 * w.keys.events.length + 5
  | .reading => 5 * (ahead w).length + 4
  | .delivering batch =>
    batch.length + if (ahead w).length = batch.length then 3 else 5 * ((ahead w).length - batch.length) + 7
  | .checking => if (ahead w).length = 0 then 2 else 5 * (ahead w).length + 6
  | .ending _ => 1
  | .pinging => 5 * (ahead w).length + 5
  | .returned _ => 0

/-- A step of the call. -/
def Label.isStream : Label κ ν → Bool
  | .stream _ _ => true
  | _ => false

/-- The call has returned. -/
def Returned (w : World κ ν) : Prop := ∃ err, w.stream.pc = .returned err

theorem ahead_eq {w : World κ ν} {past rest : List (Entry κ (Envelope ν))} (hlive : Live w.keys)
    (hevents : w.keys.events = past ++ rest) (hcursor : w.stream.cursor = past.getLast?.map Entry.cursor) :
    ahead w = rest := by
  obtain ⟨hash, -, hordered⟩ := hlive
  have hsorted := hordered.cursors
  rw [hevents] at hsorted
  rw [ahead, hevents, hcursor, Cursors.filter_behind_eq hsorted]

theorem ahead_le (w : World κ ν) : (ahead w).length ≤ w.keys.events.length := List.length_filter_le _ _

theorem returned_of_stepsLeft_eq_zero {w : World κ ν} (h : stepsLeft w = 0) : Returned w := by
  cases hpc : w.stream.pc with
  | returned err => exact ⟨err, hpc⟩
  | delivering batch =>
    simp only [stepsLeft, hpc] at h
    split_ifs at h
  | checking =>
    simp only [stepsLeft, hpc] at h
    split_ifs at h
  | _ => simp [stepsLeft, hpc] at h

/-- A step of a call in its loop takes it nearer to its end. -/
theorem stepsLeft_move {count : ℕ} (hcount : 0 < count) {opening tail : List (Delivery κ ν)} {w : World κ ν}
    {past rest : List (Entry κ (Envelope ν))} (h : Loop opening w past rest tail) (hlive : Live w.keys)
    {s : Stream κ ν} (hmove : Move count w.keys w.stream s) (hchecking : w.stream.pc ≠ .checking)
    (hnot : ¬ Returned w) : stepsLeft { w with stream := s } < stepsLeft w := by
  have hrest := ahead_eq hlive h.events h.cursor
  cases hmove with
  | fail err hpc =>
    exact Nat.pos_of_ne_zero fun hzero => hnot (returned_of_stepsLeft_eq_zero hzero)
  | stay err hpc => exact absurd ⟨err, hpc⟩ hnot
  | read hpc =>
    obtain ⟨hash, -, hordered⟩ := id hlive
    have hread := read_eq_take h.events h.cursor hordered.cursors count
    have hahead : ahead { w with stream := { w.stream with pc := .delivering (rest.take count) } } = rest := hrest
    rw [hread]
    simp only [stepsLeft, hpc, hahead, hrest, List.length_take]
    -- the batch is not empty when something is ahead
    split_ifs <;> omega
  | batchDone hpc =>
    have hahead : ahead { w with stream := { w.stream with pc := .checking } } = rest := hrest
    simp only [stepsLeft, hpc, hahead, hrest, List.length_nil]
    split_ifs <;> omega
  | skip entry batch hpc hafter hop =>
    obtain ⟨more, rfl⟩ := h.batch _ hpc
    have hevents : w.keys.events = (past ++ [entry]) ++ (batch ++ more) := by
      rw [h.events, List.append_assoc]
      rfl
    have hahead : ahead { w with stream := { w.stream with pc := .delivering batch, cursor := some entry.cursor } } =
        batch ++ more :=
      ahead_eq (w := ⟨w.keys, _⟩) hlive hevents (by simp)
    simp only [stepsLeft, hpc, hahead, hrest, List.length_append, List.length_cons]
    split_ifs <;> omega
  | forward entry batch hpc hkept =>
    obtain ⟨more, rfl⟩ := h.batch _ hpc
    by_cases hend : entry.event.op = .end_
    · simp only [stepsLeft, hpc, hend, if_true, List.length_cons]
      omega
    · have hevents : w.keys.events = (past ++ [entry]) ++ (batch ++ more) := by
        rw [h.events, List.append_assoc]
        rfl
      have hahead : ahead { w with stream := { w.stream with
            pc := .delivering batch
            cursor := some entry.cursor
            lastSeq := entry.event.seq
            delivered := w.stream.delivered ++ [Delivery.ofEntry entry] } } = batch ++ more :=
        ahead_eq (w := ⟨w.keys, _⟩) hlive hevents (by simp)
      simp only [stepsLeft, hpc, hend, if_false, hahead, hrest, List.length_append, List.length_cons]
      split_ifs <;> omega
  | finish hash hpc => exact absurd hpc hchecking
  | again pc hpc => exact absurd hpc hchecking
  | end_ seq hpc => simp [stepsLeft, hpc]
  | ping hpc =>
    have hahead : ahead { w with stream := { w.stream with
        pc := .reading
        delivered := w.stream.delivered ++ [⟨none, (Go.ping w.stream.lastSeq : Go.Event ν).encode .ping⟩] } } = rest :=
      hrest
    simp only [stepsLeft, hpc, hahead, hrest]
    omega

/-- At the end of a round a terminal task is read to its end, or something is ahead. -/
theorem stepsLeft_checking {count : ℕ} {opening tail : List (Delivery κ ν)} {w : World κ ν}
    {past rest : List (Entry κ (Envelope ν))} (h : Loop opening w past rest tail) (hlive : Live w.keys)
    (hterminal : Terminal w.keys) (hpc : w.stream.pc = .checking) (delivers pingDue : Bool) :
    stepsLeft { w with stream := w.stream.advance count w.keys delivers pingDue } < stepsLeft w := by
  have hrest := ahead_eq hlive h.events h.cursor
  obtain ⟨hash, hstate, hstatus⟩ := hterminal
  by_cases hlast : w.stream.cursor = some hash.lastCursor
  · have hadvance : w.stream.advance count w.keys delivers pingDue =
        { w.stream with pc := .ending hash.lastSeq } := by
      simp only [Stream.advance, hpc, hstate, hstatus, hlast, and_self, if_true]
    rw [hadvance]
    simp only [stepsLeft, hpc]
    split_ifs <;> omega
  · have hne : rest ≠ [] := by
      rintro rfl
      obtain ⟨hash', hstate', hordered⟩ := hlive
      obtain rfl : hash = hash' := by simpa [hstate] using hstate'
      rw [h.events, List.append_nil] at hordered
      exact hlast (h.cursor.trans hordered.last)
    have hpos := List.length_pos_iff.mpr hne
    have hahead : ∀ pc, ahead { w with stream := { w.stream with pc := pc } } = rest := fun _ => hrest
    cases pingDue with
    | true =>
      have hadvance : w.stream.advance count w.keys delivers true = { w.stream with pc := .pinging } := by
        simp only [Stream.advance, hpc, hstate, hlast, and_false, if_false, if_true]
      rw [hadvance]
      simp only [stepsLeft, hpc, hahead]
      split_ifs <;> omega
    | false =>
      have hadvance : w.stream.advance count w.keys delivers false = { w.stream with pc := .reading } := by
        simp only [Stream.advance, hpc, hstate, hlast, and_false, Bool.false_eq_true, if_false]
      rw [hadvance]
      simp only [stepsLeft, hpc, hahead]
      split_ifs <;> omega

omit [LinearOrder κ] in
theorem deliver_cases (s : Stream κ ν) (delivers : Bool) (delivery : Delivery κ ν) (next : Stream κ ν → Stream κ ν) :
    s.deliver delivers delivery next = next { s with delivered := s.delivered ++ [delivery] } ∨
      s.deliver delivers delivery next = { s with pc := .returned (some .deliver) } := by
  cases delivers
  · exact .inr rfl
  · exact .inl rfl

theorem stepsLeft_reading {w : World κ ν} (hpc : w.stream.pc = .reading) :
    stepsLeft w ≤ 5 * w.keys.events.length + 4 := by
  have hle := ahead_le w
  simp only [stepsLeft, hpc]
  omega

/-- A step before the loop. -/
theorem stepsLeft_opening (count : ℕ) {w : World κ ν} (hpc : w.stream.pc.inLoop = false) (delivers pingDue : Bool) :
    stepsLeft { w with stream := w.stream.advance count w.keys delivers pingDue } < stepsLeft w := by
  cases hphase : w.stream.pc with
  | begin_ =>
    have hafter : (∃ err, w.stream.advance count w.keys delivers pingDue = { w.stream with pc := .returned err }) ∨
        w.stream.advance count w.keys delivers pingDue = { w.stream with pc := .reading } ∨
        ∃ c, w.stream.advance count w.keys delivers pingDue = { w.stream with pc := .resume c } := by
      cases hstate : w.keys.state with
      | none => exact .inl ⟨some .notFound, by simp only [Stream.advance, hphase, hstate]⟩
      | some hash =>
        cases hafter : w.stream.after with
        | none => exact .inr (.inl (by simp only [Stream.advance, hphase, hstate, hafter]))
        | some c => exact .inr (.inr ⟨c, by simp only [Stream.advance, hphase, hstate, hafter]⟩)
    rcases hafter with ⟨err, hadvance⟩ | hadvance | ⟨c, hadvance⟩
    · rw [hadvance]
      simp [stepsLeft, hphase]
    · rw [hadvance]
      refine (stepsLeft_reading (w := ⟨w.keys, _⟩) rfl).trans_lt ?_
      simp [stepsLeft, hphase]
    · rw [hadvance]
      simp [stepsLeft, hphase]
  | resume c =>
    simp only [Stream.advance, hphase]
    split
    · simp [stepsLeft, hphase]
    · simp [stepsLeft, hphase]
  | starting start seq =>
    simp only [Stream.advance, hphase]
    rcases deliver_cases w.stream delivers ⟨none, start⟩ (fun s => { s with pc := .reading, lastSeq := seq }) with
      hdeliver | hdeliver
    · rw [hdeliver]
      refine (stepsLeft_reading (w := ⟨w.keys, _⟩) rfl).trans_lt ?_
      simp [stepsLeft, hphase]
    · rw [hdeliver]
      simp [stepsLeft, hphase]
  | _ => simp [hphase, Pc.inLoop] at hpc

/-- Where a call on a live task stands once it has reached its loop. -/
def Placed (w : World κ ν) : Prop :=
  Live w.keys ∧ (w.stream.pc.inLoop = true → ¬ Returned w → ∃ opening past rest tail, Loop opening w past rest tail)

/-- However it has been called, a call is before its loop, in it or back. -/
theorem placed_of_exec [DecidableEq ν] {count : ℕ} {keys : Keys κ (Envelope ν)} {after : Option κ}
    {labels : List (Label κ ν)} {w : World κ ν} (hlive : Live keys)
    (hexec : Machine.exec (step count) ⟨keys, .init after⟩ labels = some w) : Placed w := by
  have hlive' : Live w.keys := live_of_exec (w := ⟨keys, .init after⟩) hlive hexec
  refine ⟨hlive', fun hpc hnot => ?_⟩
  cases after with
  | none =>
    have h : FromStart w :=
      Machine.exec_invariant (fun _ _ _ h hstep => fromStart_step h hstep) (fromStart_init hlive) hexec
    rcases h.place with hinit | ⟨-, past, rest, tail, hloop⟩
    · simp [hinit, Stream.init, Pc.inLoop] at hpc
    · exact ⟨[], past, rest, tail, hloop⟩
  | some c =>
    have hplace : Live w.keys ∧ Place c w :=
      Machine.exec_invariant (p := fun w => Live w.keys ∧ Place c w)
        (fun _ _ _ h hstep => ⟨live_step h.1 hstep, place_step h.1 h.2 hstep⟩) ⟨hlive, .begin_ rfl⟩ hexec
    cases hplace.2 with
    | begin_ h => simp [h, Stream.init, Pc.inLoop] at hpc
    | resume h => simp [h, Pc.inLoop] at hpc
    | starting start seq h hopens => simp [h, Pc.inLoop] at hpc
    | failed err h => exact absurd ⟨_, h⟩ hnot
    | inLoop start past rest tail _ hafter hopens hloop => exact ⟨[⟨none, start⟩], past, rest, tail, hloop⟩

/-- A step of another client. -/
theorem step_others [DecidableEq ν] {count : ℕ} {w w' : World κ ν} {l : Label κ ν} (hlive : Live w.keys)
    (hl : l.isStream = false) (hstep : step count w l = some w') : w'.stream = w.stream ∧ Grows w.keys w'.keys := by
  cases l with
  | publish event fresh =>
    simp only [step] at hstep
    split_ifs at hstep with hfresh
    obtain rfl := Option.some.inj hstep
    exact ⟨rfl, grows_publish hlive _ _ (by simpa using hfresh)⟩
  | markTerminal status =>
    obtain rfl := Option.some.inj hstep
    exact ⟨rfl, grows_markTerminal hlive status⟩
  | stream delivers pingDue => simp [Label.isStream] at hl

/-- A step of the call lowers the variant. -/
theorem stepsLeft_stream {count : ℕ} (hcount : 0 < count) {w : World κ ν} (hplaced : Placed w)
    (hterminal : Terminal w.keys) (hnot : ¬ Returned w) (delivers pingDue : Bool) :
    stepsLeft { w with stream := w.stream.advance count w.keys delivers pingDue } < stepsLeft w := by
  cases hpc : w.stream.pc.inLoop with
  | false => exact stepsLeft_opening count hpc delivers pingDue
  | true =>
    obtain ⟨opening, past, rest, tail, hloop⟩ := hplaced.2 hpc hnot
    by_cases hchecking : w.stream.pc = .checking
    · exact stepsLeft_checking hloop hplaced.1 hterminal hchecking delivers pingDue
    · exact stepsLeft_move hcount hloop hplaced.1 (move_advance count w.keys delivers pingDue hpc) hchecking hnot

/-- The other clients change nothing that a call on a terminal task has before it. -/
theorem stepsLeft_grows {w w' : World κ ν} (hterminal : Terminal w.keys) (hstream : w'.stream = w.stream)
    (hgrows : Grows w.keys w'.keys) : stepsLeft w' = stepsLeft w := by
  have hevents := (hgrows.terminal hterminal).2
  have hahead : ahead w' = ahead w := by rw [ahead, ahead, hstream, hevents]
  unfold stepsLeft
  rw [hstream, hahead, hevents]

theorem terminal_step [DecidableEq ν] {count : ℕ} {w w' : World κ ν} {l : Label κ ν} (hlive : Live w.keys)
    (h : Terminal w.keys) (hstep : step count w l = some w') : Terminal w'.keys := by
  rcases step_cases hlive hstep with ⟨-, hgrows⟩ | ⟨delivers, pingDue, rfl⟩
  · exact (hgrows.terminal h).1
  · exact h

/-- Enough steps of the call on a terminal task. -/
theorem returned_of_exec [DecidableEq ν] {count : ℕ} (hcount : 0 < count) {keys : Keys κ (Envelope ν)}
    {after : Option κ} {labels more : List (Label κ ν)} {w w' : World κ ν} (hlive : Live keys)
    (hexec : Machine.exec (step count) ⟨keys, .init after⟩ labels = some w) (hterminal : Terminal w.keys)
    (hmore : Machine.exec (step count) w more = some w')
    (henough : 5 * w.keys.events.length + 7 ≤ (more.filter Label.isStream).length) : Returned w' := by
  have hbound : stepsLeft w ≤ 5 * w.keys.events.length + 7 := by
    have hle := ahead_le w
    have hplaced := placed_of_exec hlive hexec
    unfold stepsLeft
    split
    all_goals try omega
    · next batch hpc =>
      -- the batch is a part of what is ahead
      have hbatch : batch.length ≤ (ahead w).length := by
        obtain ⟨opening, past, rest, tail, hloop⟩ := hplaced.2 (by rw [hpc]; rfl) (by rintro ⟨err, herr⟩; simp [hpc] at herr)
        rw [ahead_eq hplaced.1 hloop.events hloop.cursor]
        exact (hloop.batch batch hpc).length_le
      split_ifs <;> omega
    · split_ifs <;> omega
  refine Machine.done_of_variant (fun w => Placed w ∧ Terminal w.keys ∧
      ∃ labels, Machine.exec (step count) ⟨keys, .init after⟩ labels = some w) Returned stepsLeft Label.isStream
    ?_ ?_ ?_ ?_ ?_ ⟨placed_of_exec hlive hexec, hterminal, labels, hexec⟩ hmore
    (hbound.trans henough)
  · rintro s l s' ⟨hplaced, hterm, ls, hls⟩ hstep
    have hls' : Machine.exec (step count) ⟨keys, .init after⟩ (ls ++ [l]) = some s' := by
      rw [Machine.exec_concat, hls, Option.bind_some, hstep]
    exact ⟨placed_of_exec hlive hls', terminal_step hplaced.1 hterm hstep, ls ++ [l], hls'⟩
  · rintro s l s' ⟨hplaced, hterm, -⟩ hstep hl hnot
    cases l with
    | stream delivers pingDue =>
      obtain rfl := Option.some.inj hstep
      exact stepsLeft_stream hcount hplaced hterm hnot delivers pingDue
    | publish event fresh => simp [Label.isStream] at hl
    | markTerminal status => simp [Label.isStream] at hl
  · rintro s l s' ⟨hplaced, hterm, -⟩ hstep hl
    obtain ⟨hstream, hgrows⟩ := step_others hplaced.1 hl hstep
    exact (stepsLeft_grows hterm hstream hgrows).le
  · rintro s l s' ⟨err, herr⟩ hstep
    cases l with
    | publish event fresh =>
      simp only [step] at hstep
      split_ifs at hstep
      obtain rfl := Option.some.inj hstep
      exact ⟨err, herr⟩
    | markTerminal status =>
      obtain rfl := Option.some.inj hstep
      exact ⟨err, herr⟩
    | stream delivers pingDue =>
      obtain rfl := Option.some.inj hstep
      exact ⟨err, by simp [Stream.advance, herr]⟩
  · exact fun s hzero => returned_of_stepsLeft_eq_zero hzero

/-! ## Without an error -/

/-- The label does not fail a delivery. -/
def Label.delivers : Label κ ν → Bool
  | .stream delivers _ => delivers
  | _ => true

/-- Every stored event is one that `ui.Parse` accepts. -/
def Parseable (keys : Keys κ (Envelope ν)) : Prop := ∀ entry ∈ keys.events, ∃ event, Go.parse entry.event = .ok event

/-- A call in its loop fails for an event that cannot be parsed or delivered only. -/
theorem advance_ne_error (count : ℕ) {opening tail : List (Delivery κ ν)} {w : World κ ν}
    {past rest : List (Entry κ (Envelope ν))} (h : Loop opening w past rest tail) (hlive : Live w.keys)
    (hparse : Parseable w.keys) (hloop : w.stream.pc.inLoop = true) (hnot : ∀ err, w.stream.pc ≠ .returned (some err))
    (pingDue : Bool) (err : StreamError) : (w.stream.advance count w.keys true pingDue).pc ≠ .returned (some err) := by
  obtain ⟨hash, hstate, -⟩ := hlive
  unfold Stream.advance
  cases hpc : w.stream.pc with
  | begin_ => simp [hpc, Pc.inLoop] at hloop
  | resume c => simp [hpc, Pc.inLoop] at hloop
  | starting start seq => simp [hpc, Pc.inLoop] at hloop
  | reading => simp
  | delivering batch =>
    cases batch with
    | nil => simp
    | cons entry batch =>
      have hmem : entry ∈ w.keys.events := by
        rw [h.events]
        exact List.mem_append_right _ ((h.batch _ hpc).subset List.mem_cons_self)
      obtain ⟨event, hevent⟩ := hparse entry hmem
      simp only [Stream.forward, hevent]
      split_ifs
      · simp
      · simp [Stream.deliver]
      · simp [Stream.deliver]
  | checking =>
    simp only [hstate]
    split_ifs <;> simp
  | ending seq => simp [Stream.deliver]
  | pinging => simp [Stream.deliver]
  | returned err' =>
    dsimp only
    rw [hpc, ← hpc]
    exact hnot err

/-- A call from the beginning whose deliveries succeed has no error where everything can be parsed. -/
theorem ne_error_of_exec [DecidableEq ν] {count : ℕ} {keys : Keys κ (Envelope ν)} {labels : List (Label κ ν)}
    {w : World κ ν} (hlive : Live keys) (hexec : Machine.exec (step count) ⟨keys, .init none⟩ labels = some w)
    (hdelivers : ∀ l ∈ labels, l.delivers = true) (hparse : Parseable w.keys) (err : StreamError) :
    w.stream.pc ≠ .returned (some err) := by
  have h : FromStart w ∧ (Parseable w.keys → ∀ err, w.stream.pc ≠ .returned (some err)) := by
    refine Machine.exec_invariant_of_allSteps
      (p := fun w => FromStart w ∧ (Parseable w.keys → ∀ err, w.stream.pc ≠ .returned (some err)))
      (q := fun _ l => l.delivers = true) ?_ ⟨fromStart_init hlive, fun _ _ => by simp [Stream.init]⟩
      (Machine.allSteps_of_labels (fun l hl _ => hdelivers l hl) _) hexec
    rintro s l s' ⟨hs, hnot⟩ hl hstep
    refine ⟨fromStart_step hs hstep, fun hparse' err => ?_⟩
    cases l with
    | stream delivers pingDue =>
      obtain rfl : delivers = true := hl
      obtain rfl := Option.some.inj hstep
      rcases hs.place with hinit | ⟨hpc, past, rest, tail, hloop⟩
      · obtain ⟨hash, hstate, -⟩ := hs.live
        simp [hinit, Stream.advance, Stream.init, hstate]
      · exact advance_ne_error count hloop hs.live hparse' hpc (hnot hparse') pingDue err
    | _ =>
      obtain ⟨hstream, hgrows⟩ := step_others hs.live rfl hstep
      rw [hstream]
      exact hnot (fun entry hentry => hparse' entry (hgrows.events.subset hentry)) err
  exact h.2 hparse err

/-- A call that has begun when another client marks the task; a ping is due in each of its rounds. -/
def marksChat : List (Label ℕ ℕ) := [.stream true false, .stream true true, .markTerminal .failed]

end AgentUE.GoRunner
