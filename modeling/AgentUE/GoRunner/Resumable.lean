import AgentUE.Conformance.Edits
import AgentUE.Conformance.Validity
import AgentUE.Go.Json
import AgentUE.GoRunner.Resume

/-!
# Go runner: timelines that can be resumed after every event

A resumed call decodes and validates the document that the timeline through its cursor leads to. Field patches are
stored without a look at the types of the members that they write, so the document may be one that `Start` refuses;
`KeepsResumable` says which events leave such a document.
-/

namespace AgentUE.GoRunner

open Data Conformance

variable {κ ν : Type}

/-- `Start` and `Marshal` on the text of a document, which `Unmarshal` refuses when it nests too deep. -/
def startText (snapshot : Option (JsonObject ν)) (seq : ℕ) : Except StreamError (Envelope ν) :=
  if snapshot.all fun document => DocTree.fits (fun _ => true) Go.Json.maxNestingDepth (.obj document) then
    startData snapshot seq
  else .error (.marshal (.err .decode))

/-- A call resumed after the cursor comes to deliver its start. -/
def Resumes [LinearOrder κ] (keys : Keys κ (Envelope ν)) (cursor : κ) : Prop :=
  ∃ snapshot seq start, snapshotThrough keys cursor = .ok (snapshot, seq) ∧ startText snapshot seq = .ok start

/-- Every event that the reducer meets is a typed edit of the document so far, and what it stores nests nothing too
deep and has scalars that satisfy `p` only. -/
def KeepsResumable (p : Scalar ν → Bool) (events : List (Envelope ν)) : Prop :=
  ∀ before event document edit, before ++ [event] <+: events → modelFrom [] before = some (some document) →
    editOf document (Go.decoded event) = some edit →
    edit.typed = true ∧ edit.fits p Go.Json.maxNestingDepth = true

/-! ## Documents that `Start` accepts -/

/-- The document is a valid model, nests no deeper than the decoder allows and has scalars that satisfy `p`. -/
structure Startable (p : Scalar ν → Bool) (document : JsonObject ν) : Prop where
  valid : modelOk Go.rules document = true
  nests : DocTree.fits p Go.Json.maxNestingDepth (.obj document) = true

theorem startData_eq_ok_iff {document : JsonObject ν} {seq : ℕ} {start : Envelope ν} :
    startData (some document) seq = .ok start ↔ modelOk Go.rules document = true ∧
      (⟨"", .known .start, seq, none, "", "", some document, none, none⟩ : Go.Event ν).encode .start = start := by
  have hvalid : (⟨"", .known .start, seq, none, "", "", some document, none, none⟩ : Go.Event ν).validate = .ok () ↔
      modelOk Go.rules document = true := by
    simp [Go.Event.validate, seq_eq_ok, Go.validateModel_eq_ok_iff]
  rw [← hvalid]
  constructor
  · intro hstart
    unfold startData at hstart
    split at hstart
    next data hdata =>
      obtain rfl : data = start := by simpa using hstart
      obtain ⟨event, hevent, hmarshal⟩ := bind_eq_ok.mp hdata
      obtain ⟨hok, hevent⟩ := seq_eq_ok.mp hevent
      obtain rfl : _ = event := by simpa [pure, Except.pure] using hevent
      obtain ⟨-, hmarshal⟩ := seq_eq_ok.mp hmarshal
      exact ⟨hok, by simpa [pure, Except.pure] using hmarshal⟩
    next => cases hstart
  · rintro ⟨hok, rfl⟩
    have hmarshal : (do (← Go.start (some document) seq).marshal) = .ok ((⟨"", .known .start, seq, none, "", "",
        some document, none, none⟩ : Go.Event ν).encode .start) := by
      simp only [Go.start, Go.Event.marshal, hok, bind, Except.bind, pure, Except.pure]
    rw [startData, hmarshal]

/-- A start that is made up holds its document. -/
theorem model_of_startData {document : JsonObject ν} {seq : ℕ} {start : Envelope ν}
    (h : startData (some document) seq = .ok start) : start.model = some document := by
  obtain ⟨hok, rfl⟩ := startData_eq_ok_iff.mp h
  cases document with
  | nil => cases hok
  | cons q rest => rfl

theorem exists_startData_iff {document : JsonObject ν} {seq : ℕ} :
    (∃ start, startData (some document) seq = .ok start) ↔ modelOk Go.rules document = true :=
  ⟨fun ⟨_, h⟩ => (startData_eq_ok_iff.mp h).1, fun h => ⟨_, startData_eq_ok_iff.mpr ⟨h, rfl⟩⟩⟩

theorem exists_startText_iff {document : JsonObject ν} {seq : ℕ} :
    (∃ start, startText (some document) seq = .ok start) ↔ Startable (fun _ => true) document := by
  unfold startText
  rw [Option.all_some]
  split_ifs with hfits
  · exact exists_startData_iff.trans ⟨fun h => ⟨h, hfits⟩, fun h => h.valid⟩
  · exact ⟨fun ⟨_, h⟩ => (by cases h), fun h => absurd h.nests hfits⟩

/-- The first parts of an accepted run are accepted, each by one more event than the one before. -/
theorem exists_reduceFrom_of_prefix {events p : List (Envelope ν)} (haccepted : reduceFrom (some []) events ≠ none)
    (hp : p <+: events) : ∃ m, reduceFrom (some []) p = some (some m) := by
  obtain ⟨rest, rfl⟩ := hp
  rw [reduceFrom_append] at haccepted
  have hne : reduceFrom (some []) p ≠ none := fun h => haccepted (by rw [h, Option.bind_none])
  obtain ⟨s, hs⟩ := Option.ne_none_iff_exists'.mp hne
  obtain ⟨m, rfl⟩ := exists_of_reduceFrom hs
  exact ⟨m, hs⟩

theorem apply_of_reduceFrom_concat {p : List (Envelope ν)} {event : Envelope ν} {m n : Go.Map ν}
    (hm : reduceFrom (some []) p = some (some m)) (hn : reduceFrom (some []) (p ++ [event]) = some (some n)) :
    (Go.apply (some m) (Go.decoded event)).state? = some (some n) := by
  rw [reduceFrom_append, hm, Option.bind_some, reduceFrom_cons] at hn
  obtain ⟨t, ht, htn⟩ := Option.bind_eq_some_iff.mp hn
  rw [ht, ← htn]
  rfl

section

variable {p : Scalar ν → Bool} (hnull : p .null = true) (hstr : ∀ t, p (.str t) = true)

include hnull hstr

/-- One event on such a document, or a start. -/
theorem startable_step_iff {m n : Go.Map ν} {event : Envelope ν}
    (hm : event.op = .start ∨ Startable p (Go.marshalSnapshot m))
    (happly : (Go.apply (some m) (Go.decoded event)).state? = some (some n)) {edit : Edit ν}
    (hedit : editOf (Go.marshalSnapshot m) (Go.decoded event) = some edit) :
    Startable p (Go.marshalSnapshot n) ↔ edit.typed = true ∧ edit.fits p Go.Json.maxNestingDepth = true := by
  obtain ⟨n', edit', hn, hedit', hedited⟩ := edited_apply (hm.imp_right Startable.valid) happly
  obtain rfl := Option.some.inj hn
  obtain rfl : edit = edit' := by simpa [hedit] using hedit'
  rcases hm with hop | hm
  · -- a start does not look at the document
    simp only [editOf, Go.decoded, hop] at hedit
    obtain ⟨model, -, rfl⟩ := Option.map_eq_some_iff.mp hedit
    cases hedited with
    | replace hok => exact ⟨fun h => ⟨rfl, h.nests⟩, fun h => ⟨hok, h.2⟩⟩
  · have hfits : DocTree.fits p Go.Json.maxNestingDepth (.obj (Go.marshalSnapshot n)) = true ↔
        edit.fits p Go.Json.maxNestingDepth = true := fits_edited_iff (n := 9996) hnull hstr hm.nests hedited
    rw [← modelOk_edited_iff hm.valid hedited, ← hfits]
    exact ⟨fun h => ⟨h.valid, h.nests⟩, fun h => ⟨h.1, h.2⟩⟩

/-- Every document of an accepted run is such a one exactly when every event keeps it so. -/
theorem startable_iff_keepsResumable {events : List (Envelope ν)} (hstart : StartsRun events)
    (haccepted : reduceFrom (some []) events ≠ none) :
    (∀ q, q <+: events → q ≠ [] → ∃ m, reduceFrom (some []) q = some (some m) ∧ Startable p (Go.marshalSnapshot m)) ↔
      KeepsResumable p events := by
  constructor
  · intro h before event document edit hq hdocument hedit
    obtain ⟨s, hs, hmarshal⟩ := Option.map_eq_some_iff.mp hdocument
    obtain ⟨m, rfl, rfl⟩ := Option.map_eq_some_iff.mp hmarshal
    obtain ⟨n, hn, hstartable⟩ := h _ hq (by simp)
    refine (startable_step_iff hnull hstr ?_ (apply_of_reduceFrom_concat hs hn) hedit).mp hstartable
    by_cases hbefore : before = []
    · subst hbefore
      exact .inl (hstart.op_of_singleton hq)
    · obtain ⟨m', hm', hstartable'⟩ := h before ((List.prefix_append _ _).trans hq) hbefore
      obtain rfl := Option.some.inj (Option.some.inj (hs.symm.trans hm'))
      exact .inr hstartable'
  · intro h q
    induction q using List.reverseRecOn with
    | nil => exact fun _ hne => absurd rfl hne
    | append_singleton q event ih =>
      intro hq _
      have hq' := (List.prefix_append q [event]).trans hq
      obtain ⟨m, hm⟩ := exists_reduceFrom_of_prefix haccepted hq'
      obtain ⟨n, hn⟩ := exists_reduceFrom_of_prefix haccepted hq
      have happly := apply_of_reduceFrom_concat hm hn
      -- the first event is the start, every other one meets such a document
      have hmeets : event.op = .start ∨ Startable p (Go.marshalSnapshot m) := by
        by_cases hne : q = []
        · subst hne
          exact .inl (hstart.op_of_singleton hq)
        · obtain ⟨m', hm', hstartable⟩ := ih hq' hne
          obtain rfl := Option.some.inj (Option.some.inj (hm.symm.trans hm'))
          exact .inr hstartable
      obtain ⟨n', edit, hn', hedit, -⟩ := edited_apply (hmeets.imp_right Startable.valid) happly
      refine ⟨n, hn, (startable_step_iff hnull hstr hmeets happly hedit).mpr (h q event _ edit hq ?_ hedit)⟩
      exact congrArg (Option.map _) hm

end

/-! ## Accepted timelines -/

/-- The loop of `snapshotThrough` accepts every first part of what it accepts. -/
theorem applyStored_of_append {past rest : List (Entry κ (Envelope ν))} {s : Option (Go.Map ν)} {n : ℕ}
    {r : Option (Go.Map ν) × ℕ} (h : applyStored (past ++ rest) s n = .ok r) : ∃ r', applyStored past s n = .ok r' := by
  induction past generalizing s n with
  | nil => exact ⟨(s, n), rfl⟩
  | cons item past ih =>
    rw [List.cons_append, applyStored] at h
    rw [applyStored]
    cases hparse : Go.parse item.event with
    | error f => simp [hparse] at h
    | ok event =>
      simp only [hparse] at h ⊢
      cases happly : Go.apply s event with
      | raised f t => simp [happly] at h
      | returned t =>
        simp only [happly] at h ⊢
        exact ih h

/-- The timeline through a stored cursor ends with the entry that has it. -/
theorem eventsThrough_eq [LinearOrder κ] {keys : Keys κ (Envelope ν)} {past behind : List (Entry κ (Envelope ν))}
    {entry : Entry κ (Envelope ν)} (hevents : keys.events = past ++ entry :: behind)
    (hsorted : keys.events.Pairwise fun a b => a.cursor < b.cursor) :
    eventsThrough entry.cursor keys = past ++ [entry] := by
  rw [hevents, List.pairwise_append, List.pairwise_cons] at hsorted
  obtain ⟨-, ⟨hbehind, -⟩, hpast⟩ := hsorted
  rw [eventsThrough, hevents, List.filter_append, List.filter_cons_of_pos (by simp)]
  have hbefore : past.filter (fun e => decide (e.cursor ≤ entry.cursor)) = past :=
    List.filter_eq_self.mpr fun e he => by simpa using (hpast e he entry (by simp)).le
  have hnone : behind.filter (fun e => decide (e.cursor ≤ entry.cursor)) = [] :=
    List.filter_eq_nil_iff.mpr fun e he => by simpa using hbehind e he
  rw [hbefore, hnone]

/-- The loop of `snapshotThrough` up to a stored cursor. -/
theorem exists_applyStored {events past behind : List (Entry κ (Envelope ν))} {entry : Entry κ (Envelope ν)}
    (hevents : events = past ++ entry :: behind) (haccepted : ∃ r, applyStored events (some []) 0 = .ok r) :
    ∃ m seq, applyStored (past ++ [entry]) (some []) 0 = .ok (some m, seq) := by
  obtain ⟨r, hr⟩ := haccepted
  have hsplit : events = (past ++ [entry]) ++ behind := by rw [hevents, List.append_assoc]; rfl
  rw [hsplit] at hr
  obtain ⟨⟨s, seq⟩, hthrough⟩ := applyStored_of_append hr
  obtain ⟨m, rfl⟩ := exists_of_reduceFrom (reduceFrom_of_applyStored hthrough)
  exact ⟨m, seq, hthrough⟩

/-- The document that an accepted timeline leads to through a stored cursor. -/
theorem exists_document [LinearOrder κ] {keys : Keys κ (Envelope ν)} {past behind : List (Entry κ (Envelope ν))}
    {entry : Entry κ (Envelope ν)} (hevents : keys.events = past ++ entry :: behind)
    (hsorted : keys.events.Pairwise fun a b => a.cursor < b.cursor)
    (haccepted : ∃ r, applyStored keys.events (some []) 0 = .ok r) :
    ∃ m seq, reduceFrom (some []) ((past ++ [entry]).map Entry.event) = some (some m) ∧
      snapshotThrough keys entry.cursor = .ok (some (Go.marshalSnapshot m), seq) := by
  obtain ⟨m, seq, hthrough⟩ := exists_applyStored hevents haccepted
  refine ⟨m, seq, reduceFrom_of_applyStored hthrough, ?_⟩
  unfold snapshotThrough
  rw [eventsThrough_eq hevents hsorted, if_pos (by simp), hthrough]
  rfl

theorem resumes_iff_startable [LinearOrder κ] {keys : Keys κ (Envelope ν)} {past behind : List (Entry κ (Envelope ν))}
    {entry : Entry κ (Envelope ν)} (hevents : keys.events = past ++ entry :: behind)
    (hsorted : keys.events.Pairwise fun a b => a.cursor < b.cursor)
    (haccepted : ∃ r, applyStored keys.events (some []) 0 = .ok r) :
    Resumes keys entry.cursor ↔ ∃ m, reduceFrom (some []) ((past ++ [entry]).map Entry.event) = some (some m) ∧
      Startable (fun _ => true) (Go.marshalSnapshot m) := by
  obtain ⟨m, seq, hreduce, hthrough⟩ := exists_document hevents hsorted haccepted
  constructor
  · rintro ⟨snapshot, seq', start, hsnapshot, hstart⟩
    obtain ⟨rfl, rfl⟩ : some (Go.marshalSnapshot m) = snapshot ∧ seq = seq' := by simpa [hthrough] using hsnapshot
    exact ⟨m, hreduce, exists_startText_iff.mp ⟨start, hstart⟩⟩
  · rintro ⟨m', hreduce', hstartable⟩
    obtain rfl := Option.some.inj (Option.some.inj (hreduce.symm.trans hreduce'))
    obtain ⟨start, hstart⟩ := (@exists_startText_iff ν _ seq).mpr hstartable
    exact ⟨_, seq, start, hthrough, hstart⟩

/-- What holds at every stored cursor is said of every first part of the timeline. -/
theorem forall_entry_iff {events : List (Entry κ (Envelope ν))} {P : Entry κ (Envelope ν) → Prop}
    {Q : List (Envelope ν) → Prop} (h : ∀ past entry behind, events = past ++ entry :: behind →
      (P entry ↔ Q ((past ++ [entry]).map Entry.event))) :
    (∀ entry ∈ events, P entry) ↔ ∀ q, q <+: events.map Entry.event → q ≠ [] → Q q := by
  constructor
  · intro hall q hq hne
    obtain ⟨rest, hrest⟩ := hq
    obtain ⟨through, behind, hevents, rfl, -⟩ := List.map_eq_append_iff.mp hrest.symm
    obtain ⟨past, entry, rfl⟩ := (List.eq_nil_or_concat through).resolve_left fun h => hne (by rw [h]; rfl)
    rw [List.concat_eq_append, List.append_assoc] at hevents
    rw [List.concat_eq_append]
    exact (h past entry behind hevents).mp (hall entry (by rw [hevents]; simp))
  · intro hall entry hentry
    obtain ⟨past, behind, hevents⟩ := List.append_of_mem hentry
    refine (h past entry behind hevents).mpr (hall _ ⟨behind.map Entry.event, ?_⟩ (by simp))
    rw [← List.map_append, hevents, List.append_assoc]
    rfl

theorem reduceFrom_ne_none {events : List (Entry κ (Envelope ν))}
    (haccepted : ∃ r, applyStored events (some []) 0 = .ok r) :
    reduceFrom (some []) (events.map Entry.event) ≠ none := by
  obtain ⟨⟨s, seq⟩, hr⟩ := haccepted
  rw [reduceFrom_of_applyStored hr]
  exact Option.some_ne_none s

/-- An accepted timeline that begins with a start can be resumed after every cursor stored in it exactly when every
event of it is a typed edit of the document that it meets and nests nothing too deep. -/
theorem resumes_iff_keepsResumable [LinearOrder κ] {keys : Keys κ (Envelope ν)}
    (hsorted : keys.events.Pairwise fun a b => a.cursor < b.cursor) (hstart : StartsRun (keys.events.map Entry.event))
    (haccepted : ∃ r, applyStored keys.events (some []) 0 = .ok r) :
    (∀ entry ∈ keys.events, Resumes keys entry.cursor) ↔
      KeepsResumable (fun _ => true) (keys.events.map Entry.event) := by
  rw [← startable_iff_keepsResumable rfl (fun _ => rfl) hstart (reduceFrom_ne_none haccepted)]
  exact forall_entry_iff fun past entry behind hevents => resumes_iff_startable hevents hsorted haccepted

/-- A call that resumes comes to the delivery of its start. -/
theorem exists_starting_of_resumes [LinearOrder κ] {keys : Keys κ (Envelope ν)} {cursor : κ}
    (h : Resumes keys cursor) (s : Stream κ ν) (hs : s.pc = .resume cursor) : ∃ start seq,
      ∀ count delivers pingDue, s.advance count keys delivers pingDue = { s with pc := .starting start seq } := by
  obtain ⟨snapshot, seq, start, hsnapshot, hstart⟩ := h
  refine ⟨start, seq, fun count delivers pingDue => ?_⟩
  unfold startText at hstart
  split_ifs at hstart
  simp only [Stream.advance, hs, hsnapshot, hstart, bind, Except.bind, pure, Except.pure]

/-- A patch of the type of the block of the chat. -/
def chatRetypes (type : Json ℕ) : Envelope ℕ :=
  ⟨.set, 3, none, none, some "block.type", none, none, none, some [("id", .str "b"), ("type", type)]⟩

/-- The timeline of a chat with a text block and such a patch. -/
def chatRetyped (type : Json ℕ) : Keys ℕ (Envelope ℕ) :=
  ((Call.publish (chatRetypes type) 3).run 12 ((Call.publish chatText 2).run 11 chatKeys).2).2

/-- What resuming after a cursor comes to; `none` when the timeline is refused, `some none` when the start is. -/
def resumed (keys : Keys ℕ (Envelope ℕ)) (cursor : ℕ) : Option (Option (Envelope ℕ)) :=
  (snapshotThrough keys cursor).toOption.map fun p => (startText p.1 p.2).toOption

theorem resumes_iff_resumed {keys : Keys ℕ (Envelope ℕ)} {cursor : ℕ} :
    Resumes keys cursor ↔ (resumed keys cursor).join.isSome = true := by
  unfold Resumes resumed
  cases snapshotThrough keys cursor with
  | error err => simp [Except.toOption]
  | ok p =>
    obtain ⟨snapshot, seq⟩ := p
    cases hstart : startText snapshot seq <;> simp [Except.toOption, hstart]

theorem chatRetyped_events (type : Json ℕ) : (chatRetyped type).events =
    [⟨10, chatStart, 1⟩, ⟨11, chatText, 2⟩, ⟨12, chatRetypes type, 3⟩] := by
  rfl

/-- The number is accepted, and no call can be resumed behind it. -/
theorem retyped_block_is_lost : (chatRetyped (.num 5)).events.Pairwise (fun a b => a.cursor < b.cursor) ∧
    StartsRun ((chatRetyped (.num 5)).events.map Entry.event) ∧
    (∃ r, applyStored (chatRetyped (.num 5)).events (some []) 0 = .ok r) ∧
    ∃ entry ∈ (chatRetyped (.num 5)).events, ¬ Resumes (chatRetyped (.num 5)) entry.cursor := by
  have haccepted : (applyStored (chatRetyped (.num 5)).events (some []) 0).toOption.isSome = true := by
    decide +kernel
  have hlost : resumed (chatRetyped (.num 5)) 12 = some none := by decide +kernel
  refine ⟨by rw [chatRetyped_events]; decide, ⟨chatStart, _, by rw [chatRetyped_events]; rfl, rfl⟩, ?_,
    ⟨12, chatRetypes (.num 5), 3⟩, by rw [chatRetyped_events]; simp, fun h => ?_⟩
  · obtain ⟨r, hr⟩ := Option.isSome_iff_exists.mp haccepted
    exact ⟨r, toOption_eq_some.mp hr⟩
  · rw [resumes_iff_resumed, hlost] at h
    cases h

/-- With another type in its place the chat can be resumed behind every event, and so the patch is a typed edit. -/
theorem resumes_iff_keepsResumable_retypes :
    KeepsResumable (fun _ => true) ((chatRetyped (.str "note")).events.map Entry.event) := by
  have haccepted : (applyStored (chatRetyped (.str "note")).events (some []) 0).toOption.isSome = true := by
    decide +kernel
  have hresumed : ∀ entry ∈ (chatRetyped (.str "note")).events,
      (resumed (chatRetyped (.str "note")) entry.cursor).join.isSome = true := by decide +kernel
  refine (resumes_iff_keepsResumable (by rw [chatRetyped_events]; decide)
    ⟨chatStart, _, by rw [chatRetyped_events]; rfl, rfl⟩ ?_).mp fun entry hentry => ?_
  · obtain ⟨r, hr⟩ := Option.isSome_iff_exists.mp haccepted
    exact ⟨r, toOption_eq_some.mp hr⟩
  · exact resumes_iff_resumed.mpr (hresumed entry hentry)

end AgentUE.GoRunner
