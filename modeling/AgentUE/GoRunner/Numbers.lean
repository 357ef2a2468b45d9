import AgentUE.Go.Decoding
import AgentUE.Go.Numbers
import AgentUE.GoRunner.Resumable
import Mathlib.Algebra.Order.Ring.Cast

/-!
# Go runner: the numbers of a synthesized start

A stored event is decoded into binary64 numbers before it is reduced, and the model that the events lead to is written
and decoded once more. A reader of the stored texts keeps their integers. Both hold the same document exactly when
the integers that the document stores are binary64 numbers.

Reference: `sdks/go/runner/replay.go` and `sdks/go/ui/event.go`; decoding and writing a number are those of
`encoding/json`.
-/

namespace AgentUE.GoRunner

open Data Rounding Conformance

variable {κ : Type}

/-! ## Texts -/

/-- Magnitudes from here on are infinite. -/
def overflow : ℕ := 2 ^ 1024

theorem overflow_pos : 0 < overflow := Nat.two_pow_pos _

/-- An integer that a decoded number can be. -/
structure Float64 where
  value : ℤ
  rounded : nearestInt 52 value = value
  finite : value.natAbs < overflow
deriving DecidableEq

/-- The decoder refuses a number whose nearest float is infinite. -/
def inRange (n : ℤ) : Bool := decide ((nearestInt 52 n).natAbs < overflow)

/-- The nearest float; zero is left in place of a number that is refused. -/
def Float64.ofInt (n : ℤ) : Float64 :=
  if h : inRange n = true then ⟨nearestInt 52 n, nearestInt_nearestInt 52 n, of_decide_eq_true h⟩
  else ⟨0, nearestInt_zero 52, overflow_pos⟩

/-- The integer is a float. -/
def isFloat64 (n : ℤ) : Bool := decide ((Float64.ofInt n).value = n)

/-- The numbers of a scalar satisfy `p`. -/
def numberIs (p : ℤ → Bool) : Scalar ℤ → Bool
  | .num n => p n
  | _ => true

/-- The payloads of an event nest no deeper than the decoder allows inside of the event, and their numbers are in
range. -/
def decodable (event : Envelope ℤ) : Bool :=
  [event.model, event.meta_, event.block].all fun payload => payload.all fun document =>
    DocTree.fits (numberIs inRange) (Go.Json.maxNestingDepth - 1) (.obj document)

/-- `Parse` of the text of an event -/
def parseText (event : Envelope ℤ) : Except Go.Failure (Go.Event Float64) :=
  if decodable event then Go.parse (event.mapNumbers .ofInt) else .error (.err .decode)

/-- `applyStored` on the texts -/
def applyTexts : List (Entry κ (Envelope ℤ)) → Option (Go.Map Float64) → ℕ →
    Except StreamError (Option (Go.Map Float64) × ℕ)
  | [], snapshot, lastSeq => .ok (snapshot, lastSeq)
  | item :: rest, snapshot, lastSeq =>
    match parseText item.event with
    | .error f => .error (.parse f)
    | .ok event =>
      match Go.apply snapshot event with
      | .raised f _ => .error (.apply f)
      | .returned snapshot => applyTexts rest snapshot (if event.op = .known .ping then lastSeq else event.seq)

/-- `snapshotThrough` on the texts; the numbers of the result are those that `MarshalSnapshot` writes. -/
def snapshotTextThrough [LinearOrder κ] (keys : Keys κ (Envelope ℤ)) (cursor : κ) :
    Except StreamError (Option (JsonObject ℤ) × ℕ) :=
  let stored := eventsThrough cursor keys
  if stored.getLast?.map Entry.cursor = some cursor then do
    let (snapshot, lastSeq) ← applyTexts stored (some []) 0
    return (snapshot.map fun m => mapObject Float64.value (Go.marshalSnapshot m), lastSeq)
  else .error .notFound

/-- `Start` and `Marshal` on the text of a document -/
def startOfText (snapshot : Option (JsonObject ℤ)) (seq : ℕ) : Except StreamError (Envelope ℤ) :=
  if snapshot.all fun document => DocTree.fits (numberIs inRange) Go.Json.maxNestingDepth (.obj document) then do
    let data ← startData (snapshot.map (mapObject Float64.ofInt)) seq
    return data.mapNumbers Float64.value
  else .error (.marshal (.err .decode))

/-- The text of the start that a call resumed after a cursor makes up. -/
def synthesizedStart [LinearOrder κ] (keys : Keys κ (Envelope ℤ)) (cursor : κ) : Except StreamError (Envelope ℤ) := do
  let (snapshot, seq) ← snapshotTextThrough keys cursor
  startOfText snapshot seq

/-- The synthesized start holds the document of a reader of the stored texts. -/
def Preserves [LinearOrder κ] (keys : Keys κ (Envelope ℤ)) (cursor : κ) : Prop :=
  ∃ start document, synthesizedStart keys cursor = .ok start ∧
    modelFrom [] ((eventsThrough cursor keys).map Entry.event) = some (some document) ∧ start.model = some document

/-! ## Decoded documents -/

theorem inRange_value (x : Float64) : inRange x.value = true := by
  unfold inRange
  rw [x.rounded, decide_eq_true_iff]
  exact x.finite

/-- The integers in range are those below the bound on finite binary64 numbers. -/
theorem inRange_iff (n : ℤ) : inRange n = true ↔ n.natAbs < infinityFrom := by
  have hbound : nearest 52 n.natAbs < overflow ↔ n.natAbs < infinityFrom := by
    rw [overflow, infinityFrom]
    simpa only [Nat.reduceAdd] using nearest_lt_two_pow_iff 52 970 n.natAbs
  rw [inRange, decide_eq_true_iff, nearestInt, Int.natAbs_mul, Int.natAbs_natCast, ← hbound]
  by_cases hzero : n = 0
  · simp [hzero, overflow_pos, nearest_of_le]
  · rw [Int.natAbs_sign_of_ne_zero hzero, Nat.one_mul]

/-- So a numeral of the integer is decoded within the same bound. -/
theorem isFloat_iff_inRange {n : Numeral} {i : ℤ} (hi : n.value = i) : Go.isFloat (.num n) = true ↔ inRange i = true := by
  have habs : |n.value| = (i.natAbs : ℚ) := by rw [hi, Nat.cast_natAbs, Int.cast_abs]
  rw [inRange_iff, Go.isFloat, decide_eq_true_iff, habs, Nat.cast_lt]

/-- A float that is written and decoded is the float. -/
@[simp] theorem ofInt_value (x : Float64) : Float64.ofInt x.value = x := by
  obtain ⟨n, hrounded, hfinite⟩ := x
  have hrange := inRange_value ⟨n, hrounded, hfinite⟩
  simp only [Float64.ofInt, hrange, hrounded, dite_true]

theorem mapObject_ofInt_value (o : JsonObject Float64) : mapObject Float64.ofInt (mapObject Float64.value o) = o := by
  refine DocTree.mapFields_mapFields_of_leftInverse (fun a => ?_) o
  cases a with
  | num x => rw [Scalar.map, Scalar.map, ofInt_value]
  | null => rfl
  | bool b => rfl
  | str s => rfl

/-- What is written nests like the document, and all of its numbers are in range. -/
theorem fits_mapObject_value (n : ℕ) (o : JsonObject Float64) :
    DocTree.fits (numberIs inRange) n (.obj (mapObject Float64.value o)) =
      DocTree.fits (fun _ => true) n (.obj o) := by
  have hrange : numberIs inRange ∘ Scalar.map Float64.value = fun _ => true := by
    funext a
    cases a with
    | num x => rw [Function.comp_apply, Scalar.map, numberIs, inRange_value]
    | null => rfl
    | bool b => rfl
    | str s => rfl
  have h := DocTree.fits_map (p := numberIs inRange) (f := Scalar.map Float64.value) (.obj o : Json Float64) n
  rwa [hrange] at h

theorem fits_mapObject_ofInt (n : ℕ) (o : JsonObject ℤ) :
    DocTree.fits (fun _ => true) n (.obj (mapObject Float64.ofInt o)) = DocTree.fits (fun _ => true) n (.obj o) :=
  DocTree.fits_map (p := fun _ => true) (f := Scalar.map Float64.ofInt) (.obj o : Json ℤ) n

theorem modelOk_mapObject {μ ν : Type} (f : ν → μ) (o : JsonObject ν) :
    modelOk Go.rules (mapObject f o) = modelOk Go.rules o := by
  rw [Bool.eq_iff_iff, ← Go.validateModel_eq_ok_iff, ← Go.validateModel_eq_ok_iff, Go.validateModel_mapObject]

/-- The document is written as it was exactly when all of its numbers are floats. -/
theorem fits_isFloat64_iff {n : ℕ} {o : JsonObject ℤ} :
    DocTree.fits (numberIs isFloat64) n (.obj o) = true ↔ DocTree.fits (fun _ => true) n (.obj o) = true ∧
      mapObject Float64.value (mapObject Float64.ofInt o) = o := by
  have hleaf : ∀ a, numberIs isFloat64 a = true ↔ (Scalar.map Float64.value ∘ Scalar.map Float64.ofInt) a = a := by
    intro a
    cases a with
    | num m => simp [numberIs, isFloat64, Scalar.map]
    | null => simp [numberIs, Scalar.map]
    | bool b => simp [numberIs, Scalar.map]
    | str s => simp [numberIs, Scalar.map]
  have hmap : DocTree.map (Scalar.map Float64.value ∘ Scalar.map Float64.ofInt) (.obj o) = .obj o ↔
      mapObject Float64.value (mapObject Float64.ofInt o) = o := by
    rw [← DocTree.map_map]
    exact DocTree.obj.injEq _ _ ▸ Iff.rfl
  rw [DocTree.fits_iff_map_eq hleaf, hmap]

/-! ## The synthesized start -/

/-- The loop on the texts of an accepted timeline fails at a text that cannot be decoded, and nowhere else. -/
theorem applyTexts_of_applyStored {items : List (Entry κ (Envelope ℤ))} {s t : Option (Go.Map ℤ)} {n m : ℕ}
    (h : applyStored items s n = .ok (t, m)) :
    applyTexts items (s.map (Go.mapSnapshot Float64.ofInt)) n =
      if items.all fun item => decodable item.event then .ok (t.map (Go.mapSnapshot Float64.ofInt), m)
      else .error (.parse (.err .decode)) := by
  induction items generalizing s n with
  | nil =>
    obtain ⟨rfl, rfl⟩ : s = t ∧ n = m := by simpa [applyStored] using h
    rfl
  | cons item rest ih =>
    rw [applyStored] at h
    rw [applyTexts, parseText, List.all_cons]
    cases hdecodable : decodable item.event with
    | false => rfl
    | true =>
      cases hparse : Go.parse item.event with
      | error f => simp [hparse] at h
      | ok event =>
        obtain ⟨rfl, -⟩ := parse_eq_ok hparse
        simp only [hparse] at h
        cases happly : Go.apply s (Go.decoded item.event) with
        | raised f u => simp [happly] at h
        | returned u =>
          simp only [happly] at h
          have hmapped := Go.apply_mapNumbers Float64.ofInt s item.event
          rw [happly, Applied.state?_returned, Option.map_some] at hmapped
          simp only [if_true, Go.parse_mapNumbers, hparse, Except.map, Bool.true_and]
          cases hd : Go.apply (s.map (Go.mapSnapshot Float64.ofInt)) (Go.decoded (item.event.mapNumbers .ofInt)) with
          | raised f v => rw [hd] at hmapped; cases hmapped
          | returned v =>
            rw [hd] at hmapped
            obtain rfl := Option.some.inj hmapped
            exact ih h

/-- A start is made up of a written document exactly when the document is valid and nests not too deep. -/
theorem exists_startOfText_iff {document : JsonObject Float64} {seq : ℕ} {value : JsonObject ℤ} :
    (∃ start, startOfText (some (mapObject Float64.value document)) seq = .ok start ∧ start.model = some value) ↔
      modelOk Go.rules document = true ∧
        DocTree.fits (fun _ => true) Go.Json.maxNestingDepth (.obj document) = true ∧
        mapObject Float64.value document = value := by
  unfold startOfText
  rw [Option.all_some, fits_mapObject_value, Option.map_some, mapObject_ofInt_value]
  split_ifs with hfits
  · constructor
    · rintro ⟨start, hstart, hmodel⟩
      obtain ⟨data, hdata, hreturn⟩ := bind_eq_ok.mp hstart
      obtain rfl : data.mapNumbers Float64.value = start := by simpa [pure, Except.pure] using hreturn
      rw [Envelope.mapNumbers, model_of_startData hdata] at hmodel
      exact ⟨(startData_eq_ok_iff.mp hdata).1, hfits, Option.some.inj hmodel⟩
    · rintro ⟨hok, -, rfl⟩
      obtain ⟨data, hdata⟩ : ∃ data, startData (some document) seq = .ok data := exists_startData_iff.mpr hok
      refine ⟨data.mapNumbers Float64.value, by rw [hdata]; rfl, ?_⟩
      rw [Envelope.mapNumbers, model_of_startData hdata]
      rfl
  · constructor
    · rintro ⟨start, hstart, -⟩
      cases hstart
    · rintro ⟨-, h, -⟩
      exact absurd h hfits

/-- At a stored cursor. -/
theorem preserves_iff_startable [LinearOrder κ] {keys : Keys κ (Envelope ℤ)} {past behind : List (Entry κ (Envelope ℤ))}
    {entry : Entry κ (Envelope ℤ)} (hevents : keys.events = past ++ entry :: behind)
    (hsorted : keys.events.Pairwise fun a b => a.cursor < b.cursor)
    (haccepted : ∃ r, applyStored keys.events (some []) 0 = .ok r) :
    Preserves keys entry.cursor ↔ (∀ item ∈ past ++ [entry], decodable item.event = true) ∧
      ∃ m, reduceFrom (some []) ((past ++ [entry]).map Entry.event) = some (some m) ∧
        Startable (numberIs isFloat64) (Go.marshalSnapshot m) := by
  obtain ⟨m, seq, hthrough⟩ := exists_applyStored hevents haccepted
  have hreduce := reduceFrom_of_applyStored hthrough
  have htexts := applyTexts_of_applyStored hthrough
  have hdocument : modelFrom [] ((eventsThrough entry.cursor keys).map Entry.event) =
      some (some (Go.marshalSnapshot m)) := by
    rw [eventsThrough_eq hevents hsorted]
    exact congrArg (Option.map _) hreduce
  -- the start is made up of what the decoded events lead to
  have hstart : ∀ start, synthesizedStart keys entry.cursor = .ok start ↔
      (∀ item ∈ past ++ [entry], decodable item.event = true) ∧
        startOfText (some (mapObject Float64.value (mapObject Float64.ofInt (Go.marshalSnapshot m)))) seq = .ok start := by
    intro start
    unfold synthesizedStart snapshotTextThrough
    rw [eventsThrough_eq hevents hsorted, if_pos (by simp), show some [] = Option.map (Go.mapSnapshot Float64.ofInt) (some [])
      from rfl, htexts, ← List.all_eq_true]
    cases ((past ++ [entry]).all fun item => decodable item.event) with
    | true =>
      rw [if_pos rfl, Option.map_some, ← Go.marshalSnapshot_mapSnapshot]
      exact (and_iff_right rfl).symm
    | false =>
      rw [if_neg (by simp)]
      exact ⟨fun h => (by cases h), fun h => (by cases h.1)⟩
  constructor
  · rintro ⟨start, document, hok, hmodel, hstored⟩
    obtain rfl : Go.marshalSnapshot m = document := Option.some.inj (Option.some.inj (hdocument.symm.trans hmodel))
    obtain ⟨hdecodable, hok⟩ := (hstart start).mp hok
    obtain ⟨hvalid, hfits, hsame⟩ := exists_startOfText_iff.mp ⟨start, hok, hstored⟩
    rw [modelOk_mapObject] at hvalid
    rw [fits_mapObject_ofInt] at hfits
    exact ⟨hdecodable, m, hreduce, hvalid, fits_isFloat64_iff.mpr ⟨hfits, hsame⟩⟩
  · rintro ⟨hdecodable, m', hreduce', hvalid, hfloats⟩
    obtain rfl := Option.some.inj (Option.some.inj (hreduce.symm.trans hreduce'))
    obtain ⟨hfits, hsame⟩ := fits_isFloat64_iff.mp hfloats
    rw [← modelOk_mapObject Float64.ofInt] at hvalid
    rw [← fits_mapObject_ofInt] at hfits
    obtain ⟨start, hok, hstored⟩ := (@exists_startOfText_iff _ seq _).mpr ⟨hvalid, hfits, hsame⟩
    exact ⟨start, _, (hstart start).mpr ⟨hdecodable, hok⟩, hdocument, hstored⟩

/-- An accepted timeline that begins with a start is resumed after every cursor stored in it with the document of a
reader of its texts exactly when each of its texts can be decoded and each event is a typed edit of the document that
it meets, nests nothing too deep and stores integers that are floats. -/
theorem preserves_iff_keepsResumable [LinearOrder κ] {keys : Keys κ (Envelope ℤ)}
    (hsorted : keys.events.Pairwise fun a b => a.cursor < b.cursor) (hstart : StartsRun (keys.events.map Entry.event))
    (haccepted : ∃ r, applyStored keys.events (some []) 0 = .ok r) :
    (∀ entry ∈ keys.events, Preserves keys entry.cursor) ↔
      (∀ entry ∈ keys.events, decodable entry.event = true) ∧
        KeepsResumable (numberIs isFloat64) (keys.events.map Entry.event) := by
  rw [← startable_iff_keepsResumable rfl (fun _ => rfl) hstart (reduceFrom_ne_none haccepted),
    ← List.forall_mem_map (P := fun event => decodable event = true)]
  refine (forall_entry_iff (Q := fun q => (∀ event ∈ q, decodable event = true) ∧
    ∃ m, reduceFrom (some []) q = some (some m) ∧ Startable (numberIs isFloat64) (Go.marshalSnapshot m))
    fun past entry behind hevents => ?_).trans ?_
  · rw [preserves_iff_startable hevents hsorted haccepted, List.forall_mem_map]
  · constructor
    · intro h
      obtain ⟨event, rest, hevents, -⟩ := hstart
      exact ⟨(h _ (List.prefix_refl _) (by rw [hevents]; simp)).1, fun q hq hne => (h q hq hne).2⟩
    · exact fun h q hq hne => ⟨fun event hevent => h.1 event (hq.subset hevent), h.2 q hq hne⟩

/-- The document of the synthesized start; `none` when there is none. -/
def startedWith (keys : Keys ℕ (Envelope ℤ)) (cursor : ℕ) : Option (JsonObject ℤ) :=
  (synthesizedStart keys cursor).toOption.bind Envelope.model

/-- The document of a reader of the stored texts. -/
def readThrough (keys : Keys ℕ (Envelope ℤ)) (cursor : ℕ) : Option (JsonObject ℤ) :=
  (modelFrom [] ((eventsThrough cursor keys).map Entry.event)).join

theorem preserves_iff_startedWith {keys : Keys ℕ (Envelope ℤ)} {cursor : ℕ} :
    Preserves keys cursor ↔
      (readThrough keys cursor).isSome = true ∧ startedWith keys cursor = readThrough keys cursor := by
  constructor
  · rintro ⟨start, document, hstart, hread, hmodel⟩
    simp [startedWith, readThrough, hstart, hread, hmodel, Except.toOption]
  · rintro ⟨hread, hsame⟩
    obtain ⟨document, hdocument⟩ := Option.isSome_iff_exists.mp hread
    rw [hdocument] at hsame
    obtain ⟨start, hstart, hmodel⟩ := Option.bind_eq_some_iff.mp hsame
    exact ⟨start, document, toOption_eq_some.mp hstart, Option.join_eq_some_iff.mp hdocument, hmodel⟩

/-- A number in a domain field of the meta of the chat. -/
def chatCounts (n : ℤ) : Envelope ℤ :=
  ⟨.set, 2, none, none, some "meta.count", none, none, some [("count", .num n)], none⟩

/-- The timeline of a chat with such a number. -/
def chatCounting (n : ℤ) : Keys ℕ (Envelope ℤ) :=
  let start := chatStart.mapNumbers Int.ofNat
  ((Call.publish (chatCounts n) 2).run 11 ((Call.initialize_ start start 1).run 10 ⟨none, []⟩).2).2

/-- The document of the chat. -/
def chatCount (n : ℤ) : JsonObject ℤ :=
  [("version", .str "1.1"), ("biz", .str "chat"), ("meta", .obj [("count", .num n)]), ("blocks", .arr [])]

theorem chatCounting_events (n : ℤ) : (chatCounting n).events =
    [⟨10, chatStart.mapNumbers Int.ofNat, 1⟩, ⟨11, chatCounts n, 2⟩] := by
  rfl

/-- The first integer that is no float comes back as the one before it. -/
theorem large_count_is_rounded : (chatCounting (2 ^ 53 + 1)).events.Pairwise (fun a b => a.cursor < b.cursor) ∧
    StartsRun ((chatCounting (2 ^ 53 + 1)).events.map Entry.event) ∧
    (∃ r, applyStored (chatCounting (2 ^ 53 + 1)).events (some []) 0 = .ok r) ∧
    readThrough (chatCounting (2 ^ 53 + 1)) 11 = some (chatCount (2 ^ 53 + 1)) ∧
    startedWith (chatCounting (2 ^ 53 + 1)) 11 = some (chatCount (2 ^ 53)) ∧
    ∃ entry ∈ (chatCounting (2 ^ 53 + 1)).events, ¬ Preserves (chatCounting (2 ^ 53 + 1)) entry.cursor := by
  have haccepted : (applyStored (chatCounting (2 ^ 53 + 1)).events (some []) 0).toOption.isSome = true := by
    decide +kernel
  have hread : readThrough (chatCounting (2 ^ 53 + 1)) 11 = some (chatCount (2 ^ 53 + 1)) := by decide +kernel
  have hstarted : startedWith (chatCounting (2 ^ 53 + 1)) 11 = some (chatCount (2 ^ 53)) := by decide +kernel
  refine ⟨by rw [chatCounting_events]; decide, ⟨_, _, by rw [chatCounting_events]; rfl, rfl⟩, ?_, hread, hstarted,
    ⟨11, chatCounts (2 ^ 53 + 1), 2⟩, by rw [chatCounting_events]; simp, fun h => ?_⟩
  · obtain ⟨r, hr⟩ := Option.isSome_iff_exists.mp haccepted
    exact ⟨r, toOption_eq_some.mp hr⟩
  · have hsame := (preserves_iff_startedWith.mp h).2
    rw [hread, hstarted] at hsame
    exact absurd hsame (by decide)

/-- The integer before it comes back, and so it is a float that is stored by a typed edit. -/
theorem preserves_iff_keepsResumable_count :
    (∀ entry ∈ (chatCounting (2 ^ 53)).events, decodable entry.event = true) ∧
      KeepsResumable (numberIs isFloat64) ((chatCounting (2 ^ 53)).events.map Entry.event) := by
  have haccepted : (applyStored (chatCounting (2 ^ 53)).events (some []) 0).toOption.isSome = true := by
    decide +kernel
  have hpreserved : ∀ entry ∈ (chatCounting (2 ^ 53)).events, (readThrough (chatCounting (2 ^ 53)) entry.cursor).isSome
      = true ∧ startedWith (chatCounting (2 ^ 53)) entry.cursor = readThrough (chatCounting (2 ^ 53)) entry.cursor := by
    decide +kernel
  refine (preserves_iff_keepsResumable (by rw [chatCounting_events]; decide)
    ⟨_, _, by rw [chatCounting_events]; rfl, rfl⟩ ?_).mp fun entry hentry =>
      preserves_iff_startedWith.mpr (hpreserved entry hentry)
  obtain ⟨r, hr⟩ := Option.isSome_iff_exists.mp haccepted
  exact ⟨r, toOption_eq_some.mp hr⟩

end AgentUE.GoRunner
