import AgentUE.Data.Distinct
import AgentUE.Data.Nesting
import AgentUE.Data.Utf8
import AgentUE.Go.Json
import AgentUE.Go.Validation

/-!
# Go SDK: writing and parsing an event

`Marshal` leaves out what is empty, the zero strings as well as the maps that are present and empty, writes U+FFFD
for a byte that is no UTF-8 and `null` for a nil map or slice, and a value of a type that no decoder makes as
something else. `Parse` refuses what is nested too deep. An event comes back from its text when none of this loses
anything.

Reference: `sdks/go/ui/event.go`; what `encoding/json` does to a string is modelled on its bytes. A map is a list of
members with distinct names, which are written and read in their order.
-/

namespace AgentUE.Go.Codec

open Data

variable {ν : Type}

/-! ## Payloads -/

/-- What an `any` of a payload holds where it holds no map and no slice with elements of its own: `other` is a value
that is no `bool`, number, `string`, `map[string]any` or `[]any`, with what `Marshal` writes for it, if it writes
anything. -/
inductive Leaf (ν : Type) where
  | null
  | bool (b : Bool)
  | num (n : ν)
  | str (s : List UInt8)
  | nilMap
  | nilSlice
  | other (written : Option (Json ν))
deriving DecidableEq

/-- `any` in a payload: a string is its bytes. -/
abbrev Any (ν : Type) := DocTree (List UInt8) (Leaf ν)

/-- A `map[string]any` that is not nil. -/
@[ext]
structure Payload (ν : Type) where
  members : List (List UInt8 × Any ν)
  distinct : DocTree.distinct (.obj members) = true
deriving DecidableEq

/-- `Event` in its own types: a string is its bytes, a nil map is `none`. -/
structure Event (ν : Type) where
  streamId : List UInt8
  op : Op
  seq : UInt64
  timestamp : Option Int64
  mask : List UInt8
  eventType : List UInt8
  model : Option (Payload ν)
  meta_ : Option (Payload ν)
  block : Option (Payload ν)
deriving DecidableEq

/-! ## Validation -/

/-- The checks compare bytes with ASCII texts, so that a byte may stand for the character of its number. -/
def byteText (s : List UInt8) : String := String.ofList (s.map fun b => Char.ofNat b.toNat)

/-- What a check of a member sees: a nil map is no object, a nil slice is a list, and a value of another type is none
of what is asked for, and not nil either. -/
def Leaf.seen : Leaf ν → Json ν
  | .null => .leaf .null
  | .bool b => .leaf (.bool b)
  | .num n => .leaf (.num n)
  | .str s => .str (byteText s)
  | .nilSlice => .arr []
  | .nilMap | .other _ => .leaf (.bool false)

mutual

/-- What the checks see of a member. -/
def seen : Any ν → Json ν
  | .leaf a => a.seen
  | .arr xs => .arr (seenList xs)
  | .obj fs => .obj (seenFields fs)

/-- What they see of the elements of a list: there a nil map is a block without members. -/
def seenList : List (Any ν) → List (Json ν)
  | [] => []
  | .leaf .nilMap :: xs => .obj [] :: seenList xs
  | x :: xs => seen x :: seenList xs

/-- What they see of a map. -/
def seenFields : List (List UInt8 × Any ν) → JsonObject ν
  | [] => []
  | (k, v) :: fs => (byteText k, seen v) :: seenFields fs

end

/-- The fields that `Validate` reads. -/
def Event.fields (event : Event ν) : Go.Event ν where
  streamId := byteText event.streamId
  op := event.op
  seq := event.seq.toNat
  timestamp := event.timestamp.map Int64.toInt
  mask := byteText event.mask
  eventType := byteText event.eventType
  model := event.model.map fun m => seenFields m.members
  meta_ := event.meta_.map fun m => seenFields m.members
  block := event.block.map fun m => seenFields m.members

/-- `Event.Validate` -/
def Event.validate (event : Event ν) : Except Failure Unit := event.fields.validate

/-! ## Writing -/

/-- What `Marshal` writes for a leaf. -/
def Leaf.write : Leaf ν → Option (Json ν)
  | .null | .nilMap | .nilSlice => some (.leaf .null)
  | .bool b => some (.leaf (.bool b))
  | .num n => some (.leaf (.num n))
  | .str s => some (.str (Utf8.text s))
  | .other written => written

mutual

/-- What `Marshal` writes for a value. -/
def write : Any ν → Option (Json ν)
  | .leaf a => a.write
  | .arr xs => (writeList xs).map .arr
  | .obj fs => (writeFields fs).map .obj

/-- `write` on the elements of a list. -/
def writeList : List (Any ν) → Option (List (Json ν))
  | [] => some []
  | x :: xs => do
    let y ← write x
    let ys ← writeList xs
    return y :: ys

/-- `write` on the members of a map. -/
def writeFields : List (List UInt8 × Any ν) → Option (JsonObject ν)
  | [] => some []
  | (k, v) :: fs => do
    let w ← write v
    let gs ← writeFields fs
    return (Utf8.text k, w) :: gs

end

/-- The object that `Marshal` writes, with the type of each member. -/
structure Members (ν : Type) where
  streamId : Option String
  op : Op
  seq : ℕ
  ts : Option ℤ
  mask : Option String
  eventType : Option String
  model : Option (JsonObject ν)
  meta_ : Option (JsonObject ν)
  block : Option (JsonObject ν)
deriving DecidableEq

/-- A string with `omitempty` -/
def encodeString (s : List UInt8) : Option String := if s = [] then none else some (Utf8.text s)

/-- A map with `omitempty`: an empty one is left out like a nil one. -/
def encodeMap : Option (Payload ν) → Option (Option (JsonObject ν))
  | none => some none
  | some m => if m.members = [] then some none else (writeFields m.members).map some

/-- `json.Marshal` of an event; `none` when it has no text for one of the values. -/
def Event.encode (event : Event ν) : Option (Members ν) := do
  let model ← encodeMap event.model
  let meta_ ← encodeMap event.meta_
  let block ← encodeMap event.block
  return {
    streamId := encodeString event.streamId
    op := event.op
    seq := event.seq.toNat
    ts := event.timestamp.map Int64.toInt
    mask := encodeString event.mask
    eventType := encodeString event.eventType
    model := model
    meta_ := meta_
    block := block }

/-- Why `Marshal` fails. -/
inductive MarshalError where
  | invalid (f : Failure)
  | unsupportedType
deriving DecidableEq

/-- `Event.Marshal` -/
def Event.marshal (event : Event ν) : Except MarshalError (Members ν) :=
  match event.validate with
  | .error f => .error (.invalid f)
  | .ok () =>
    match event.encode with
    | none => .error .unsupportedType
    | some members => .ok members

/-! ## Reading -/

/-- What the decoder stores for a literal. -/
def ofScalar : Scalar ν → Leaf ν
  | .null => .null
  | .bool b => .bool b
  | .num n => .num n
  | .str s => .str (Utf8.encode s)

mutual

/-- What the decoder stores in an `any`: of a name that occurs twice the last member counts. -/
def read : Json ν → Any ν
  | .leaf a => .leaf (ofScalar a)
  | .arr xs => .arr (readList xs)
  | .obj fs => .obj (Fields.collect (readFields fs))

/-- `read` on the elements of a list. -/
def readList : List (Json ν) → List (Any ν)
  | [] => []
  | x :: xs => read x :: readList xs

/-- `read` on the members of an object. -/
def readFields : JsonObject ν → List (List UInt8 × Any ν)
  | [] => []
  | (k, v) :: fs => (Utf8.encode k, read v) :: readFields fs

end

theorem readList_eq_map (xs : List (Json ν)) : readList xs = xs.map read := by
  induction xs with
  | nil => rfl
  | cons x xs ih => rw [readList, ih, List.map_cons]

theorem readFields_eq_map (fs : JsonObject ν) : readFields fs = fs.map fun p => (Utf8.encode p.1, read p.2) := by
  induction fs with
  | nil => rfl
  | cons p fs ih => rw [readFields, ih, List.map_cons]

/-- A decoded map has no name twice. -/
theorem distinct_read (t : Json ν) : DocTree.distinct (read t) = true := by
  induction t using DocTree.induct with
  | leaf a => rfl
  | arr xs ih =>
    rw [read, readList_eq_map, DocTree.distinct_arr_iff, List.forall_mem_map]
    exact ih
  | obj fs ih =>
    rw [read, DocTree.distinct_obj_iff]
    refine ⟨Fields.nodup_collect _, fun p hp => ?_⟩
    have hmem := Fields.mem_collect hp
    rw [readFields_eq_map, List.mem_map] at hmem
    obtain ⟨q, hq, rfl⟩ := hmem
    exact ih q hq

/-- A map of an event -/
def Payload.read (fs : JsonObject ν) : Payload ν := ⟨Fields.collect (readFields fs), distinct_read (.obj fs)⟩

/-- An absent string is the zero value. -/
def decodeString (s : Option String) : List UInt8 := (s.map Utf8.encode).getD []

/-- An object, a member of the event, is nested no deeper than the decoder allows. -/
def shallow (object : Option (JsonObject ν)) : Bool :=
  object.all fun m => DocTree.fits (fun _ => true) (Json.maxNestingDepth - 1) (.obj m)

/-- `decoder.Decode(&event)` -/
def decode (members : Members ν) : Except Failure (Event ν) := do
  check (decide (members.seq < 2 ^ 64)) (.err .decode)
  check (members.ts.all fun ts => decide (-2 ^ 63 ≤ ts) && decide (ts < 2 ^ 63)) (.err .decode)
  check (shallow members.model && shallow members.meta_ && shallow members.block) (.err .decode)
  return {
    streamId := decodeString members.streamId
    op := members.op
    seq := UInt64.ofNat members.seq
    timestamp := members.ts.map Int64.ofInt
    mask := decodeString members.mask
    eventType := decodeString members.eventType
    model := members.model.map Payload.read
    meta_ := members.meta_.map Payload.read
    block := members.block.map Payload.read }

/-- `Parse` -/
def parse (members : Members ν) : Except Failure (Event ν) := do
  let event ← decode members
  event.validate
  return event

/-- What is written of the event is parsed as the event. -/
def RoundTrips (event : Event ν) : Prop := ∃ members, event.marshal = .ok members ∧ parse members = .ok event

/-! ## Strings and values -/

/-- The bytes are the UTF-8 form of a text. -/
def IsText (s : List UInt8) : Prop := ∃ text, s = Utf8.encode text

theorem decodeString_encodeString_iff {s : List UInt8} : decodeString (encodeString s) = s ↔ IsText s := by
  unfold encodeString decodeString
  split_ifs with h
  · exact iff_of_true h.symm ⟨"", h⟩
  · exact Utf8.encode_text_iff

/-- A value that has a text of its own: its strings and names are UTF-8, and it holds nothing that a decoder does not
make. -/
inductive Plain : Any ν → Prop
  | null : Plain (.leaf .null)
  | bool (b : Bool) : Plain (.leaf (.bool b))
  | num (n : ν) : Plain (.leaf (.num n))
  | str {s : List UInt8} : IsText s → Plain (.leaf (.str s))
  | arr {xs : List (Any ν)} : (∀ x ∈ xs, Plain x) → Plain (.arr xs)
  | obj {fs : List (List UInt8 × Any ν)} : (∀ p ∈ fs, IsText p.1) → (∀ p ∈ fs, Plain p.2) → Plain (.obj fs)

/-- What is written of the value is read as the value, and nests as deep as it does. -/
def Comes (t : Any ν) : Prop :=
  ∃ j, write t = some j ∧ read j = t ∧ ∀ n, DocTree.fits (fun _ => true) n j = DocTree.fits (fun _ => true) n t

theorem exists_writeList {xs : List (Any ν)} (h : ∀ x ∈ xs, Comes x) :
    ∃ ys, writeList xs = some ys ∧ readList ys = xs ∧
      ∀ n, DocTree.fitsList (fun _ => true) n ys = DocTree.fitsList (fun _ => true) n xs := by
  induction xs with
  | nil => exact ⟨[], rfl, rfl, fun _ => rfl⟩
  | cons x xs ih =>
    obtain ⟨y, hwrite, hread, hfits⟩ := h x (by simp)
    obtain ⟨ys, hwrites, hreads, hfitss⟩ := ih fun x hx => h x (by simp [hx])
    exact ⟨y :: ys, by simp [writeList, hwrite, hwrites], by rw [readList, hread, hreads],
      fun n => by rw [DocTree.fitsList, DocTree.fitsList, hfits, hfitss]⟩

theorem exists_writeFields {fs : List (List UInt8 × Any ν)} (hnames : ∀ p ∈ fs, IsText p.1)
    (h : ∀ p ∈ fs, Comes p.2) :
    ∃ gs, writeFields fs = some gs ∧ readFields gs = fs ∧
      ∀ n, DocTree.fitsFields (fun _ => true) n gs = DocTree.fitsFields (fun _ => true) n fs := by
  induction fs with
  | nil => exact ⟨[], rfl, rfl, fun _ => rfl⟩
  | cons p fs ih =>
    obtain ⟨k, v⟩ := p
    obtain ⟨w, hwrite, hread, hfits⟩ := h (k, v) (by simp)
    obtain ⟨gs, hwrites, hreads, hfitss⟩ := ih (fun p hp => hnames p (by simp [hp])) fun p hp => h p (by simp [hp])
    refine ⟨(Utf8.text k, w) :: gs, by simp [writeFields, hwrite, hwrites], ?_,
      fun n => by rw [DocTree.fitsFields, DocTree.fitsFields, hfits, hfitss]⟩
    rw [readFields, hread, hreads, Utf8.encode_text_iff.mpr (hnames (k, v) (by simp))]

/-- A plain value comes back. -/
theorem comes_of_plain {t : Any ν} (h : Plain t) (hdistinct : DocTree.distinct t = true) : Comes t := by
  induction t using DocTree.induct with
  | leaf a =>
    cases h with
    | null | bool _ | num _ => exact ⟨_, rfl, rfl, fun n => by simp⟩
    | str hs =>
      exact ⟨_, rfl, by rw [DocTree.str, read, ofScalar, Utf8.encode_text_iff.mpr hs], fun n => by simp [DocTree.str]⟩
  | arr xs ih =>
    cases h with
    | arr hxs =>
      rw [DocTree.distinct_arr_iff] at hdistinct
      obtain ⟨ys, hwrite, hread, hfits⟩ := exists_writeList fun x hx => ih x hx (hxs x hx) (hdistinct x hx)
      refine ⟨.arr ys, by rw [write, hwrite, Option.map_some], by rw [read, hread], fun n => ?_⟩
      cases n with
      | zero => rfl
      | succ n => rw [DocTree.fits, DocTree.fits, hfits]
  | obj fs ih =>
    cases h with
    | obj hnames hvalues =>
      rw [DocTree.distinct_obj_iff] at hdistinct
      obtain ⟨gs, hwrite, hread, hfits⟩ := exists_writeFields hnames fun p hp =>
        ih p hp (hvalues p hp) (hdistinct.2 p hp)
      refine ⟨.obj gs, by rw [write, hwrite, Option.map_some],
        by rw [read, hread, Fields.collect_eq_self hdistinct.1], fun n => ?_⟩
      cases n with
      | zero => rfl
      | succ n => rw [DocTree.fits, DocTree.fits, hfits]

theorem elements_of_readList {xs : List (Any ν)} {ys : List (Json ν)} (hwrite : writeList xs = some ys)
    (hread : readList ys = xs) : ∀ x ∈ xs, ∃ y, write x = some y ∧ read y = x := by
  induction xs generalizing ys with
  | nil => simp
  | cons x xs ih =>
    simp only [writeList, bind, Option.bind_eq_some_iff, pure, Option.some.injEq] at hwrite
    obtain ⟨y, hy, ys, hys, rfl⟩ := hwrite
    obtain ⟨hx, hxs⟩ := List.cons.inj hread
    rw [List.forall_mem_cons]
    exact ⟨⟨y, hy, hx⟩, ih hys hxs⟩

theorem length_writeFields {fs : List (List UInt8 × Any ν)} {gs : JsonObject ν} (h : writeFields fs = some gs) :
    gs.length = fs.length := by
  induction fs generalizing gs with
  | nil =>
    obtain rfl := Option.some.inj h
    rfl
  | cons p fs ih =>
    obtain ⟨k, v⟩ := p
    simp only [writeFields, bind, Option.bind_eq_some_iff, pure, Option.some.injEq] at h
    obtain ⟨w, -, gs, hgs, rfl⟩ := h
    rw [List.length_cons, List.length_cons, ih hgs]

theorem members_of_readFields {fs : List (List UInt8 × Any ν)} {gs : JsonObject ν} (hwrite : writeFields fs = some gs)
    (hread : readFields gs = fs) : ∀ p ∈ fs, IsText p.1 ∧ ∃ w, write p.2 = some w ∧ read w = p.2 := by
  induction fs generalizing gs with
  | nil => simp
  | cons p fs ih =>
    obtain ⟨k, v⟩ := p
    simp only [writeFields, bind, Option.bind_eq_some_iff, pure, Option.some.injEq] at hwrite
    obtain ⟨w, hw, gs, hgs, rfl⟩ := hwrite
    obtain ⟨hp, hfs⟩ := List.cons.inj hread
    obtain ⟨hk, hv⟩ := Prod.mk.inj hp
    rw [List.forall_mem_cons]
    exact ⟨⟨⟨_, hk.symm⟩, w, hw, hv⟩, ih hgs hfs⟩

/-- Members that come back have not been merged with others. -/
theorem readFields_of_collect {fs : List (List UInt8 × Any ν)} {gs : JsonObject ν} (hwrite : writeFields fs = some gs)
    (hread : Fields.collect (readFields gs) = fs) : readFields gs = fs := by
  have hlength : (readFields gs).length = fs.length := by
    rw [readFields_eq_map, List.length_map, length_writeFields hwrite]
  exact (Fields.collect_eq_self_of_length (by rw [hread, hlength])).symm.trans hread

/-- What comes back is plain. -/
theorem plain_of_read {t : Any ν} {j : Json ν} (hwrite : write t = some j) (hread : read j = t) : Plain t := by
  induction t using DocTree.induct generalizing j with
  | leaf a =>
    cases j with
    | arr ys => cases hread
    | obj gs => cases hread
    | leaf s =>
      cases s with
      | null => cases hread; exact .null
      | bool b => cases hread; exact .bool b
      | num n => cases hread; exact .num n
      | str s => cases hread; exact .str ⟨s, rfl⟩
  | arr xs ih =>
    obtain ⟨ys, hys, rfl⟩ := Option.map_eq_some_iff.mp hwrite
    have hxs : readList ys = xs := DocTree.arr.inj hread
    refine .arr fun x hx => ?_
    obtain ⟨y, hy, hxy⟩ := elements_of_readList hys hxs x hx
    exact ih x hx hy hxy
  | obj fs ih =>
    obtain ⟨gs, hgs, rfl⟩ := Option.map_eq_some_iff.mp hwrite
    have hfs := readFields_of_collect hgs (DocTree.obj.inj hread)
    have hmembers := members_of_readFields hgs hfs
    refine .obj (fun p hp => (hmembers p hp).1) fun p hp => ?_
    obtain ⟨-, w, hw, hv⟩ := hmembers p hp
    exact ih p hp hw hv

/-! ## The round trip -/

/-- The payload is not empty, it is nested no deeper than the decoder allows, and it is plain. -/
structure Payload.Kept (m : Payload ν) : Prop where
  filled : m.members ≠ []
  shallow : DocTree.fits (fun _ => true) (Json.maxNestingDepth - 1) (.obj m.members) = true
  plain : Plain (.obj m.members)

/-- A payload comes back exactly when there is none or it is kept. -/
theorem payload_comes_iff {m : Option (Payload ν)} :
    (∃ object, encodeMap m = some object ∧ shallow object = true ∧ object.map Payload.read = m) ↔
      ∀ payload, m = some payload → payload.Kept := by
  cases m with
  | none => simp [encodeMap, shallow]
  | some m =>
    obtain ⟨members, hdistinct⟩ := m
    simp only [Option.some.injEq, forall_eq']
    by_cases hempty : members = []
    · subst hempty
      refine iff_of_false ?_ fun h => h.filled rfl
      rintro ⟨object, hobject, -, hread⟩
      obtain rfl : none = object := by simpa [encodeMap] using hobject
      cases hread
    · simp only [encodeMap, hempty, if_false, Option.map_eq_some_iff]
      constructor
      · rintro ⟨_, ⟨gs, hgs, rfl⟩, hshallow, gs', hgs', hread⟩
        obtain rfl : gs = gs' := Option.some.inj hgs'
        have hcollect : Fields.collect (readFields gs) = members := congrArg Payload.members hread
        have hplain : Plain (.obj members) := plain_of_read (j := .obj gs) (by rw [write, hgs, Option.map_some])
          (by rw [read, hcollect])
        obtain ⟨j, hj, -, hfits⟩ := comes_of_plain hplain hdistinct
        obtain rfl : .obj gs = j := by simpa [write, hgs] using hj
        exact ⟨hempty, (hfits _).symm.trans hshallow, hplain⟩
      · rintro ⟨-, hshallow, hplain⟩
        obtain ⟨j, hj, hread, hfits⟩ := comes_of_plain hplain hdistinct
        obtain ⟨gs, hgs, rfl⟩ := Option.map_eq_some_iff.mp hj
        exact ⟨some gs, ⟨gs, hgs, rfl⟩, (hfits _).trans hshallow, gs, rfl, Payload.ext (DocTree.obj.inj hread)⟩

/-- Both integers come back, and `decode` refuses no more than what is nested too deep. -/
theorem decode_encode (event : Event ν) (model meta_ block : Option (JsonObject ν)) :
    decode { streamId := encodeString event.streamId, op := event.op, seq := event.seq.toNat,
             ts := event.timestamp.map Int64.toInt, mask := encodeString event.mask,
             eventType := encodeString event.eventType, model := model, meta_ := meta_, block := block } =
      if shallow model && shallow meta_ && shallow block then
        .ok { event with
          streamId := decodeString (encodeString event.streamId)
          mask := decodeString (encodeString event.mask)
          eventType := decodeString (encodeString event.eventType)
          model := model.map Payload.read
          meta_ := meta_.map Payload.read
          block := block.map Payload.read }
      else .error (.err .decode) := by
  have hseq : decide (event.seq.toNat < 2 ^ 64) = true := decide_eq_true event.seq.toNat_lt
  have hts : ((event.timestamp.map Int64.toInt).all fun ts =>
      decide (-2 ^ 63 ≤ ts) && decide (ts < 2 ^ 63)) = true := by
    cases event.timestamp with
    | none => rfl
    | some ts => exact Bool.and_eq_true_iff.mpr ⟨decide_eq_true ts.le_toInt, decide_eq_true ts.toInt_lt⟩
  have htimestamp : (event.timestamp.map Int64.toInt).map Int64.ofInt = event.timestamp := by
    cases event.timestamp with
    | none => rfl
    | some ts => simp
  unfold decode
  dsimp only
  rw [check_eq_ok.mpr hseq, check_eq_ok.mpr hts, UInt64.ofNat_toNat, htimestamp]
  cases shallow model && shallow meta_ && shallow block <;> rfl

/-- A valid event is written, and it is parsed as it was, exactly when each payload is kept and its strings are
UTF-8. -/
theorem roundTrips_iff {event : Event ν} (h : event.validate = .ok ()) :
    RoundTrips event ↔
      (∀ payload, event.model = some payload ∨ event.meta_ = some payload ∨ event.block = some payload →
        payload.Kept) ∧
      IsText event.streamId ∧ IsText event.mask ∧ IsText event.eventType := by
  have hmarshal : ∀ members, event.marshal = .ok members ↔ event.encode = some members := by
    intro members
    rw [Event.marshal, h]
    cases event.encode <;> simp
  have hparse : ∀ members, parse members = .ok event ↔ decode members = .ok event := by
    intro members
    rw [parse, bind_eq_ok]
    constructor
    · rintro ⟨e, he, hreturn⟩
      obtain ⟨-, hreturn⟩ := seq_eq_ok.mp hreturn
      rwa [Except.ok.inj hreturn] at he
    · exact fun he => ⟨event, he, seq_eq_ok.mpr ⟨h, rfl⟩⟩
  have hpayloads : (∀ payload, event.model = some payload ∨ event.meta_ = some payload ∨ event.block = some payload →
      payload.Kept) ↔ (∀ payload, event.model = some payload → payload.Kept) ∧
        (∀ payload, event.meta_ = some payload → payload.Kept) ∧
        ∀ payload, event.block = some payload → payload.Kept := by
    simp only [or_imp, forall_and]
  rw [hpayloads, ← payload_comes_iff, ← payload_comes_iff, ← payload_comes_iff, ← decodeString_encodeString_iff,
    ← decodeString_encodeString_iff, ← decodeString_encodeString_iff]
  simp only [RoundTrips, hmarshal, hparse]
  simp only [Event.encode, bind, Option.bind_eq_some_iff, pure, Option.some.injEq]
  constructor
  · rintro ⟨members, ⟨model, hmodel, meta_, hmeta, block, hblock, rfl⟩, hdecode⟩
    rw [decode_encode] at hdecode
    split_ifs at hdecode with hshallow
    simp only [Bool.and_eq_true] at hshallow
    have heq := Except.ok.inj hdecode
    exact ⟨⟨⟨model, hmodel, hshallow.1.1, congrArg Event.model heq⟩,
      ⟨meta_, hmeta, hshallow.1.2, congrArg Event.meta_ heq⟩, ⟨block, hblock, hshallow.2, congrArg Event.block heq⟩⟩,
      congrArg Event.streamId heq, congrArg Event.mask heq, congrArg Event.eventType heq⟩
  · rintro ⟨⟨⟨model, hmodel, hshallow, hmodel'⟩, ⟨meta_, hmeta, hshallow', hmeta'⟩,
      ⟨block, hblock, hshallow'', hblock'⟩⟩, hstreamId, hmask, heventType⟩
    refine ⟨_, ⟨model, hmodel, meta_, hmeta, block, hblock, rfl⟩, ?_⟩
    rw [decode_encode, hshallow, hshallow', hshallow'', hmodel', hmeta', hblock', hstreamId, hmask, heventType]
    rfl

/-- A map with one member -/
def single (name value : String) : Payload ℕ := ⟨[(Utf8.encode name, .leaf (.str (Utf8.encode value)))], rfl⟩

/-- A title, written to a stream of its own before the epoch. -/
def titled (data : Payload ℕ) : Event ℕ :=
  ⟨Utf8.encode "s1", .known .set, 1, some (-1), Utf8.encode "meta.title", [], none, some data, none⟩

theorem roundTrips_titled : RoundTrips (titled (single "title" "t")) := by
  refine (roundTrips_iff (by decide)).mpr ⟨?_, ⟨"s1", rfl⟩, ⟨"meta.title", rfl⟩, ⟨"", rfl⟩⟩
  rintro payload (h | h | h) <;> cases h
  refine ⟨by simp [single], by decide, .obj ?_ ?_⟩
  · simpa [single] using ⟨"title", rfl⟩
  · simpa [single] using .str ⟨"t", rfl⟩

/-- The empty payload is valid, and what is written of it is refused. -/
theorem empty_payload_is_lost : (titled ⟨[], rfl⟩).validate = .ok () ∧
    (∃ members, (titled ⟨[], rfl⟩).marshal = .ok members ∧ parse members = .error (.err .setRequiresOnePayload)) ∧
    ¬ ∀ event : Event ℕ, event.validate = .ok () → RoundTrips event := by
  have hvalid : (titled ⟨[], rfl⟩).validate = .ok () := by decide
  have hencode : ∃ members, (titled ⟨[], rfl⟩).marshal = .ok members ∧
      parse members = .error (.err .setRequiresOnePayload) := ⟨_, rfl, by decide⟩
  refine ⟨hvalid, hencode, fun h => ?_⟩
  obtain ⟨members, hmarshal, hparse⟩ := hencode
  obtain ⟨members', hmarshal', hsame⟩ := h _ hvalid
  obtain rfl := Except.ok.inj (hmarshal.symm.trans hmarshal')
  exact nomatch hparse.symm.trans hsame

end AgentUE.Go.Codec
