import AgentUE.Protocol.JsonText
import AgentUE.Python.Sse

/-!
# Python SDK: the texts of events are read back

What `json.dumps` writes is a JSON text of the document it has been given, provided that no object of the document
has two members of one name and that the reader takes the numerals for the numbers they stand for.
-/

namespace AgentUE.Python

open Data JsonText

variable {ν : Type} {number : String → Option ν} {numerals : Numerals ν}

/-! ## Strings -/

/-- An escaped character is read back. -/
theorem escapeChar_read (c : Char) :
    (∃ escape, escapeChar c = '\\' :: escape ∧ ∀ rest, escaped (escape ++ rest) = some (c, rest)) ∨
      escapeChar c = [c] ∧ c ≠ '\x22' ∧ c ≠ '\\' ∧ ¬ c.toNat < 0x20 := by
  unfold escapeChar
  split_ifs with h₁ h₂ h₃ h₄ h₅ h₆ h₇ h
  · exact .inl ⟨_, rfl, fun _ => by rw [h₁]; rfl⟩
  · exact .inl ⟨_, rfl, fun _ => by rw [h₂]; rfl⟩
  · exact .inl ⟨_, rfl, fun _ => by rw [h₃]; rfl⟩
  · exact .inl ⟨_, rfl, fun _ => by rw [h₄]; rfl⟩
  · exact .inl ⟨_, rfl, fun _ => by rw [h₅]; rfl⟩
  · exact .inl ⟨_, rfl, fun _ => by rw [h₆]; rfl⟩
  · exact .inl ⟨_, rfl, fun _ => by rw [h₇]; rfl⟩
  · refine .inl ⟨_, rfl, fun rest => ?_⟩
    have hdigits : ∀ n < 0x20, hexDigit (Nat.digitChar (n / 16)) = some (n / 16) ∧
        hexDigit (Nat.digitChar (n % 16)) = some (n % 16) := by decide
    obtain ⟨hhigh, hlow⟩ := hdigits c.toNat h
    have hzero : hexDigit '0' = some 0 := by decide
    have hnone : escapes.lookup 'u' = none := by decide
    have hunit : codeUnit ('0' :: '0' :: Nat.digitChar (c.toNat / 16) :: Nat.digitChar (c.toNat % 16) :: rest) =
        some (c.toNat, rest) := by
      simp only [codeUnit, hzero, hhigh, hlow, Option.bind_eq_bind, Option.bind_some, pure, Option.some.injEq,
        Prod.mk.injEq, and_true]
      omega
    have hplain : unicode ('0' :: '0' :: Nat.digitChar (c.toNat / 16) :: Nat.digitChar (c.toNat % 16) :: rest) =
        some (c, rest) := by
      rw [unicode, hunit]
      simp only [Option.bind_eq_bind, Option.bind_some]
      rw [if_neg (by omega), if_neg (by omega), Char.ofNat_toNat]
      rfl
    show escaped ('u' :: _) = _
    simp only [escaped, hnone, if_true]
    exact hplain
  · exact .inr ⟨rfl, h₁, h₂, h⟩

theorem readsString_escaped (cs : List Char) : ReadsString (cs.flatMap escapeChar) (String.ofList cs) := by
  induction cs with
  | nil => exact readsString_nil
  | cons c cs ih =>
    rw [List.flatMap_cons]
    rcases escapeChar_read c with ⟨escape, hescape, hread⟩ | ⟨hself, hquote, hbackslash, hcontrol⟩
    · rw [hescape]
      exact ih.escape hread
    · rw [hself]
      exact ih.plain hquote hbackslash hcontrol

theorem readsString_quote (s : String) : ReadsString (s.toList.flatMap escapeChar) s := by
  have h := readsString_escaped s.toList
  rwa [String.ofList_toList] at h

theorem reads_quote (s : String) : Reads number (quote s).toList (.str s) := by
  rw [quote, String.toList_ofList]
  exact reads_string (readsString_quote s)

/-! ## Documents -/

/-- The numeral of a number is read as that number. -/
structure ReadsNumeral (number : String → Option ν) (numeral : String) (n : ν) : Prop where
  chars : ∀ c ∈ numeral.toList, isNumberChar c = true
  read : number numeral = some n
  ne : numeral ≠ ""

theorem ReadsNumeral.reads {numeral : String} {n : ν} (h : ReadsNumeral number numeral n) :
    Reads number numeral.toList (.num n) := reads_numeral h.ne h.chars h.read

mutual

/-- What a reader needs to find the document in its text. -/
def ReadBack (number : String → Option ν) (numerals : Numerals ν) : Json ν → Prop
  | .leaf (.num n) => ReadsNumeral number (numerals.repr n) n
  | .leaf _ => True
  | .arr xs => ReadBackItems number numerals xs
  | .obj fs => (Fields.keys fs).Nodup ∧ ReadBackMembers number numerals fs

def ReadBackItems (number : String → Option ν) (numerals : Numerals ν) : List (Json ν) → Prop
  | [] => True
  | x :: xs => ReadBack number numerals x ∧ ReadBackItems number numerals xs

def ReadBackMembers (number : String → Option ν) (numerals : Numerals ν) : JsonObject ν → Prop
  | [] => True
  | (_, v) :: fs => ReadBack number numerals v ∧ ReadBackMembers number numerals fs

end

/-- The texts of the name and of the value of a member, as `json.dumps` writes it. -/
def memberTexts (p : String × String) : List Char × List Char := (p.1.toList.flatMap escapeChar, p.2.toList)

theorem readsMember {k text : String} {v : Json ν} (h : Reads number text.toList v) :
    ReadsMember number (memberTexts (k, text)) (k, v) := ⟨readsString_quote k, h⟩

/-- The text between two braces. -/
theorem toList_members (ps : List (String × String)) :
    ("\x7b" ++ String.intercalate "," (ps.map fun p => quote p.1 ++ ":" ++ p.2) ++ "\x7d").toList =
      '\x7b' :: [','].intercalate ((ps.map memberTexts).map memberText) ++ ['\x7d'] := by
  have hmember : ∀ p : String × String, (quote p.1 ++ ":" ++ p.2).toList = memberText (memberTexts p) := by
    intro p
    simp [quote, memberText, memberTexts]
  simp only [String.toList_append, String.toList_intercalate, List.map_map, Function.comp_def, hmember]
  rfl

theorem dumpsMembers_eq (fs : JsonObject ν) :
    dumpsMembers numerals fs = (fs.map fun p => (p.1, dumps numerals p.2)).map fun p => quote p.1 ++ ":" ++ p.2 := by
  induction fs with
  | nil => rfl
  | cons p fs ih =>
    obtain ⟨k, v⟩ := p
    rw [dumpsMembers, ih]
    rfl

mutual

/-- A document is found in its text. -/
theorem reads_dumps : (v : Json ν) → ReadBack number numerals v → Reads number (dumps numerals v).toList v
  | .leaf .null, _ => reads_word (by simp [dumps])
  | .leaf (.bool true), _ => reads_word (by simp [dumps])
  | .leaf (.bool false), _ => reads_word (by simp [dumps])
  | .leaf (.num n), h => by
    rw [ReadBack] at h
    exact h.reads
  | .leaf (.str s), _ => reads_quote s
  | .arr xs, h => by
    rw [ReadBack] at h
    have htext : (dumps numerals (.arr xs)).toList =
        '[' :: [','].intercalate ((dumpsItems numerals xs).map String.toList) ++ [']'] := by
      simp only [dumps, String.toList_append, String.toList_intercalate]
      rfl
    rw [htext]
    exact reads_list (reads_dumpsItems xs h)
  | .obj fs, h => by
    rw [ReadBack] at h
    rw [dumps, dumpsMembers_eq, toList_members]
    exact reads_object (reads_dumpsMembers fs h.2) h.1

theorem reads_dumpsItems : (xs : List (Json ν)) → ReadBackItems number numerals xs →
    List.Forall₂ (Reads number) ((dumpsItems numerals xs).map String.toList) xs
  | [], _ => .nil
  | x :: xs, h => by
    rw [ReadBackItems] at h
    exact .cons (reads_dumps x h.1) (reads_dumpsItems xs h.2)

theorem reads_dumpsMembers : (fs : JsonObject ν) → ReadBackMembers number numerals fs →
    List.Forall₂ (ReadsMember number) ((fs.map fun p => (p.1, dumps numerals p.2)).map memberTexts) fs
  | [], _ => .nil
  | (k, v) :: fs, h => by
    rw [ReadBackMembers] at h
    exact .cons (readsMember (reads_dumps v h.1)) (reads_dumpsMembers fs h.2)

end

/-! ## Events -/

/-- The members of an event, as the document that `model_dump` makes of it; `ofNat` is the number of an integer. -/
def eventMembers (ofNat : ℕ → ν) (event : Envelope ν) : JsonObject ν :=
  [("op", .str (PatchOp.value event.op)), ("seq", .num (ofNat event.seq))] ++
    (event.streamId.map fun s => ("stream_id", .str s)).toList ++
    (event.ts.map fun ts => ("ts", .num (ofNat ts))).toList ++
    (event.mask.map fun s => ("mask", .str s)).toList ++
    (event.eventType.map fun s => ("event_type", .str s)).toList ++
    (event.model.map fun m => ("model", .obj m)).toList ++
    (event.meta_.map fun m => ("meta", .obj m)).toList ++
    (event.block.map fun b => ("block", .obj b)).toList

/-- The integers and the payload of an event can be read back. -/
structure EventReadBack (number : String → Option ν) (numerals : Numerals ν) (ofNat : ℕ → ν) (event : Envelope ν) :
    Prop where
  seq : ReadsNumeral number (toString event.seq) (ofNat event.seq)
  ts : ∀ ts, event.ts = some ts → ReadsNumeral number (toString ts) (ofNat ts)
  payload : ∀ fs, event.model = some fs ∨ event.meta_ = some fs ∨ event.block = some fs →
    ReadBack number numerals (.obj fs)

/-- The names are those of the envelope, each at most once and in its order. -/
theorem keys_eventMembers (ofNat : ℕ → ν) (event : Envelope ν) : (Fields.keys (eventMembers ofNat event)).Sublist
    ["op", "seq", "stream_id", "ts", "mask", "event_type", "model", "meta", "block"] := by
  have hmember : ∀ {α : Type} (o : Option α) (k : String) (f : α → Json ν),
      (Fields.keys (o.map fun a => (k, f a)).toList).Sublist [k] := by
    intro α o k f
    cases o with
    | none => exact List.nil_sublist _
    | some a => exact .refl _
  have hkeys : ∀ fs gs : JsonObject ν, Fields.keys (fs ++ gs) = Fields.keys fs ++ Fields.keys gs :=
    fun fs gs => List.map_append
  unfold eventMembers
  simp only [hkeys]
  exact (((((((List.Sublist.refl ["op", "seq"]).append (hmember _ "stream_id" _)).append (hmember _ "ts" _)).append
    (hmember _ "mask" _)).append (hmember _ "event_type" _)).append (hmember _ "model" _)).append
    (hmember _ "meta" _)).append (hmember _ "block" _)

/-- An event is found in its text. -/
theorem reads_toJson {ofNat : ℕ → ν} {event : Envelope ν} (h : EventReadBack number numerals ofNat event) :
    Reads number (toJson numerals event).toList (.obj (eventMembers ofNat event)) := by
  rw [toJson, toList_members]
  apply reads_object
  · have hoption : ∀ {α : Type} (o : Option α) {k : String} {f : α → String} {g : α → Json ν},
        (∀ a, o = some a → Reads number (f a).toList (g a)) →
        List.Forall₂ (ReadsMember number) ((o.map fun a => (k, f a)).toList.map memberTexts)
          (o.map fun a => (k, g a)).toList := by
      intro α o k f g hread
      cases o with
      | none => exact .nil
      | some a => exact .cons (readsMember (hread a rfl)) .nil
    unfold modelDump eventMembers
    simp only [List.map_append]
    refine List.rel_append (List.rel_append (List.rel_append (List.rel_append (List.rel_append (List.rel_append
      (List.rel_append ?_ ?_) ?_) ?_) ?_) ?_) ?_) ?_
    · exact .cons (readsMember (reads_quote _)) (.cons (readsMember h.seq.reads) .nil)
    · exact hoption _ fun s _ => reads_quote s
    · exact hoption _ fun ts hts => (h.ts ts hts).reads
    · exact hoption _ fun s _ => reads_quote s
    · exact hoption _ fun s _ => reads_quote s
    · exact hoption _ fun m hm => reads_dumps (.obj m) (h.payload m (.inl hm))
    · exact hoption _ fun m hm => reads_dumps (.obj m) (h.payload m (.inr (.inl hm)))
    · exact hoption _ fun b hb => reads_dumps (.obj b) (h.payload b (.inr (.inr hb)))
  · exact (keys_eventMembers ofNat event).nodup (by decide)

end AgentUE.Python
