import AgentUE.Protocol.Envelope

/-!
# JSON texts

A reader of JSON texts, which is what `JSON.parse` and `json.loads` do: white space between the tokens, the escapes of
a string, the last of several members with one name. How a numeral is read is a parameter. A string of this model is
a sequence of Unicode scalar values, so a lone surrogate is refused. `Reads` says of a text without white space that
it is one value, wherever it stands, and has a rule for each way to write a value.
-/

namespace AgentUE.JsonText

open Data

variable {ν : Type}

/-! ## The reader -/

def isSpace (c : Char) : Bool := [' ', '\t', '\n', '\r'].elem c

/-- The characters of a numeral. -/
def isNumberChar (c : Char) : Bool := "+-.0123456789eE".toList.elem c

/-- The text behind the character `c`, white space before it aside. -/
def next (c : Char) (text : List Char) : Option (List Char) :=
  match text.dropWhile isSpace with
  | [] => none
  | d :: rest => if d = c then some rest else none

def hexDigit (c : Char) : Option ℕ :=
  if '0' ≤ c ∧ c ≤ '9' then some (c.toNat - '0'.toNat)
  else if 'a' ≤ c ∧ c ≤ 'f' then some (c.toNat - 'a'.toNat + 10)
  else if 'A' ≤ c ∧ c ≤ 'F' then some (c.toNat - 'A'.toNat + 10)
  else none

/-- Four hexadecimal digits. -/
def codeUnit : List Char → Option (ℕ × List Char)
  | a :: b :: c :: d :: rest => do
    let a ← hexDigit a
    let b ← hexDigit b
    let c ← hexDigit c
    let d ← hexDigit d
    return (((a * 16 + b) * 16 + c) * 16 + d, rest)
  | _ => none

/-- The second half of a surrogate pair. -/
def lowSurrogate : List Char → Option (ℕ × List Char)
  | '\\' :: 'u' :: text => (codeUnit text).filter fun p => 0xDC00 ≤ p.1 && p.1 < 0xE000
  | _ => none

/-- The character behind `\u`. -/
def unicode (text : List Char) : Option (Char × List Char) := do
  let (unit, text) ← codeUnit text
  if 0xD800 ≤ unit ∧ unit < 0xDC00 then
    let (low, text) ← lowSurrogate text
    return (Char.ofNat (0x10000 + (unit - 0xD800) * 0x400 + (low - 0xDC00)), text)
  else if 0xDC00 ≤ unit ∧ unit < 0xE000 then none
  else return (Char.ofNat unit, text)

/-- The escapes of one character. -/
def escapes : List (Char × Char) :=
  [('\x22', '\x22'), ('\\', '\\'), ('/', '/'), ('b', '\x08'), ('f', '\x0c'), ('n', '\n'), ('r', '\r'), ('t', '\t')]

/-- The character behind a backslash. -/
def escaped : List Char → Option (Char × List Char)
  | [] => none
  | c :: text =>
    match escapes.lookup c with
    | some d => some (d, text)
    | none => if c = 'u' then unicode text else none

/-- The rest of a string, through its closing quote. -/
def stringBody : ℕ → List Char → Option (List Char × List Char)
  | 0, _ => none
  | _ + 1, [] => none
  | fuel + 1, c :: text =>
    if c = '\x22' then some ([], text)
    else if c = '\\' then
      (escaped text).bind fun p => (stringBody fuel p.2).map fun q => (p.1 :: q.1, q.2)
    else if c.toNat < 0x20 then none
    else (stringBody fuel text).map fun q => (c :: q.1, q.2)

/-- A string behind its opening quote. -/
def string (text : List Char) : Option (String × List Char) :=
  (stringBody text.length text).map fun p => (String.ofList p.1, p.2)

/-- The name of a member, its colon included. -/
def name (text : List Char) : Option (String × List Char) := do
  let (key, text) ← string (← next '\x22' text)
  return (key, ← next ':' text)

/-- `true`, `false` or `null` -/
def word (text : List Char) : Option (Json ν × List Char) :=
  if "true".toList.isPrefixOf text then some (.leaf (.bool true), text.drop 4)
  else if "false".toList.isPrefixOf text then some (.leaf (.bool false), text.drop 5)
  else if "null".toList.isPrefixOf text then some (.null, text.drop 4)
  else none

/-- A numeral. -/
def numeral (number : String → Option ν) (text : List Char) : Option (Json ν × List Char) :=
  (number (String.ofList (text.takeWhile isNumberChar))).map fun n => (.num n, text.dropWhile isNumberChar)

section

variable (number : String → Option ν)

mutual

/-- A value, white space before it aside. -/
def value : ℕ → List Char → Option (Json ν × List Char)
  | 0, _ => none
  | fuel + 1, text =>
    match text.dropWhile isSpace with
    | [] => none
    | c :: rest =>
      if c = '\x22' then (string rest).map fun p => (.str p.1, p.2)
      else if c = '[' then
        match next ']' rest with
        | some rest => some (.arr [], rest)
        | none => (items fuel rest).map fun p => (.arr p.1, p.2)
      else if c = '\x7b' then
        match next '\x7d' rest with
        | some rest => some (.obj [], rest)
        | none => (members fuel [] rest).map fun p => (.obj p.1, p.2)
      else (word (c :: rest)).or (numeral number (c :: rest))

/-- The items of a list, through its closing bracket. -/
def items : ℕ → List Char → Option (List (Json ν) × List Char)
  | 0, _ => none
  | fuel + 1, text =>
    match value fuel text with
    | none => none
    | some (x, text) =>
      match next ',' text with
      | some text => (items fuel text).map fun p => (x :: p.1, p.2)
      | none => (next ']' text).map fun text => ([x], text)

/-- The members of an object, through its closing brace; a member replaces an earlier one of its name. -/
def members : ℕ → JsonObject ν → List Char → Option (JsonObject ν × List Char)
  | 0, _, _ => none
  | fuel + 1, object, text =>
    match name text with
    | none => none
    | some (k, text) =>
      match value fuel text with
      | none => none
      | some (v, text) =>
        match next ',' text with
        | some text => members fuel (Fields.set object k v) text
        | none => (next '\x7d' text).map fun text => (Fields.set object k v, text)

end

/-- `JSON.parse`, `json.loads`: one value, and white space. -/
def parse (text : String) : Option (Json ν) :=
  match value number text.toList.length text.toList with
  | some (v, rest) => if rest.dropWhile isSpace = [] then some v else none
  | none => none

end

/-! ## Texts without white space -/

theorem next_self {c : Char} (hc : isSpace c = false) (text : List Char) : next c (c :: text) = some text := by
  rw [next, List.dropWhile_cons_of_neg (by simp [hc])]
  simp

theorem next_of_ne {c d : Char} (hd : isSpace d = false) (hne : d ≠ c) (text : List Char) :
    next c (d :: text) = none := by
  rw [next, List.dropWhile_cons_of_neg (by simp [hd])]
  simp [hne]

/-- What may stand behind a numeral. -/
def Ends (rest : List Char) : Prop := ∀ c, rest.head? = some c → isNumberChar c = false

theorem ends_nil : Ends [] := by
  intro c h
  cases h

theorem ends_cons {c : Char} (h : isNumberChar c = false) (rest : List Char) : Ends (c :: rest) := by
  intro d hd
  obtain rfl : c = d := Option.some.inj hd
  exact h

/-- The text of a string between its quotes. -/
def ReadsString (text : List Char) (s : String) : Prop :=
  ∀ fuel rest, text.length < fuel → stringBody fuel (text ++ '\x22' :: rest) = some (s.toList, rest)

/-- The text of a value. -/
structure Reads (number : String → Option ν) (text : List Char) (v : Json ν) : Prop where
  head : ∃ c rest, text = c :: rest ∧ isSpace c = false ∧ c ≠ ']'
  read : ∀ fuel rest, text.length ≤ fuel → Ends rest → value number fuel (text ++ rest) = some (v, rest)

/-- A text that is one value is parsed. -/
theorem parse_eq_some {number : String → Option ν} {text : String} {v : Json ν} (h : Reads number text.toList v) :
    parse number text = some v := by
  have hread := h.read text.toList.length [] le_rfl ends_nil
  rw [List.append_nil] at hread
  rw [parse, hread]
  rfl

/-! ### Strings -/

theorem readsString_nil : ReadsString [] "" := by
  intro fuel rest hfuel
  cases fuel with
  | zero => simp at hfuel
  | succ fuel => simp [stringBody]

/-- A character that stands for itself. -/
theorem ReadsString.plain {c : Char} (hquote : c ≠ '\x22') (hescape : c ≠ '\\') (hcontrol : ¬ c.toNat < 0x20)
    {text : List Char} {s : List Char} (h : ReadsString text (String.ofList s)) :
    ReadsString (c :: text) (String.ofList (c :: s)) := by
  intro fuel rest hfuel
  cases fuel with
  | zero => simp at hfuel
  | succ fuel =>
    have hlt : text.length < fuel := by
      rw [List.length_cons] at hfuel
      omega
    rw [List.cons_append, stringBody, if_neg hquote, if_neg hescape, if_neg hcontrol, h fuel rest hlt]
    simp

/-- A character that is escaped. -/
theorem ReadsString.escape {c : Char} {escape : List Char} (hescape : ∀ rest, escaped (escape ++ rest) = some (c, rest))
    {text : List Char} {s : List Char} (h : ReadsString text (String.ofList s)) :
    ReadsString ('\\' :: escape ++ text) (String.ofList (c :: s)) := by
  intro fuel rest hfuel
  cases fuel with
  | zero => simp at hfuel
  | succ fuel =>
    have hlt : text.length < fuel := by
      rw [List.length_append, List.length_cons] at hfuel
      omega
    have hquote : ¬ '\\' = '\x22' := by decide
    rw [List.cons_append, List.cons_append, stringBody, if_neg hquote, if_pos rfl, List.append_assoc, hescape,
      Option.bind_some, h fuel rest hlt]
    simp

theorem string_eq_some {text : List Char} {s : String} (h : ReadsString text s) (rest : List Char) :
    string (text ++ '\x22' :: rest) = some (s, rest) := by
  rw [string, h _ rest (by simp)]
  simp

/-- A quoted string. -/
theorem reads_string {number : String → Option ν} {text : List Char} {s : String} (h : ReadsString text s) :
    Reads number ('\x22' :: text ++ ['\x22']) (.str s) := by
  refine ⟨⟨'\x22', text ++ ['\x22'], rfl, by decide, by decide⟩, fun fuel rest hfuel _ => ?_⟩
  cases fuel with
  | zero => simp at hfuel
  | succ fuel =>
    have htext : '\x22' :: text ++ ['\x22'] ++ rest = '\x22' :: (text ++ '\x22' :: rest) := by simp
    have hspace : ¬ isSpace '\x22' = true := by decide
    rw [htext, value, List.dropWhile_cons_of_neg hspace]
    dsimp only
    rw [if_pos rfl, string_eq_some h]
    rfl

/-! ### Literals -/

/-- A value that neither a quote nor a bracket nor a brace opens. -/
theorem value_of_plain {number : String → Option ν} {c : Char} {text : List Char} (hspace : isSpace c = false)
    (hquote : c ≠ '\x22') (hbracket : c ≠ '[') (hbrace : c ≠ '\x7b') (fuel : ℕ) :
    value number (fuel + 1) (c :: text) = (word (c :: text)).or (numeral number (c :: text)) := by
  rw [value, List.dropWhile_cons_of_neg (by simp [hspace])]
  dsimp only
  rw [if_neg hquote, if_neg hbracket, if_neg hbrace]

theorem reads_word {number : String → Option ν} {text : List Char} {v : Json ν}
    (h : (text, v) ∈ [("true".toList, DocTree.leaf (.bool true)), ("false".toList, .leaf (.bool false)),
      ("null".toList, .null)]) : Reads number text v := by
  have hvalue : ∀ {c : Char} {chars : List Char} {v : Json ν}, isSpace c = false → c ≠ '\x22' → c ≠ '[' → c ≠ '\x7b' →
      c ≠ ']' → (∀ rest, word (c :: chars ++ rest) = some (v, rest)) → Reads number (c :: chars) v := by
    intro c chars v hspace hquote hbracket hbrace hclose hword
    refine ⟨⟨c, chars, rfl, hspace, hclose⟩, fun fuel rest hfuel _ => ?_⟩
    cases fuel with
    | zero => simp at hfuel
    | succ fuel =>
      have hrest := hword rest
      rw [List.cons_append] at hrest
      rw [List.cons_append, value_of_plain hspace hquote hbracket hbrace, hrest, Option.some_or]
  simp only [List.mem_cons, Prod.mk.injEq, List.not_mem_nil, or_false] at h
  obtain ⟨rfl, rfl⟩ | ⟨rfl, rfl⟩ | ⟨rfl, rfl⟩ := h
  · exact hvalue (c := 't') (by decide) (by decide) (by decide) (by decide) (by decide) fun _ => rfl
  · exact hvalue (c := 'f') (by decide) (by decide) (by decide) (by decide) (by decide) fun _ => rfl
  · exact hvalue (c := 'n') (by decide) (by decide) (by decide) (by decide) (by decide) fun _ => rfl

theorem takeWhile_isNumberChar {text rest : List Char} (htext : ∀ c ∈ text, isNumberChar c = true) (hrest : Ends rest) :
    (text ++ rest).takeWhile isNumberChar = text ∧ (text ++ rest).dropWhile isNumberChar = rest := by
  have hstop : rest.takeWhile isNumberChar = [] ∧ rest.dropWhile isNumberChar = rest := by
    cases rest with
    | nil => exact ⟨rfl, rfl⟩
    | cons c rest =>
      have hc : ¬ isNumberChar c = true := by simp [hrest c rfl]
      exact ⟨List.takeWhile_cons_of_neg hc, List.dropWhile_cons_of_neg hc⟩
  rw [List.takeWhile_append_of_pos htext, List.dropWhile_append_of_pos htext, hstop.1, hstop.2, List.append_nil]
  exact ⟨rfl, rfl⟩

/-- A numeral. -/
theorem reads_numeral {number : String → Option ν} {text : String} {n : ν} (hne : text ≠ "")
    (hchars : ∀ c ∈ text.toList, isNumberChar c = true) (hread : number text = some n) :
    Reads number text.toList (.num n) := by
  have hlist : text.toList ≠ [] := by
    intro h
    exact hne (by rw [← String.ofList_toList (s := text), h])
  obtain ⟨c, chars, hcons⟩ := List.exists_cons_of_ne_nil hlist
  have hnumber : isNumberChar c = true := hchars c (by rw [hcons]; exact List.mem_cons_self)
  -- none of the other tokens begins with such a character
  have hother : ∀ d, isNumberChar d = false → c ≠ d := by
    intro d hd h
    rw [h, hd] at hnumber
    cases hnumber
  have hspace : isSpace c = false := by
    rw [Bool.eq_false_iff]
    intro h
    have hmem : c ∈ [' ', '\t', '\n', '\r'] := by simpa [isSpace] using h
    have hspaces : ∀ d ∈ [' ', '\t', '\n', '\r'], isNumberChar d = false := List.forall_iff_forall_mem.mp (by decide)
    exact hother c (hspaces c hmem) rfl
  have hquote : c ≠ '\x22' := hother _ (by decide)
  have hbracket : c ≠ '[' := hother _ (by decide)
  have hbrace : c ≠ '\x7b' := hother _ (by decide)
  have hclose : c ≠ ']' := hother _ (by decide)
  refine ⟨⟨c, chars, hcons, hspace, hclose⟩, fun fuel rest hfuel hends => ?_⟩
  cases fuel with
  | zero => simp [hcons] at hfuel
  | succ fuel =>
    obtain ⟨htake, hdrop⟩ := takeWhile_isNumberChar hchars hends
    have hword : word (ν := ν) (c :: chars ++ rest) = none := by
      have hprefix : ∀ d text, c ≠ d → (d :: text).isPrefixOf (c :: chars ++ rest) = false := by
        intro d text hne
        simp [List.isPrefixOf, hne.symm]
      have htrue : "true".toList.isPrefixOf (c :: chars ++ rest) = false := hprefix 't' _ (hother _ (by decide))
      have hfalse : "false".toList.isPrefixOf (c :: chars ++ rest) = false := hprefix 'f' _ (hother _ (by decide))
      have hnull : "null".toList.isPrefixOf (c :: chars ++ rest) = false := hprefix 'n' _ (hother _ (by decide))
      rw [word, htrue, hfalse, hnull]
      rfl
    rw [hcons] at htake hdrop ⊢
    rw [List.cons_append] at hword htake hdrop ⊢
    rw [value_of_plain hspace hquote hbracket hbrace, hword, Option.none_or, numeral, htake, hdrop, ← hcons,
      String.ofList_toList, hread]
    rfl

/-! ### Lists and objects -/

/-- The items of a list that are left, with the bracket behind them. -/
theorem items_eq_some {number : String → Option ν} {texts : List (List Char)} {xs : List (Json ν)}
    (h : List.Forall₂ (Reads number) texts xs) (hne : texts ≠ []) {fuel : ℕ} {rest : List Char}
    (hfuel : ([','].intercalate texts).length < fuel) :
    items number fuel ([','].intercalate texts ++ ']' :: rest) = some (xs, rest) := by
  induction h generalizing fuel with
  | nil => exact absurd rfl hne
  | @cons text x texts xs hx hxs ih =>
    cases fuel with
    | zero => simp at hfuel
    | succ fuel =>
      have hcomma : isNumberChar ',' = false := by decide
      have hbracket : isNumberChar ']' = false := by decide
      have hspaces : isSpace ',' = false ∧ isSpace ']' = false := by decide
      cases texts with
      | nil =>
        obtain rfl : xs = [] := by cases hxs; rfl
        rw [List.intercalate_singleton] at hfuel ⊢
        rw [items, hx.read fuel _ (by omega) (ends_cons hbracket rest)]
        dsimp only
        rw [next_of_ne hspaces.2 (by decide), next_self hspaces.2]
        rfl
      | cons text' texts =>
        rw [List.intercalate_cons_cons] at hfuel ⊢
        rw [List.length_append, List.length_append, List.length_singleton] at hfuel
        have htext : text ++ [','] ++ [','].intercalate (text' :: texts) ++ ']' :: rest =
            text ++ ',' :: ([','].intercalate (text' :: texts) ++ ']' :: rest) := by simp
        rw [htext, items, hx.read fuel _ (by omega) (ends_cons hcomma _)]
        dsimp only
        rw [next_self hspaces.1]
        dsimp only
        rw [ih (by simp) (by omega)]
        rfl

/-- A list. -/
theorem reads_list {number : String → Option ν} {texts : List (List Char)} {xs : List (Json ν)}
    (h : List.Forall₂ (Reads number) texts xs) : Reads number ('[' :: [','].intercalate texts ++ [']']) (.arr xs) := by
  refine ⟨⟨'[', _, rfl, by decide, by decide⟩, fun fuel rest hfuel _ => ?_⟩
  have hspaces : isSpace '[' = false ∧ isSpace ']' = false := by decide
  have hquote : ¬ '[' = '\x22' := by decide
  have htext : '[' :: [','].intercalate texts ++ [']'] ++ rest = '[' :: ([','].intercalate texts ++ ']' :: rest) := by simp
  cases fuel with
  | zero => simp at hfuel
  | succ fuel =>
    rw [htext, value, List.dropWhile_cons_of_neg (by simp [hspaces.1])]
    dsimp only
    rw [if_neg hquote, if_pos rfl]
    cases h with
    | nil =>
      rw [List.intercalate_nil, List.nil_append, next_self hspaces.2]
    | @cons text x texts xs hx hxs =>
      -- no item begins with the closing bracket
      obtain ⟨c, chars, rfl, hspace, hclose⟩ := hx.head
      have hnext : next ']' ([','].intercalate ((c :: chars) :: texts) ++ ']' :: rest) = none := by
        cases texts <;> exact next_of_ne hspace hclose _
      have hitems : items number fuel ([','].intercalate ((c :: chars) :: texts) ++ ']' :: rest) = some (x :: xs, rest) := by
        apply items_eq_some (.cons hx hxs) (by simp)
        simp only [List.length_append, List.length_cons, List.length_nil] at hfuel ⊢
        omega
      rw [hnext, hitems]
      rfl

/-- The text of a member: its name in quotes, a colon and its value. -/
def memberText (m : List Char × List Char) : List Char := '\x22' :: m.1 ++ '\x22' :: ':' :: m.2

/-- The texts of the name and the value of a member. -/
def ReadsMember (number : String → Option ν) (m : List Char × List Char) (p : String × Json ν) : Prop :=
  ReadsString m.1 p.1 ∧ Reads number m.2 p.2

theorem name_eq_some {text : List Char} {k : String} (h : ReadsString text k) (rest : List Char) :
    name ('\x22' :: text ++ '\x22' :: ':' :: rest) = some (k, rest) := by
  have hspaces : isSpace '\x22' = false ∧ isSpace ':' = false := by decide
  rw [name, List.cons_append, next_self hspaces.1, Option.bind_eq_bind, Option.bind_some, string_eq_some h]
  simp only [Option.bind_eq_bind, Option.bind_some, next_self hspaces.2]
  rfl

/-- The members of an object that are left, with the brace behind them. -/
theorem members_eq_some {number : String → Option ν} {texts : List (List Char × List Char)} {fs object : JsonObject ν}
    (h : List.Forall₂ (ReadsMember number) texts fs) (hne : texts ≠ []) (hkeys : (Fields.keys (object ++ fs)).Nodup)
    {fuel : ℕ} {rest : List Char} (hfuel : ([','].intercalate (texts.map memberText)).length < fuel) :
    members number fuel object ([','].intercalate (texts.map memberText) ++ '\x7d' :: rest) =
      some (object ++ fs, rest) := by
  induction h generalizing fuel object with
  | nil => exact absurd rfl hne
  | @cons m p texts fs hm hfs ih =>
    obtain ⟨k, v⟩ := p
    obtain ⟨hname, hvalue⟩ := hm
    cases fuel with
    | zero => simp at hfuel
    | succ fuel =>
      have hcomma : isNumberChar ',' = false := by decide
      have hbrace : isNumberChar '\x7d' = false := by decide
      have hspaces : isSpace ',' = false ∧ isSpace '\x7d' = false := by decide
      have hset : Fields.set object k v = object ++ [(k, v)] := by
        apply Fields.set_of_not_mem
        rw [Fields.keys, List.map_append, List.map_cons] at hkeys
        exact fun hmem => (List.disjoint_of_nodup_append hkeys) hmem List.mem_cons_self
      cases texts with
      | nil =>
        obtain rfl : fs = [] := by cases hfs; rfl
        rw [List.map_cons, List.map_nil, List.intercalate_singleton] at hfuel ⊢
        have htext : memberText m ++ '\x7d' :: rest = '\x22' :: m.1 ++ '\x22' :: ':' :: (m.2 ++ '\x7d' :: rest) := by
          simp [memberText]
        have hlt : m.2.length ≤ fuel := by
          simp only [memberText, List.length_append, List.length_cons] at hfuel
          omega
        rw [htext, members, name_eq_some hname]
        dsimp only
        rw [hvalue.read fuel _ hlt (ends_cons hbrace rest)]
        dsimp only
        rw [next_of_ne hspaces.2 (by decide), next_self hspaces.2, hset]
        rfl
      | cons m' texts =>
        rw [List.map_cons, List.map_cons, List.intercalate_cons_cons] at hfuel ⊢
        rw [← List.map_cons] at hfuel ⊢
        have htext : memberText m ++ [','] ++ [','].intercalate ((m' :: texts).map memberText) ++ '\x7d' :: rest =
            '\x22' :: m.1 ++ '\x22' :: ':' ::
              (m.2 ++ ',' :: ([','].intercalate ((m' :: texts).map memberText) ++ '\x7d' :: rest)) := by
          simp [memberText]
        have hlt : m.2.length ≤ fuel ∧ ([','].intercalate ((m' :: texts).map memberText)).length < fuel := by
          rw [List.length_append, List.length_append, List.length_singleton] at hfuel
          simp only [memberText, List.length_append, List.length_cons] at hfuel ⊢
          omega
        rw [htext, members, name_eq_some hname]
        dsimp only
        rw [hvalue.read fuel _ hlt.1 (ends_cons hcomma _)]
        dsimp only
        rw [next_self hspaces.1]
        dsimp only
        rw [hset, ih (by simp) (by simpa using hkeys) hlt.2]
        simp

/-- An object without two members of one name. -/
theorem reads_object {number : String → Option ν} {texts : List (List Char × List Char)} {fs : JsonObject ν}
    (h : List.Forall₂ (ReadsMember number) texts fs) (hkeys : (Fields.keys fs).Nodup) :
    Reads number ('\x7b' :: [','].intercalate (texts.map memberText) ++ ['\x7d']) (.obj fs) := by
  refine ⟨⟨'\x7b', _, rfl, by decide, by decide⟩, fun fuel rest hfuel _ => ?_⟩
  have hspaces : isSpace '\x7b' = false ∧ isSpace '\x7d' = false ∧ isSpace '\x22' = false := by decide
  have hquote : ¬ '\x7b' = '\x22' := by decide
  have hbracket : ¬ '\x7b' = '[' := by decide
  have htext : '\x7b' :: [','].intercalate (texts.map memberText) ++ ['\x7d'] ++ rest =
      '\x7b' :: ([','].intercalate (texts.map memberText) ++ '\x7d' :: rest) := by simp
  cases fuel with
  | zero => simp at hfuel
  | succ fuel =>
    rw [htext, value, List.dropWhile_cons_of_neg (by simp [hspaces.1])]
    dsimp only
    rw [if_neg hquote, if_neg hbracket, if_pos rfl]
    cases h with
    | nil => rw [List.map_nil, List.intercalate_nil, List.nil_append, next_self hspaces.2.1]
    | @cons m p texts fs hm hfs =>
      have hnext : next '\x7d' ([','].intercalate ((m :: texts).map memberText) ++ '\x7d' :: rest) = none := by
        cases texts <;> exact next_of_ne hspaces.2.2 (by decide) _
      have hmembers : members number fuel [] ([','].intercalate ((m :: texts).map memberText) ++ '\x7d' :: rest) =
          some ([] ++ p :: fs, rest) := by
        apply members_eq_some (.cons hm hfs) (by simp) hkeys
        simp only [List.length_append, List.length_cons, List.length_nil] at hfuel ⊢
        omega
      rw [hnext, hmembers]
      rfl

end AgentUE.JsonText
