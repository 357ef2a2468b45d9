import AgentUE.Protocol.Envelope
import AgentUE.Data.Lines

/-!
# Python SDK: JSON text and SSE framing

References: `PatchEvent.to_json` in `sdks/python/src/agentue/event.py`,
`sdks/python/src/agentue/sse.py`. `json.dumps` runs with `ensure_ascii=False`: it escapes the quote, the
backslash and the control characters below U+0020, so every other character stands in the text as it is.
-/

namespace AgentUE.Python

open Data

variable {ν : Type}

/-! ## `json.dumps` -/

/-- The characters of the numbers that `json.dumps` writes, `Infinity` and `NaN` among them. -/
def numeralChars : List Char := "+-.0123456789EINaefinty".toList

/-- How the numbers of a payload are written. -/
structure Numerals (ν : Type) where
  repr : ν → String
  chars : ∀ n, ∀ c ∈ (repr n).toList, c ∈ numeralChars

/-- The escape of one character of a string. -/
def escapeChar (c : Char) : List Char :=
  if c = '\x22' then ['\\', '\x22']
  else if c = '\\' then ['\\', '\\']
  else if c = '\n' then ['\\', 'n']
  else if c = '\r' then ['\\', 'r']
  else if c = '\t' then ['\\', 't']
  else if c = '\x08' then ['\\', 'b']
  else if c = '\x0c' then ['\\', 'f']
  else if c.toNat < 0x20 then ['\\', 'u', '0', '0', Nat.digitChar (c.toNat / 16), Nat.digitChar (c.toNat % 16)]
  else [c]

/-- A string literal. -/
def quote (s : String) : String := String.ofList ('\x22' :: s.toList.flatMap escapeChar ++ ['\x22'])

mutual

/-- `json.dumps(value, ensure_ascii=False, separators=(",", ":"))` -/
def dumps (numerals : Numerals ν) : Json ν → String
  | .leaf .null => "null"
  | .leaf (.bool true) => "true"
  | .leaf (.bool false) => "false"
  | .leaf (.num n) => numerals.repr n
  | .leaf (.str s) => quote s
  | .arr xs => "[" ++ String.intercalate "," (dumpsItems numerals xs) ++ "]"
  | .obj fs => "\x7b" ++ String.intercalate "," (dumpsMembers numerals fs) ++ "\x7d"

def dumpsItems (numerals : Numerals ν) : List (Json ν) → List String
  | [] => []
  | x :: xs => dumps numerals x :: dumpsItems numerals xs

def dumpsMembers (numerals : Numerals ν) : JsonObject ν → List String
  | [] => []
  | (k, v) :: fs => (quote k ++ ":" ++ dumps numerals v) :: dumpsMembers numerals fs

end

/-- The value of a `PatchOp` -/
def PatchOp.value : PatchOp → String
  | .start => "start"
  | .set => "set"
  | .append => "append"
  | .error => "error"
  | .ping => "ping"
  | .end_ => "end"

/-- `model_dump(mode="json", exclude_none=True)`: the envelope members that are not `None`, in the order
of their declaration, each with its JSON text. -/
def modelDump (numerals : Numerals ν) (event : Envelope ν) : List (String × String) :=
  [("op", quote (PatchOp.value event.op)), ("seq", toString event.seq)] ++
    (event.streamId.map fun s => ("stream_id", quote s)).toList ++
    (event.ts.map fun ts => ("ts", toString ts)).toList ++
    (event.mask.map fun s => ("mask", quote s)).toList ++
    (event.eventType.map fun s => ("event_type", quote s)).toList ++
    (event.model.map fun m => ("model", dumps numerals (.obj m))).toList ++
    (event.meta_.map fun m => ("meta", dumps numerals (.obj m))).toList ++
    (event.block.map fun b => ("block", dumps numerals (.obj b))).toList

/-- `PatchEvent.to_json` -/
def toJson (numerals : Numerals ν) (event : Envelope ν) : String :=
  "\x7b" ++ String.intercalate "," ((modelDump numerals event).map fun p => quote p.1 ++ ":" ++ p.2) ++ "\x7d"

/-! ## Framing -/

/-- The line boundaries of `str.splitlines`. -/
def lineBoundaries : List Char :=
  ['\n', '\r', '\x0b', '\x0c', '\x1c', '\x1d', '\x1e', '\u0085', '\u2028', '\u2029']

def isLineBoundary (c : Char) : Bool := lineBoundaries.elem c

/-- `str.splitlines` -/
def splitlines (s : String) : List String :=
  (Lines.lines isLineBoundary '\r' '\n' s.toList).map String.ofList

/-- `encode_sse`, for an event that has been serialized; `none` is the `ValueError` for an `event_id`
with a newline. -/
def encodeSse (payload : String) (eventId : Option String) : Option String :=
  if eventId.any fun i => i.toList.elem '\n' || i.toList.elem '\r' then none
  else
    let data := if splitlines payload = [] then [""] else splitlines payload
    let lines := (eventId.map fun i => "id: " ++ i).toList ++ data.map fun line => "data: " ++ line
    some (String.intercalate "\n" lines ++ "\n\n")

/-! ## The characters of a JSON text -/

/-- The characters that JSON text itself is made of: neither control characters nor beyond ASCII. -/
def isSyntaxChar (c : Char) : Bool := decide (0x20 ≤ c.toNat ∧ c.toNat < 0x80)

mutual

/-- All strings of a document, names of members included. -/
def strings : Json ν → List String
  | .leaf (.str s) => [s]
  | .leaf _ => []
  | .arr xs => stringsOfItems xs
  | .obj fs => stringsOfMembers fs

def stringsOfItems : List (Json ν) → List String
  | [] => []
  | x :: xs => strings x ++ stringsOfItems xs

def stringsOfMembers : JsonObject ν → List String
  | [] => []
  | (k, v) :: fs => k :: (strings v ++ stringsOfMembers fs)

end

/-- All strings of an event. -/
def eventStrings (event : Envelope ν) : List String :=
  event.streamId.toList ++ event.mask.toList ++ event.eventType.toList ++
    event.model.elim [] stringsOfMembers ++ event.meta_.elim [] stringsOfMembers ++
    event.block.elim [] stringsOfMembers

/-- What a text holds: characters of the syntax, and beyond them those of the strings. -/
structure Holds (text : List Char) (ss : List String) : Prop where
  syntax_or_mem : ∀ c ∈ text, isSyntaxChar c = true ∨ (0x80 ≤ c.toNat ∧ ∃ s ∈ ss, c ∈ s.toList)
  mem : ∀ s ∈ ss, ∀ c ∈ s.toList, 0x80 ≤ c.toNat → c ∈ text

theorem Holds.append {t u : List Char} {ss rs : List String} (ht : Holds t ss) (hu : Holds u rs) :
    Holds (t ++ u) (ss ++ rs) where
  syntax_or_mem c hc := by
    rcases List.mem_append.mp hc with hc | hc
    · exact (ht.syntax_or_mem c hc).imp_right fun ⟨h, s, hs, hcs⟩ => ⟨h, s, List.mem_append_left _ hs, hcs⟩
    · exact (hu.syntax_or_mem c hc).imp_right fun ⟨h, s, hs, hcs⟩ => ⟨h, s, List.mem_append_right _ hs, hcs⟩
  mem s hs c hc h := by
    rcases List.mem_append.mp hs with hs | hs
    · exact List.mem_append_left _ (ht.mem s hs c hc h)
    · exact List.mem_append_right _ (hu.mem s hs c hc h)

/-- A text of the syntax alone. -/
theorem holds_of_syntaxChars {t : List Char} (h : ∀ c ∈ t, isSyntaxChar c = true) : Holds t [] where
  syntax_or_mem c hc := .inl (h c hc)
  mem s hs := by simp at hs

theorem holds_of_all {t : List Char} (h : t.all isSyntaxChar = true) : Holds t [] :=
  holds_of_syntaxChars (List.all_eq_true.mp h)

/-- A decimal numeral is made of digits. -/
theorem mem_digits {n : ℕ} {c : Char} (hc : c ∈ (toString n).toList) : c ∈ "0123456789".toList := by
  have hdigit : c.isDigit = true := by
    refine Nat.isDigit_of_mem_toDigits (b := 10) (by decide) (by decide) (n := n) ?_
    simpa [Nat.toString_eq_repr, Nat.toList_repr] using hc
  simp only [Char.isDigit, Bool.and_eq_true, decide_eq_true_eq, ge_iff_le, UInt32.le_iff_toNat_le] at hdigit
  have hlow : 48 ≤ c.toNat := hdigit.1
  have hhigh : c.toNat ≤ 57 := hdigit.2
  have hall : ∀ i < 10, Char.ofNat (48 + i) ∈ "0123456789".toList := by decide
  have hcode := hall (c.toNat - 48) (by omega)
  rwa [Nat.add_sub_cancel' hlow, Char.ofNat_toNat] at hcode

theorem syntax_digits (n : ℕ) : ∀ c ∈ (toString n).toList, isSyntaxChar c = true := by
  intro c hc
  have hall : ∀ c ∈ "0123456789".toList, isSyntaxChar c = true := List.all_eq_true.mp (by decide)
  exact hall c (mem_digits hc)

/-- Payloads whose numbers are natural numbers. -/
def decimal : Numerals ℕ where
  repr := toString
  chars n c hc := by
    have hall : "0123456789".toList ⊆ numeralChars := by decide
    exact hall (mem_digits hc)

theorem syntax_hexDigit : ∀ n < 32, isSyntaxChar (Nat.digitChar (n / 16)) = true ∧
    isSyntaxChar (Nat.digitChar (n % 16)) = true := by decide

/-- An escaped character is written in the syntax, unless it stands as it is. -/
theorem escapeChar_cases (c : Char) :
    (∀ d ∈ escapeChar c, isSyntaxChar d = true) ∧ c.toNat < 0x80 ∨ escapeChar c = [c] ∧ 0x80 ≤ c.toNat := by
  have hcode : ∀ d : Char, d.toNat < 0x80 → c = d → c.toNat < 0x80 := fun d hd h => h ▸ hd
  unfold escapeChar
  split_ifs with h₁ h₂ h₃ h₄ h₅ h₆ h₇ h
  · exact .inl ⟨List.all_eq_true.mp (by decide), hcode _ (by decide) h₁⟩
  · exact .inl ⟨List.all_eq_true.mp (by decide), hcode _ (by decide) h₂⟩
  · exact .inl ⟨List.all_eq_true.mp (by decide), hcode _ (by decide) h₃⟩
  · exact .inl ⟨List.all_eq_true.mp (by decide), hcode _ (by decide) h₄⟩
  · exact .inl ⟨List.all_eq_true.mp (by decide), hcode _ (by decide) h₅⟩
  · exact .inl ⟨List.all_eq_true.mp (by decide), hcode _ (by decide) h₆⟩
  · exact .inl ⟨List.all_eq_true.mp (by decide), hcode _ (by decide) h₇⟩
  · refine .inl ⟨fun d hd => ?_, by omega⟩
    obtain ⟨hhigh, hlow⟩ := syntax_hexDigit c.toNat h
    simp only [List.mem_cons, List.not_mem_nil, or_false] at hd
    rcases hd with rfl | rfl | rfl | rfl | rfl | rfl
    · decide
    · decide
    · decide
    · decide
    · exact hhigh
    · exact hlow
  · by_cases hc : c.toNat < 0x80
    · refine .inl ⟨fun d hd => ?_, hc⟩
      obtain rfl : d = c := by simpa using hd
      simpa [isSyntaxChar] using ⟨by omega, hc⟩
    · exact .inr ⟨rfl, by omega⟩

theorem holds_quote (s : String) : Holds (quote s).toList [s] where
  syntax_or_mem c hc := by
    simp only [quote, String.toList_ofList, List.mem_append, List.mem_cons, List.mem_flatMap,
      List.not_mem_nil, or_false] at hc
    rcases hc with (rfl | ⟨d, hd, hc⟩) | rfl
    · exact .inl (by decide)
    · rcases escapeChar_cases d with ⟨hwritten, -⟩ | ⟨hself, hcode⟩
      · exact .inl (hwritten c hc)
      · obtain rfl : c = d := by simpa [hself] using hc
        exact .inr ⟨hcode, s, by simp, hd⟩
    · exact .inl (by decide)
  mem r hr c hc hcode := by
    obtain rfl : r = s := by simpa using hr
    simp only [quote, String.toList_ofList, List.mem_append, List.mem_cons, List.mem_flatMap]
    rcases escapeChar_cases c with ⟨-, hlow⟩ | ⟨hself, -⟩
    · omega
    · exact .inl (.inr ⟨c, hc, by simp [hself]⟩)

/-- The parts of a list or an object, with commas between them. -/
theorem holds_intercalate {p : List String} {g : List (List String)}
    (h : List.Forall₂ (fun part ss => Holds part.toList ss) p g) :
    Holds (String.intercalate "," p).toList g.flatten := by
  rw [String.toList_intercalate]
  induction h with
  | nil => exact holds_of_syntaxChars (by simp)
  | @cons part ss parts groups hpart hrest ih =>
    cases hrest with
    | nil => simpa using hpart
    | cons hnext hrest =>
      rw [List.map_cons, List.map_cons, List.intercalate_cons_cons, List.flatten_cons, ← List.map_cons]
      simpa using (hpart.append (holds_of_all (t := [',']) (by decide))).append ih

theorem stringsOfItems_eq (xs : List (Json ν)) : stringsOfItems xs = (xs.map strings).flatten := by
  induction xs with
  | nil => rfl
  | cons x xs ih => simp [stringsOfItems, ih]

theorem stringsOfMembers_eq (fs : JsonObject ν) :
    stringsOfMembers fs = (fs.map fun p => p.1 :: strings p.2).flatten := by
  induction fs with
  | nil => rfl
  | cons p fs ih =>
    obtain ⟨k, v⟩ := p
    simp [stringsOfMembers, ih]

mutual

/-- Beyond its syntax the text of a document holds what its strings hold. -/
theorem holds_dumps (numerals : Numerals ν) : (v : Json ν) → Holds (dumps numerals v).toList (strings v)
  | .leaf .null => holds_of_all (by simp only [dumps]; decide)
  | .leaf (.bool true) => holds_of_all (by simp only [dumps]; decide)
  | .leaf (.bool false) => holds_of_all (by simp only [dumps]; decide)
  | .leaf (.num n) => holds_of_syntaxChars fun c hc => by
    have hall : ∀ c ∈ numeralChars, isSyntaxChar c = true := List.all_eq_true.mp (by decide)
    exact hall c (numerals.chars n c hc)
  | .leaf (.str s) => holds_quote s
  | .arr xs => by
    rw [strings, stringsOfItems_eq]
    simpa [dumps] using ((holds_of_all (t := ['[']) (by decide)).append
      (holds_intercalate (holds_dumpsItems numerals xs))).append (holds_of_all (t := [']']) (by decide))
  | .obj fs => by
    rw [strings, stringsOfMembers_eq]
    simpa [dumps] using ((holds_of_all (t := ['\x7b']) (by decide)).append
      (holds_intercalate (holds_dumpsMembers numerals fs))).append (holds_of_all (t := ['\x7d']) (by decide))

theorem holds_dumpsItems (numerals : Numerals ν) : (xs : List (Json ν)) →
    List.Forall₂ (fun part ss => Holds part.toList ss) (dumpsItems numerals xs) (xs.map strings)
  | [] => .nil
  | x :: xs => .cons (holds_dumps numerals x) (holds_dumpsItems numerals xs)

theorem holds_dumpsMembers (numerals : Numerals ν) : (fs : JsonObject ν) →
    List.Forall₂ (fun part ss => Holds part.toList ss) (dumpsMembers numerals fs)
      (fs.map fun p => p.1 :: strings p.2)
  | [] => .nil
  | (k, v) :: fs => by
    refine .cons ?_ (holds_dumpsMembers numerals fs)
    simpa using ((holds_quote k).append (holds_of_all (t := [':']) (by decide))).append (holds_dumps numerals v)

end

/-- A member of the envelope: its name is written in the syntax. -/
theorem holds_member {k v : String} {ss : List String} (hk : (k.toList.all fun c => c.toNat < 0x80) = true)
    (hv : Holds v.toList ss) : Holds (quote k ++ ":" ++ v).toList ss := by
  have hname : Holds (quote k).toList [] := by
    refine holds_of_syntaxChars fun c hc => ?_
    rcases (holds_quote k).syntax_or_mem c hc with h | ⟨hcode, s, hs, hcs⟩
    · exact h
    · obtain rfl : s = k := by simpa using hs
      exact absurd (of_decide_eq_true (List.all_eq_true.mp hk c hcs)) (by omega)
  simpa using (hname.append (holds_of_all (t := [':']) (by decide))).append hv

theorem forall₂_option {α β γ : Type} {R : β → γ → Prop} {f : α → β} {g : α → γ} (o : Option α)
    (h : ∀ a, R (f a) (g a)) : List.Forall₂ R (o.map f).toList (o.map g).toList := by
  cases o with
  | none => exact .nil
  | some a => exact .cons (h a) .nil

/-- The text of an event, beyond its syntax. -/
theorem holds_toJson (numerals : Numerals ν) (event : Envelope ν) :
    Holds (toJson numerals event).toList (eventStrings event) := by
  have hop : Holds (quote (PatchOp.value event.op)).toList [] := by
    refine holds_of_all ?_
    cases event.op <;> decide
  have hobj : ∀ m : JsonObject ν, Holds (dumps numerals (.obj m)).toList (stringsOfMembers m) :=
    fun m => holds_dumps numerals (.obj m)
  have hparts := holds_intercalate (p := (modelDump numerals event).map fun p => quote p.1 ++ ":" ++ p.2)
    (g := [[], []] ++ (event.streamId.map fun s => [s]).toList ++ (event.ts.map fun _ => []).toList ++
      (event.mask.map fun s => [s]).toList ++ (event.eventType.map fun s => [s]).toList ++
      (event.model.map stringsOfMembers).toList ++ (event.meta_.map stringsOfMembers).toList ++
      (event.block.map stringsOfMembers).toList) (by
    rw [List.forall₂_map_left_iff, modelDump]
    have hfixed : List.Forall₂ (fun (p : String × String) ss => Holds (quote p.1 ++ ":" ++ p.2).toList ss)
        [("op", quote (PatchOp.value event.op)), ("seq", toString event.seq)] [[], []] :=
      .cons (holds_member (k := "op") (by decide) hop)
        (.cons (holds_member (k := "seq") (by decide) (holds_of_syntaxChars (syntax_digits event.seq))) .nil)
    refine List.rel_append (List.rel_append (List.rel_append (List.rel_append (List.rel_append
      (List.rel_append (List.rel_append hfixed ?_) ?_) ?_) ?_) ?_) ?_) ?_
    · exact forall₂_option _ fun s => holds_member (k := "stream_id") (by decide) (holds_quote s)
    · exact forall₂_option _ fun ts => holds_member (k := "ts") (by decide) (holds_of_syntaxChars (syntax_digits ts))
    · exact forall₂_option _ fun s => holds_member (k := "mask") (by decide) (holds_quote s)
    · exact forall₂_option _ fun s => holds_member (k := "event_type") (by decide) (holds_quote s)
    · exact forall₂_option _ fun m => holds_member (k := "model") (by decide) (hobj m)
    · exact forall₂_option _ fun m => holds_member (k := "meta") (by decide) (hobj m)
    · exact forall₂_option _ fun b => holds_member (k := "block") (by decide) (hobj b))
  have hflat : ∀ {α : Type} (o : Option α) (g : α → List String), (o.map g).toList.flatten = o.elim [] g := by
    intro α o g
    cases o <;> simp
  have helim : ∀ o : Option String, (o.elim [] fun s => [s]) = o.toList := by
    intro o
    cases o <;> rfl
  have hnone : event.ts.elim [] (fun _ => ([] : List String)) = [] := by cases event.ts <;> rfl
  simp only [List.flatten_append, hflat, helim, hnone, List.append_nil] at hparts
  simpa [toJson, eventStrings] using ((holds_of_all (t := ['\x7b']) (by decide)).append hparts).append
    (holds_of_all (t := ['\x7d']) (by decide))

end AgentUE.Python
