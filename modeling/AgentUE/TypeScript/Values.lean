import AgentUE.Protocol.Document

/-!
# JavaScript values

JSON-like values with prototypes. A property read looks at the own properties first and then along the
prototype chain, which ends in `Object.prototype` or in `null`; assigning to `__proto__` replaces the
prototype. A value parsed from JSON has own properties only, `__proto__` among them, and a copy made by
assignments (`cloneJson`) turns that one into its prototype. `toJson` is the document that
`JSON.stringify` writes: the own properties.
-/

namespace AgentUE.TypeScript

open Data

variable {ν : Type}

/-- A slot of an object: an own property, or the link to a prototype other than `Object.prototype`. -/
inductive Slot where
  | own (k : String)
  | proto
deriving DecidableEq

/-- A JavaScript value built from JSON. -/
abbrev Js (ν : Type) := DocTree Slot (Scalar ν)

abbrev JsObject (ν : Type) := List (Slot × Js ν)

mutual

/-- `JSON.parse`: every member is an own property. -/
def ofJson : Json ν → Js ν
  | .leaf a => .leaf a
  | .arr xs => .arr (ofJsonItems xs)
  | .obj fs => .obj (ofJsonObject fs)

def ofJsonItems : List (Json ν) → List (Js ν)
  | [] => []
  | x :: xs => ofJson x :: ofJsonItems xs

def ofJsonObject : JsonObject ν → JsObject ν
  | [] => []
  | (k, v) :: fs => (.own k, ofJson v) :: ofJsonObject fs

end

mutual

/-- `JSON.stringify`, as a document. -/
def toJson : Js ν → Json ν
  | .leaf a => .leaf a
  | .arr xs => .arr (toJsonItems xs)
  | .obj slots => .obj (toJsonObject slots)

def toJsonItems : List (Js ν) → List (Json ν)
  | [] => []
  | x :: xs => toJson x :: toJsonItems xs

def toJsonObject : JsObject ν → JsonObject ν
  | [] => []
  | (.own k, v) :: slots => (k, toJson v) :: toJsonObject slots
  | (.proto, _) :: slots => toJsonObject slots

end

/-- `Object.keys(object)` -/
def ownKeys : JsObject ν → List String
  | [] => []
  | (.own k, _) :: slots => k :: ownKeys slots
  | (.proto, _) :: slots => ownKeys slots

/-- `hasOwn` of `json.ts` -/
def hasOwn (object : JsObject ν) (k : String) : Bool := Fields.has object (.own k)

/-! ## Reading a property -/

/-- The functions that every `Object.prototype` has. -/
def objectMembers : List String :=
  ["constructor", "hasOwnProperty", "isPrototypeOf", "propertyIsEnumerable", "toLocaleString", "toString",
    "valueOf", "__defineGetter__", "__defineSetter__", "__lookupGetter__", "__lookupSetter__"]

/-- The further members of an array: its length and its methods. -/
def arrayMembers : List String :=
  ["length", "at", "concat", "copyWithin", "entries", "every", "fill", "filter", "find", "findIndex",
    "findLast", "findLastIndex", "flat", "flatMap", "forEach", "includes", "indexOf", "join", "keys",
    "lastIndexOf", "map", "pop", "push", "reduce", "reduceRight", "reverse", "shift", "slice", "some", "sort",
    "splice", "toReversed", "toSorted", "toSpliced", "unshift", "values", "with"]

/-- What a property read finds. -/
inductive Member (ν : Type) where
  | undefined
  /-- in the object or in a prototype of its own -/
  | value (v : Js ν)
  /-- added to `Object.prototype` by running code -/
  | shared (v : Js ν)
  /-- a function or a number: neither undefined, null, a string, an array nor a record -/
  | builtin
  /-- the accessor `__proto__` of `Object.prototype` -/
  | accessor
deriving DecidableEq

/-- A read that has reached `Object.prototype`, to which `shared` has been added. -/
def readObjectPrototype (shared : JsObject ν) (k : String) : Member ν :=
  match Fields.get? shared (.own k) with
  | some v => .shared v
  | none =>
    if k = "__proto__" then .accessor
    else if objectMembers.elem k then .builtin
    else .undefined

/-- A read from an array, which can only be the prototype of an object. -/
def readArray (shared : JsObject ν) (xs : List (Js ν)) (k : String) : Member ν :=
  match xs.zipIdx.find? fun p => toString p.2 == k with
  | some p => .value p.1
  | none => if arrayMembers.elem k then .builtin else readObjectPrototype shared k

mutual

/-- `value[k]` along the prototype chain. -/
def readValue (shared : JsObject ν) (k : String) : Js ν → Member ν
  | .leaf _ => .undefined
  | .arr xs => readArray shared xs k
  | .obj slots =>
    match Fields.get? slots (.own k) with
    | some v => .value v
    | none => readInherited shared k slots

/-- The part of a read behind the own properties. -/
def readInherited (shared : JsObject ν) (k : String) : JsObject ν → Member ν
  | [] => readObjectPrototype shared k
  | (.proto, v) :: _ => readValue shared k v
  | (.own _, _) :: slots => readInherited shared k slots

end

/-- `object[k]` -/
def readMember (shared object : JsObject ν) (k : String) : Member ν :=
  match Fields.get? object (.own k) with
  | some v => .value v
  | none => readInherited shared k object

/-- `object[k]` for the type tests of the validators, which no built-in member passes. -/
def read (shared object : JsObject ν) (k : String) : Option (Js ν) :=
  match readMember shared object k with
  | .value v | .shared v => some v
  | _ => none

/-! ## Copying -/

/-- What assigning to `__proto__` leaves in a fresh object: a primitive is ignored. -/
def prototypeSlot : Js ν → JsObject ν
  | .null => [(.proto, .null)]
  | .leaf _ => []
  | v => [(.proto, v)]

mutual

/-- `cloneJson` -/
def cloneJson : Js ν → Js ν
  | .leaf a => .leaf a
  | .arr xs => .arr (cloneItems xs)
  | .obj slots => .obj (cloneObject slots)

def cloneItems : List (Js ν) → List (Js ν)
  | [] => []
  | x :: xs => cloneJson x :: cloneItems xs

/-- The loop `copy[key] = cloneJson(item)` over `Object.entries(value)`. -/
def cloneObject : JsObject ν → JsObject ν
  | [] => []
  | (.own k, item) :: slots =>
    if k = "__proto__" then prototypeSlot (cloneJson item) ++ cloneObject slots
    else (.own k, cloneJson item) :: cloneObject slots
  | (.proto, _) :: slots => cloneObject slots

end

/-! ## Own properties -/

theorem get?_ofJsonObject (fs : JsonObject ν) (k : String) :
    Fields.get? (ofJsonObject fs) (.own k) = (Fields.get? fs k).map ofJson := by
  induction fs with
  | nil => rfl
  | cons p fs ih =>
    obtain ⟨k', v⟩ := p
    by_cases hk : k' = k <;> simp [ofJsonObject, Fields.get?_cons, hk, ih]

theorem get?_toJsonObject (slots : JsObject ν) (k : String) :
    Fields.get? (toJsonObject slots) k = (Fields.get? slots (.own k)).map toJson := by
  induction slots with
  | nil => rfl
  | cons p slots ih =>
    obtain ⟨k' | _, v⟩ := p
    · by_cases hk : k' = k <;> simp [toJsonObject, Fields.get?_cons, hk, ih]
    · simp [toJsonObject, Fields.get?_cons, ih]

theorem has_toJsonObject (slots : JsObject ν) (k : String) :
    Fields.has (toJsonObject slots) k = hasOwn slots k := by
  simp [Fields.has, hasOwn, get?_toJsonObject]

theorem keys_toJsonObject (slots : JsObject ν) : Fields.keys (toJsonObject slots) = ownKeys slots := by
  induction slots with
  | nil => rfl
  | cons p slots ih =>
    obtain ⟨k | _, v⟩ := p
    · simpa [toJsonObject, ownKeys, Fields.keys] using ih
    · simpa [toJsonObject, ownKeys] using ih

mutual

theorem toJson_ofJson : (v : Json ν) → toJson (ofJson v) = v
  | .leaf _ => rfl
  | .arr xs => congrArg DocTree.arr (toJsonItems_ofJsonItems xs)
  | .obj fs => congrArg DocTree.obj (toJsonObject_ofJsonObject fs)

theorem toJsonItems_ofJsonItems : (xs : List (Json ν)) → toJsonItems (ofJsonItems xs) = xs
  | [] => rfl
  | x :: xs => by rw [ofJsonItems, toJsonItems, toJson_ofJson x, toJsonItems_ofJsonItems xs]

/-- Parsing and writing again gives the document. -/
theorem toJsonObject_ofJsonObject : (fs : JsonObject ν) → toJsonObject (ofJsonObject fs) = fs
  | [] => rfl
  | (k, v) :: fs => by rw [ofJsonObject, toJsonObject, toJson_ofJson v, toJsonObject_ofJsonObject fs]

end

/-- An own property is found first. -/
theorem read_of_own {shared object : JsObject ν} {k : String} {v : Js ν}
    (h : Fields.get? object (.own k) = some v) : read shared object k = some v := by
  simp [read, readMember, h]

/-- A parsed object has no prototype of its own. -/
theorem readInherited_ofJsonObject (shared : JsObject ν) (k : String) (fs : JsonObject ν) :
    readInherited shared k (ofJsonObject fs) = readObjectPrototype shared k := by
  induction fs with
  | nil => rfl
  | cons p fs ih =>
    obtain ⟨k', v⟩ := p
    rw [ofJsonObject, readInherited, ih]

/-- In a fresh process a read from a parsed object sees its own properties only. -/
theorem read_ofJsonObject (fs : JsonObject ν) (k : String) :
    read [] (ofJsonObject fs) k = (Fields.get? fs k).map ofJson := by
  unfold read readMember
  rw [get?_ofJsonObject]
  cases Fields.get? fs k with
  | some v => rfl
  | none =>
    rw [Option.map_none, readInherited_ofJsonObject]
    unfold readObjectPrototype
    simp only [Fields.get?_nil]
    split_ifs <;> rfl

/-! ## Values and their documents -/

@[simp] theorem asStr_toJson (v : Js ν) : DocTree.asStr (toJson v) = DocTree.asStr v := by
  cases v with
  | leaf a => cases a <;> rfl
  | arr xs => rfl
  | obj slots => rfl

@[simp] theorem asStr_ofJson (v : Json ν) : DocTree.asStr (ofJson v) = DocTree.asStr v := by
  rw [← asStr_toJson, toJson_ofJson]

@[simp] theorem isNull_toJson (v : Js ν) : DocTree.isNull (toJson v) = DocTree.isNull v := by
  cases v with
  | leaf a => cases a <;> rfl
  | arr xs => rfl
  | obj slots => rfl

@[simp] theorem asObj_toJson (v : Js ν) : DocTree.asObj (toJson v) = (DocTree.asObj v).map toJsonObject := by
  cases v <;> rfl

@[simp] theorem asArr_toJson (v : Js ν) : DocTree.asArr (toJson v) = (DocTree.asArr v).map toJsonItems := by
  cases v <;> rfl

@[simp] theorem isObj_toJson (v : Js ν) : DocTree.isObj (toJson v) = DocTree.isObj v := by
  simp [DocTree.isObj]

@[simp] theorem isNullableStr_toJson (v : Js ν) : DocTree.isNullableStr (toJson v) = DocTree.isNullableStr v := by
  simp [DocTree.isNullableStr]

@[simp] theorem isNullableObj_toJson (v : Js ν) : DocTree.isNullableObj (toJson v) = DocTree.isNullableObj v := by
  simp [DocTree.isNullableObj]

@[simp] theorem isNonEmptyStr_toJson (v : Js ν) : DocTree.isNonEmptyStr (toJson v) = DocTree.isNonEmptyStr v := by
  simp [DocTree.isNonEmptyStr]

/-- A check of an own member is a check of the document's member. -/
theorem memberMayBe_toJsonObject {p : Js ν → Bool} {q : Json ν → Bool} (h : ∀ v, q (toJson v) = p v)
    (slots : JsObject ν) (k : String) :
    memberMayBe q (toJsonObject slots) k = memberMayBe p slots (.own k) := by
  unfold memberMayBe
  rw [get?_toJsonObject]
  cases Fields.get? slots (.own k) with
  | none => rfl
  | some v => exact h v

end AgentUE.TypeScript
