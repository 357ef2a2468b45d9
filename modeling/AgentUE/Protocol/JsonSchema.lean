import AgentUE.Protocol.Envelope

/-!
# JSON Schema

Syntax and meaning of JSON Schema as far as schemas of messages use it. A keyword looks at the values of one type and
lets the others pass; several keywords beside each other are an `allOf`. A reference means what the environment says
of its name. The definitions of a document come one after the other, each of which may refer to those before it.
-/

namespace AgentUE.JsonSchema

open Data

variable {ν : Type}

/-! ## Syntax -/

/-- The names that `type` knows. -/
inductive JsonType where
  | null
  | boolean
  | object
  | array
  | number
  | string
  | integer
deriving DecidableEq

/-- A schema; `anything` and `nothing` are `true` and `false`. -/
inductive Schema (ν : Type) where
  | anything
  | nothing
  | type (names : List JsonType)
  | enum (values : List (Scalar ν))
  | minLength (n : ℕ)
  | minimum (bound : ν)
  | required (names : List String)
  /-- `properties` and `additionalProperties` -/
  | properties (schemas : List (String × Schema ν)) (additional : Schema ν)
  | items (s : Schema ν)
  | not (s : Schema ν)
  | allOf (ss : List (Schema ν))
  | anyOf (ss : List (Schema ν))
  | oneOf (ss : List (Schema ν))
  /-- `if`, `then` and `else` -/
  | cond (condition consequence alternative : Schema ν)
  /-- `$ref` to a definition of the document -/
  | ref (name : String)

/-- `const` -/
abbrev Schema.const (value : Scalar ν) : Schema ν := .enum [value]

mutual

/-- The names that a schema refers to. -/
def refs : Schema ν → List String
  | .ref name => [name]
  | .properties schemas additional => refsOfMembers schemas ++ refs additional
  | .items s => refs s
  | .not s => refs s
  | .allOf ss => refsOfList ss
  | .anyOf ss => refsOfList ss
  | .oneOf ss => refsOfList ss
  | .cond condition consequence alternative => refs condition ++ refs consequence ++ refs alternative
  | _ => []

def refsOfList : List (Schema ν) → List String
  | [] => []
  | s :: ss => refs s ++ refsOfList ss

def refsOfMembers : List (String × Schema ν) → List String
  | [] => []
  | (_, s) :: schemas => refs s ++ refsOfMembers schemas

end

/-! ## Meaning -/

/-- What schemas ask of numbers. -/
structure Numbers (ν : Type) where
  isInteger : ν → Bool
  le : ν → ν → Bool

variable [DecidableEq ν] {numbers : Numbers ν}

def hasType (numbers : Numbers ν) : JsonType → Json ν → Bool
  | .null, .null => true
  | .boolean, .leaf (.bool _) => true
  | .object, .obj _ => true
  | .array, .arr _ => true
  | .number, .num _ => true
  | .string, .str _ => true
  | .integer, .num n => numbers.isInteger n
  | _, _ => false

mutual

def accepts (numbers : Numbers ν) (env : String → Json ν → Bool) : Schema ν → Json ν → Bool
  | .anything, _ => true
  | .nothing, _ => false
  | .type names, v => names.any fun name => hasType numbers name v
  | .enum values, v =>
    match v with
    | .leaf a => values.elem a
    | _ => false
  | .minLength n, v =>
    match v with
    | .str s => decide (n ≤ s.length)
    | _ => true
  | .minimum bound, v =>
    match v with
    | .num n => numbers.le bound n
    | _ => true
  | .required names, v => (DocTree.asObj v).all fun fs => names.all (Fields.has fs)
  | .properties schemas additional, v =>
    (DocTree.asObj v).all fun fs => (Fields.keys fs).all fun k =>
      (Fields.get? fs k).all fun x => acceptsMember numbers env schemas k x (accepts numbers env additional x)
  | .items s, v => (DocTree.asArr v).all fun xs => xs.all fun x => accepts numbers env s x
  | .not s, v => !accepts numbers env s v
  | .allOf ss, v => (verdicts numbers env ss v).all id
  | .anyOf ss, v => (verdicts numbers env ss v).any id
  | .oneOf ss, v => (verdicts numbers env ss v).count true == 1
  | .cond condition consequence alternative, v =>
    if accepts numbers env condition v then accepts numbers env consequence v else accepts numbers env alternative v
  | .ref name, v => env name v

def verdicts (numbers : Numbers ν) (env : String → Json ν → Bool) : List (Schema ν) → Json ν → List Bool
  | [], _ => []
  | s :: ss, v => accepts numbers env s v :: verdicts numbers env ss v

/-- The member `k` has a schema of its own, or the verdict on additional members holds of it. -/
def acceptsMember (numbers : Numbers ν) (env : String → Json ν → Bool) :
    List (String × Schema ν) → String → Json ν → Bool → Bool
  | [], _, _, additional => additional
  | (j, s) :: schemas, k, x, additional =>
    if j = k then accepts numbers env s x else acceptsMember numbers env schemas k x additional

end

/-! ### Definitions -/

/-- The environment with one more definition. -/
def define (numbers : Numbers ν) (env : String → Json ν → Bool) (d : String × Schema ν) : String → Json ν → Bool :=
  fun name v => if name = d.1 then accepts numbers env d.2 v else env name v

/-- What the names mean behind all definitions. -/
def resolve (numbers : Numbers ν) (defs : List (String × Schema ν)) : String → Json ν → Bool :=
  defs.foldl (define numbers) fun _ _ => false

/-- No name is defined twice, and a definition refers to those before it. -/
def Ordered (earlier : List String) : List (String × Schema ν) → Prop
  | [] => True
  | (name, s) :: defs => name ∉ earlier ∧ (∀ r ∈ refs s, r ∈ earlier) ∧ Ordered (name :: earlier) defs

/-- A schema with its definitions. -/
structure Document (ν : Type) where
  root : Schema ν
  defs : List (String × Schema ν)
  ordered : Ordered [] defs

def Document.accepts (numbers : Numbers ν) (d : Document ν) : Json ν → Bool :=
  JsonSchema.accepts numbers (resolve numbers d.defs) d.root

/-! ## References mean their definitions -/

mutual

/-- A schema sees of the environment what it refers to. -/
theorem accepts_congr {env env' : String → Json ν → Bool} : (s : Schema ν) →
    (∀ r ∈ refs s, ∀ v, env r v = env' r v) → ∀ v, accepts numbers env s v = accepts numbers env' s v
  | .anything, _, _ => rfl
  | .nothing, _, _ => rfl
  | .type _, _, _ => rfl
  | .enum _, _, _ => rfl
  | .minLength _, _, _ => rfl
  | .minimum _, _, _ => rfl
  | .required _, _, _ => rfl
  | .properties schemas additional, h, v => by
    rw [refs] at h
    have hmembers := acceptsMember_congr schemas fun r hr => h r (List.mem_append_left _ hr)
    have hadditional := accepts_congr additional fun r hr => h r (List.mem_append_right _ hr)
    simp only [accepts, hmembers, hadditional]
  | .items s, h, v => by
    rw [refs] at h
    simp only [accepts, accepts_congr s h]
  | .not s, h, v => by
    rw [refs] at h
    simp only [accepts, accepts_congr s h]
  | .allOf ss, h, v => by
    rw [refs] at h
    rw [accepts, accepts, verdicts_congr ss h]
  | .anyOf ss, h, v => by
    rw [refs] at h
    rw [accepts, accepts, verdicts_congr ss h]
  | .oneOf ss, h, v => by
    rw [refs] at h
    rw [accepts, accepts, verdicts_congr ss h]
  | .cond condition consequence alternative, h, v => by
    rw [refs] at h
    have hleft : ∀ r ∈ refs condition ++ refs consequence, ∀ v, env r v = env' r v :=
      fun r hr => h r (List.mem_append_left _ hr)
    have hcondition := accepts_congr condition fun r hr => hleft r (List.mem_append_left _ hr)
    have hconsequence := accepts_congr consequence fun r hr => hleft r (List.mem_append_right _ hr)
    have halternative := accepts_congr alternative fun r hr => h r (List.mem_append_right _ hr)
    simp only [accepts, hcondition, hconsequence, halternative]
  | .ref name, h, v => h name (by simp [refs]) v

theorem verdicts_congr {env env' : String → Json ν → Bool} : (ss : List (Schema ν)) →
    (∀ r ∈ refsOfList ss, ∀ v, env r v = env' r v) → ∀ v, verdicts numbers env ss v = verdicts numbers env' ss v
  | [], _, _ => rfl
  | s :: ss, h, v => by
    rw [refsOfList] at h
    rw [verdicts, verdicts, accepts_congr s fun r hr => h r (List.mem_append_left _ hr),
      verdicts_congr ss fun r hr => h r (List.mem_append_right _ hr)]

theorem acceptsMember_congr {env env' : String → Json ν → Bool} : (schemas : List (String × Schema ν)) →
    (∀ r ∈ refsOfMembers schemas, ∀ v, env r v = env' r v) → ∀ k x additional,
      acceptsMember numbers env schemas k x additional = acceptsMember numbers env' schemas k x additional
  | [], _, _, _, _ => rfl
  | (j, s) :: schemas, h, k, x, additional => by
    rw [refsOfMembers] at h
    rw [acceptsMember, acceptsMember, accepts_congr s fun r hr => h r (List.mem_append_left _ hr),
      acceptsMember_congr schemas fun r hr => h r (List.mem_append_right _ hr)]

end

/-- Definitions leave the earlier names as they are, and theirs mean what they say. -/
theorem foldl_define {earlier : List String} {defs : List (String × Schema ν)} (h : Ordered earlier defs)
    (env : String → Json ν → Bool) :
    (∀ name ∈ earlier, ∀ v, defs.foldl (define numbers) env name v = env name v) ∧
      ∀ name s, (name, s) ∈ defs → ∀ v, defs.foldl (define numbers) env name v =
        accepts numbers (defs.foldl (define numbers) env) s v := by
  induction defs generalizing earlier env with
  | nil => exact ⟨fun _ _ _ => rfl, fun _ _ hmem => by cases hmem⟩
  | cons d defs ih =>
    obtain ⟨name, s⟩ := d
    obtain ⟨hnew, hrefs, hordered⟩ := h
    obtain ⟨hearlier, hdefs⟩ := ih hordered (define numbers env (name, s))
    have hkept : ∀ r ∈ earlier, ∀ v, defs.foldl (define numbers) (define numbers env (name, s)) r v = env r v := by
      intro r hr v
      have hne : r ≠ name := fun heq => hnew (heq ▸ hr)
      rw [hearlier r (List.mem_cons_of_mem _ hr), define, if_neg hne]
    refine ⟨hkept, fun name' s' hmem v => ?_⟩
    rcases List.mem_cons.mp hmem with heq | hmem
    · obtain ⟨rfl, rfl⟩ := Prod.mk.inj heq
      show defs.foldl (define numbers) (define numbers env (name', s')) name' v = _
      rw [hearlier name' List.mem_cons_self, define, if_pos rfl]
      exact accepts_congr s' (fun r hr v => (hkept r (hrefs r hr) v).symm) v
    · exact hdefs name' s' hmem v

/-- A reference means its definition. -/
theorem Document.resolve_eq (d : Document ν) {name : String} {s : Schema ν} (h : (name, s) ∈ d.defs) (v : Json ν) :
    resolve numbers d.defs name v = JsonSchema.accepts numbers (resolve numbers d.defs) s v :=
  (foldl_define d.ordered fun _ _ => false).2 name s h v

/-! ## The keywords -/

section

variable {env : String → Json ν → Bool} {fs : JsonObject ν} {v : Json ν}

theorem verdicts_eq_map (ss : List (Schema ν)) (v : Json ν) :
    verdicts numbers env ss v = ss.map fun s => accepts numbers env s v := by
  induction ss with
  | nil => rfl
  | cons s ss ih => rw [verdicts, ih, List.map_cons]

@[simp] theorem accepts_allOf {ss : List (Schema ν)} :
    accepts numbers env (.allOf ss) v = true ↔ ∀ s ∈ ss, accepts numbers env s v = true := by
  rw [accepts, verdicts_eq_map]
  simp

@[simp] theorem accepts_anyOf {ss : List (Schema ν)} :
    accepts numbers env (.anyOf ss) v = true ↔ ∃ s ∈ ss, accepts numbers env s v = true := by
  rw [accepts, verdicts_eq_map]
  simp

@[simp] theorem accepts_not {s : Schema ν} :
    accepts numbers env (.not s) v = true ↔ ¬ accepts numbers env s v = true := by
  rw [accepts, Bool.not_eq_true', Bool.not_eq_true]

/-- Two alternatives that exclude each other. -/
theorem accepts_oneOf_pair {s t : Schema ν} (h : accepts numbers env s v = true → ¬ accepts numbers env t v = true) :
    accepts numbers env (.oneOf [s, t]) v = true ↔
      accepts numbers env s v = true ∨ accepts numbers env t v = true := by
  rw [accepts, verdicts_eq_map]
  cases hs : accepts numbers env s v with
  | true => simp [hs, h hs]
  | false => cases ht : accepts numbers env t v <;> simp [hs, ht]

theorem accepts_cond {condition consequence alternative : Schema ν} :
    accepts numbers env (.cond condition consequence alternative) v = true ↔
      (accepts numbers env condition v = true → accepts numbers env consequence v = true) ∧
        (¬ accepts numbers env condition v = true → accepts numbers env alternative v = true) := by
  rw [accepts]
  cases accepts numbers env condition v <;> simp

@[simp] theorem accepts_enum {values : List (Scalar ν)} :
    accepts numbers env (.enum values) v = true ↔ ∃ a ∈ values, v = .leaf a := by
  rcases v with a | _ | _ <;> simp [accepts]

@[simp] theorem accepts_ref (name : String) : accepts numbers env (.ref name) v = env name v := by rw [accepts]

@[simp] theorem accepts_required {names : List String} :
    accepts numbers env (.required names) (.obj fs) = true ↔ ∀ name ∈ names, Fields.has fs name = true := by
  simp [accepts, DocTree.asObj]

@[simp] theorem accepts_items {s : Schema ν} {xs : List (Json ν)} :
    accepts numbers env (.items s) (.arr xs) = true ↔ ∀ x ∈ xs, accepts numbers env s x = true := by
  simp [accepts, DocTree.asArr]

theorem acceptsMember_iff {schemas : List (String × Schema ν)} (hnodup : (schemas.map Prod.fst).Nodup) {k : String}
    {x : Json ν} {additional : Bool} :
    acceptsMember numbers env schemas k x additional = true ↔
      (∀ d ∈ schemas, d.1 = k → accepts numbers env d.2 x = true) ∧
        (k ∉ schemas.map Prod.fst → additional = true) := by
  induction schemas with
  | nil => simp [acceptsMember]
  | cons d schemas ih =>
    obtain ⟨j, s⟩ := d
    rw [List.map_cons, List.nodup_cons] at hnodup
    rw [acceptsMember]
    by_cases hj : j = k
    · subst hj
      have hother : ∀ d ∈ schemas, d.1 = j → accepts numbers env d.2 x = true :=
        fun d hmem heq => absurd (List.mem_map.mpr ⟨d, hmem, heq⟩) hnodup.1
      rw [if_pos rfl, List.forall_mem_cons]
      simpa using fun _ => hother
    · rw [if_neg hj, ih hnodup.2, List.forall_mem_cons]
      simp [hj, Ne.symm hj]

/-- The members of an object, one after the other. -/
theorem accepts_properties {schemas : List (String × Schema ν)} {additional : Schema ν}
    (hnodup : (schemas.map Prod.fst).Nodup) :
    accepts numbers env (.properties schemas additional) (.obj fs) = true ↔
      (∀ d ∈ schemas, ∀ x, Fields.get? fs d.1 = some x → accepts numbers env d.2 x = true) ∧
        ∀ k x, Fields.get? fs k = some x → k ∉ schemas.map Prod.fst → accepts numbers env additional x = true := by
  have hmem : ∀ {k x}, Fields.get? fs k = some x → k ∈ Fields.keys fs := fun {k x} h =>
    (Fields.mem_keys_iff fs k).mpr (by rw [Fields.has, h]; rfl)
  simp only [accepts, DocTree.asObj, Option.all_some, List.all_eq_true, Option.all_eq_true, acceptsMember_iff hnodup]
  constructor
  · intro h
    exact ⟨fun d hd x hx => (h d.1 (hmem hx) x hx).1 d hd rfl, fun k x hx hk => (h k (hmem hx) x hx).2 hk⟩
  · rintro ⟨hown, hadditional⟩ k - x hx
    exact ⟨fun d hd hk => hown d hd x (hk ▸ hx), fun hk => hadditional k x hx hk⟩

/-- Where any further member may stand. -/
theorem accepts_properties_anything {schemas : List (String × Schema ν)} (hnodup : (schemas.map Prod.fst).Nodup) :
    accepts numbers env (.properties schemas .anything) (.obj fs) = true ↔
      ∀ d ∈ schemas, ∀ x, Fields.get? fs d.1 = some x → accepts numbers env d.2 x = true := by
  rw [accepts_properties hnodup, and_iff_left_iff_imp]
  intro _ k x _ _
  rfl

/-- Where none may. -/
theorem accepts_properties_nothing {schemas : List (String × Schema ν)} (hnodup : (schemas.map Prod.fst).Nodup) :
    accepts numbers env (.properties schemas .nothing) (.obj fs) = true ↔
      (∀ d ∈ schemas, ∀ x, Fields.get? fs d.1 = some x → accepts numbers env d.2 x = true) ∧
        ∀ k ∈ Fields.keys fs, k ∈ schemas.map Prod.fst := by
  rw [accepts_properties hnodup]
  refine and_congr_right fun _ => ⟨fun h k hk => ?_, fun h k x hx hk => ?_⟩
  · obtain ⟨x, hx⟩ := (Fields.has_eq_true_iff _ _).mp ((Fields.mem_keys_iff fs k).mp hk)
    by_contra hother
    exact Bool.false_ne_true (h k x hx hother)
  · exact absurd (h k ((Fields.mem_keys_iff fs k).mpr (by rw [Fields.has, hx]; rfl))) hk

end

end AgentUE.JsonSchema
