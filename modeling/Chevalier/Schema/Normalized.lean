import Chevalier.Foundations.Fold
import Chevalier.Schema.Inline

/-!
# Normalized tool schemas

`ToolParametersSchema`: the form in which tool schemas are kept, how it is read from a JSON schema
(implied types are filled in, type unions become variants) and how it is written.

* `fromJsonSchema_toJsonSchema`: what was read is read again from what is written.
-/

namespace Chevalier.Schema

open Json Fold List

inductive SchemaType
  | object | array | string | integer | number | boolean | null
deriving DecidableEq

/-- The errors, with the value or name that their texts quote; `unfinished` where the number of
calls does not suffice. -/
inductive SchemaError
  | notAnObject (value : Json)
  | unsupportedType (name : String)
  | unsupportedTypeDeclaration (value : Json)
  | unsupportedAdditionalProperties (value : Json)
  | unfinished

namespace SchemaType

def fromStr : String → Except SchemaError SchemaType
  | "object" => .ok object
  | "array" => .ok array
  | "string" => .ok string
  | "integer" => .ok integer
  | "number" => .ok number
  | "boolean" => .ok boolean
  | "null" => .ok null
  | other => .error (.unsupportedType other)

def asStr : SchemaType → String
  | object => "object"
  | array => "array"
  | string => "string"
  | integer => "integer"
  | number => "number"
  | boolean => "boolean"
  | null => "null"

theorem fromStr_asStr (kind : SchemaType) : fromStr kind.asStr = .ok kind := by
  cases kind <;> rfl

end SchemaType

inductive AdditionalProperties (σ : Type)
  | bool (value : Bool)
  | schema (value : σ)

structure ToolParametersSchema where
  schemaType : Option SchemaType := none
  description : Option String := none
  properties : List (String × ToolParametersSchema) := []
  required : List String := []
  items : Option ToolParametersSchema := none
  anyOf : List ToolParametersSchema := []
  oneOf : List ToolParametersSchema := []
  allOf : List ToolParametersSchema := []
  enumValues : List Json := []
  additionalProperties : Option (AdditionalProperties ToolParametersSchema) := none

namespace ToolParametersSchema

/-! ## Reading -/

def primitive (schemaType : SchemaType) : ToolParametersSchema := { schemaType := schemaType }

def parseSchemaType : Option Json →
    Except SchemaError (Option SchemaType × List ToolParametersSchema)
  | none => pure (none, [])
  | some (.string name) => do
    let kind ← SchemaType.fromStr name
    pure (some kind, [])
  | some (.array types) => do
    let kinds ← (types.filterMap Json.asStr).mapM SchemaType.fromStr
    match kinds.filter (· ≠ .null) with
    | [] => pure (some .null, [])
    | [kind] => pure (some kind, [])
    | kinds => pure (none, kinds.map primitive)
  | some value => throw (.unsupportedTypeDeclaration value)

def parseVariants (parse : Json → Except SchemaError ToolParametersSchema) :
    Option Json → Except SchemaError (List ToolParametersSchema)
  | some (.array variants) => variants.mapM parse
  | _ => pure []

def parseAdditional (parse : Json → Except SchemaError ToolParametersSchema) :
    Option Json → Except SchemaError (Option (AdditionalProperties ToolParametersSchema))
  | none => pure none
  | some (.bool value) => pure (some (.bool value))
  | some (.object map) => do
    let schema ← parse (.object map)
    pure (some (.schema schema))
  | some other => throw (.unsupportedAdditionalProperties other)

/-- The schema of an object whose nested schemas have been read. -/
def assemble (map : List (String × Json)) (kind : Option SchemaType)
    (properties : List (String × ToolParametersSchema)) (items : Option ToolParametersSchema)
    (anyOf oneOf allOf : List ToolParametersSchema)
    (additional : Option (AdditionalProperties ToolParametersSchema)) : ToolParametersSchema where
  -- a type that is not given is implied by properties, or else by items
  schemaType := (kind.or (if ((map.lookup "properties").bind asObject).isSome then some .object
    else none)).or (if items.isSome then some .array else none)
  description := (map.lookup "description").bind Json.asStr
  properties := properties
  required := (((map.lookup "required").bind asArray).getD []).filterMap Json.asStr
  items := items
  anyOf := anyOf
  oneOf := oneOf
  allOf := allOf
  enumValues := ((map.lookup "enum").bind asArray).getD []
  additionalProperties := additional

/-- The body of the recursion of `parse_schema_value`. -/
def parseBody (parse : Json → Except SchemaError ToolParametersSchema) :
    Json → Except SchemaError ToolParametersSchema
  | .object map => do
    let (kind, implied) ← parseSchemaType (map.lookup "type")
    let properties ← (((map.lookup "properties").bind asObject).getD []).mapM fun member => do
      let schema ← parse member.2
      pure (member.1, schema)
    let items ← (map.lookup "items").mapM parse
    let anyOf ← parseVariants parse (map.lookup "anyOf")
    let oneOf ← parseVariants parse (map.lookup "oneOf")
    let allOf ← parseVariants parse (map.lookup "allOf")
    let additional ← parseAdditional parse (map.lookup "additionalProperties")
    pure (assemble map kind properties items (implied ++ anyOf) oneOf allOf additional)
  | value => throw (.notAnObject value)

/-- `parse_schema_value` with at most `n` calls inside each other. -/
def parseSchemaValue (n : Nat) : Json → Except SchemaError ToolParametersSchema :=
  unroll parseBody (.error .unfinished) n

def fromJsonSchema (n : Nat) (schema : Json) : Except SchemaError ToolParametersSchema :=
  match inlineSchemaRefs n schema with
  | some expanded => parseSchemaValue n expanded
  | none => .error .unfinished

/-! ## Writing -/

/-- An object with the fields that are present. -/
def collect : List (String × Option Json) → List (String × Json)
  | [] => []
  | (key, some value) :: fields => insert key value (collect fields)
  | (_, none) :: fields => collect fields

/-- An array, if it has elements. -/
def nonempty (values : List Json) : Option Json :=
  if values.isEmpty then none else some (.array values)

def toJsonSchema : ToolParametersSchema → Json
  | ⟨schemaType, description, properties, required, items, anyOf, oneOf, allOf, enumValues,
      additionalProperties⟩ =>
    .object (collect [
      ("description", description.map .string),
      -- the type that is given, or implied by properties or items
      ("type", (((schemaType.map SchemaType.asStr).or
        (if properties.isEmpty then none else some "object")).or
        (items.map fun _ => "array")).map .string),
      ("properties", if properties.isEmpty then none else
        some (.object (properties.map fun property => (property.1, toJsonSchema property.2)))),
      ("required", if properties.isEmpty && required.isEmpty && schemaType ≠ some .object then none
        else some (.array (required.map .string))),
      ("items", match items with
        | none => none
        | some schema => some (toJsonSchema schema)),
      ("anyOf", nonempty (anyOf.map toJsonSchema)),
      ("oneOf", nonempty (oneOf.map toJsonSchema)),
      ("allOf", nonempty (allOf.map toJsonSchema)),
      ("enum", nonempty enumValues),
      ("additionalProperties", match additionalProperties with
        | none => none
        | some (.bool value) => some (.bool value)
        | some (.schema schema) => some (toJsonSchema schema))])
decreasing_by
  · have := sizeOf_snd_lt ‹property ∈ properties›
    simp only [mk.sizeOf_spec]
    omega
  all_goals decreasing_tactic

/-! ## The round trip -/

theorem lookup_collect {fi : List (String × Option Json)} {key : String}
    (hk : (fi.map Prod.fst).Nodup) :
    (collect fi).lookup key = (fi.lookup key).join := by
  induction fi with
  | nil => rfl
  | cons f fi ih =>
    obtain ⟨first, v⟩ := f
    rw [map_cons, nodup_cons] at hk
    have hl : key = first → fi.lookup key = none := by
      rintro rfl
      refine List.lookup_eq_none_iff.2 fun f hf => bne_iff_ne.2 fun heq => ?_
      exact hk.1 (List.mem_map.2 ⟨f, hf, heq.symm⟩)
    cases v with
    | none =>
      rw [collect, ih hk.2, lookup_cons]
      split_ifs with hke
      · rw [hl hke]
        rfl
      · rfl
    | some v =>
      rw [collect, lookup_insert, lookup_cons]
      split_ifs
      · rfl
      · exact ih hk.2

/-- What was read for each element. -/
theorem exists_of_mapM {ε α β : Type} {f : α → Except ε β} {l : List α} {bs : List β}
    (h : l.mapM f = .ok bs) : ∀ b ∈ bs, ∃ a, f a = .ok b := by
  induction l generalizing bs with
  | nil =>
    obtain rfl := pure_eq_ok.1 h
    exact nofun
  | cons a l ih =>
    simp only [mapM_cons, bind_eq_ok, pure_eq_ok] at h
    obtain ⟨b, hb, rest, hr, rfl⟩ := h
    exact List.forall_mem_cons.2 ⟨⟨a, hb⟩, ih hr⟩

theorem mapM_map {ε α β : Type} {f : α → Except ε β} {g : β → α} {bs : List β}
    (h : ∀ b ∈ bs, f (g b) = .ok b) : (bs.map g).mapM f = .ok bs := by
  induction bs with
  | nil => rfl
  | cons b bs ih =>
    rw [forall_mem_cons] at h
    rw [map_cons, mapM_cons, h.1, ih h.2]
    rfl

variable {pa : Json → Except SchemaError ToolParametersSchema}

/-- What reading gives, by its parts. -/
theorem parseBody_eq_ok {map : List (String × Json)} {x : ToolParametersSchema} :
    parseBody pa (.object map) = .ok x ↔
      ∃ kind, parseSchemaType (map.lookup "type") = .ok kind ∧
      ∃ p, ((((map.lookup "properties").bind asObject).getD []).mapM fun m => do
        let schema ← pa m.2
        pure (m.1, schema)) = .ok p ∧
      ∃ i, (map.lookup "items").mapM pa = .ok i ∧
      ∃ an, parseVariants pa (map.lookup "anyOf") = .ok an ∧
      ∃ oo, parseVariants pa (map.lookup "oneOf") = .ok oo ∧
      ∃ ao, parseVariants pa (map.lookup "allOf") = .ok ao ∧
      ∃ a, parseAdditional pa (map.lookup "additionalProperties") = .ok a ∧
      assemble map kind.1 p i (kind.2 ++ an) oo ao a = x := by
  simp only [parseBody, bind_eq_ok, pure_eq_ok]

theorem parseVariants_nonempty {s : List ToolParametersSchema}
    (h : ∀ sc ∈ s, pa sc.toJsonSchema = .ok sc) :
    parseVariants pa (nonempty (s.map toJsonSchema)) = .ok s := by
  unfold nonempty
  split_ifs with he
  · rw [List.isEmpty_iff, map_eq_nil_iff] at he
    subst he
    rfl
  · exact mapM_map h

/-- A type union adds primitive schemas only. -/
theorem mem_implied {v : Option Json} {kind : Option SchemaType × List ToolParametersSchema}
    (h : parseSchemaType v = .ok kind) : ∀ s ∈ kind.2, ∃ kind, s = primitive kind := by
  unfold parseSchemaType at h
  split at h
  · obtain rfl := pure_eq_ok.1 h
    exact nofun
  · obtain ⟨_, -, rfl⟩ := bind_pure_eq_ok.1 h
    exact nofun
  · obtain ⟨k, -, hk⟩ := bind_eq_ok.1 h
    split at hk
    · obtain rfl := pure_eq_ok.1 hk
      exact nofun
    · obtain rfl := pure_eq_ok.1 hk
      exact nofun
    · obtain rfl := pure_eq_ok.1 hk
      intro s hs
      obtain ⟨kind, -, rfl⟩ := List.mem_map.1 hs
      exact ⟨kind, rfl⟩
  · cases h

/-- A schema is read again if its nested schemas are and it has the type that they imply. -/
theorem parseBody_toJsonSchema {x : ToolParametersSchema}
    (hk : x.schemaType = none → x.properties = [] ∧ x.items = none)
    (hp : ∀ p ∈ x.properties, pa p.2.toJsonSchema = .ok p.2)
    (hi : ∀ schema, x.items = some schema → pa schema.toJsonSchema = .ok schema)
    (hv : ∀ schema ∈ x.anyOf ++ x.oneOf ++ x.allOf, pa schema.toJsonSchema = .ok schema)
    (ha : ∀ schema, x.additionalProperties = some (.schema schema) →
      pa schema.toJsonSchema = .ok schema) : parseBody pa x.toJsonSchema = .ok x := by
  obtain ⟨schemaType, description, properties, required, items, anyOf, oneOf, allOf, enumValues,
    additional⟩ := x
  have hke : ["description", "type", "properties", "required", "items", "anyOf", "oneOf",
    "allOf", "enum", "additionalProperties"].Nodup := by decide
  simp only [forall_mem_append] at hk hp hi hv ha
  rw [toJsonSchema.eq_def]
  refine parseBody_eq_ok.2 ⟨(schemaType, []), ?_, properties, ?_, items, ?_, anyOf, ?_, oneOf, ?_,
    allOf, ?_, additional, ?_, ?_⟩ <;>
    simp only [lookup_collect, map_cons, map_nil, hke, lookup_cons, String.reduceEq,
      if_true, if_false, Option.join_some, assemble]
  · cases schemaType with
    | none =>
      obtain ⟨rfl, rfl⟩ := hk rfl
      rfl
    | some kind =>
      show (SchemaType.fromStr kind.asStr >>= fun kind => pure (some kind, [])) = _
      rw [SchemaType.fromStr_asStr]
      rfl
  · split_ifs with he
    · rw [List.isEmpty_iff.1 he]
      rfl
    · refine mapM_map fun p hpr => ?_
      rw [hp p hpr]
      rfl
  · cases items with
    | none => rfl
    | some schema =>
      show (pa _ >>= fun schema => pure (some schema)) = _
      rw [hi schema rfl]
      rfl
  · exact parseVariants_nonempty hv.1.1
  · exact parseVariants_nonempty hv.1.2
  · exact parseVariants_nonempty hv.2
  · rcases additional with _ | _ | schema
    · rfl
    · rfl
    · obtain ⟨map, hmap⟩ : ∃ map, schema.toJsonSchema = .object map := by
        cases schema
        rw [toJsonSchema.eq_def]
        exact ⟨_, rfl⟩
      have hs := ha schema rfl
      simp only [hmap] at hs ⊢
      exact bind_pure_eq_ok.2 ⟨schema, hs, rfl⟩
  · rw [mk.injEq]
    refine ⟨?_, ?_, rfl, ?_, rfl, rfl, rfl, rfl, ?_, rfl⟩
    · cases schemaType with
      | none =>
        obtain ⟨rfl, rfl⟩ := hk rfl
        rfl
      | some => rfl
    · cases description <;> rfl
    · split_ifs with he
      · rw [Bool.and_eq_true, Bool.and_eq_true, List.isEmpty_iff, List.isEmpty_iff] at he
        rw [he.1.2]
        rfl
      · exact filterMap_asStr required
    · cases enumValues <;> rfl

theorem exists_of_parseVariants {v : Option Json} {s : List ToolParametersSchema}
    (h : parseVariants pa v = .ok s) :
    ∀ sc ∈ s, ∃ v, pa v = .ok sc := by
  unfold parseVariants at h
  split at h
  · exact exists_of_mapM h
  · obtain rfl := pure_eq_ok.1 h
    exact nofun

theorem parse_toJsonSchema {n : Nat} {v : Json} {x : ToolParametersSchema}
    (h : parseSchemaValue n v = .ok x) : parseSchemaValue (n + 1) x.toJsonSchema = .ok x := by
  induction n generalizing v x with
  | zero => cases h
  | succ n ih =>
    cases v with
    | object map =>
      obtain ⟨kind, hk, properties, hp, items, hi, anyOf, han, oneOf, ho,
        allOf, hal, additional, ha, rfl⟩ := parseBody_eq_ok.1 h
      refine parseBody_toJsonSchema (fun hn => ?_) (fun p hpr => ?_)
        (fun s hs => ?_) (fun s hs => ?_) fun s hs => ?_
      · simp only [assemble, Option.or_eq_none_iff, ite_eq_right_iff, reduceCtorEq, imp_false,
          Bool.not_eq_true, Option.isSome_eq_false_iff, Option.isNone_iff_eq_none] at hn
        rw [hn.1.2] at hp
        exact ⟨(pure_eq_ok.1 hp).symm, hn.2⟩
      · obtain ⟨m, hm⟩ := exists_of_mapM hp p hpr
        obtain ⟨s, hs, rfl⟩ := bind_pure_eq_ok.1 hm
        exact ih hs
      · obtain rfl : items = some s := hs
        cases hl : map.lookup "items" with
        | none =>
          rw [hl] at hi
          cases hi
        | some v =>
          rw [hl] at hi
          obtain ⟨_, hv, heq⟩ := bind_pure_eq_ok.1 hi
          cases heq
          exact ih hv
      · simp only [assemble, mem_append] at hs
        rcases hs with ((him | hmem) | hmem) | hmem
        · obtain ⟨kind, rfl⟩ := mem_implied hk s him
          exact parseBody_toJsonSchema nofun nofun nofun nofun nofun
        · obtain ⟨v, hv⟩ := exists_of_parseVariants han s hmem
          exact ih hv
        · obtain ⟨v, hv⟩ := exists_of_parseVariants ho s hmem
          exact ih hv
        · obtain ⟨v, hv⟩ := exists_of_parseVariants hal s hmem
          exact ih hv
      · obtain rfl : additional = some (.schema s) := hs
        unfold parseAdditional at ha
        split at ha
        · cases ha
        · cases ha
        · obtain ⟨_, hv, heq⟩ := bind_pure_eq_ok.1 ha
          cases heq
          exact ih hv
        · cases ha
    | _ => cases h

/-- **Normalized schemas survive a round trip.** -/
theorem fromJsonSchema_toJsonSchema {n : Nat} {schema : Json} {x : ToolParametersSchema}
    (h : fromJsonSchema n schema = .ok x) : fromJsonSchema (n + 1) x.toJsonSchema = .ok x := by
  have hp : ∃ e, parseSchemaValue n e = .ok x := by
    unfold fromJsonSchema at h
    split at h
    · exact ⟨_, h⟩
    · cases h
  obtain ⟨e, he⟩ := hp
  have hi : inlineSchemaRefs (n + 1) x.toJsonSchema = some x.toJsonSchema := by
    have hk : ["description", "type", "properties", "required", "items", "anyOf", "oneOf",
      "allOf", "enum", "additionalProperties"].Nodup := by decide
    have hn : definitions x.toJsonSchema = none := by
      cases x
      rw [toJsonSchema.eq_def, definitions]
      simp only [Json.get, asObject, Option.bind_some, lookup_collect, List.map_cons, List.map_nil, hk,
        lookup_cons, String.reduceEq, if_false]
      rfl
    rw [inlineSchemaRefs, hn]
  rw [fromJsonSchema, hi]
  exact parse_toJsonSchema he

/-- A property with a type union, and a closed object without a type. -/
theorem fromJsonSchema_toJsonSchema_union :
    ∃ x, fromJsonSchema 2 (.object [("additionalProperties", .bool false),
      ("properties", .object [("a", .object [("type",
        .array [.string "string", .string "integer", .string "null"])])])]) = .ok x ∧
      x.schemaType = some .object ∧ fromJsonSchema 3 x.toJsonSchema = .ok x := by
  have h : fromJsonSchema 2 (.object [("additionalProperties", .bool false),
      ("properties", .object [("a", .object [("type",
        .array [.string "string", .string "integer", .string "null"])])])]) = .ok _ := rfl
  exact ⟨_, h, rfl, fromJsonSchema_toJsonSchema h⟩

end ToolParametersSchema

end Chevalier.Schema
