import Chevalier.Foundations.Json

/-!
# Strict schemas

The rewriting of a schema for structured outputs: every object schema is closed, and its optional
properties become required and nullable, at every level. A property is widened before the rewriting
descends into it, and a property that is an empty object schema stays optional.

* `fixSchema_eq`: the rewriting is the recursion of the source.
* `fixSchema_idempotent`: rewriting a rewritten schema changes nothing.
-/

namespace Chevalier.Schema

open Json List

/-! ## The rewriting -/

def schemaTypeIncludes (map : List (String × Json)) (expected : String) : Bool :=
  match map.lookup "type" with
  | some (.string kind) => kind = expected
  | some (.array kinds) => kinds.any fun value => value.asStr = some expected
  | _ => false

def isDegenerateEmptyObjectSchema : Json → Bool
  | .object map =>
    let hasProperties := ((map.lookup "properties").bind asObject).any fun properties =>
      !properties.isEmpty
    let hasItems := (map.lookup "items").isSome
    let hasCombinators := ["anyOf", "oneOf", "allOf"].any fun key => (map.lookup key).isSome
    let hasShapeConstraints := (map.lookup "enum").isSome || (map.lookup "const").isSome ||
      (map.lookup "patternProperties").isSome ||
      ((map.lookup "additionalProperties").bind asObject).isSome
    schemaTypeIncludes map "object" && !hasProperties && !hasItems && !hasCombinators &&
      !hasShapeConstraints
  | _ => false

/-- The schema, or null. -/
def orNull (schema : Json) : Json :=
  .object [("anyOf", .array [schema, .object [("type", .string "null")]])]

def makeSchemaNullable : Json → Json
  | .object map =>
    if ["enum", "const", "anyOf", "oneOf", "allOf", "not", "if"].any fun key =>
        (map.lookup key).isSome then
      orNull (.object map)
    else
      match map.lookup "type" with
      | some (.string kind) =>
        if kind = "null" then .object map
        else .object (insert "type" (.array [.string kind, .string "null"]) map)
      | some (.array kinds) =>
        if kinds.any fun value => value.asStr = some "null" then .object map
        else .object (insert "type" (.array (kinds ++ [.string "null"])) map)
      | _ => orNull (.object map)
  | schema => schema

/-- The loop over the properties: the properties, and the names required after it. -/
def promote : List (String × Json) → List String → List (String × Json) × List String
  | [], required => ([], required)
  | (name, schema) :: props, required =>
    if name ∈ required ∨ isDegenerateEmptyObjectSchema schema = true then
      (promote props required).map (List.cons (name, schema)) id
    else
      (promote props (required ++ [name])).map (List.cons (name, makeSchemaNullable schema)) id

def requireAllPropertiesWithNullableOptionals (map : List (String × Json)) :
    List (String × Json) :=
  let required := (((map.lookup "required").bind asArray).getD []).filterMap asStr
  match map.lookup "properties" with
  | some (.object props) =>
    insert "required" (.array ((promote props required).2.map .string))
      (insert "properties" (.object (promote props required).1) map)
  | _ => insert "required" (.array (required.map .string)) map

/-- What the rewriting makes of the member under a key. -/
def fixMember (fix : Json → Json) (key : String) (value : Json) : Json :=
  if key = "items" then fix value
  else if key ∈ ["properties", "$defs", "definitions"] then
    match value with
    | .object schemas => .object (schemas.map fun schema => (schema.1, fix schema.2))
    | _ => value
  else if key ∈ ["anyOf", "oneOf", "allOf"] then
    match value with
    | .array variants => .array (variants.map fix)
    | _ => value
  else value

/-- Descend into the nested schemas; the keys of an object are distinct, so that visiting every
member finds what looking the keys up finds. -/
def recurseSchemaFix (fix : Json → Json) (map : List (String × Json)) : List (String × Json) :=
  map.map fun member => (member.1, fixMember fix member.1 member.2)

/-- An object schema, closed and with all properties required. -/
def closeObject (map : List (String × Json)) : List (String × Json) :=
  if schemaTypeIncludes map "object" = true then
    requireAllPropertiesWithNullableOptionals (insert "additionalProperties" (.bool false) map)
  else map

/-- The body of both rewritings. -/
def fixSchema (fix : Json → Json) : Json → Json
  | .object map => .object (recurseSchemaFix fix (closeObject map))
  | schema => schema

def fixSchemaForOpenai : Json → Json := recursion fixSchema .null

def fixSchemaForAnthropic : Json → Json := recursion fixSchema .null

/-! ## The recursion -/

/-- The schemas that the rewriting descends into from a member. -/
def nested (key : String) (value : Json) : List Json :=
  if key = "items" then [value]
  else if key ∈ ["properties", "$defs", "definitions"] then
    (value.asObject.getD []).map Prod.snd
  else if key ∈ ["anyOf", "oneOf", "allOf"] then value.asArray.getD []
  else []

variable {f g : Json → Json} {map props : List (String × Json)} {required r : List String}
  {key : String} {value schema sc : Json}

theorem fixMember_congr (h : ∀ i ∈ nested key value, f i = g i) :
    fixMember f key value = fixMember g key value := by
  unfold fixMember
  unfold nested at h
  split_ifs at h ⊢
  · exact h value mem_cons_self
  · cases value with
    | object s =>
      refine congrArg object (map_congr_left fun sc hs => ?_)
      rw [h sc.2 (mem_map_of_mem hs)]
    | _ => rfl
  · cases value with
    | array v => exact congrArg array (map_congr_left h)
    | _ => rfl
  · rfl

theorem lookup_recurseSchemaFix : (recurseSchemaFix f map).lookup key =
    (map.lookup key).map (fixMember f key) := by
  induction map with
  | nil => rfl
  | cons m map ih =>
    rw [recurseSchemaFix, map_cons, lookup_cons, lookup_cons]
    split_ifs with h
    · rw [h]
      rfl
    · exact ih

/-- An insertion deepens an object by no more than the value is deep. -/
theorem depth_insert {n : Nat} (hmap : (object map).depth ≤ n + 1) (hv : value.depth ≤ n) :
    (object (insert key value map)).depth ≤ n + 1 := by
  refine Nat.succ_le_succ (membersDepth_le.2 fun m hm => ?_)
  rcases mem_insert hm with rfl | hold
  · exact hv
  · exact membersDepth_le.1 (Nat.le_of_succ_le_succ hmap) m hold

theorem depth_makeSchemaNullable : (makeSchemaNullable sc).depth ≤ sc.depth + 1 := by
  cases sc with
  | object map =>
    have hw : (orNull (.object map)).depth ≤ (object map).depth + 1 := by
      simp [orNull, depth, itemsDepth, membersDepth]
    rw [makeSchemaNullable]
    split_ifs
    · exact hw
    split
    · split_ifs
      · exact Nat.le_succ _
      · exact depth_insert (Nat.le_succ _) (Nat.zero_le _)
    · next k hk =>
      split_ifs
      · exact Nat.le_succ _
      · refine depth_insert (Nat.le_succ _) (itemsDepth_le.2 fun item hi => ?_)
        rcases List.mem_append.1 hi with hi | hi
        · exact Nat.le_trans (itemsDepth_le.1 le_rfl item hi)
            (membersDepth_le.1 (Nat.le_succ _) _ (mem_of_lookup hk))
        · rw [List.mem_singleton.1 hi]
          exact Nat.zero_le _
    · exact hw
  | _ => exact Nat.le_succ _

/-- A property after the loop is one of before, or one that was widened. -/
theorem mem_promote {m : String × Json} (h : m ∈ (promote props r).1) :
    ∃ sc, (m.1, sc) ∈ props ∧ (m.2 = sc ∨ m.2 = makeSchemaNullable sc) := by
  induction props generalizing r with
  | nil => cases h
  | cons first props ih =>
    have hr : ∀ {r}, m ∈ (promote props r).1 → ∃ sc,
        (m.1, sc) ∈ first :: props ∧ (m.2 = sc ∨ m.2 = makeSchemaNullable sc) := by
      intro r h
      obtain ⟨sc, hs, heq⟩ := ih h
      exact ⟨sc, mem_cons_of_mem _ hs, heq⟩
    unfold promote at h
    split_ifs at h
    · rcases List.mem_cons.1 h with rfl | h
      · exact ⟨_, mem_cons_self, .inl rfl⟩
      · exact hr h
    · rcases List.mem_cons.1 h with rfl | h
      · exact ⟨_, mem_cons_self, .inr rfl⟩
      · exact hr h

/-- What is nested in a member is not deeper than the object's members. -/
theorem depth_nested_of_mem (hmem : (key, value) ∈ map) :
    ∀ i ∈ nested key value, i.depth < (object map).depth := by
  have hv : value.depth ≤ membersDepth map := membersDepth_le.1 le_rfl _ hmem
  intro i hi
  refine Nat.lt_succ_of_le (le_trans ?_ hv)
  unfold nested at hi
  split_ifs at hi
  · rw [List.mem_singleton.1 hi]
  · cases value with
    | object s =>
      obtain ⟨sc, hs, rfl⟩ := List.mem_map.1 hi
      exact Nat.le_succ_of_le (membersDepth_le.1 le_rfl sc hs)
    | _ => cases hi
  · cases value with
    | array v => exact itemsDepth_le.1 le_rfl i hi
    | _ => cases hi
  · cases hi

theorem depth_nested (hmem : (key, value) ∈ closeObject map) :
    ∀ i ∈ nested key value, i.depth < (object map).depth := by
  have hc : ∀ {key value}, (key, value) ∈ insert "additionalProperties" (.bool false) map →
      ∀ i ∈ nested key value, i.depth < (object map).depth := by
    intro key value hmem
    rcases mem_insert hmem with heq | hold
    · cases heq
      exact fun _ hi => nomatch hi
    · exact depth_nested_of_mem hold
  unfold closeObject requireAllPropertiesWithNullableOptionals at hmem
  simp only at hmem
  split_ifs at hmem
  · split at hmem
    · next props hp =>
      rw [lookup_insert, if_neg (by decide)] at hp
      rcases mem_insert hmem with heq | hmem
      · cases heq
        exact fun _ hi => nomatch hi
      rcases mem_insert hmem with heq | hmem
      · cases heq
        intro i hi
        obtain ⟨m, hm, rfl⟩ := List.mem_map.1 hi
        obtain ⟨sc, hs, heq⟩ := mem_promote hm
        have hle : sc.depth ≤ membersDepth props := membersDepth_le.1 le_rfl _ hs
        have hp : membersDepth props + 1 ≤ membersDepth map :=
          membersDepth_le.1 le_rfl _ (mem_of_lookup hp)
        have hd : m.2.depth ≤ sc.depth + 1 := by
          rcases heq with heq | heq <;> rw [heq]
          · exact Nat.le_succ _
          · exact depth_makeSchemaNullable
        exact Nat.lt_succ_of_le (by omega)
      · exact hc hmem
    · rcases mem_insert hmem with heq | hmem
      · cases heq
        exact fun _ hi => nomatch hi
      · exact hc hmem
  · exact depth_nested_of_mem hmem

theorem descends_fixSchema : Descends fixSchema := by
  intro f g value h
  cases value with
  | object map =>
    refine congrArg object (map_congr_left fun m hm => ?_)
    rw [fixMember_congr fun i hi => h i (depth_nested hm i hi)]
  | _ => rfl

/-- The rewriting is the recursion of the source. -/
theorem fixSchema_eq (sc : Json) : fixSchemaForOpenai sc = fixSchema fixSchemaForOpenai sc :=
  recursion_eq _ descends_fixSchema

/-! ## Idempotence -/

theorem schemaTypeIncludes_congr {map' : List (String × Json)} {e : String}
    (h : map'.lookup "type" = map.lookup "type") :
    schemaTypeIncludes map' e = schemaTypeIncludes map e := by
  unfold schemaTypeIncludes
  rw [h]

theorem mem_promote_required {name : String} (h : name ∈ r) :
    name ∈ (promote props r).2 := by
  induction props generalizing r with
  | nil => exact h
  | cons first props ih =>
    rw [promote]
    split_ifs
    · exact ih h
    · exact ih (mem_append_left _ h)

/-- After the loop every property is required, or an empty object schema. -/
theorem promoted : ∀ m ∈ (promote props r).1,
    m.1 ∈ (promote props r).2 ∨ isDegenerateEmptyObjectSchema m.2 = true := by
  induction props generalizing r with
  | nil => exact nofun
  | cons first props ih =>
    rw [promote]
    split_ifs with hk
    · exact List.forall_mem_cons.2 ⟨hk.imp_left mem_promote_required, ih⟩
    · refine List.forall_mem_cons.2 ⟨.inl (mem_promote_required ?_), ih⟩
      exact mem_append_right _ mem_cons_self

/-- The loop changes nothing where every property is required, or an empty object schema. -/
theorem promote_eq_self (h : ∀ m ∈ props,
    m.1 ∈ r ∨ isDegenerateEmptyObjectSchema m.2 = true) :
    promote props r = (props, r) := by
  induction props with
  | nil => rfl
  | cons m props ih =>
    rw [forall_mem_cons] at h
    rw [promote, if_pos h.1, ih h.2]
    rfl

/-- An object schema that is closed, with the names it requires. -/
structure Closed (map : List (String × Json)) (required : List String) : Prop where
  additional : map.lookup "additionalProperties" = some (.bool false)
  required_eq : map.lookup "required" = some (.array (required.map .string))
  properties : ∀ props, map.lookup "properties" = some (.object props) → ∀ member ∈ props,
    member.1 ∈ required ∨ isDegenerateEmptyObjectSchema member.2 = true

/-- An object schema is closed, and its properties are those of before, after the loop. -/
theorem closed_closeObject (ho : schemaTypeIncludes map "object" = true) :
    ∃ r, Closed (closeObject map) r ∧
      ∀ props, (closeObject map).lookup "properties" = some (.object props) → ∃ old n,
        map.lookup "properties" = some (.object old) ∧ props = (promote old n).1 := by
  rw [closeObject, if_pos ho, requireAllPropertiesWithNullableOptionals]
  split
  · next props hp =>
    refine ⟨_, ⟨?_, lookup_insert.trans (if_pos rfl), fun p' hp' => ?_⟩, fun p' hp' => ?_⟩
    · simp [lookup_insert]
    all_goals
      rw [lookup_insert, if_neg (by decide), lookup_insert, if_pos rfl, Option.some.injEq,
        object.injEq] at hp'
    · exact hp' ▸ promoted
    · rw [lookup_insert, if_neg (by decide)] at hp
      exact ⟨props, _, hp, hp'.symm⟩
  · next hn =>
    refine ⟨_, ⟨?_, lookup_insert.trans (if_pos rfl), fun p' hp' => ?_⟩, fun p' hp' => ?_⟩
    · simp [lookup_insert]
    all_goals
      rw [lookup_insert, if_neg (by decide)] at hp'
      exact (hn _ hp').elim

/-- Descending into a closed object keeps it closed, if empty object schemas stay empty. -/
theorem Closed.recurse (h : Closed map r)
    (hf : ∀ sc, isDegenerateEmptyObjectSchema sc = true →
      isDegenerateEmptyObjectSchema (f sc) = true) :
    Closed (recurseSchemaFix f map) r := by
  refine ⟨?_, ?_, fun props hp => ?_⟩
  · rw [lookup_recurseSchemaFix, h.additional]
    rfl
  · rw [lookup_recurseSchemaFix, h.required_eq]
    rfl
  · rw [lookup_recurseSchemaFix, Option.map_eq_some_iff] at hp
    obtain ⟨value, hv, heq⟩ := hp
    cases value with
    | object old =>
      cases heq
      intro m hm
      obtain ⟨s, hs, rfl⟩ := List.mem_map.1 hm
      exact (h.properties old hv s hs).imp_right (hf _)
    | _ => cases heq

/-- Closing a closed object changes nothing. -/
theorem Closed.requireAll_eq (h : Closed map r) :
    requireAllPropertiesWithNullableOptionals
      (insert "additionalProperties" (.bool false) map) = map := by
  rw [insert_of_lookup h.additional]
  unfold requireAllPropertiesWithNullableOptionals
  simp only [h.required_eq, Option.bind_some, asArray, Option.getD_some, filterMap_asStr]
  split
  · next props hp =>
    rw [promote_eq_self (h.properties props hp), insert_of_lookup hp,
      insert_of_lookup h.required_eq]
  · exact insert_of_lookup h.required_eq

theorem lookup_closeObject (hk : key ∉ ["additionalProperties", "properties", "required"]) :
    (closeObject map).lookup key = map.lookup key := by
  simp only [mem_cons, not_mem_nil, or_false, not_or] at hk
  unfold closeObject requireAllPropertiesWithNullableOptionals
  simp only
  split_ifs
  · split <;> simp [lookup_insert, hk]
  · rfl

theorem schemaTypeIncludes_recurse : schemaTypeIncludes (recurseSchemaFix f (closeObject map))
    "object" = schemaTypeIncludes map "object" := by
  refine schemaTypeIncludes_congr ?_
  rw [lookup_recurseSchemaFix, lookup_closeObject (by decide)]
  exact Option.map_id'

/-- Closing an object that was closed and then descended into changes nothing, if empty object
schemas stay empty. -/
theorem closeObject_recurseSchemaFix (hf : ∀ sc, isDegenerateEmptyObjectSchema sc = true →
      isDegenerateEmptyObjectSchema (f sc) = true) :
    closeObject (recurseSchemaFix f (closeObject map)) = recurseSchemaFix f (closeObject map) := by
  rw [closeObject.eq_1 (recurseSchemaFix _ _), schemaTypeIncludes_recurse]
  split_ifs with ho
  · obtain ⟨_, hc, -⟩ := closed_closeObject ho
    exact (hc.recurse hf).requireAll_eq
  · rfl

/-- The empty object schemas, by their members. -/
theorem degenerate_iff : isDegenerateEmptyObjectSchema (.object map) = true ↔
    schemaTypeIncludes map "object" = true ∧
    (∀ props, map.lookup "properties" = some (.object props) → props = []) ∧
    (∀ key ∈ ["items", "anyOf", "oneOf", "allOf", "enum", "const", "patternProperties"],
      map.lookup key = none) ∧
    ∀ m, map.lookup "additionalProperties" ≠ some (.object m) := by
  have he : ∀ value : Option Json, (value.bind asObject).any (fun props => !props.isEmpty) =
      false ↔ ∀ props, value = some (.object props) → props = [] := by
    rintro (_ | value)
    · simp
    · cases value <;> simp [asObject]
  have ho : ∀ value : Option Json, (value.bind asObject).isSome = false ↔
      ∀ m, value ≠ some (.object m) := by
    rintro (_ | value)
    · simp
    · cases value <;> simp [asObject]
  simp only [isDegenerateEmptyObjectSchema, Bool.and_eq_true, Bool.not_eq_true', he, ho,
    Bool.or_eq_false_iff, any_cons, any_nil, Option.isSome_eq_false_iff,
    Option.isNone_iff_eq_none, forall_mem_cons]
  tauto

theorem degenerate_fix (h : isDegenerateEmptyObjectSchema sc = true) :
    isDegenerateEmptyObjectSchema (fixSchemaForOpenai sc) = true := by
  cases sc with
  | object map =>
    rw [fixSchema_eq, fixSchema]
    obtain ⟨ht, hp, hn, -⟩ := degenerate_iff.1 h
    obtain ⟨_, hc, hold⟩ := closed_closeObject ht
    refine degenerate_iff.2 ⟨schemaTypeIncludes_recurse.trans ht, fun props hl => ?_,
      fun key hk => ?_, fun m hl => ?_⟩
    · rw [lookup_recurseSchemaFix, Option.map_eq_some_iff] at hl
      obtain ⟨value, hv, heq⟩ := hl
      cases value with
      | object c =>
        obtain ⟨old, _, hmap, rfl⟩ := hold c hv
        cases hp old hmap
        cases heq
        rfl
      | _ => cases heq
    · rw [lookup_recurseSchemaFix, lookup_closeObject, hn key hk]
      · rfl
      · revert key
        decide
    · rw [lookup_recurseSchemaFix, hc.additional] at hl
      cases hl
  | _ => cases h

theorem fixMember_comp :
    fixMember f key (fixMember g key value) = fixMember (f ∘ g) key value := by
  unfold fixMember
  split_ifs
  · rfl
  · cases value <;> simp
  · cases value <;> simp
  · rfl

theorem fix_fix {n : Nat} (hn : sc.depth < n) :
    fixSchemaForOpenai (fixSchemaForOpenai sc) = fixSchemaForOpenai sc := by
  induction n generalizing sc with
  | zero => cases hn
  | succ n ih =>
    rw [fixSchema_eq sc, fixSchema_eq]
    cases sc with
    | object map =>
      refine congrArg object ?_
      rw [closeObject_recurseSchemaFix fun sc => degenerate_fix]
      unfold recurseSchemaFix
      rw [map_map]
      refine map_congr_left fun m hm => ?_
      refine congrArg (Prod.mk m.1) (fixMember_comp.trans (fixMember_congr fun i hi => ih ?_))
      have := depth_nested hm i hi
      omega
    | _ => rfl

/-- **Rewriting a rewritten schema changes nothing.** -/
theorem fixSchema_idempotent (schema : Json) :
    fixSchemaForOpenai (fixSchemaForOpenai schema) = fixSchemaForOpenai schema ∧
      fixSchemaForAnthropic (fixSchemaForAnthropic schema) = fixSchemaForAnthropic schema :=
  ⟨fix_fix (Nat.lt_succ_self _), fix_fix (Nat.lt_succ_self _)⟩

end Chevalier.Schema
