import Mathlib

/-!
# JSON values

A JSON value with its accessors, the members of an object as a map in key order, and functions
that call themselves on the values inside a value. Such a function is given by its body; it is
unrolled as often as objects are nested in its argument (`recursion`), and where the body calls
itself on values of smaller depth only, the unrolled function satisfies the body's own equation
(`recursion_eq`).
-/

namespace Chevalier

/-- A number: an unsigned or a negative integer of 64 bits, or a float by its bits. -/
inductive Number
  | posInt (value : UInt64)
  | negInt (value : Int64)
  | float (bits : UInt64)
deriving DecidableEq

inductive Json
  | null
  | bool (value : Bool)
  | number (value : Number)
  | string (value : String)
  | array (items : List Json)
  | object (members : List (String × Json))

namespace Json

def asStr : Json → Option String
  | string value => some value
  | _ => none

def asBool : Json → Option Bool
  | bool value => some value
  | _ => none

def asU64 : Json → Option Nat
  | number (.posInt value) => some value.toNat
  | _ => none

def asArray : Json → Option (List Json)
  | array items => some items
  | _ => none

def asObject : Json → Option (List (String × Json))
  | object members => some members
  | _ => none

/-- The member of an object under a key. -/
def get (value : Json) (key : String) : Option Json :=
  value.asObject.bind (·.lookup key)

/-- `value[key]`: null where there is no such member. -/
def index (value : Json) (key : String) : Json :=
  (value.get key).getD null

theorem sizeOf_snd_lt {α β : Type} [SizeOf α] [SizeOf β] {p : List (α × β)} {pair : α × β}
    (h : pair ∈ p) : sizeOf pair.2 < sizeOf p := by
  have hlt := List.sizeOf_lt_of_mem h
  cases pair
  simp only [Prod.mk.sizeOf_spec] at hlt ⊢
  omega

/-- Induction over the values inside. -/
theorem induct {motive : Json → Prop}
    (leaf : ∀ v, (∀ items, v ≠ .array items) → (∀ me, v ≠ .object me) → motive v)
    (array : ∀ items, (∀ item ∈ items, motive item) → motive (.array items))
    (object : ∀ me : List (String × Json), (∀ member ∈ me, motive member.2) →
      motive (.object me)) : ∀ v, motive v
  | .array items => array items fun item _ => induct leaf array object item
  | .object me => object me fun member _ => induct leaf array object member.2
  | .null | .bool _ | .number _ | .string _ => leaf _ nofun nofun
decreasing_by
  · decreasing_tactic
  · have := sizeOf_snd_lt ‹member ∈ me›
    simp only [Json.object.sizeOf_spec]
    omega

theorem filterMap_asStr (r : List String) :
    (r.map Json.string).filterMap asStr = r := by
  rw [List.filterMap_map]
  exact List.filterMap_some

/-! ## Members -/

/-- Insert a member after those with smaller keys; a key that is there keeps its place. -/
def insert (key : String) (value : Json) : List (String × Json) → List (String × Json)
  | [] => [(key, value)]
  | (name, old) :: members =>
    if name = key then (key, value) :: members
    else if name < key ∨ key ∈ members.map Prod.fst then (name, old) :: insert key value members
    else (key, value) :: (name, old) :: members

variable {members me : List (String × Json)} {key name : String} {value v : Json}

theorem lookup_cons {β : Type*} {first : β} {rest : List (String × β)} :
    ((name, first) :: rest).lookup key = if key = name then some first else rest.lookup key := by
  rw [List.lookup_cons]
  split_ifs with h
  · rw [beq_iff_eq.2 h]
  · rw [beq_false_of_ne h]

theorem mem_of_lookup (h : me.lookup key = some v) : (key, v) ∈ me := by
  induction me with
  | nil => cases h
  | cons m me ih =>
    rw [lookup_cons] at h
    split_ifs at h with hk
    · obtain rfl := hk
      exact Option.some.inj h ▸ List.mem_cons_self
    · exact List.mem_cons_of_mem _ (ih h)

theorem lookup_insert : (insert key v me).lookup name =
    if name = key then some v else me.lookup name := by
  induction me with
  | nil => rw [insert, lookup_cons]
  | cons m me ih =>
    obtain ⟨first, old⟩ := m
    rw [insert]
    by_cases hf : first = key
    · rw [if_pos hf, hf, lookup_cons, lookup_cons]
      split_ifs <;> rfl
    rw [if_neg hf, apply_ite (List.lookup name), lookup_cons, lookup_cons, lookup_cons, ih]
    split_ifs with _ hn hk
    · exact absurd (hn.symm.trans hk) hf
    all_goals rfl

theorem mem_insert {m : String × Json} (h : m ∈ insert key v me) :
    m = (key, v) ∨ m ∈ me := by
  induction me with
  | nil => exact .inl (List.mem_singleton.1 h)
  | cons first me ih =>
    unfold insert at h
    split_ifs at h
    · rcases List.mem_cons.1 h with rfl | h
      · exact .inl rfl
      · exact .inr (List.mem_cons_of_mem _ h)
    · rcases List.mem_cons.1 h with rfl | h
      · exact .inr List.mem_cons_self
      · exact (ih h).imp_right (List.mem_cons_of_mem _)
    · exact List.mem_cons.1 h

/-- A member that is there already. -/
theorem insert_of_lookup (h : me.lookup key = some v) :
    insert key v me = me := by
  induction me with
  | nil => cases h
  | cons m me ih =>
    obtain ⟨first, old⟩ := m
    unfold insert
    rw [lookup_cons] at h
    split_ifs at h with hf
    · rw [if_pos hf.symm, hf, Option.some.inj h]
    · have hk : key ∈ me.map Prod.fst := List.mem_map.2 ⟨_, mem_of_lookup h, rfl⟩
      rw [if_neg (Ne.symm hf), if_pos (.inr hk), ih h]

/-! ## Depth -/

mutual

/-- How deep objects are nested in the value. -/
def depth : Json → Nat
  | array items => itemsDepth items
  | object members => membersDepth members + 1
  | _ => 0

def itemsDepth : List Json → Nat
  | [] => 0
  | item :: items => max item.depth (itemsDepth items)

def membersDepth : List (String × Json) → Nat
  | [] => 0
  | (_, value) :: members => max value.depth (membersDepth members)

end

theorem itemsDepth_le {i : List Json} {n : Nat} :
    itemsDepth i ≤ n ↔ ∀ item ∈ i, item.depth ≤ n := by
  induction i with
  | nil => simp [itemsDepth]
  | cons item i ih => rw [itemsDepth, Nat.max_le, ih, List.forall_mem_cons]

theorem membersDepth_le {n : Nat} :
    membersDepth me ≤ n ↔ ∀ m ∈ me, m.2.depth ≤ n := by
  induction me with
  | nil => simp [membersDepth]
  | cons m me ih => rw [membersDepth, Nat.max_le, ih, List.forall_mem_cons]

/-! ## Recursion -/

section

variable {ρ : Type*} (body : (Json → ρ) → Json → ρ) (base : ρ)

/-- The body with its own calls unrolled `n` times. -/
def unroll : Nat → Json → ρ
  | 0 => fun _ => base
  | n + 1 => body (unroll n)

/-- The function that the body defines, for a body that descends. -/
def recursion (value : Json) : ρ := unroll body base (value.depth + 1) value

/-- The body calls itself on values of smaller depth only. -/
def Descends : Prop :=
  ∀ f g value, (∀ inner : Json, inner.depth < value.depth → f inner = g inner) →
    body f value = body g value

variable {body}

/-- Calls deeper than the value do not matter. -/
theorem unroll_congr (h : Descends body) {m n : Nat} (hm : v.depth < m) (hn : v.depth < n) :
    unroll body base m v = unroll body base n v := by
  induction m generalizing v n with
  | zero => cases hm
  | succ m ih =>
    cases n with
    | zero => cases hn
    | succ n => exact h _ _ _ fun i hi => ih (by omega) (by omega)

theorem recursion_eq (h : Descends body) :
    recursion body base v = body (recursion body base) v :=
  h _ _ _ fun _ hi => unroll_congr base h hi (Nat.lt_succ_self _)

end

end Json

end Chevalier
