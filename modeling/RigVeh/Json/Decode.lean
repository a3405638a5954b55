/-
  RigVeh.Json.Decode — `serde_json::from_value`: what serde's derived readers make of a
  value.

  A `Reader` reads a type from a value or fails with serde_json's message. A struct is
  read from an object (`visitMap`: the known fields' values in the map's order, unknown
  fields skipped, then a default or an error for each field not there) or from an array
  with its fields in order (`visitSeq`). `struct` reads one either way; `ReadsBack` says
  what a reader makes of what was written, and `struct_readsBack` that a struct is read
  back when its fields are.
-/

import RigVeh.Crates

namespace RigVeh.Json

variable (X : Crates) {α β : Type}

abbrev Reader (α : Type) := Value → Except String α

namespace Reader

/-- serde's description of a value that was not expected. -/
def unexpected (v : Value) : String :=
  match v.view with
  | .null => "null"
  | .bool b => "boolean `" ++ toString b ++ "`"
  | .number (.float x h) => "floating point `" ++ .ofList (X.number (.float x h)) ++ "`"
  | .number n => "integer `" ++ .ofList (X.number n) ++ "`"
  | .string s => "string " ++ X.debug s
  | .array _ => "sequence"
  | .object _ => "map"

def invalidType (v : Value) (expected : String) : Except String α :=
  .error ("invalid type: " ++ unexpected X v ++ ", expected " ++ expected)

def invalidLength (n : Nat) (expected : String) : Except String α :=
  .error ("invalid length " ++ toString n ++ ", expected " ++ expected)

def missingField (name : String) : Except String α := .error ("missing field `" ++ name ++ "`")

def u32 : Reader UInt32 := fun v =>
  match v.view with
  | .number (.posInt n) =>
    if n.toNat < 2 ^ 32 then .ok n.toUInt32
    else .error ("invalid value: integer `" ++ .ofList (X.number (.posInt n)) ++ "`, expected u32")
  | .number (.negInt i h) => .error ("invalid value: integer `" ++ .ofList (X.number (.negInt i h)) ++ "`, expected u32")
  | _ => invalidType X v "u32"

def string : Reader String := fun v =>
  match v.view with
  | .string s => .ok s
  | _ => invalidType X v "a string"

def value : Reader Value := .ok

def bool : Reader Bool := fun v =>
  match v.view with
  | .bool b => .ok b
  | _ => invalidType X v "a boolean"

def f64 : Reader F64 := fun v =>
  match v.view with
  | .number n => .ok n.asF64
  | _ => invalidType X v "f64"

def option (r : Reader α) : Reader (Option α) := fun v =>
  match v.view with
  | .null => .ok none
  | _ => (r v).map some

def vec (r : Reader α) : Reader (List α) := fun v =>
  match v.view with
  | .array items => items.mapM r
  | _ => invalidType X v "a sequence"

/-! ## Unit variants -/

/-- serde's list of what was expected. -/
def oneOf : List String → String
  | [a] => "`" ++ a ++ "`"
  | [a, b] => "`" ++ a ++ "` or `" ++ b ++ "`"
  | names => "one of " ++ ", ".intercalate (names.map fun n => "`" ++ n ++ "`")

def variant (variants : List (String × α)) (name : String) : Except String α :=
  match variants.lookup name with
  | some a => .ok a
  | none => .error ("unknown variant `" ++ name ++ "`, expected " ++ oneOf (variants.map Prod.fst))

/-- A unit variant stands as its name, or as the one key of a map, bound to null. -/
def unitVariant (variants : List (String × α)) : Reader α := fun v =>
  match v.view with
  | .string name => variant variants name
  | .object [(name, content)] => do
    let a ← variant variants name
    match content.view with
    | .null => return a
    | _ => invalidType X content "unit"
  | .object _ => .error "invalid value: map, expected map with a single key"
  | _ => invalidType X v "string or map"

/-! ## Structs -/

/-- A field's name and whether its value can be read. -/
abbrev Field := String × (Value → Except String Unit)

def Field.of (name : String) (r : Reader α) : Field := (name, fun v => (r v).map fun _ => ())

/-- The values of the known fields, read in the map's order. -/
def visitMap (fields : List Field) : List (String × Value) → Except String Unit
  | [] => .ok ()
  | (k, v) :: map =>
    match fields.lookup k with
    | some read => do
      read v
      visitMap fields map
    | none => visitMap fields map

def field (map : List (String × Value)) (name : String) (r : Reader α) (absent : Except String α) : Except String α :=
  match map.lookup name with
  | some v => r v
  | none => absent

def element (items : List Value) (i : Nat) (r : Reader α) (absent : Except String α) : Except String α :=
  match items[i]? with
  | some v => r v
  | none => absent

/-- A struct of `n` fields, read from an array, leaves nothing behind. -/
def visitSeq (items : List Value) (n : Nat) (a : α) : Except String α :=
  if n < items.length then invalidLength items.length "fewer elements in array" else .ok a

/-- Where the fields of a struct are: by name in a map, or in order in an array. -/
inductive Source where
  | object (map : List (String × Value))
  | array (items : List Value) (expected : String)

/-- The `i`th field of a struct, with what it is when it is not there. -/
def Source.field (src : Source) (i : Nat) (name : String) (r : Reader α) (default : Option α) : Except String α :=
  match src, default with
  | .object map, some a => Reader.field map name r (.ok a)
  | .object map, none => Reader.field map name r (missingField name)
  | .array items _, some a => element items i r (.ok a)
  | .array items expected, none => element items i r (invalidLength i expected)

/-- An `Option` without a default may be left out of a map, not of an array. -/
def Source.optional (src : Source) (i : Nat) (name : String) (r : Reader α) : Except String (Option α) :=
  match src with
  | .object _ => src.field i name (option r) (some none)
  | .array _ _ => src.field i name (option r) none

def struct (name expected : String) (fields : List Field) (build : Source → Except String α) : Reader α := fun v =>
  match v.view with
  | .object map => do
    visitMap fields map
    build (.object map)
  | .array items => do
    let a ← build (.array items ("struct " ++ name ++ " with " ++ expected))
    visitSeq items fields.length a
  | _ => invalidType X v ("struct " ++ name)

/-! ## Reading back what was written -/

/-- What `f` wrote, or any value equal to it, `r` reads as something related by `R`. -/
def ReadsBack (r : Reader α) (f : α → Value) (R : α → α → Prop) : Prop :=
  ∀ a v, f a ≈ v → ∃ b, r v = .ok b ∧ R a b

theorem ReadsBack.mono {r : Reader α} {f : α → Value} {R R' : α → α → Prop} (h : ReadsBack r f R)
    (hR : ∀ a b, R a b → R' a b) : ReadsBack r f R' := by
  intro a v hv
  obtain ⟨b, hb, hab⟩ := h a v hv
  exact ⟨b, hb, hR a b hab⟩

variable {X}

variable (X) in
theorem string_readsBack : ReadsBack (string X) .string Eq := by
  intro s v hv
  obtain rfl := Value.string_of_equiv hv
  exact ⟨s, rfl, rfl⟩

variable (X) in
theorem bool_readsBack : ReadsBack (bool X) .bool Eq := by
  intro b v hv
  obtain rfl := Value.bool_of_equiv hv
  exact ⟨b, rfl, rfl⟩

variable (X) in
theorem u32_readsBack : ReadsBack (u32 X) .ofU32 Eq := by
  intro n v hv
  obtain rfl := Value.number_of_equiv hv
  have hn : n.toUInt64.toNat < 2 ^ 32 := by simpa using n.toNat_lt
  refine ⟨n, ?_, rfl⟩
  simp only [u32, Value.view_number, hn, if_true]
  simp

theorem value_readsBack : ReadsBack value id (· ≈ ·) := fun _ v hv => ⟨v, rfl, hv⟩

theorem option_some {r : Reader α} {v : Value} {a : α} (hv : ¬ v ≈ .null) (h : r v = .ok a) :
    option r v = .ok (some a) := by
  unfold option
  split
  · rename_i hnull
    exact absurd (Value.null_of_view hnull ▸ Value.null_equiv) hv
  · rw [h]
    rfl

/-- An option of what is never written as null. -/
theorem option_readsBack {r : Reader α} {f : α → Value} (h : ReadsBack r f Eq) (hf : ∀ a v, f a ≈ v → ¬ v ≈ .null) :
    ReadsBack (option r) (.ofOption f) Eq := by
  intro o v hv
  cases o with
  | none =>
    obtain rfl := Value.null_of_equiv hv
    exact ⟨none, rfl, rfl⟩
  | some a =>
    obtain ⟨b, hb, rfl⟩ := h a v hv
    exact ⟨some a, option_some (hf a v hv) hb, rfl⟩

variable (X) in
/-- An `f64` that is not finite is written as null and comes back absent. -/
theorem option_f64_readsBack :
    ReadsBack (option (f64 X)) (.ofOption .ofF64) fun a b => a.filter (·.isFinite) = b.filter (·.isFinite) := by
  intro o v hv
  cases o with
  | none =>
    obtain rfl := Value.null_of_equiv hv
    exact ⟨none, rfl, rfl⟩
  | some x =>
    by_cases hx : x.isFinite = true
    · rw [Value.ofOption, Value.ofF64, dif_pos hx] at hv
      obtain rfl := Value.number_of_equiv hv
      exact ⟨some x, option_some id rfl, rfl⟩
    · rw [Value.ofOption, Value.ofF64, dif_neg hx] at hv
      obtain rfl := Value.null_of_equiv hv
      refine ⟨none, rfl, ?_⟩
      simp [Option.filter, hx]

/-- A value that is null is written like an absent one and comes back absent. -/
theorem option_value_readsBack :
    ReadsBack (option value) (fun o => o.getD .null) fun a b => a.getD .null ≈ b.getD .null := by
  intro o v hv
  by_cases hnull : v.view = .null
  · obtain rfl := Value.null_of_view hnull
    exact ⟨none, rfl, hv⟩
  · refine ⟨some v, ?_, hv⟩
    unfold option
    split
    · contradiction
    · rfl

theorem vec_readsBack {r : Reader α} {f : α → Value} {R : α → α → Prop} (h : ReadsBack r f R) :
    ReadsBack (vec X r) (fun l => .array (l.map f)) (List.Forall₂ R) := by
  intro l v hv
  obtain ⟨ws, rfl, hall⟩ := Value.array_of_equiv hv
  rw [List.forall₂_map_left_iff] at hall
  simp only [vec, Value.view_array]
  clear hv
  induction hall with
  | nil => exact ⟨[], rfl, .nil⟩
  | cons hw _ ih =>
    obtain ⟨b, hb, hab⟩ := h _ _ hw
    obtain ⟨l', hl', hll'⟩ := ih
    refine ⟨b :: l', ?_, .cons hab hll'⟩
    rw [List.mapM_cons, hb, hl']
    rfl

variable (X) in
theorem strings_readsBack : ReadsBack (vec X (string X)) .ofStrings Eq :=
  (vec_readsBack (string_readsBack X)).mono fun l l' h => by rwa [List.forall₂_eq_eq_eq] at h

theorem unitVariant_readsBack {variants : List (String × α)} {name : α → String}
    (h : ∀ a, variants.lookup (name a) = some a) : ReadsBack (unitVariant X variants) (fun a => .string (name a)) Eq := by
  intro a v hv
  obtain rfl := Value.string_of_equiv hv
  refine ⟨a, ?_, rfl⟩
  simp only [unitVariant, Value.view_string, variant, h]

/-! ## Structs read back -/

theorem visitMap_ok {fields : List Field} {map : List (String × Value)}
    (h : ∀ k v, (k, v) ∈ map → ∀ r, fields.lookup k = some r → r v = .ok ()) : visitMap fields map = .ok () := by
  induction map with
  | nil => rfl
  | cons e map ih =>
    obtain ⟨k, v⟩ := e
    have hrest := ih fun k v hm => h k v (List.mem_cons_of_mem _ hm)
    rw [visitMap]
    cases hk : fields.lookup k with
    | none => exact hrest
    | some r =>
      have hr := h k v List.mem_cons_self r hk
      simp only [hr, hrest, bind, Except.bind]

/-- The field reads back what stands for it. -/
def Field.Covers (field : Field) (entry : String × Value) : Prop :=
  field.1 = entry.1 ∧ ∀ v, entry.2 ≈ v → field.2 v = .ok ()

theorem ReadsBack.covers {r : Reader α} {f : α → Value} {R : α → α → Prop} (h : ReadsBack r f R) (name : String) (a : α) :
    (Field.of name r).Covers (name, f a) := by
  refine ⟨rfl, ?_⟩
  intro v hv
  obtain ⟨b, hb, -⟩ := h a v hv
  simp only [Field.of, hb, Except.map]

theorem covers_lookup {fields : List Field} {entries : List (String × Value)} (h : List.Forall₂ Field.Covers fields entries)
    {name : String} {r : Value → Except String Unit} (hr : fields.lookup name = some r) :
    ∃ w, (name, w) ∈ entries ∧ ∀ v, w ≈ v → r v = .ok () := by
  induction h with
  | nil => cases hr
  | @cons field entry _ _ hc _ ih =>
    rw [List.lookup_cons] at hr
    by_cases hname : name = field.1
    · subst hname
      simp only [beq_self_eq_true, Option.some.injEq] at hr
      subst hr
      exact ⟨entry.2, by rw [hc.1]; exact List.mem_cons_self, hc.2⟩
    · rw [beq_eq_false_iff_ne.mpr hname] at hr
      obtain ⟨w, hw, hv⟩ := ih hr
      exact ⟨w, List.mem_cons_of_mem _ hw, hv⟩

/-- The map binds every key of the entries to an equal value. -/
def Binds (map entries : List (String × Value)) : Prop :=
  ∀ k w, (k, w) ∈ entries → ∃ v, map.lookup k = some v ∧ w ≈ v

theorem Binds.field {map entries : List (String × Value)} (h : Binds map entries) {r : Reader α} {f : α → Value}
    {R : α → α → Prop} (hr : ReadsBack r f R) (i : Nat) (name : String) (default : Option α) (a : α)
    (hm : (name, f a) ∈ entries) : ∃ b, (Source.object map).field i name r default = .ok b ∧ R a b := by
  obtain ⟨v, hl, hv⟩ := h name (f a) hm
  obtain ⟨b, hb, hab⟩ := hr a v hv
  refine ⟨b, ?_, hab⟩
  cases default <;> simp only [Source.field, Reader.field, hl, hb]

/-- A struct is read back when its fields are. -/
theorem struct_readsBack {name expected : String} {fields : List Field} {build : Source → Except String α}
    {entries : α → List (String × Value)} {hn : ∀ a, ((entries a).map Prod.fst).Nodup} {R : α → α → Prop}
    (hc : ∀ a, List.Forall₂ Field.Covers fields (entries a))
    (hb : ∀ a map, Binds map (entries a) → ∃ b, build (.object map) = .ok b ∧ R a b) :
    ReadsBack (struct X name expected fields build) (fun a => .object (entries a) (hn a)) R := by
  intro a v hv
  obtain ⟨map, hview, hnodup, hbinds⟩ := Value.object_of_equiv hv
  obtain ⟨b, hbuild, hR⟩ := hb a map hbinds
  have hvisit : visitMap fields map = .ok () := by
    refine visitMap_ok ?_
    intro k u hm r hr
    obtain ⟨w, hw, hread⟩ := covers_lookup (hc a) hr
    obtain ⟨u', hu', hsame⟩ := hbinds k w hw
    rw [Tree.lookup_eq_some_of_mem hnodup hm, Option.some.injEq] at hu'
    subst hu'
    exact hread u hsame
  refine ⟨b, ?_, hR⟩
  simp only [struct, hview, hvisit, bind, Except.bind, hbuild]

end Reader

end RigVeh.Json
