/-
  RigVeh.Json.Respect — readers do not see the order of keys.

  Values are equal (`≈`) up to the order of keys at every depth, and whoever stores one
  may give back an equal one. A reader `Respects` a relation if it reads related things
  from equal values or fails on both, be it for another reason: of several errors in an
  object the first in the order of its keys is reported. The readers of single values
  do, and those of options, lists and structs do if the readers of their parts do
  (`struct_respects`).
-/

import RigVeh.Json.Decode
import RigVeh.Json.Form

namespace RigVeh.Json

variable {X : Crates} {α β α' β' ε : Type}

/-! ## Results -/

/-- Both succeed, with related results, or both fail. -/
inductive Agrees (R : α → β → Prop) : Except ε α → Except ε β → Prop
  | ok {a : α} {b : β} : R a b → Agrees R (.ok a) (.ok b)
  | error (e e' : ε) : Agrees R (.error e) (.error e')

namespace Agrees

variable {R : α → β → Prop} {S : α' → β' → Prop} {x : Except ε α} {y : Except ε β}

theorem bind {f : α → Except ε α'} {g : β → Except ε β'} (h : Agrees R x y) (hf : ∀ a b, R a b → Agrees S (f a) (g b)) :
    Agrees S (x >>= f) (y >>= g) := by
  cases h with
  | ok hab => exact hf _ _ hab
  | error e e' => exact .error e e'

theorem map {f : α → α'} {g : β → β'} (h : Agrees R x y) (hf : ∀ a b, R a b → S (f a) (g b)) :
    Agrees S (x.map f) (y.map g) := by
  cases h with
  | ok hab => exact .ok (hf _ _ hab)
  | error e e' => exact .error e e'

theorem mapError {f : ε → α'} (h : Agrees R x y) : Agrees R (x.mapError f) (y.mapError f) := by
  cases h with
  | ok hab => exact .ok hab
  | error e e' => exact .error _ _

/-- What one succeeds with the other succeeds with something related to. -/
theorem of_ok {a : α} (h : Agrees R (.ok a) y) : ∃ b, y = .ok b ∧ R a b := by
  cases h with
  | ok hab => exact ⟨_, rfl, hab⟩

theorem refl {R : α → α → Prop} (hR : ∀ a, R a a) (x : Except ε α) : Agrees R x x := by
  rcases x with e | a
  · exact .error e e
  · exact .ok (hR a)

theorem unit {x y : Except ε Unit} (h : x = .ok () ↔ y = .ok ()) : Agrees Eq x y := by
  rcases x with e | ⟨⟩
  · rcases y with e' | ⟨⟩
    · exact .error e e'
    · cases h.mpr rfl
  · rw [h.mp rfl]
    exact .ok rfl

end Agrees

/-! ## Equal values -/

namespace Value

theorem equiv_symm {v w : Value} (h : v ≈ w) : w ≈ v :=
  canonicalJson_injective Reference.jsonText (canonicalJson_congr h).symm

theorem equiv_trans {u v w : Value} (h : u ≈ v) (h' : v ≈ w) : u ≈ w :=
  canonicalJson_injective Reference.jsonText ((canonicalJson_congr h).trans (canonicalJson_congr h'))

/-- The ways in which a value is built. -/
inductive Built : Value → Prop
  | null : Built .null
  | bool (b : Bool) : Built (.bool b)
  | number (n : Number) : Built (.number n)
  | string (s : String) : Built (.string s)
  | array (items : List Value) : Built (.array items)
  | object (map : List (String × Value)) (h : (map.map Prod.fst).Nodup) : Built (.object map h)

theorem built (v : Value) : Built v := by
  obtain ⟨t, ht⟩ := v
  cases t with
  | null => exact .null
  | bool b => exact .bool b
  | number n => exact .number n
  | string s => exact .string s
  | array items =>
    have hv : (⟨.array items, ht⟩ : Value) = array (items.pmap (fun v hv => ⟨v, hv⟩) ((Tree.wfItems_iff items).mp ht)) :=
      Subtype.ext (congrArg Tree.array (pmap_val (fun _ _ => rfl) items _).symm)
    exact hv ▸ .array _
  | object map =>
    let n : List (String × Value) := map.pmap (fun e he => (e.1, ⟨e.2, he⟩)) ((Tree.wfEntries_iff map).mp ht.2)
    have hn : n.map (fun e => (e.1, e.2.1)) = map := pmap_val (fun _ _ => rfl) map _
    have hkeys : (n.map Prod.fst).Nodup := by
      have hkeys := ht.1
      rwa [← hn, List.map_map] at hkeys
    have hv : (⟨.object map, ht⟩ : Value) = object n hkeys := Subtype.ext (congrArg Tree.object hn.symm)
    exact hv ▸ .object n hkeys

/-- Equal values, told by what they are built of. -/
inductive Alike : Value → Value → Prop
  | null : Alike .null .null
  | bool (b : Bool) : Alike (.bool b) (.bool b)
  | number (n : Number) : Alike (.number n) (.number n)
  | string (s : String) : Alike (.string s) (.string s)
  | array {vs ws : List Value} : List.Forall₂ (· ≈ ·) vs ws → Alike (.array vs) (.array ws)
  | object {m n : List (String × Value)} (hm : (m.map Prod.fst).Nodup) (hn : (n.map Prod.fst).Nodup) :
      (∀ k, Option.Rel (· ≈ ·) (m.lookup k) (n.lookup k)) → Alike (.object m hm) (.object n hn)

theorem lookup_rel {m n : List (String × Value)} {hm : (m.map Prod.fst).Nodup} {hn : (n.map Prod.fst).Nodup}
    (h : object m hm ≈ object n hn) (k : String) : Option.Rel (· ≈ ·) (m.lookup k) (n.lookup k) := by
  obtain ⟨n', hview, -, hbinds⟩ := object_of_equiv h
  obtain ⟨m', hview', -, hbinds'⟩ := object_of_equiv (equiv_symm h)
  rw [view_object] at hview hview'
  obtain rfl := View.object.inj hview
  obtain rfl := View.object.inj hview'
  rcases hv : m.lookup k with _ | v
  · rcases hw : n.lookup k with _ | w
    · exact .none
    · obtain ⟨u, hu, -⟩ := hbinds' k w (mem_of_lookup hw)
      rw [hv] at hu
      cases hu
  · obtain ⟨u, hu, hsame⟩ := hbinds k v (mem_of_lookup hv)
    rw [hu]
    exact .some hsame

theorem alike_of_equiv {v w : Value} (h : v ≈ w) : Alike v w := by
  cases built v with
  | null => exact null_of_equiv h ▸ .null
  | bool b => exact bool_of_equiv h ▸ .bool b
  | number n => exact number_of_equiv h ▸ .number n
  | string s => exact string_of_equiv h ▸ .string s
  | array items =>
    obtain ⟨ws, rfl, hall⟩ := array_of_equiv h
    exact .array hall
  | object m hm =>
    cases built w with
    | object n hn => exact .object hm hn (lookup_rel h)
    | null | bool | number | string | array => exact absurd h id

end Value

/-! ## Readers -/

namespace Reader

variable {r : Reader α} {R : α → α → Prop}

/-- Equal values are read alike. -/
def Respects (r : Reader α) (R : α → α → Prop) : Prop := ∀ v w, v ≈ w → Agrees R (r v) (r w)

theorem value_respects : Respects value (· ≈ ·) := fun _ _ h => .ok h

/-- A reader that fails on arrays and objects. -/
theorem scalar_respects (ha : ∀ items, ∃ e, r (.array items) = .error e) (ho : ∀ map h, ∃ e, r (.object map h) = .error e) :
    Respects r Eq := by
  intro v w h
  cases Value.alike_of_equiv h with
  | null | bool | number | string => exact .refl (fun _ => rfl) _
  | array =>
    obtain ⟨e, he⟩ := ha _
    obtain ⟨e', he'⟩ := ha _
    rw [he, he']
    exact .error e e'
  | object hm hn =>
    obtain ⟨e, he⟩ := ho _ hm
    obtain ⟨e', he'⟩ := ho _ hn
    rw [he, he']
    exact .error e e'

variable (X) in
theorem string_respects : Respects (string X) Eq := scalar_respects (fun _ => ⟨_, rfl⟩) fun _ _ => ⟨_, rfl⟩

variable (X) in
theorem bool_respects : Respects (bool X) Eq := scalar_respects (fun _ => ⟨_, rfl⟩) fun _ _ => ⟨_, rfl⟩

variable (X) in
theorem u32_respects : Respects (u32 X) Eq := scalar_respects (fun _ => ⟨_, rfl⟩) fun _ _ => ⟨_, rfl⟩

variable (X) in
theorem f64_respects : Respects (f64 X) Eq := scalar_respects (fun _ => ⟨_, rfl⟩) fun _ _ => ⟨_, rfl⟩

theorem option_respects (hr : Respects r R) : Respects (option r) (Option.Rel R) := by
  intro v w h
  have hsome : Agrees (Option.Rel R) ((r v).map some) ((r w).map some) := (hr v w h).map fun _ _ => .some
  cases Value.alike_of_equiv h with
  | null => exact .ok .none
  | bool | number | string | array | object => exact hsome

theorem vec_respects (hr : Respects r R) : Respects (vec X r) (List.Forall₂ R) := by
  intro v w h
  cases Value.alike_of_equiv h with
  | null | bool | number | string | object => exact .error _ _
  | @array vs ws hall =>
    simp only [vec, Value.view_array]
    clear h
    induction hall with
    | nil => exact .ok .nil
    | cons hvw _ ih =>
      rw [List.mapM_cons, List.mapM_cons]
      exact (hr _ _ hvw).bind fun _ _ hab => ih.bind fun _ _ hl => .ok (.cons hab hl)

/-! ## Structs -/

/-- The field's value is read from both or from neither. -/
def Field.Respects (f : Field) : Prop := ∀ v w, v ≈ w → (f.2 v = .ok () ↔ f.2 w = .ok ())

theorem Respects.field (hr : Respects r R) (name : String) : (Field.of name r).Respects := by
  intro v w h
  have hvw := hr v w h
  show (r v).map (fun _ => ()) = .ok () ↔ (r w).map (fun _ => ()) = .ok ()
  generalize r v = x, r w = y at hvw ⊢
  cases hvw with
  | ok => exact Iff.rfl
  | error e e' => exact iff_of_false (fun h => by cases h) fun h => by cases h

theorem visitMap_iff {fields : List Field} {map : List (String × Value)} : visitMap fields map = .ok () ↔
    ∀ k v, (k, v) ∈ map → ∀ f, fields.lookup k = some f → f v = .ok () := by
  refine ⟨fun h => ?_, visitMap_ok⟩
  induction map with
  | nil => exact fun _ _ hm => by cases hm
  | cons e map ih =>
    obtain ⟨k, v⟩ := e
    rw [visitMap] at h
    intro k' v' hm f hf
    rcases hk : fields.lookup k with _ | f'
    · rw [hk] at h
      rcases List.mem_cons.mp hm with heq | hm
      · cases heq
        rw [hk] at hf
        cases hf
      · exact ih h k' v' hm f hf
    · rw [hk] at h
      obtain ⟨⟨⟩, hv, hrest⟩ := Base.Prog.bind_ok h
      rcases List.mem_cons.mp hm with heq | hm
      · cases heq
        rw [hk] at hf
        cases hf
        exact hv
      · exact ih hrest k' v' hm f hf

theorem visitMap_respects {fields : List Field} (hf : ∀ f ∈ fields, f.Respects) {m n : List (String × Value)}
    (hm : (m.map Prod.fst).Nodup) (hn : (n.map Prod.fst).Nodup)
    (h : ∀ k, Option.Rel (· ≈ ·) (m.lookup k) (n.lookup k)) : Agrees Eq (visitMap fields m) (visitMap fields n) := by
  refine .unit ⟨fun hvisit => visitMap_iff.mpr fun k w hw f hk => ?_, fun hvisit => visitMap_iff.mpr fun k v hv f hk => ?_⟩
  · have hrel := h k
    rw [Tree.lookup_eq_some_of_mem hn hw] at hrel
    rcases hv : m.lookup k with _ | v
    · rw [hv] at hrel
      cases hrel
    · rw [hv] at hrel
      cases hrel with
      | some hvw => exact (hf _ (mem_of_lookup hk) v w hvw).mp (visitMap_iff.mp hvisit k v (mem_of_lookup hv) f hk)
  · have hrel := h k
    rw [Tree.lookup_eq_some_of_mem hm hv] at hrel
    rcases hw : n.lookup k with _ | w
    · rw [hw] at hrel
      cases hrel
    · rw [hw] at hrel
      cases hrel with
      | some hvw => exact (hf _ (mem_of_lookup hk) v w hvw).mpr (visitMap_iff.mp hvisit k w (mem_of_lookup hw) f hk)

section

variable {m n : List (String × Value)} {vs ws : List Value} {absent absent' : Except String α}

theorem field_respects (hr : Respects r R) (h : ∀ k, Option.Rel (· ≈ ·) (m.lookup k) (n.lookup k)) (name : String)
    (ha : Agrees R absent absent') : Agrees R (field m name r absent) (field n name r absent') := by
  have hrel := h name
  unfold field
  generalize m.lookup name = v, n.lookup name = w at hrel ⊢
  cases hrel with
  | none => exact ha
  | some hvw => exact hr _ _ hvw

theorem element_respects (hr : Respects r R) (h : List.Forall₂ (· ≈ ·) vs ws) (i : Nat) (ha : Agrees R absent absent') :
    Agrees R (element vs i r absent) (element ws i r absent') := by
  have hlen := h.length_eq
  unfold element
  rcases Nat.lt_or_ge i vs.length with hi | hi
  · rw [List.getElem?_eq_getElem hi, List.getElem?_eq_getElem (hlen ▸ hi)]
    exact hr _ _ (List.forall₂_iff_get.mp h |>.2 i hi (hlen ▸ hi))
  · rw [List.getElem?_eq_none hi, List.getElem?_eq_none (hlen ▸ hi)]
    exact ha

theorem visitSeq_respects {a b : α} (h : List.Forall₂ (· ≈ ·) vs ws) (k : Nat) (hab : R a b) :
    Agrees R (visitSeq vs k a) (visitSeq ws k b) := by
  unfold visitSeq
  rw [h.length_eq]
  split
  · exact .error _ _
  · exact .ok hab

end

/-- Objects with equal fields, or arrays with equal elements. -/
inductive Source.Same : Source → Source → Prop
  | object {m n : List (String × Value)} : (∀ k, Option.Rel (· ≈ ·) (m.lookup k) (n.lookup k)) →
      Same (.object m) (.object n)
  | array {vs ws : List Value} (expected : String) : List.Forall₂ (· ≈ ·) vs ws → Same (.array vs expected) (.array ws expected)

theorem Source.Same.field {src src' : Source} (h : src.Same src') (hr : Respects r R) (i : Nat) (name : String)
    {default : Option α} (hd : ∀ a, default = some a → R a a) :
    Agrees R (src.field i name r default) (src'.field i name r default) := by
  cases h with
  | object h =>
    cases default with
    | none => exact field_respects hr h name (.error _ _)
    | some a => exact field_respects hr h name (.ok (hd a rfl))
  | array expected h =>
    cases default with
    | none => exact element_respects hr h i (.error _ _)
    | some a => exact element_respects hr h i (.ok (hd a rfl))

theorem Source.Same.optional {src src' : Source} (h : src.Same src') (hr : Respects r R) (i : Nat) (name : String) :
    Agrees (Option.Rel R) (src.optional i name r) (src'.optional i name r) := by
  have hsome : ∀ a : Option α, some none = some a → Option.Rel R a a := by
    rintro _ ⟨⟩
    exact .none
  have hnone : ∀ a : Option α, none = some a → Option.Rel R a a := fun _ h => by cases h
  cases h with
  | object h => exact (Source.Same.object h).field (option_respects hr) i name hsome
  | array expected h => exact (Source.Same.array expected h).field (option_respects hr) i name hnone

theorem struct_respects {name expected : String} {fields : List Field} {build : Source → Except String α}
    (hf : ∀ f ∈ fields, f.Respects) (hb : ∀ src src', Source.Same src src' → Agrees R (build src) (build src')) :
    Respects (struct X name expected fields build) R := by
  intro v w h
  cases Value.alike_of_equiv h with
  | null | bool | number | string => exact .error _ _
  | array hall =>
    simp only [struct, Value.view_array]
    exact (hb _ _ (.array _ hall)).bind fun _ _ hab => visitSeq_respects hall _ hab
  | object hm hn hrel =>
    simp only [struct, Value.view_object]
    exact (visitMap_respects hf hm hn hrel).bind fun _ _ _ => hb _ _ (.object hrel)

end Reader

end RigVeh.Json
