/-
  RigVeh.Json.Value — `serde_json::Value`, its numbers and `f64`.

  A `Value` is a tree in which every object's keys are distinct (`Tree.Wf`); the raw
  `Tree` is what functions recurse on. An object keeps its entries in the order
  they are stored, so that nothing below depends on whether the map sorts its keys.
  Equality of values (`≈`) is serde_json's: objects are equal when they have as many
  entries and each key of one is bound to an equal value in the other. Only -0.0 and
  0.0, which serde_json calls equal, are told apart, as their texts are.

  `F64` is a 64-bit pattern read as IEEE 754 binary64. Comparison is exact: `key`
  orders all patterns but the NaNs as the reals they stand for (with both zeros at 0).
-/

import Mathlib.Algebra.Group.Int.Defs
import Mathlib.Algebra.Group.Nat.Defs
import Mathlib.Data.List.Nodup
import Mathlib.Tactic.Common

namespace RigVeh.Json

/-! ## f64 -/

structure F64 where
  bits : BitVec 64
  deriving DecidableEq, Repr

namespace F64

def exponent (x : F64) : Nat := x.bits.toNat / 2 ^ 52 % 2 ^ 11

def fraction (x : F64) : Nat := x.bits.toNat % 2 ^ 52

def isFinite (x : F64) : Bool := x.exponent != 2047

def isNan (x : F64) : Bool := x.exponent == 2047 && x.fraction != 0

/-- The magnitude's pattern under the sign. -/
def key (x : F64) : Int :=
  if 2 ^ 63 ≤ x.bits.toNat then -((x.bits.toNat % 2 ^ 63 : Nat) : Int) else (x.bits.toNat : Int)

/-- `a <= b`. -/
def le (a b : F64) : Bool := !a.isNan && !b.isNan && decide (a.key ≤ b.key)

/-- `a < b`. -/
def lt (a b : F64) : Bool := !a.isNan && !b.isNan && decide (a.key < b.key)

def negInfinity : F64 := ⟨0xfff0000000000000⟩

/-- `n as f64`: the nearest value, ties to even. -/
def ofNat (n : Nat) : F64 :=
  if n = 0 then ⟨0⟩ else
    let e := n.log2
    let q := n / 2 ^ (e - 52)
    let r := n % 2 ^ (e - 52)
    let m := if e ≤ 52 then n * 2 ^ (52 - e)
      else if 2 ^ (e - 52) < 2 * r ∨ (2 ^ (e - 52) = 2 * r ∧ q % 2 = 1) then q + 1 else q
    ⟨BitVec.ofNat 64 ((1023 + e) * 2 ^ 52 + (m - 2 ^ 52))⟩

def ofInt (i : Int) : F64 :=
  if i < 0 then ⟨(ofNat i.natAbs).bits ||| BitVec.ofNat 64 (2 ^ 63)⟩ else ofNat i.natAbs

theorem not_nan_of_finite {x : F64} (h : x.isFinite = true) : x.isNan = false := by
  simp only [isNan, isFinite, bne_iff_ne, ne_eq] at *
  simp [h]

/-- Above a finite number are those that are neither NaN nor at or below it. -/
theorem lt_of_finite {x y : F64} (hx : x.isFinite = true) : x.lt y = true ↔ y.isNan = false ∧ y.le x = false := by
  simp only [lt, le, not_nan_of_finite hx]
  cases y.isNan <;> simp

/-- The magnitude of a number is at most that of an infinity. -/
theorem magnitude_le {x : F64} (h : x.isNan = false) : x.bits.toNat % 2 ^ 63 ≤ 2047 * 2 ^ 52 := by
  simp only [isNan, exponent, fraction, Bool.and_eq_false_iff, beq_eq_false_iff_ne, ne_eq, bne_eq_false_iff_eq] at h
  omega

theorem key_ge {x : F64} (h : x.isNan = false) : -(2047 * 2 ^ 52) ≤ x.key ∧ x.key ≤ 2047 * 2 ^ 52 := by
  have hm := magnitude_le h
  have hlt := x.bits.isLt
  unfold key
  split <;> omega

theorem key_negInfinity {x : F64} (h : x.isNan = false) : x.key = -(2047 * 2 ^ 52) ↔ x = negInfinity := by
  have hm := magnitude_le h
  have hlt := x.bits.isLt
  constructor
  · intro hk
    have hbits : x.bits.toNat = 0xfff0000000000000 := by
      unfold key at hk
      split at hk <;> omega
    cases x
    exact congrArg F64.mk (BitVec.eq_of_toNat_eq hbits)
  · rintro rfl
    decide

/-- What is not finite is NaN, ∞ or -∞. -/
theorem not_finite_cases {x : F64} (h : x.isFinite = false) :
    x.isNan = true ∨ (x.isNan = false ∧ x.key = 2047 * 2 ^ 52) ∨ x = negInfinity := by
  by_cases hn : x.isNan = true
  · exact .inl hn
  rw [Bool.not_eq_true] at hn
  by_cases hneg : x = negInfinity
  · exact .inr (.inr hneg)
  refine .inr (.inl ⟨hn, ?_⟩)
  have hm : x.bits.toNat % 2 ^ 63 = 2047 * 2 ^ 52 := by
    have hle := magnitude_le hn
    simp only [isFinite, exponent, bne_eq_false_iff_eq] at h
    omega
  have hk := mt (key_negInfinity hn).mp hneg
  have hlt := x.bits.isLt
  unfold key at hk ⊢
  split <;> split at hk <;> omega

/-- Of what is not finite only -∞ is below anything. -/
theorem lt_of_not_finite {x y : F64} (hx : x.isFinite = false) :
    x.lt y = true ↔ x = negInfinity ∧ y.isNan = false ∧ y ≠ negInfinity := by
  have hinf : negInfinity.isNan = false ∧ negInfinity.key = -(2047 * 2 ^ 52) := by decide
  rcases not_finite_cases hx with hn | ⟨hn, hk⟩ | rfl
  · have hne : x ≠ negInfinity := by
      rintro rfl
      rw [hinf.1] at hn
      cases hn
    simp [lt, hn, hne]
  · have hne : x ≠ negInfinity := by
      rintro rfl
      omega
    simp only [lt, hn, hne, false_and, iff_false]
    cases hy : y.isNan with
    | true => simp
    | false =>
      have := (key_ge hy).2
      simp [hk]
      omega
  · simp only [lt, hinf.1, true_and]
    cases hy : y.isNan with
    | true => simp
    | false =>
      have hge := (key_ge hy).1
      have hiff := key_negInfinity hy
      simp only [Bool.not_false, Bool.true_and, decide_eq_true_eq, hinf.2, ne_eq, ← hiff, true_and]
      omega

theorem ofNat_finite {n : Nat} (h : n < 2 ^ 64) : (ofNat n).isFinite = true := by
  unfold ofNat
  split
  · rfl
  · rename_i hn
    have he : n.log2 < 64 := (Nat.log2_lt hn).mpr h
    have hlt : n < 2 ^ (n.log2 + 1) := Nat.lt_log2_self
    generalize n.log2 = e at he hlt
    -- the significand has at most 53 bits, or is rounded up to the next power of two
    have hm : (if e ≤ 52 then n * 2 ^ (52 - e)
        else if 2 ^ (e - 52) < 2 * (n % 2 ^ (e - 52)) ∨
            (2 ^ (e - 52) = 2 * (n % 2 ^ (e - 52)) ∧ n / 2 ^ (e - 52) % 2 = 1) then n / 2 ^ (e - 52) + 1
          else n / 2 ^ (e - 52)) ≤ 2 ^ 53 := by
      split
      · have hpow : 2 ^ (e + 1) * 2 ^ (52 - e) = 2 ^ 53 := by
          rw [← Nat.pow_add]
          congr 1
          omega
        exact hpow ▸ Nat.mul_le_mul_right _ (Nat.le_of_lt hlt)
      · have hpow : 2 ^ 53 * 2 ^ (e - 52) = 2 ^ (e + 1) := by
          rw [← Nat.pow_add]
          congr 1
          omega
        have hq : n / 2 ^ (e - 52) < 2 ^ 53 := by
          rw [Nat.div_lt_iff_lt_mul (Nat.two_pow_pos _), hpow]
          exact hlt
        split
        · exact hq
        · exact Nat.le_of_lt hq
    simp only [isFinite, exponent, BitVec.toNat_ofNat, bne_iff_ne, ne_eq]
    generalize (if e ≤ 52 then n * 2 ^ (52 - e) else _) = m at hm ⊢
    omega

theorem sign_finite {x : F64} (h : x.isFinite = true) : F64.isFinite ⟨x.bits ||| BitVec.ofNat 64 (2 ^ 63)⟩ = true := by
  have hexp : F64.exponent ⟨x.bits ||| BitVec.ofNat 64 (2 ^ 63)⟩ = x.exponent := by
    simp only [exponent, BitVec.toNat_or, BitVec.toNat_ofNat]
    rw [← Nat.shiftRight_eq_div_pow, ← Nat.shiftRight_eq_div_pow, Nat.shiftRight_or_distrib, Nat.or_mod_two_pow]
    exact Nat.or_zero _
  rwa [isFinite, hexp]

theorem ofInt_finite {i : Int} (h : i.natAbs < 2 ^ 64) : (ofInt i).isFinite = true := by
  unfold ofInt
  split
  · exact sign_finite (ofNat_finite h)
  · exact ofNat_finite h

end F64

/-! ## Numbers -/

/-- `serde_json::Number`: a `u64`, a negative `i64` or a finite `f64`. -/
inductive Number where
  | posInt (n : UInt64)
  | negInt (i : Int64) (h : i < 0)
  | float (x : F64) (h : x.isFinite = true)
  deriving DecidableEq, Repr

def Number.asF64 : Number → F64
  | .posInt n => .ofNat n.toNat
  | .negInt i _ => .ofInt i.toInt
  | .float x _ => x

theorem Number.asF64_finite (n : Number) : n.asF64.isFinite = true := by
  cases n with
  | posInt n => exact F64.ofNat_finite n.toNat_lt
  | negInt i _ =>
    have hle := i.toInt_lt
    have hge := i.le_toInt
    exact F64.ofInt_finite (by omega)
  | float x h => exact h

def Number.asU64 : Number → Option UInt64
  | .posInt n => some n
  | _ => none

/-! ## Trees -/

inductive Tree where
  | null
  | bool (b : Bool)
  | number (n : Number)
  | string (s : String)
  | array (items : List Tree)
  | object (map : List (String × Tree))
  deriving Repr

namespace Tree

mutual

/-- Every object's keys are distinct. -/
def Wf : Tree → Prop
  | .array items => WfItems items
  | .object map => (map.map Prod.fst).Nodup ∧ WfEntries map
  | _ => True

def WfItems : List Tree → Prop
  | [] => True
  | v :: vs => v.Wf ∧ WfItems vs

def WfEntries : List (String × Tree) → Prop
  | [] => True
  | (_, v) :: m => v.Wf ∧ WfEntries m

end

mutual

/-- serde_json's equality of values. -/
def Same : Tree → Tree → Prop
  | .null, .null => True
  | .bool a, .bool b => a = b
  | .number a, .number b => a = b
  | .string a, .string b => a = b
  | .array vs, .array ws => SameItems vs ws
  | .object m, .object n => m.length = n.length ∧ SameEntries m n
  | _, _ => False

def SameItems : List Tree → List Tree → Prop
  | [], [] => True
  | v :: vs, w :: ws => v.Same w ∧ SameItems vs ws
  | _, _ => False

def SameEntries : List (String × Tree) → List (String × Tree) → Prop
  | [], _ => True
  | (k, v) :: m, n => (∃ w, n.lookup k = some w ∧ v.Same w) ∧ SameEntries m n

end

theorem wfItems_iff (vs : List Tree) : WfItems vs ↔ ∀ v ∈ vs, v.Wf := by
  induction vs with
  | nil => simp [WfItems]
  | cons v vs ih => simp [WfItems, ih]

theorem wfEntries_iff (m : List (String × Tree)) : WfEntries m ↔ ∀ e ∈ m, e.2.Wf := by
  induction m with
  | nil => simp [WfEntries]
  | cons e m ih => simp [WfEntries, ih]

theorem sameItems_iff (vs ws : List Tree) : SameItems vs ws ↔ List.Forall₂ Same vs ws := by
  induction vs generalizing ws with
  | nil => cases ws <;> simp [SameItems]
  | cons v vs ih => cases ws <;> simp [SameItems, ih]

theorem sameEntries_iff (m n : List (String × Tree)) :
    SameEntries m n ↔ ∀ e ∈ m, ∃ w, n.lookup e.1 = some w ∧ e.2.Same w := by
  induction m with
  | nil => simp [SameEntries]
  | cons e m ih => simp [SameEntries, ih]

/-- `Value::get` with a string. -/
def get : Tree → String → Option Tree
  | .object m, k => m.lookup k
  | _, _ => none

/-- `Value::as_f64`. -/
def asF64 : Tree → Option F64
  | .number n => some n.asF64
  | _ => none

/-- `Value::as_u64`. -/
def asU64 : Tree → Option UInt64
  | .number n => n.asU64
  | _ => none

/-- `Value::as_str`. -/
def asStr : Tree → Option String
  | .string s => some s
  | _ => none

/-- `Value::as_array`. -/
def asArray : Tree → Option (List Tree)
  | .array items => some items
  | _ => none

theorem lookup_eq_some_of_mem {α : Type} {m : List (String × α)} (hm : (m.map Prod.fst).Nodup) {k : String} {v : α}
    (h : (k, v) ∈ m) : m.lookup k = some v := by
  induction m with
  | nil => cases h
  | cons e m ih =>
    obtain ⟨k', v'⟩ := e
    simp only [List.map_cons, List.nodup_cons, List.mem_map, Prod.exists, exists_and_right, exists_eq_right,
      not_exists] at hm
    rcases List.mem_cons.mp h with h | h
    · cases h; exact List.lookup_cons_self
    · have hne : k ≠ k' := fun e => hm.1 v (e ▸ h)
      simp only [List.lookup_cons, beq_eq_false_iff_ne.mpr hne]
      exact ih hm.2 h

end Tree

/-! ## Values -/

/-- `serde_json::Value`. -/
def Value : Type := { v : Tree // v.Wf }

namespace Value

instance : HasEquiv Value := ⟨fun v w => v.1.Same w.1⟩

def null : Value := ⟨.null, trivial⟩
def bool (b : Bool) : Value := ⟨.bool b, trivial⟩
def number (n : Number) : Value := ⟨.number n, trivial⟩
def string (s : String) : Value := ⟨.string s, trivial⟩

def array (vs : List Value) : Value :=
  ⟨.array (vs.map (·.1)), by
    show Tree.WfItems _
    rw [Tree.wfItems_iff]; intro v hv
    obtain ⟨w, -, rfl⟩ := List.mem_map.mp hv
    exact w.2⟩

/-- A map with the given entries, as stored. -/
def object (m : List (String × Value)) (h : (m.map Prod.fst).Nodup) : Value :=
  ⟨.object (m.map fun e => (e.1, e.2.1)), by
    refine ⟨by rwa [List.map_map], ?_⟩
    rw [Tree.wfEntries_iff]; intro e he
    obtain ⟨w, -, rfl⟩ := List.mem_map.mp he
    exact w.2.2⟩

def ofF64 (x : F64) : Value := if h : x.isFinite = true then .number (.float x h) else .null

def ofU32 (n : UInt32) : Value := .number (.posInt n.toUInt64)

def ofStrings (l : List String) : Value := .array (l.map .string)

/-- `serde_json::to_value` of an `Option`. -/
def ofOption {α : Type} (f : α → Value) : Option α → Value
  | none => .null
  | some a => f a

/-! ## The parts of a value -/

/-- A value by its constructor, with the values it is made of. -/
inductive View where
  | null
  | bool (b : Bool)
  | number (n : Number)
  | string (s : String)
  | array (items : List Value)
  | object (map : List (String × Value))

def view : Value → View
  | ⟨.null, _⟩ => .null
  | ⟨.bool b, _⟩ => .bool b
  | ⟨.number n, _⟩ => .number n
  | ⟨.string s, _⟩ => .string s
  | ⟨.array items, h⟩ => .array (items.pmap (fun v hv => ⟨v, hv⟩) ((Tree.wfItems_iff items).mp h))
  | ⟨.object map, h⟩ =>
    .object (map.pmap (fun e he => (e.1, ⟨e.2, he⟩)) ((Tree.wfEntries_iff map).mp h.2))

@[simp] theorem view_null : null.view = .null := rfl
@[simp] theorem view_bool (b : Bool) : (bool b).view = .bool b := rfl
@[simp] theorem view_number (n : Number) : (number n).view = .number n := rfl
@[simp] theorem view_string (s : String) : (string s).view = .string s := rfl

theorem pmap_parts {α β : Type} {p : β → Prop} (f : α → β) (g : ∀ b, p b → α) (hp : ∀ a, p (f a))
    (hg : ∀ a, g (f a) (hp a) = a) (l : List α) (h : ∀ b ∈ l.map f, p b) : (l.map f).pmap g h = l := by
  induction l with
  | nil => rfl
  | cons a l ih => simp only [List.map_cons, List.pmap_cons, hg, ih]

@[simp] theorem view_array (vs : List Value) : (array vs).view = .array vs :=
  congrArg View.array (pmap_parts (·.1) _ (·.2) (fun _ => rfl) vs _)

@[simp] theorem view_object (m : List (String × Value)) (h : (m.map Prod.fst).Nodup) : (object m h).view = .object m :=
  congrArg View.object (pmap_parts (fun e => (e.1, e.2.1)) _ (fun e => e.2.2) (fun _ => rfl) m _)

/-! ## Equality of the built values -/

@[simp] theorem null_equiv : null ≈ null := trivial

@[simp] theorem string_equiv (s s' : String) : string s ≈ string s' ↔ s = s' := Iff.rfl

@[simp] theorem bool_equiv (b b' : Bool) : bool b ≈ bool b' ↔ b = b' := Iff.rfl

@[simp] theorem number_equiv (n n' : Number) : number n ≈ number n' ↔ n = n' := Iff.rfl

@[simp] theorem null_string (s : String) : ¬ null ≈ string s := id

@[simp] theorem string_null (s : String) : ¬ string s ≈ null := id

@[simp] theorem null_number (n : Number) : ¬ null ≈ number n := id

@[simp] theorem number_null (n : Number) : ¬ number n ≈ null := id

theorem array_equiv (vs ws : List Value) : array vs ≈ array ws ↔ List.Forall₂ (· ≈ ·) vs ws := by
  show Tree.SameItems _ _ ↔ _
  rw [Tree.sameItems_iff, List.forall₂_map_left_iff, List.forall₂_map_right_iff]

@[simp] theorem ofStrings_equiv (l l' : List String) : ofStrings l ≈ ofStrings l' ↔ l = l' := by
  unfold ofStrings
  rw [array_equiv, List.forall₂_map_left_iff, List.forall₂_map_right_iff]
  simp only [string_equiv]
  rw [List.forall₂_eq_eq_eq]

@[simp] theorem ofU32_equiv (n n' : UInt32) : ofU32 n ≈ ofU32 n' ↔ n = n' := by
  rw [ofU32, ofU32, number_equiv, Number.posInt.injEq]
  refine ⟨fun h => UInt32.toNat_inj.mp ?_, fun h => h ▸ rfl⟩
  simpa using congrArg UInt64.toNat h

/-- Objects with the same keys in the same order are equal entry by entry. -/
theorem object_equiv {m n : List (String × Value)} {hm : (m.map Prod.fst).Nodup} {hn : (n.map Prod.fst).Nodup}
    (h : object m hm ≈ object n hn) {k : String} {v w : Value} (hv : (k, v) ∈ m) (hw : (k, w) ∈ n) : v ≈ w := by
  obtain ⟨-, h⟩ := h
  rw [Tree.sameEntries_iff] at h
  obtain ⟨u, hu, hs⟩ := h (k, v.1) (List.mem_map.mpr ⟨(k, v), hv, rfl⟩)
  have hu' : (n.map fun e => (e.1, e.2.1)).lookup k = some w.1 :=
    Tree.lookup_eq_some_of_mem (by rwa [List.map_map]) (List.mem_map.mpr ⟨(k, w), hw, rfl⟩)
  rw [hu'] at hu
  cases hu
  exact hs

/-! ## What is equal to a built value -/

theorem null_of_equiv {v : Value} (h : null ≈ v) : v = null := by
  obtain ⟨t, ht⟩ := v
  cases t with
  | null => rfl
  | _ => exact absurd h id

theorem null_of_view {v : Value} (h : v.view = .null) : v = null := by
  obtain ⟨t, ht⟩ := v
  cases t with
  | null => rfl
  | _ => cases h

theorem bool_of_equiv {b : Bool} {v : Value} (h : bool b ≈ v) : v = bool b := by
  obtain ⟨t, ht⟩ := v
  cases t with
  | bool b' => exact Subtype.ext (congrArg Tree.bool (show b = b' from h)).symm
  | _ => exact absurd h id

theorem number_of_equiv {n : Number} {v : Value} (h : number n ≈ v) : v = number n := by
  obtain ⟨t, ht⟩ := v
  cases t with
  | number n' => exact Subtype.ext (congrArg Tree.number (show n = n' from h)).symm
  | _ => exact absurd h id

theorem string_of_equiv {s : String} {v : Value} (h : string s ≈ v) : v = string s := by
  obtain ⟨t, ht⟩ := v
  cases t with
  | string s' => exact Subtype.ext (congrArg Tree.string (show s = s' from h)).symm
  | _ => exact absurd h id

theorem pmap_val {α β : Type} {p : α → Prop} {f : ∀ a, p a → β} {g : β → α} (hg : ∀ a h, g (f a h) = a) (l : List α)
    (h : ∀ a ∈ l, p a) : (l.pmap f h).map g = l := by
  rw [List.map_pmap]
  simp only [hg, List.pmap_eq_map, List.map_id']

theorem array_of_equiv {vs : List Value} {v : Value} (h : array vs ≈ v) :
    ∃ ws, v = array ws ∧ List.Forall₂ (· ≈ ·) vs ws := by
  obtain ⟨t, ht⟩ := v
  cases t with
  | array items =>
    have hv : (⟨.array items, ht⟩ : Value) =
        array (items.pmap (fun v hv => ⟨v, hv⟩) ((Tree.wfItems_iff items).mp ht)) :=
      Subtype.ext (congrArg Tree.array (pmap_val (fun _ _ => rfl) items _).symm)
    exact ⟨_, hv, (array_equiv _ _).mp (hv ▸ h)⟩
  | _ => exact absurd h id

theorem lookup_map {α β : Type} (f : α → β) (m : List (String × α)) (k : String) :
    (m.map fun e => (e.1, f e.2)).lookup k = (m.lookup k).map f := by
  induction m with
  | nil => rfl
  | cons e m ih =>
    rw [List.map_cons, List.lookup_cons, List.lookup_cons, ih]
    by_cases h : k == e.1 <;> simp [h]

/-- A value equal to an object is an object that binds each key to an equal value. -/
theorem object_of_equiv {m : List (String × Value)} {hm : (m.map Prod.fst).Nodup} {v : Value} (h : object m hm ≈ v) :
    ∃ n, v.view = .object n ∧ (n.map Prod.fst).Nodup ∧ ∀ k w, (k, w) ∈ m → ∃ u, n.lookup k = some u ∧ w ≈ u := by
  obtain ⟨t, ht⟩ := v
  cases t with
  | object map =>
    let n : List (String × Value) := map.pmap (fun e he => (e.1, ⟨e.2, he⟩)) ((Tree.wfEntries_iff map).mp ht.2)
    have hn : n.map (fun e => (e.1, e.2.1)) = map := pmap_val (fun _ _ => rfl) map _
    refine ⟨n, rfl, ?_, ?_⟩
    · have hkeys := ht.1
      rw [← hn, List.map_map] at hkeys
      exact hkeys
    · intro k w hw
      obtain ⟨u, hu, hs⟩ := (Tree.sameEntries_iff _ map).mp h.2 (k, w.1) (List.mem_map.mpr ⟨(k, w), hw, rfl⟩)
      rw [← hn, lookup_map (fun v : Value => v.1)] at hu
      obtain ⟨u', hu', rfl⟩ := Option.map_eq_some_iff.mp hu
      exact ⟨u', hu', hs⟩
  | _ => exact absurd h id

end Value

end RigVeh.Json
