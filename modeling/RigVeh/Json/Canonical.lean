/-
  RigVeh.Json.Canonical — `canonical_json` (`src/artifact.rs`): a value as JSON text
  with sorted keys and no whitespace.

  `writeCanonical` is the code's writer. Its one error (a key of the map not found in
  the map) does not happen: `writeCanonical_eq` equates it with `canon`, which writes
  the entries sorted by key. `canon_cut` is the converse of writing: a canonical text
  followed by anything that does not go on with a number can be cut back, and two
  values with the same text are equal (`≈`) as serde_json compares them.
-/

import Mathlib.Data.List.Sort
import Mathlib.Data.String.Basic
import RigVeh.Crates

namespace RigVeh.Json

open RigVeh.Base

variable (X : Crates)

/-- One key of an object with its value, looked up among the entries. -/
def writeKey (written : List (String × Except String Text)) (key : String) : Except String Text :=
  match written.lookup key with
  | none => .error "canonical_json: key vanished mid-iteration"
  | some v => v.map (X.string key ++ ':' :: ·)

mutual

def writeCanonical : Tree → Except String Text
  | .null => .ok "null".toList
  | .bool b => .ok (if b then "true".toList else "false".toList)
  | .number n => .ok (X.number n)
  | .string s => .ok (X.string s)
  | .array items => do
    let parts ← writeItems items
    return '[' :: [','].intercalate parts ++ [']']
  | .object map => do
    let keys := (map.map Prod.fst).insertionSort (· ≤ ·)
    let parts ← keys.mapM (writeKey X (writeEntries map))
    return '{' :: [','].intercalate parts ++ ['}']

def writeItems : List Tree → Except String (List Text)
  | [] => .ok []
  | v :: vs => do return (← writeCanonical v) :: (← writeItems vs)

/-- Each entry's value, written when it is asked for. -/
def writeEntries : List (String × Tree) → List (String × Except String Text)
  | [] => []
  | (k, v) :: m => (k, writeCanonical v) :: writeEntries m

end

/-! ## The writer without its error -/

def entryText (e : String × Text) : Text := X.string e.1 ++ ':' :: e.2

def byKey {α : Type} (a b : String × α) : Prop := a.1 ≤ b.1

instance {α : Type} : DecidableRel (byKey (α := α)) := fun a b => inferInstanceAs (Decidable (a.1 ≤ b.1))

mutual

def canon : Tree → Text
  | .null => "null".toList
  | .bool b => if b then "true".toList else "false".toList
  | .number n => X.number n
  | .string s => X.string s
  | .array items => '[' :: [','].intercalate (canonItems items) ++ [']']
  | .object map => '{' :: [','].intercalate (((canonEntries map).insertionSort byKey).map (entryText X)) ++ ['}']

def canonItems : List Tree → List Text
  | [] => []
  | v :: vs => canon v :: canonItems vs

def canonEntries : List (String × Tree) → List (String × Text)
  | [] => []
  | (k, v) :: m => (k, canon v) :: canonEntries m

end

theorem canonItems_eq (vs : List Tree) : canonItems X vs = vs.map (canon X) := by
  induction vs with
  | nil => rfl
  | cons v vs ih => simp [canonItems, ih]

theorem canonEntries_eq (m : List (String × Tree)) : canonEntries X m = m.map fun e => (e.1, canon X e.2) := by
  induction m with
  | nil => rfl
  | cons e m ih => simp [canonEntries, ih]

theorem map_sort_keys {α : Type} (m : List (String × α)) :
    (m.map Prod.fst).insertionSort (· ≤ ·) = (m.insertionSort byKey).map Prod.fst :=
  (List.map_insertionSort byKey (· ≤ ·) Prod.fst m fun _ _ _ _ => Iff.rfl).symm

theorem mapM_ok {α β ε : Type} {f : α → Except ε β} {g : α → β} {l : List α} (h : ∀ a ∈ l, f a = .ok (g a)) :
    l.mapM f = .ok (l.map g) := by
  induction l with
  | nil => rfl
  | cons a l ih =>
    rw [List.mapM_cons, h a (by simp), ih fun b hb => h b (by simp [hb])]
    rfl

theorem writeEntries_eq (m : List (String × Tree)) :
    writeEntries X m = m.map fun e => (e.1, writeCanonical X e.2) := by
  induction m with
  | nil => rfl
  | cons e m ih => simp [writeEntries, ih]

theorem writeKey_eq {m : List (String × Tree)} (hm : (m.map Prod.fst).Nodup) {e : String × Tree} (he : e ∈ m)
    (hv : writeCanonical X e.2 = .ok (canon X e.2)) :
    writeKey X (writeEntries X m) e.1 = .ok (entryText X (e.1, canon X e.2)) := by
  have hl : (writeEntries X m).lookup e.1 = some (writeCanonical X e.2) := by
    rw [writeEntries_eq]
    refine Tree.lookup_eq_some_of_mem ?_ (List.mem_map.mpr ⟨e, he, rfl⟩)
    rwa [List.map_map]
  rw [writeKey, hl, hv]
  rfl

mutual

theorem writeCanonical_eq : ∀ v : Tree, v.Wf → writeCanonical X v = .ok (canon X v)
  | .null, _ => by simp [writeCanonical, canon]
  | .bool _, _ => by simp [writeCanonical, canon]
  | .number _, _ => by simp [writeCanonical, canon]
  | .string _, _ => by simp [writeCanonical, canon]
  | .array vs, h => by
    simp only [writeCanonical, writeItems_eq vs h, canon]
    rfl
  | .object m, h => by
    have hparts : ∀ e ∈ m.insertionSort byKey,
        (writeKey X (writeEntries X m) ∘ Prod.fst) e = .ok (entryText X (e.1, canon X e.2)) := by
      intro e he
      have he' : e ∈ m := (List.mem_insertionSort byKey).mp he
      exact writeKey_eq X h.1 he' (writeValues_eq m h.2 e he')
    simp only [writeCanonical, canon, map_sort_keys, List.mapM_map, mapM_ok hparts, canonEntries_eq,
      ← List.map_insertionSort byKey byKey (fun e : String × Tree => (e.1, canon X e.2)) m fun _ _ _ _ => Iff.rfl,
      List.map_map]
    rfl

theorem writeItems_eq : ∀ vs : List Tree, Tree.WfItems vs → writeItems X vs = .ok (canonItems X vs)
  | [], _ => by simp [writeItems, canonItems]
  | v :: vs, h => by
    simp only [writeItems, writeCanonical_eq v h.1, writeItems_eq vs h.2, canonItems]
    rfl

theorem writeValues_eq : ∀ m : List (String × Tree), Tree.WfEntries m →
    ∀ e ∈ m, writeCanonical X e.2 = .ok (canon X e.2)
  | [], _ => by simp
  | (k, v) :: m, h => by
    intro e he
    rcases List.mem_cons.mp he with rfl | he
    · exact writeCanonical_eq v h.1
    · exact writeValues_eq m h.2 e he

end

/-- `canonical_json`. -/
def canonicalJson (v : Value) : Except String Bytes := (writeCanonical X v.1).map utf8

theorem canonicalJson_eq (v : Value) : canonicalJson X v = .ok (utf8 (canon X v.1)) := by
  rw [canonicalJson, writeCanonical_eq X v.1 v.2]
  rfl

/-! ## Cutting a canonical text back -/

/-- The character a value's text begins with. -/
def Lead : Tree → Char → Prop
  | .null, c => c = 'n'
  | .bool b, c => c = if b then 't' else 'f'
  | .number _, c => Crates.NumberChar c
  | .string _, c => c = '"'
  | .array _, c => c = '['
  | .object _, c => c = '{'

variable {X}

theorem canon_lead (hX : X.JsonText) (v : Tree) : ∃ c r, canon X v = c :: r ∧ Lead v c := by
  cases v with
  | null => exact ⟨'n', _, rfl, rfl⟩
  | bool b => cases b <;> exact ⟨_, _, rfl, rfl⟩
  | number n =>
    cases hn : X.number n with
    | nil => exact absurd hn (hX.number_ne n)
    | cons c r => exact ⟨c, r, by rw [canon, hn], hX.number_chars n c (by simp [hn])⟩
  | string s =>
    obtain ⟨r, hr⟩ := hX.string_quote s
    exact ⟨'"', r, by rw [canon, hr], rfl⟩
  | array vs => exact ⟨'[', _, rfl, rfl⟩
  | object m => exact ⟨'{', _, rfl, rfl⟩

theorem lead_null {v : Tree} (h : Lead v 'n') : v = .null := by
  rcases v with _ | b | n | s | vs | m
  · rfl
  · cases b <;> simp [Lead] at h
  · exact absurd (show Crates.NumberChar 'n' from h) (by decide)
  all_goals simp [Lead] at h

theorem lead_bool {v : Tree} (b : Bool) (h : Lead v (if b then 't' else 'f')) : v = .bool b := by
  rcases v with _ | b' | n | s | vs | m
  · cases b <;> simp [Lead] at h
  · cases b <;> cases b' <;> simp [Lead] at h ⊢
  · exact absurd (show Crates.NumberChar _ from h) (by cases b <;> decide)
  all_goals cases b <;> simp [Lead] at h

theorem lead_number {v : Tree} {c : Char} (hc : Crates.NumberChar c) (h : Lead v c) : ∃ n, v = .number n := by
  rcases v with _ | b | n | s | vs | m
  case number => exact ⟨n, rfl⟩
  case bool => cases b <;> (simp only [Lead, if_true, if_false, Bool.false_eq_true] at h; subst h; exact absurd hc (by decide))
  all_goals (simp only [Lead] at h; subst h; exact absurd hc (by decide))

theorem lead_string {v : Tree} (h : Lead v '"') : ∃ s, v = .string s := by
  rcases v with _ | b | n | s | vs | m
  case string => exact ⟨s, rfl⟩
  case bool => cases b <;> simp [Lead] at h
  case number => exact absurd (show Crates.NumberChar '"' from h) (by decide)
  all_goals simp [Lead] at h

theorem lead_array {v : Tree} (h : Lead v '[') : ∃ vs, v = .array vs := by
  rcases v with _ | b | n | s | vs | m
  case array => exact ⟨vs, rfl⟩
  case bool => cases b <;> simp [Lead] at h
  case number => exact absurd (show Crates.NumberChar '[' from h) (by decide)
  all_goals simp [Lead] at h

theorem lead_object {v : Tree} (h : Lead v '{') : ∃ m, v = .object m := by
  rcases v with _ | b | n | s | vs | m
  case object => exact ⟨m, rfl⟩
  case bool => cases b <;> simp [Lead] at h
  case number => exact absurd (show Crates.NumberChar '{' from h) (by decide)
  all_goals simp [Lead] at h

theorem lead_not_close {v : Tree} (h : Lead v ']') : False := by
  rcases v with _ | b | n | s | vs | m
  case bool => cases b <;> simp [Lead] at h
  case number => exact absurd (show Crates.NumberChar ']' from h) (by decide)
  all_goals simp [Lead] at h

/-- Texts that begin alike belong to values of one shape. -/
theorem lead_of_eq (hX : X.JsonText) {v w : Tree} {t t' : Text} (h : canon X v ++ t = canon X w ++ t') :
    ∃ c, Lead v c ∧ Lead w c := by
  obtain ⟨c, r, hv, hc⟩ := canon_lead hX v
  obtain ⟨c', r', hw, hc'⟩ := canon_lead hX w
  rw [hv, hw, List.cons_append, List.cons_append, List.cons.injEq] at h
  exact ⟨c, hc, h.1 ▸ hc'⟩

/-- `≈` of two objects from their sorted entries. -/
theorem same_of_sorted {m n : List (String × Tree)} (hn : (n.map Prod.fst).Nodup)
    (h : List.Forall₂ (fun e f => e.1 = f.1 ∧ e.2.Same f.2) (m.insertionSort byKey) (n.insertionSort byKey)) :
    (Tree.object m).Same (.object n) := by
  refine ⟨by simpa using h.length_eq, (Tree.sameEntries_iff m n).mpr fun e he => ?_⟩
  have he' : e ∈ m.insertionSort byKey := (List.mem_insertionSort byKey).mpr he
  obtain ⟨i, hi, rfl⟩ := List.getElem_of_mem he'
  have hi' : i < (n.insertionSort byKey).length := h.length_eq ▸ hi
  obtain ⟨hk, hs⟩ := h.get hi hi'
  have hm : (n.insertionSort byKey)[i] ∈ n := (List.mem_insertionSort byKey).mp (List.getElem_mem hi')
  exact ⟨_, Tree.lookup_eq_some_of_mem hn (by rw [show (m.insertionSort byKey)[i].1 = _ from hk]; exact hm), hs⟩

abbrev Cut (X : Crates) (v : Tree) : Prop := CutAt (canon X) Tree.Wf Tree.Same (Ends Crates.NumberChar) v

theorem object_cut (hX : X.JsonText) {m : List (String × Tree)} (hm : ∀ e ∈ m, e.2.Wf ∧ Cut X e.2) :
    Cut X (.object m) := by
  intro w t t' hw ht ht' h
  obtain ⟨c, hc, hc'⟩ := lead_of_eq hX h
  cases hc
  obtain ⟨n, rfl⟩ := lead_object hc'
  have hsort : ∀ l : List (String × Tree), ((canonEntries X l).insertionSort byKey).map (entryText X) =
      (l.insertionSort byKey).map fun e => entryText X (e.1, canon X e.2) := by
    intro l
    rw [canonEntries_eq, ← List.map_insertionSort byKey byKey (fun e : String × Tree => (e.1, canon X e.2)) l
      fun _ _ _ _ => Iff.rfl, List.map_map]
    rfl
  simp only [canon, hsort, List.cons_append, List.append_assoc, List.nil_append, List.cons.injEq, true_and] at h
  have hentry : ∀ e ∈ m.insertionSort byKey, e.2.Wf ∧ CutAt (fun e => entryText X (e.1, canon X e.2))
      (fun e => e.2.Wf) (fun e f => e.1 = f.1 ∧ e.2.Same f.2) (Ends Crates.NumberChar) e := by
    intro e he
    obtain ⟨hwf, hcut⟩ := hm e ((List.mem_insertionSort byKey).mp he)
    refine ⟨hwf, fun f u u' hf hu hu' heq => ?_⟩
    simp only [entryText, List.append_assoc, List.cons_append] at heq
    obtain ⟨hk, hv⟩ := hX.string_cut _ _ _ _ heq
    obtain ⟨hs, hu⟩ := hcut f.2 u u' hf hu hu' (List.cons.inj hv).2
    exact ⟨⟨hk, hs⟩, hu⟩
  obtain ⟨hall, htt⟩ := sep_cut (by simp [Crates.NumberChar]) (by simp [Crates.NumberChar]) (by decide)
    (fun e _ u u' he => by
      obtain ⟨r, hr⟩ := hX.string_quote e.1
      simp [entryText, hr] at he)
    _ _ hentry (fun e he => (Tree.wfEntries_iff n).mp hw.2 e ((List.mem_insertionSort byKey).mp he)) _ _ h
  exact ⟨same_of_sorted hw.1 hall, htt⟩

mutual

/-- Two values whose canonical texts agree, each before something that does not go on
    with a number, are equal, and so is what follows. -/
theorem canon_cut (hX : X.JsonText) : ∀ v : Tree, v.Wf → Cut X v
  | .null, _ => by
    intro w t t' _ _ _ h
    obtain ⟨c, hc, hc'⟩ := lead_of_eq hX h
    cases hc
    obtain rfl := lead_null hc'
    exact ⟨trivial, by simpa [canon] using h⟩
  | .bool b, _ => by
    intro w t t' _ _ _ h
    obtain ⟨c, hc, hc'⟩ := lead_of_eq hX h
    cases hc
    obtain rfl := lead_bool b hc'
    exact ⟨rfl, by cases b <;> simpa [canon] using h⟩
  | .number n, _ => by
    intro w t t' _ ht ht' h
    obtain ⟨c, hc, hc'⟩ := lead_of_eq hX h
    obtain ⟨n', rfl⟩ := lead_number hc hc'
    exact hX.number_cut ht ht' h
  | .string s, _ => by
    intro w t t' _ _ _ h
    obtain ⟨c, hc, hc'⟩ := lead_of_eq hX h
    cases hc
    obtain ⟨s', rfl⟩ := lead_string hc'
    exact hX.string_cut _ _ _ _ h
  | .array vs, hv => by
    intro w t t' hw _ _ h
    obtain ⟨c, hc, hc'⟩ := lead_of_eq hX h
    cases hc
    obtain ⟨ws, rfl⟩ := lead_array hc'
    simp only [canon, canonItems_eq, List.cons_append, List.append_assoc, List.nil_append, List.cons.injEq,
      true_and] at h
    obtain ⟨hall, htt⟩ := sep_cut (by simp [Crates.NumberChar]) (by simp [Crates.NumberChar]) (by decide)
      (fun u _ r r' hu => by
        obtain ⟨c, _, hc, hl⟩ := canon_lead hX u
        rw [hc] at hu
        cases hu
        exact lead_not_close hl)
      vs ws (canon_cut_items hX vs hv) ((Tree.wfItems_iff ws).mp hw) t t' h
    exact ⟨(Tree.sameItems_iff vs ws).mpr hall, htt⟩
  | .object m, hv => object_cut hX (canon_cut_entries hX m hv.2)

theorem canon_cut_items (hX : X.JsonText) : ∀ vs : List Tree, Tree.WfItems vs → ∀ v ∈ vs, v.Wf ∧ Cut X v
  | [], _ => by simp
  | v :: vs, h => by
    intro u hu
    rcases List.mem_cons.mp hu with hu | hu
    · rw [hu]; exact ⟨h.1, canon_cut hX v h.1⟩
    · exact canon_cut_items hX vs h.2 u hu

theorem canon_cut_entries (hX : X.JsonText) : ∀ m : List (String × Tree), Tree.WfEntries m →
    ∀ e ∈ m, e.2.Wf ∧ Cut X e.2
  | [], _ => by simp
  | (k, v) :: m, h => by
    intro e he
    rcases List.mem_cons.mp he with he | he
    · rw [he]; exact ⟨h.1, canon_cut hX v h.1⟩
    · exact canon_cut_entries hX m h.2 e he

end

/-- Values with the same canonical bytes are equal. -/
theorem canonicalJson_injective (hX : X.JsonText) {v w : Value} (h : canonicalJson X v = canonicalJson X w) : v ≈ w := by
  rw [canonicalJson_eq, canonicalJson_eq] at h
  have ht : canon X v.1 ++ [] = canon X w.1 ++ [] := by simpa using utf8_injective (Except.ok.inj h)
  exact (canon_cut hX v.1 v.2 w.1 [] [] w.2 (by simp) (by simp) ht).1

end RigVeh.Json
