/-
  RigVeh.Identity.Bundle — an evidence bundle as JSON, and back (`to_value` and
  `from_value` of `EvidenceBundle`).

  Three fields are left out when there is nothing in them and are read as nothing when
  they are left out. The report is an option of any JSON value: none is left out, but a
  null one is written, and null is read as none. So all of a bundle comes back but a
  report that is null (`read_toValue`), and what was read once is read again
  (`bundle_round_trips`).
-/

import RigVeh.Identity.Evidence
import RigVeh.Json.Form

namespace RigVeh

open RigVeh.Json RigVeh.Base

variable {X : Crates}

/-! ## The parts -/

theorem Reader.ReadsBack.exact {α : Type} {r : Reader α} {f : α → Value} (h : Reader.ReadsBack r f Eq) (a : α) :
    r (f a) = .ok a := by
  obtain ⟨b, hb, rfl⟩ := h a (f a) (Value.equiv_refl _)
  exact hb

variable (X) in
theorem verdict_read (p : PolicyVerdict) : PolicyVerdict.read X p.toValue = .ok p := by
  cases p <;> rfl

variable (X) in
theorem vec_read {α : Type} (r : Reader α) (f : α → Value) (h : ∀ a, r (f a) = .ok a) (l : List α) :
    Reader.vec X r (.array (l.map f)) = .ok l := by
  simp only [Reader.vec, Value.view_array]
  induction l with
  | nil => rfl
  | cons a l ih =>
    rw [List.map_cons, List.mapM_cons, h, ih]
    rfl

/-- What stands in a field that may be absent. -/
def nonNull (v : Value) : Option Value :=
  match v.view with
  | .null => none
  | _ => some v

theorem option_read (v : Value) : Reader.option Reader.value v = .ok (nonNull v) := by
  unfold Reader.option nonNull
  cases v.view <;> rfl

theorem nonNull_ne (v : Value) : nonNull v ≠ some .null := by
  unfold nonNull
  split
  · simp
  · rename_i h
    intro heq
    obtain rfl := Option.some.inj heq
    exact h rfl

theorem nonNull_some {v : Value} : nonNull v = some v ↔ v ≠ .null := by
  constructor
  · intro h hnull
    exact nonNull_ne v (hnull ▸ h)
  · intro h
    unfold nonNull
    split
    · rename_i hnull
      exact absurd (Value.null_of_view hnull) h
    · rfl

theorem struct_ok {α : Type} {name expected : String} {fields : List Reader.Field} {build : Reader.Source → Except String α} {v : Value}
    {a : α} (h : Reader.struct X name expected fields build v = .ok a) : ∃ src, build src = .ok a := by
  unfold Reader.struct at h
  split at h
  · obtain ⟨_, -, h⟩ := Prog.bind_ok h
    exact ⟨_, h⟩
  · obtain ⟨b, hb, h⟩ := Prog.bind_ok h
    unfold Reader.visitSeq at h
    split at h
    · cases h
    · cases h
      exact ⟨_, hb⟩
  · cases h

/-- What holds of every reading of a field and of its default holds of the field. -/
theorem field_holds {α : Type} {P : α → Prop} {src : Reader.Source} {i : Nat} {name : String} {r : Reader α}
    {default : Option α} {a : α} (hr : ∀ v a, r v = .ok a → P a) (hd : ∀ a, default = some a → P a)
    (h : src.field i name r default = .ok a) : P a := by
  have hfield {map : List (String × Value)} {absent : Except String α} (ha : ∀ a, absent = .ok a → P a)
      (h : Reader.field map name r absent = .ok a) : P a := by
    rw [Reader.field] at h
    split at h
    · exact hr _ a h
    · exact ha a h
  have helement {items : List Value} {absent : Except String α} (ha : ∀ a, absent = .ok a → P a)
      (h : Reader.element items i r absent = .ok a) : P a := by
    rw [Reader.element] at h
    split at h
    · exact hr _ a h
    · exact ha a h
  have hdefault (d : α) (he : default = some d) (b : α) (hb : Except.ok (ε := String) d = .ok b) : P b := by
    cases hb
    exact hd d he
  cases src with
  | object map =>
    cases default with
    | none => exact hfield (fun _ h => by cases h) h
    | some d => exact hfield (hdefault d rfl) h
  | array items expected =>
    cases default with
    | none => exact helement (fun _ h => by cases h) h
    | some d => exact helement (hdefault d rfl) h

/-- No option is read as a null value. -/
theorem nonNull_field {src : Reader.Source} {i : Nat} {name : String} {r : Option Value}
    (h : src.field i name (Reader.option Reader.value) (some none) = .ok r) : r ≠ some .null := by
  refine field_holds (P := (· ≠ some .null)) (fun v a hv => ?_) (by rintro _ ⟨⟩; simp) h
  rw [option_read] at hv
  cases hv
  exact nonNull_ne v

/-! ## The bundle -/

namespace EvidenceBundle

variable (X) in
/-- Writing and reading loses a null report and nothing else. -/
theorem read_toValue (b : EvidenceBundle) :
    read X b.toValue = .ok { b with evaluatorReport := b.evaluatorReport.bind nonNull } := by
  obtain ⟨version, policy, report, items, approvals⟩ := b
  have hv := Reader.ReadsBack.exact (Reader.u32_readsBack X) version
  have hp := verdict_read X policy
  have hi := vec_read X Reader.value id (fun _ => rfl) items
  rw [List.map_id] at hi
  have ha := vec_read X (OperatorApproval.read X) OperatorApproval.toValue (fun _ => rfl) approvals
  cases report <;> cases items <;> cases approvals <;>
    simp_all [read, toValue, entries, Reader.struct, Reader.visitMap, Reader.Source.field, Reader.field, Reader.Field.of,
      List.lookup_cons, option_read, Except.map, bind, Except.bind, pure, Except.pure]

/-- No bundle is read with a null report. -/
theorem read_report {v : Value} {b : EvidenceBundle} (h : read X v = .ok b) : b.evaluatorReport ≠ some .null := by
  obtain ⟨src, h⟩ := struct_ok h
  obtain ⟨_, -, h⟩ := Prog.bind_ok h
  obtain ⟨_, -, h⟩ := Prog.bind_ok h
  obtain ⟨report, hreport, h⟩ := Prog.bind_ok h
  obtain ⟨_, -, h⟩ := Prog.bind_ok h
  obtain ⟨_, -, h⟩ := Prog.bind_ok h
  cases h
  exact nonNull_field hreport

variable (X) in
theorem fromValue_toValue (b : EvidenceBundle) : fromValue X b.toValue = .ok b ↔ b.evaluatorReport ≠ some .null := by
  rw [fromValue, read_toValue, Prog.mapError_ok, Except.ok.injEq]
  obtain ⟨version, policy, report, items, approvals⟩ := b
  cases report with
  | none => simp
  | some v => simp [nonNull_some]

end EvidenceBundle

variable (X) in
/-- A bundle comes back exactly if its report is not null, and what was read once is
    read again. -/
theorem bundle_round_trips :
    (∀ b : EvidenceBundle, EvidenceBundle.fromValue X b.toValue = .ok b ↔ b.evaluatorReport ≠ some .null) ∧
    ∀ v b, EvidenceBundle.fromValue X v = .ok b → EvidenceBundle.fromValue X b.toValue = .ok b := by
  refine ⟨EvidenceBundle.fromValue_toValue X, ?_⟩
  intro v b h
  exact (EvidenceBundle.fromValue_toValue X b).mpr (EvidenceBundle.read_report (Prog.mapError_ok.mp h))

namespace Reference

/-- A bundle whose evaluator reported null. -/
def nullReport : EvidenceBundle := { EvidenceBundle.new (.approved "ok") with evaluatorReport := some .null }

/-- It comes back without a report. -/
theorem nullReport_lost :
    EvidenceBundle.fromValue Reference nullReport.toValue = .ok (EvidenceBundle.new (.approved "ok")) ∧
      EvidenceBundle.new (.approved "ok") ≠ nullReport := by
  refine ⟨rfl, ?_⟩
  intro h
  cases congrArg EvidenceBundle.evaluatorReport h

end Reference

end RigVeh
