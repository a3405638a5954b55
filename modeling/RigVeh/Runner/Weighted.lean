/-
  RigVeh.Runner.Weighted — the two weighted selectors, over exact rationals.

  Both put the nodes that may become a parent on a wheel (`Base.Wheel`), in the order
  of insertion, and spin it once. `Proportional` is what the weights are for: with some
  weight on the wheel the draw is in the span of the picked node, which has one, and
  each span picks its own node; with none the last node is picked.

  The walk compares with `r <= acc`, so it is off by the one draw that is 0: a hash of 0
  picks the first node even if its weight is 0 (`weighted_proportional`). The root has
  no score and comes first.
-/

import RigVeh.Base.Wheel
import RigVeh.Runner.Selection

namespace RigVeh

open RigVeh.Json RigVeh.Base

variable {X : Crates}

inductive Weighing where
  | scoreProportional
  | scoreChildProportional

namespace Weighing

def selector (seed : Option UInt64) : Weighing → ParentSelector
  | scoreProportional => .scoreProportional seed
  | scoreChildProportional => .scoreChildProportional seed

/-- A node's weight among `nodes`. -/
def weight (nodes : List (AgentNode X)) (node : AgentNode X) : Weighing → ℚ
  | scoreProportional => max (scoreOf rational node) 0
  | scoreChildProportional =>
    max (scoreOf rational node) 0 / (1 + (ParentSelector.childCount nodes node.agentId : ℚ))

def wheel (nodes : List (AgentNode X)) (w : Weighing) : List (ℚ × AgentId) :=
  (nodes.filter (·.validParent)).map fun n => (w.weight nodes n, n.agentId)

theorem choose_wheel (hash : List Hashed → UInt64) (nodes : List (AgentNode X)) (w : Weighing) (seed : Option UInt64) :
    (w.selector seed).choose rational hash nodes = weightedChoice rational hash (w.wheel nodes) seed := by
  cases w <;> rfl

theorem weight_nonneg (nodes : List (AgentNode X)) (node : AgentNode X) (w : Weighing) : 0 ≤ w.weight nodes node := by
  cases w with
  | scoreProportional => exact le_max_right _ _
  | scoreChildProportional => exact div_nonneg (le_max_right _ _) (by positivity)

theorem wheel_nonneg (nodes : List (AgentNode X)) (w : Weighing) : ∀ e ∈ w.wheel nodes, 0 ≤ e.1 := by
  intro e he
  obtain ⟨n, -, rfl⟩ := List.mem_map.mp he
  exact w.weight_nonneg nodes n

end Weighing

/-! ## The draw -/

section

variable {wheel : List (ℚ × AgentId)} {v : UInt64} {id : AgentId}

/-- The point of the wheel that `v` stands for. -/
def draw (v : UInt64) (wheel : List (ℚ × AgentId)) : ℚ := rational.unit v * span wheel

theorem unit_le (v : UInt64) : rational.unit v ≤ 1 := by
  have hlt := v.toNat_lt
  have hle : v.toNat + 1 ≤ 2 ^ 64 := by omega
  have hv : (v.toNat : ℚ) + 1 ≤ 2 ^ 64 := by exact_mod_cast hle
  exact div_le_one_of_le₀ (le_sub_iff_add_le.mpr hv) (by norm_num)

theorem unit_pos (hv : v ≠ 0) : 0 < rational.unit v := by
  have hpos : 0 < v.toNat := Nat.pos_of_ne_zero fun h => hv (UInt64.toNat_inj.mp h)
  have : (0 : ℚ) < v.toNat := by exact_mod_cast hpos
  exact div_pos this (by norm_num)

theorem draw_le (hw : ∀ e ∈ wheel, 0 ≤ e.1) : draw v wheel ≤ span wheel :=
  mul_le_of_le_one_left (span_nonneg hw) (unit_le v)

/-- The code's walk with a running sum. -/
theorem reach_land (r acc : ℚ) (wheel : List (ℚ × AgentId)) : reach rational r acc wheel = land (r - acc) wheel := by
  induction wheel generalizing acc with
  | nil => rfl
  | cons e rest ih =>
    obtain ⟨w, id⟩ := e
    have hstop : rational.le r (rational.add acc w) = true ↔ r - acc ≤ w := by
      rw [sub_le_iff_le_add']
      exact decide_eq_true_iff
    have hrest : reach rational r (rational.add acc w) rest = land (r - acc - w) rest := by
      rw [ih, sub_sub]
      rfl
    unfold reach land
    simp only [hstop, hrest]

theorem total_span (wheel : List (ℚ × AgentId)) :
    (wheel.map Prod.fst).foldl rational.add (rational.ofNat 0) = span wheel := (List.sum_eq_foldl ..).symm

/-- Without any weight the last entry. -/
theorem falls_last (hz : span wheel = 0) : falls rational v wheel = wheel.getLast?.map Prod.snd := by
  have hle : rational.le 0 (rational.ofNat 0) = true := decide_eq_true (le_refl (0 : ℚ))
  unfold falls
  simp only [total_span, hz]
  exact if_pos hle

theorem falls_land (hw : ∀ e ∈ wheel, 0 ≤ e.1) (hz : span wheel ≠ 0) :
    falls rational v wheel = land (draw v wheel) wheel := by
  have hpos : ¬ span wheel ≤ 0 := fun h => hz (le_antisymm h (span_nonneg hw))
  have hne : wheel ≠ [] := by
    intro hnil
    rw [hnil] at hz
    exact hz rfl
  obtain ⟨id, hid⟩ := land_some hne (draw_le (v := v) hw)
  have hreach : reach rational (rational.mul (rational.unit v) (span wheel)) (rational.ofNat 0) wheel = some id := by
    rw [reach_land, ← hid]
    exact congrArg (land · wheel) (sub_zero _)
  unfold falls
  simp only [total_span, hreach, hid]
  exact if_neg fun h => hpos (of_decide_eq_true h)

/-- What a draw of `v` is for. -/
structure Proportional (v : UInt64) (wheel : List (ℚ × AgentId)) (r : Except Error AgentId) : Prop where
  lands : 0 < span wheel → ∃ id, r = .ok id ∧ Lands (draw v wheel) wheel id
  inside : ∀ before w id after, wheel = before ++ (w, id) :: after → span before < draw v wheel →
    draw v wheel ≤ span before + w → r = .ok id
  last : span wheel = 0 → ∀ e, wheel.getLast? = some e → r = .ok e.2

/-- The wheel's first entry has the id of the first one with a weight: where ids do not
    repeat, it has a weight itself. -/
def WeightFirst (wheel : List (ℚ × AgentId)) : Prop :=
  wheel.head?.map Prod.snd = (wheel.find? fun e => 0 < e.1).map Prod.snd

theorem proportional_empty {r : Except Error AgentId} : Proportional v [] r where
  lands h := absurd h (lt_irrefl _)
  inside before w id after h := by
    have := congrArg List.length h
    simp at this
  last _ e h := by cases h

theorem proportional_last (hw : ∀ e ∈ wheel, 0 ≤ e.1) (hz : span wheel = 0) (hid : falls rational v wheel = some id) :
    Proportional v wheel (.ok id) where
  lands h := absurd hz (ne_of_gt h)
  inside before w id' after hwheel hlt _ := by
    have hbefore : 0 ≤ span before := span_nonneg fun e he => hw e (hwheel ▸ List.mem_append_left _ he)
    rw [draw, hz, mul_zero] at hlt
    exact absurd hlt (not_lt_of_ge hbefore)
  last _ e he := by
    rw [falls_last hz, he] at hid
    cases hid
    rfl

theorem proportional_drawn (hw : ∀ e ∈ wheel, 0 ≤ e.1) (hz : span wheel ≠ 0) (hv : v ≠ 0)
    (hid : falls rational v wheel = some id) : Proportional v wheel (.ok id) where
  lands h := by
    rw [falls_land hw hz] at hid
    exact ⟨id, rfl, land_lands (mul_pos (unit_pos hv) h) hid⟩
  inside before w id' after hwheel hlt hle := by
    have hbefore : ∀ e ∈ before, 0 ≤ e.1 := fun e he => hw e (hwheel ▸ List.mem_append_left _ he)
    have hland := land_of_split after id' hbefore hlt hle
    rw [← hwheel, ← falls_land hw hz, hid] at hland
    cases hland
    rfl
  last h := absurd h hz

/-- The draw 0 stops at the first entry. -/
theorem proportional_zero (hw : ∀ e ∈ wheel, 0 ≤ e.1) (hz : span wheel ≠ 0) (hid : falls rational 0 wheel = some id) :
    Proportional 0 wheel (.ok id) ↔ WeightFirst wheel := by
  have hdraw : draw 0 wheel = 0 := by
    have hunit : rational.unit 0 = 0 := zero_div _
    rw [draw, hunit, zero_mul]
  have hfirst : wheel.head?.map Prod.snd = some id := by
    rw [falls_land hw hz, hdraw] at hid
    cases wheel with
    | nil => cases hid
    | cons e rest =>
      have hle : 0 ≤ e.1 := hw e List.mem_cons_self
      rw [← hid]
      exact (if_pos hle).symm
  unfold WeightFirst
  rw [hfirst, eq_comm, ← lands_zero hw, ← hdraw]
  constructor
  · intro h
    obtain ⟨id', hid', hlands⟩ := h.lands (lt_of_le_of_ne (span_nonneg hw) (Ne.symm hz))
    cases hid'
    exact hlands
  · intro hlands
    refine ⟨fun _ => ⟨id, rfl, hlands⟩, ?_, fun h => absurd h hz⟩
    intro before w id' after hwheel hlt _
    have hbefore : 0 ≤ span before := span_nonneg fun e he => hw e (hwheel ▸ List.mem_append_left _ he)
    rw [hdraw] at hlt
    exact absurd hlt (not_lt_of_ge hbefore)

end

/-- Weighted selection is proportional but for a hash of 0, and then too if there is no
    weight or the first node has some. -/
theorem weighted_proportional (hash : List Hashed → UInt64) (w : Weighing) (seed : Option UInt64) {σ : Type}
    {f : Prog.Handler (calls X) σ} {s s₁ : σ} {nodes : List (AgentNode X)} (hn : f (.ledger .nodes) s = (.ok nodes, s₁)) :
    Proportional (drawn hash seed (f .now s₁).1 (w.wheel nodes)) (w.wheel nodes)
        (Prog.run f ((w.selector seed).select rational hash).run s).1 ↔
      drawn hash seed (f .now s₁).1 (w.wheel nodes) ≠ 0 ∨ span (w.wheel nodes) = 0 ∨ WeightFirst (w.wheel nodes) := by
  rw [ParentSelector.select_run rational hash _ hn, Weighing.choose_wheel]
  have hw := w.wheel_nonneg nodes
  by_cases hempty : w.wheel nodes = []
  · rw [hempty]
    exact iff_of_true proportional_empty (.inr (.inl rfl))
  obtain ⟨id, hid, hr⟩ := weightedChoice_run rational hash f s₁ seed hempty
  rw [hr]
  by_cases hz : span (w.wheel nodes) = 0
  · exact iff_of_true (proportional_last hw hz hid) (.inr (.inl hz))
  by_cases hv : drawn hash seed (f .now s₁).1 (w.wheel nodes) = 0
  · rw [hv] at hid ⊢
    rw [proportional_zero hw hz hid]
    simp [hz]
  · exact iff_of_true (proportional_drawn hw hz hv hid) (.inl hv)

namespace Reference

theorem scoredLedger_wheel :
    Weighing.scoreProportional.wheel scoredLedger.list = [(0, snapshotNode.agentId), (1 / 2, child.agentId)] := by
  have hroot : (InMemoryInner.push .default snapshotNode).list = [snapshotNode] :=
    InMemoryInner.list_push InMemoryInner.default_wf rfl
  have hlist : scoredLedger.list = [snapshotNode] ++ [child] := by
    rw [scoredLedger, InMemoryInner.list_push (InMemoryInner.push_wf InMemoryInner.default_wf rfl) (by decide), hroot]
  have hnone : max (scoreOf rational snapshotNode) 0 = 0 := max_self _
  have hhalf : max (scoreOf rational child) 0 = 1 / 2 := by decide +kernel
  rw [hlist, ← hnone, ← hhalf]
  rfl

theorem weighted_proportional_scored :
    Proportional (drawn (fun _ => 0) none host.now (Weighing.scoreProportional.wheel scoredLedger.list))
        (Weighing.scoreProportional.wheel scoredLedger.list)
        (exec host ((ParentSelector.scoreProportional none).select rational fun _ => 0) scoredLedger).1 ↔
      drawn (fun _ => 0) none host.now (Weighing.scoreProportional.wheel scoredLedger.list) ≠ 0 ∨
        span (Weighing.scoreProportional.wheel scoredLedger.list) = 0 ∨
        WeightFirst (Weighing.scoreProportional.wheel scoredLedger.list) :=
  weighted_proportional (f := host.answer) (fun _ => 0) .scoreProportional none rfl

/-- A hash of 0 picks the root, whose weight is 0, though the child has some. -/
theorem weightless_picked :
    (exec host ((ParentSelector.scoreProportional none).select rational fun _ => 0) scoredLedger).1 =
        .ok snapshotNode.agentId ∧
      ¬ Proportional 0 (Weighing.scoreProportional.wheel scoredLedger.list) (.ok snapshotNode.agentId) := by
  have hnonneg := Weighing.scoreProportional.wheel_nonneg scoredLedger.list
  rw [scoredLedger_wheel] at hnonneg ⊢
  have hfalls : falls rational 0 [(0, snapshotNode.agentId), (1 / 2, child.agentId)] = some snapshotNode.agentId := by
    decide +kernel
  constructor
  · have hrun : exec host ((ParentSelector.scoreProportional none).select rational fun _ => 0) scoredLedger =
        exec host (weightedChoice rational (fun _ => 0) (Weighing.scoreProportional.wheel scoredLedger.list) none)
          scoredLedger := rfl
    obtain ⟨id, hid, hr⟩ := weightedChoice_run rational (fun _ => 0) host.answer scoredLedger none
      (List.cons_ne_nil (0, snapshotNode.agentId) [(1 / 2, child.agentId)])
    obtain rfl := Option.some.inj (hid.symm.trans hfalls)
    rw [hrun, scoredLedger_wheel]
    exact hr
  · rw [proportional_zero hnonneg (by decide +kernel) hfalls]
    unfold WeightFirst
    decide +kernel

end Reference

end RigVeh
