/-
  RigVeh.Runner.Tighten — a tighter cycle is never let further.

  `Tighter` compares two cycles of one candidate under the default gate: the second has a
  parent that grants no more, is no shallower, has no more capabilities and scores no
  lower, an intent with no fewer constraints, and a runner no less strict. A promotion
  comes before a pause and a pause before a refusal: whatever the ledgers hold, if
  the candidate is evaluated alike in both, the second cycle does not come to less than
  the first (`tightened`).
-/

import RigVeh.Runner.Gate
import RigVeh.Runner.Plan
import RigVeh.Runner.Scope

namespace RigVeh

open RigVeh.Json RigVeh.Base

variable {X : Crates}

def Ruling.severity : Ruling → Nat
  | .approve => 0
  | .requireApproval => 1
  | .deny => 2

theorem Ruling.severity_le_two (r : Ruling) : r.severity ≤ 2 := by cases r <;> decide

/-- The runner's own word for what it did. -/
def CycleOutcome.ruling : CycleOutcome X → Ruling
  | promoted _ _ => .approve
  | awaitingApproval _ => .requireApproval
  | rejected _ _ => .deny

/-- The second parent grants no more than the first, for one more generation. -/
structure AgentNode.Tighter (p p' : AgentNode X) : Prop where
  scope : p'.allowedScope.Within p.allowedScope
  sbom : p'.capabilitySbom ⊆ p.capabilitySbom
  generation : p.generation ≤ p'.generation
  unwrapped : p'.generation.toNat < 2 ^ 32 - 1
  score : ∀ b, storedScore p = some b → ∃ b', storedScore p' = some b' ∧ b.le b' = true

structure Tighter (v : Veh X) (i : CycleInputs X) (v' : Veh X) (i' : CycleInputs X) : Prop where
  gate : v.policy = DefaultPolicyGate.evaluate
  gate' : v'.policy = DefaultPolicyGate.evaluate
  strict : v.requireStrictImprovement = true → v'.requireStrictImprovement = true
  candidate : i'.candidate = i.candidate
  parent : i.parent.Tighter i'.parent
  constraints : i.intent.constraints ⊆ i'.intent.constraints

/-! ## The gate -/

section

variable {p p' : AgentNode X} {intent intent' : MutationIntent} {candidate : AgentArtifact X}

theorem AgentNode.Tighter.unwrapped' (h : p.Tighter p') : p.generation.toNat < 2 ^ 32 - 1 :=
  Nat.lt_of_le_of_lt (UInt32.le_iff_toNat_le.mp h.generation) h.unwrapped

theorem AgentNode.Tighter.tooDeep (h : p.Tighter p') (hd : TooDeep p) : TooDeep p' := by
  obtain ⟨max, hmax, hlt⟩ := hd
  obtain ⟨k, hk, hle⟩ := h.scope.maxGeneration max hmax
  have hgen := UInt32.le_iff_toNat_le.mp h.generation
  have hle := UInt32.le_iff_toNat_le.mp hle
  exact ⟨k, hk, by omega⟩

theorem AgentNode.Tighter.exceeds (h : p.Tighter p') (he : Exceeds p candidate) : Exceeds p' candidate := by
  obtain ⟨cap, hcap, hp, ha⟩ := exceeds_iff.mp he
  exact exceeds_iff.mpr ⟨cap, hcap, mt (@h.sbom cap) hp, mt h.scope.admits ha⟩

theorem AgentNode.Tighter.gates (h : p.Tighter p') (hc : intent.constraints ⊆ intent'.constraints)
    (hg : Gates p intent candidate) : Gates p' intent' candidate := by
  obtain ⟨gated, hmem, hnamed⟩ := hg
  exact ⟨gated, h.scope.gated hmem, hnamed.imp_right (@hc gated)⟩

/-- The gate's decision on the second is no milder. -/
theorem gate_severity (h : p.Tighter p') (hc : intent.constraints ⊆ intent'.constraints) :
    (DefaultPolicyGate.evaluate p intent candidate.capabilitySbom).ruling.severity ≤
      (DefaultPolicyGate.evaluate p' intent' candidate.capabilitySbom).ruling.severity := by
  have hdeny : (∃ r, DefaultPolicyGate.evaluate p intent candidate.capabilitySbom = .deny r) →
      ∃ r, DefaultPolicyGate.evaluate p' intent' candidate.capabilitySbom = .deny r := by
    rw [DefaultPolicyGate.evaluate_deny, DefaultPolicyGate.evaluate_deny, DefaultPolicyGate.overDepth_iff h.unwrapped',
      DefaultPolicyGate.overDepth_iff h.unwrapped]
    exact h.tooDeep
  have happrove : DefaultPolicyGate.evaluate p' intent' candidate.capabilitySbom = .approve →
      DefaultPolicyGate.evaluate p intent candidate.capabilitySbom = .approve := by
    rw [DefaultPolicyGate.approved_iff h.unwrapped, DefaultPolicyGate.approved_iff h.unwrapped']
    exact fun ⟨hd, he⟩ => ⟨mt h.tooDeep hd, mt (Or.imp h.exceeds (h.gates hc)) he⟩
  rcases hp : DefaultPolicyGate.evaluate p intent candidate.capabilitySbom with _ | r | r
  · exact Nat.zero_le _
  · obtain ⟨r', hp'⟩ := hdeny ⟨r, hp⟩
    rw [hp']
    rfl
  · rcases hp' : DefaultPolicyGate.evaluate p' intent' candidate.capabilitySbom with _ | r' | r'
    · rw [happrove hp'] at hp
      cases hp
    · exact Nat.le_succ 1
    · exact Nat.le_refl 1

end

/-! ## The cycle -/

theorem F64.le_trans {a b c : F64} (hab : a.le b = true) (hbc : b.le c = true) : a.le c = true := by
  simp only [F64.le, Bool.and_eq_true, decide_eq_true_eq] at hab hbc ⊢
  exact ⟨⟨hab.1.1, hbc.1.2⟩, Int.le_trans hab.2 hbc.2⟩

section

variable {v v' : Veh X} {h : Host X} {i i' : CycleInputs X} {s s' : InMemoryInner X} {o o' : CycleOutcome X}

/-- What passes the stricter rule beside the higher score passes the other. -/
theorem Tighter.improves (ht : Tighter v i v' i') {eval : EvalResult} (hi : v'.notImproved i'.parent eval = none) :
    v.notImproved i.parent eval = none := by
  by_cases hs : v.requireStrictImprovement = true
  · rw [notImproved_none (ht.strict hs)] at hi
    refine (notImproved_none hs).mpr fun b hb => ?_
    obtain ⟨b', hb', hle⟩ := ht.parent.score b hb
    have hfalse := hi b' hb'
    by_contra htrue
    rw [F64.le_trans ((Bool.not_eq_false _).mp htrue) hle] at hfalse
    cases hfalse
  · rw [Veh.notImproved, if_neg hs]

/-- What a cycle that was evaluated comes to under the rule and the gate. -/
def Veh.verdict (v : Veh X) (i : CycleInputs X) (eval : EvalResult) : Ruling :=
  match v.notImproved i.parent eval with
  | some _ => .deny
  | none => (v.policy i.parent i.intent i.candidate.capabilitySbom).ruling

theorem plan_ruling (ho : v.plan h i = .ok o) : ∃ eval, h.evaluate i.candidate = .ok eval ∧ o.ruling = v.verdict i eval := by
  obtain ⟨diff, -, ho⟩ := Prog.bind_ok ho
  obtain ⟨eval, heval, ho⟩ := Prog.bind_ok ho
  refine ⟨eval, heval, ?_⟩
  rw [Veh.verdict]
  rcases hi : v.notImproved i.parent eval with _ | reason
  · rw [hi] at ho
    rcases hp : v.policy i.parent i.intent i.candidate.capabilitySbom with _ | reason | reason
    all_goals
      rw [hp] at ho
    · obtain ⟨node, -, ho⟩ := Prog.bind_ok ho
      cases ho
      rfl
    · obtain ⟨node, -, ho⟩ := Prog.bind_ok ho
      cases ho
      rfl
    · cases ho
      rfl
  · rw [hi] at ho
    obtain ⟨node, -, ho⟩ := Prog.bind_ok ho
    cases ho
    rfl

theorem settle_result (ho : (s.settle o).1 = .ok o') : o' = o := by
  unfold InMemoryInner.settle at ho
  split at ho
  · rename_i node _
    rcases hs : s.append node with ⟨e | ⟨⟩, s'⟩ <;> rw [hs] at ho
    · cases ho
    · exact (Except.ok.inj ho).symm
  · exact (Except.ok.inj ho).symm

/-- A cycle that returned an outcome returned the one it planned. -/
theorem runCycle_ruling (ho : (exec h (v.runCycle i) s).1 = .ok o) :
    ∃ eval, h.evaluate i.candidate = .ok eval ∧ o.ruling = v.verdict i eval := by
  rw [runCycle_plan] at ho
  rcases hp : v.plan h i with e | planned
  · rw [hp] at ho
    cases ho
  · rw [hp, Prog.andThen_ok] at ho
    rw [settle_result ho]
    exact plan_ruling hp

theorem Tighter.verdict (ht : Tighter v i v' i') (eval : EvalResult) :
    (v.verdict i eval).severity ≤ (v'.verdict i' eval).severity := by
  rw [Veh.verdict, Veh.verdict]
  rcases hi' : v'.notImproved i'.parent eval with _ | reason
  · rw [ht.improves hi', ht.gate, ht.gate', ht.candidate]
    exact gate_severity ht.parent ht.constraints
  · exact Ruling.severity_le_two _

/-- Whatever the two ledgers hold, when both hosts evaluate the candidate alike, a tighter
    cycle does not come to less. -/
theorem tightened {h' : Host X} (ht : Tighter v i v' i') (heval : h'.evaluate i.candidate = h.evaluate i.candidate)
    (ho : (exec h (v.runCycle i) s).1 = .ok o) (ho' : (exec h' (v'.runCycle i') s').1 = .ok o') :
    o.ruling.severity ≤ o'.ruling.severity := by
  obtain ⟨eval, hv, hr⟩ := runCycle_ruling ho
  obtain ⟨eval', hv', hr'⟩ := runCycle_ruling ho'
  rw [ht.candidate, heval, hv] at hv'
  cases hv'
  rw [hr, hr']
  exact ht.verdict eval

end

namespace Reference

/-- The pinned root's artifact again, on a root that gates a tag, for an intent that has
    the tag. -/
def gatedCycle : CycleInputs Reference :=
  { widening with
    parent := { snapshotNode with allowedScope := { AllowedScope.default with gatedCapabilities := ["x"] } }
    intent := { MutationIntent.new "x" with constraints := ["x"] } }

theorem gated_tighter : Tighter veh widening strictVeh gatedCycle where
  gate := rfl
  gate' := rfl
  strict _ := rfl
  candidate := rfl
  parent := {
    scope := {
      tools := List.nil_subset _
      mcpServers := List.nil_subset _
      delegates := List.nil_subset _
      maxGeneration _ hm := by cases hm
      gated := List.nil_subset _ }
    sbom := List.Subset.refl _
    generation := UInt32.le_refl _
    unwrapped := by decide
    score := by decide }
  constraints := List.nil_subset _

theorem gated_asks : strictVeh.policy gatedCycle.parent gatedCycle.intent gatedCycle.candidate.capabilitySbom =
    .requireApproval "gated capability x present" := by decide

/-- Where the runner promoted the artifact, it pauses. -/
theorem gated_pauses : exec host (strictVeh.runCycle gatedCycle) .default =
    (.ok (.awaitingApproval (Veh.pause gatedCycle "" ⟨half, .null⟩ "gated capability x present")), .default) := by
  have he : Evaluated strictVeh host gatedCycle "" ⟨half, .null⟩ := ⟨manifestDiff_self _, rfl⟩
  exact runCycle_awaits he rfl gated_asks

theorem tightened_gated :
    (CycleOutcome.promoted child ⟨half, .null⟩).ruling.severity ≤
      (CycleOutcome.awaitingApproval (Veh.pause gatedCycle "" ⟨half, .null⟩ "gated capability x present")).ruling.severity :=
  tightened gated_tighter rfl (congrArg Prod.fst child_promoted) (congrArg Prod.fst gated_pauses)

end Reference

end RigVeh
