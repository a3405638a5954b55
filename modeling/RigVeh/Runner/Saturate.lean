/-
  RigVeh.Runner.Saturate — what a driver can gain from a pool of artifacts.

  Mutators that propose out of one list of artifacts (`StaticMutator` proposes out of a
  list of one) and an evaluator that scores an artifact the same each time. Under a
  driver led by `Best` and strict improvement a candidate is promoted only above every
  positive score before it, so never for an artifact that was promoted on such a score:
  the nodes so promoted have different artifacts, and there are at most as many as the
  pool has (`gains_bounded`). No other bound holds on what such a driver stores: every
  further cycle still stores its refusal.
-/

import Mathlib.Data.List.Perm.Subperm
import RigVeh.Runner.Climb
import RigVeh.Runner.Outcome

namespace RigVeh

open RigVeh.Json RigVeh.Base

variable {X : Crates} {R : Type}

/-- `StaticMutator as Mutator`. -/
def StaticMutator.propose (artifact : AgentArtifact X) :
    AgentNode X → MutationIntent → MutationContext → Except Error (AgentArtifact X) := fun _ _ _ => .ok artifact

/-- Histories led by `Best` whose generations are judged by one evaluator and propose out
    of the pool. -/
def Pooled (A : Arith R) (evaluate : AgentArtifact X → Except Error EvalResult) (pool : List (AgentArtifact X)) : Rule X :=
  fun t s h op => LedByBest A t s h op ∧
    match op with
    | .runGeneration _ _ _ _ _ _ => h.evaluate = evaluate ∧
        ∀ parent intent context artifact, h.propose parent intent context = .ok artifact → artifact ∈ pool
    | _ => True

/-- A cycle promoted it, on a positive score. -/
def AgentNode.isGain (n : AgentNode X) : Bool :=
  n.isPromoted && n.evalResults.isSome && (storedScore n).any (F64.lt ⟨0⟩ ·)

/-- What was evaluated is of the pool, and has the result it would have again. -/
def Judged (evaluate : AgentArtifact X → Except Error EvalResult) (pool : List (AgentArtifact X)) (n : AgentNode X) : Prop :=
  n.evalResults ≠ none → n.artifact ∈ pool ∧
    ∃ eval, evaluate n.artifact = .ok eval ∧ n.evalResults = some eval.toValue

section

variable {evaluate : AgentArtifact X → Except Error EvalResult} {pool : List (AgentArtifact X)} {s : InMemoryInner X}

theorem judged_unevaluated {i : CommitInputs X} {k : X.SigningKey} {n : AgentNode X} (hn : signNode i k = .ok n)
    (hnone : i.evalResults = none) : Judged evaluate pool n :=
  fun he => absurd ((congrArg CommitInputs.evalResults (signNode_inputs hn).1).trans hnone) he

theorem judged_cycle {v : Veh X} {h : Host X} {i : CycleInputs X} {diff : String} {eval : EvalResult}
    (heval : h.evaluate = evaluate) (hpool : i.candidate ∈ pool) (he : Evaluated v h i diff eval) {status : NodeStatus}
    {valid : Bool} {k : X.SigningKey} {n : AgentNode X} (hn : signNode (cycleInputs i diff eval status valid) k = .ok n) :
    Judged evaluate pool n := by
  obtain ⟨hi, -⟩ := signNode_inputs hn
  have hartifact : n.artifact = i.candidate := congrArg CommitInputs.artifact hi
  intro _
  rw [hartifact, ← heval]
  exact ⟨hpool, eval, he.eval, congrArg CommitInputs.evalResults hi⟩

theorem generation_judged (hs : s.Wf) (h : ∀ n ∈ s.list, Judged evaluate pool n) {host : Host X} {v : Veh X}
    {select : Act X AgentId} {intent : MutationIntent} {scope : AllowedScope} {context : MutationContext}
    {createdAt : String} (hro : (exec host select s).2 = s) (heval : host.evaluate = evaluate)
    (hpool : ∀ parent intent context artifact, host.propose parent intent context = .ok artifact → artifact ∈ pool) :
    ∀ n ∈ (exec host (Op.runGeneration v select intent scope context createdAt).act s).2.list, Judged evaluate pool n := by
  have hact : (exec host (Op.runGeneration v select intent scope context createdAt).act s).2 =
      (exec host (v.runGeneration select intent scope context createdAt) s).2 := by
    rw [Op.act, exec_bind]
    rcases exec host (v.runGeneration select intent scope context createdAt) s with ⟨_ | _, s'⟩ <;> rfl
  rw [hact]
  by_cases hc : ∃ parent candidate, Cycled host s select intent scope context parent candidate
  · obtain ⟨parent, candidate, hc⟩ := hc
    have hcandidate := hpool _ _ _ _ hc.proposed
    rw [runGeneration_cycled hro hc]
    rcases hr : exec host (v.runCycle ⟨parent, intent, candidate, scope, createdAt⟩) s with ⟨r, s'⟩
    have hleft : (Prog.andThen (r, s') fun o s' => (host.teardown.map fun _ => o, s')).2 = s' := by
      cases r <;> rfl
    rw [hleft]
    cases cycle_of_exec hr with
    | failed | awaiting => exact h
    | promoted he _ _ hn hf | rejected _ he hn hf => exact InMemoryInner.forall_push hs h hf (judged_cycle heval hcandidate he hn)
  · rw [runGeneration_uncycled hro hc]
    exact h

end

theorem pooled_judged {A : Arith R} {evaluate : AgentArtifact X → Except Error EvalResult} {pool : List (AgentArtifact X)}
    {t : List (Event X)} {s : InMemoryInner X} (hr : Runs (Pooled A evaluate pool) t s) :
    ∀ n ∈ s.list, Judged evaluate pool n := by
  induction hr with
  | empty => exact fun n hn => (by cases hn)
  | @next t s h op hr hok hro ih =>
    have hs := runs_wf hr
    have heff := effect h op hro s
    obtain ⟨hled, hpool⟩ := hok
    rw [Op.event]
    generalize (exec h op.act s).1 = r, hafter : (exec h op.act s).2 = s' at heff
    cases heff with
    | failed | pointed => exact ih
    | resumed => exact hled.elim
    | root hn hf => exact InMemoryInner.forall_push hs ih hf (judged_unevaluated hn rfl)
    | rolledBack _ _ _ _ _ hn hf => exact InMemoryInner.forall_push hs ih hf (judged_unevaluated hn rfl)
    | cycle hc =>
      cases hc with
      | run => exact hled.elim
      | generation =>
        rw [← hafter]
        exact generation_judged hs ih (hro h s) hpool.1 hpool.2

/-- Equal artifacts have equal scores, so of two gains the later has another artifact. -/
theorem gain_artifact {evaluate : AgentArtifact X → Except Error EvalResult} {pool : List (AgentArtifact X)}
    {m n : AgentNode X} (hm : Judged evaluate pool m) (hn : Judged evaluate pool n) (hgm : m.isGain = true)
    (hgn : n.isGain = true) (h : Outscores m n) : m.artifact ≠ n.artifact := by
  intro hsame
  simp only [AgentNode.isGain, AgentNode.isPromoted, Bool.and_eq_true, decide_eq_true_eq, Option.isSome_iff_ne_none,
    Option.any_eq_true] at hgm hgn
  obtain ⟨⟨hmp, hme⟩, y, hy, hpos⟩ := hgm
  obtain ⟨-, eval, heval, hmr⟩ := hm hme
  obtain ⟨-, eval', heval', hnr⟩ := hn hgn.1.2
  obtain rfl : eval = eval' := Except.ok.inj (heval.symm.trans (hsame ▸ heval'))
  obtain ⟨x, hx, hlt⟩ := h hmp hgn.1.1 hgn.1.2 y hy hpos
  rw [storedScore_evaluated hmr] at hy
  rw [storedScore_evaluated hnr, hy] at hx
  obtain rfl := Option.some.inj hx
  simp [F64.lt] at hlt

/-- However long a history is, the gains are of different artifacts of the pool. -/
theorem gains_bounded {A : Arith R} (hA : A.Compares) {evaluate : AgentArtifact X → Except Error EvalResult}
    {pool : List (AgentArtifact X)} {t : List (Event X)} {s : InMemoryInner X} (hr : Runs (Pooled A evaluate pool) t s) :
    ((s.list.filter (·.isGain)).map (·.artifact)).Nodup ∧ (∀ n ∈ s.list, n.isGain = true → n.artifact ∈ pool) ∧
      s.list.countP (·.isGain) ≤ pool.length := by
  have hjudged := pooled_judged hr
  have hclimbs := (climbed_runs hA (hr.mono fun _ _ _ _ h => h.1)).climbs
  have hnodup : ((s.list.filter (·.isGain)).map (·.artifact)).Nodup := by
    refine List.pairwise_map.mpr ((hclimbs.filter _).imp_of_mem fun {m n} hm hn h => ?_)
    obtain ⟨hm, hgm⟩ := List.mem_filter.mp hm
    obtain ⟨hn, hgn⟩ := List.mem_filter.mp hn
    exact gain_artifact (hjudged m hm) (hjudged n hn) hgm hgn h
  have hpool : ∀ n ∈ s.list, n.isGain = true → n.artifact ∈ pool := by
    intro n hn hgain
    simp only [AgentNode.isGain, Bool.and_eq_true, Option.isSome_iff_ne_none] at hgain
    exact (hjudged n hn hgain.1.2).1
  refine ⟨hnodup, hpool, ?_⟩
  have hsub : (s.list.filter (·.isGain)).map (·.artifact) ⊆ pool := by
    intro a ha
    obtain ⟨n, hn, rfl⟩ := List.mem_map.mp ha
    exact hpool n (List.mem_filter.mp hn).1 (List.mem_filter.mp hn).2
  rw [List.countP_eq_length_filter, ← List.length_map (·.artifact)]
  exact (hnodup.subperm hsub).length_le

namespace Reference

/-- With the root's artifact as the only one proposed, the child is the one gain there is. -/
theorem gains_bounded_static : (([snapshotNode, child].filter (·.isGain)).map (·.artifact)).Nodup ∧
    (∀ n ∈ [snapshotNode, child], n.isGain = true → n.artifact ∈ [rootArtifact]) ∧
    [snapshotNode, child].countP (·.isGain) ≤ [rootArtifact].length := by
  have h₁ : Runs (Pooled keyed host.evaluate [rootArtifact]) _ (.push .default snapshotNode) := snapshot_run ⟨trivial, trivial⟩
  have hpool : ∀ parent intent context artifact, StaticMutator.propose rootArtifact parent intent context = .ok artifact →
      artifact ∈ [rootArtifact] := by
    rintro _ _ _ _ ⟨⟩
    exact List.mem_singleton_self _
  have h₂ := h₁.then { host with propose := StaticMutator.propose rootArtifact } (bestLed widening.createdAt)
    ⟨bestLed_allowed rfl (by decide), rfl, hpool⟩
    (fun h s => (select_picks _).1) (bestLed_child rfl)
  exact gains_bounded keyed_compares h₂

end Reference

end RigVeh
