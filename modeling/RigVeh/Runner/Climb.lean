/-
  RigVeh.Runner.Climb — the scores that `Best` climbs under strict improvement.

  FR-5 compares a candidate with its own parent, and only where the parent has a score;
  `Best` takes a node without one for 0. Together they look at the whole ledger: over a
  history of roots, rollbacks and generations that select with `Best`, all runners strict
  and all evaluations finite, whatever is promoted with an evaluation scores higher than
  every node promoted before it with a positive score (`best_climbs`). Below the first
  positive score nothing is claimed: a root is taken for 0 but is not compared with.
-/

import RigVeh.Runner.Ensemble
import RigVeh.Runner.Improvement
import RigVeh.Runner.Line

namespace RigVeh

open RigVeh.Json RigVeh.Base

variable {X : Crates} {R : Type}

/-- Numbers are compared as `f64`s are. -/
structure Arith.Compares (A : Arith R) : Prop extends A.Linear where
  le_ofF64 : ∀ x y : F64, x.isFinite = true → y.isFinite = true → A.le (A.ofF64 x) (A.ofF64 y) = x.le y
  zero : A.ofNat 0 = A.ofF64 ⟨0⟩

/-- Generations on what `Best` picks, by strict runners with finite scores; roots and
    rollbacks at any time. -/
def LedByBest (A : Arith R) : Rule X := fun _ _ h op =>
  match op with
  | .runGeneration v select _ _ _ _ => v.requireStrictImprovement = true ∧
      (∃ hash, select = ParentSelector.best.select A hash) ∧ ∀ a eval, h.evaluate a = .ok eval → eval.score.isFinite = true
  | .runCycle _ _ => False
  | .resumeWithApproval _ _ => False
  | _ => True

/-- `n`, promoted by a cycle, scores higher than `m`, if that has a positive score. -/
def Outscores (m n : AgentNode X) : Prop :=
  m.status = .promoted → n.status = .promoted → n.evalResults ≠ none →
    ∀ y, storedScore m = some y → F64.lt ⟨0⟩ y = true → ∃ x, storedScore n = some x ∧ y.lt x = true

structure Climbed (s : InMemoryInner X) : Prop where
  finite : ∀ n ∈ s.list, ∀ y, storedScore n = some y → y.isFinite = true
  climbs : s.list.Pairwise Outscores

theorem F64.le_finite {x y : F64} (hx : x.isFinite = true) (hy : y.isFinite = true) : x.le y = decide (x.key ≤ y.key) := by
  simp [F64.le, F64.not_nan_of_finite hx, F64.not_nan_of_finite hy]

theorem F64.lt_finite {x y : F64} (hx : x.isFinite = true) (hy : y.isFinite = true) : x.lt y = decide (x.key < y.key) := by
  simp [F64.lt, F64.not_nan_of_finite hx, F64.not_nan_of_finite hy]

section

variable {A : Arith R} {s : InMemoryInner X}

/-- What `Best` picks scores at least as high as any possible parent. -/
theorem best_picks (hA : A.Compares) {hash : List Hashed → UInt64} {h : Host X} {id : AgentId}
    (hsel : (exec h (ParentSelector.best.select A hash) s).1 = .ok id) :
    ∃ p ∈ s.list, p.agentId = id ∧ ∀ m ∈ s.list, m.validParent = true → A.le (scoreOf A m) (scoreOf A p) = true := by
  rw [ParentSelector.select_choose, exec_bind, exec_nodes, Prog.andThen_ok, ParentSelector.choose, exec_attempt] at hsel
  rcases bestOf_firstBest hA.toLinear s.list with ⟨hnone, -⟩ | ⟨p, hp, hsome⟩
  · rw [hnone] at hsel
    cases hsel
  · rw [hsome] at hsel
    cases hsel
    obtain ⟨before, after, hsplit, -⟩ := id hp
    have hmem : p ∈ s.list.filter (·.validParent) := hsplit ▸ List.mem_append_right _ (List.mem_cons_self ..)
    refine ⟨p, (List.mem_filter.mp hmem).1, rfl, fun m hm hv => ?_⟩
    exact hp.best (noWorse_ranks hA.toLinear) m (List.mem_filter.mpr ⟨hm, hv⟩)

/-- A score that is not at or below the best is above every positive one. -/
theorem outscores_best (hA : A.Compares) (hfin : ∀ n ∈ s.list, ∀ y, storedScore n = some y → y.isFinite = true)
    (hcandid : ∀ n ∈ s.list, n.validParent = n.isPromoted) {p n : AgentNode X} (hp : p ∈ s.list)
    (hbest : ∀ m ∈ s.list, m.validParent = true → A.le (scoreOf A m) (scoreOf A p) = true) {eval : EvalResult}
    (heval : eval.score.isFinite = true) (hn : n.evalResults = some eval.toValue)
    (hup : ∀ b, storedScore p = some b → eval.score.le b = false) : ∀ m ∈ s.list, Outscores m n := by
  intro m hm hmp _ _ y hy hpos
  have hyfin := hfin m hm y hy
  have hscore : storedScore n = some eval.score := by rw [storedScore_evaluated hn, if_pos heval]
  have hle := hbest m hm ((hcandid m hm).trans (decide_eq_true hmp))
  rw [show scoreOf A m = A.ofF64 y by rw [scoreOf, hy]] at hle
  refine ⟨eval.score, hscore, ?_⟩
  rcases hb : storedScore p with _ | b
  · -- the best is taken for 0, which is below `y`
    rw [show scoreOf A p = A.ofF64 ⟨0⟩ by rw [scoreOf, hb]; exact hA.zero, hA.le_ofF64 y ⟨0⟩ hyfin (by decide),
      F64.le_finite hyfin (by decide), decide_eq_true_iff] at hle
    rw [F64.lt_finite (by decide) hyfin, decide_eq_true_iff] at hpos
    omega
  · have hbfin := hfin p hp b hb
    have habove := hup b hb
    rw [show scoreOf A p = A.ofF64 b by rw [scoreOf, hb], hA.le_ofF64 y b hyfin hbfin, F64.le_finite hyfin hbfin,
      decide_eq_true_iff] at hle
    rw [F64.le_finite heval hbfin, decide_eq_false_iff_not] at habove
    rw [F64.lt_finite hyfin heval, decide_eq_true_iff]
    omega

/-- What holds of the nodes and of one more holds of the nodes with that one. -/
theorem InMemoryInner.forall_push (hs : s.Wf) {P : AgentNode X → Prop} (h : ∀ n ∈ s.list, P n) {node : AgentNode X}
    (hf : s.nodes node.agentId = none) (hn : P node) : ∀ n ∈ (s.push node).list, P n := by
  intro n hmem
  rw [InMemoryInner.list_push hs hf] at hmem
  rcases List.mem_append.mp hmem with hmem | hmem
  · exact h n hmem
  · rwa [List.mem_singleton.mp hmem]

theorem climbed_push (hs : s.Wf) (h : Climbed s) {n : AgentNode X} (hf : s.nodes n.agentId = none)
    (hfin : ∀ y, storedScore n = some y → y.isFinite = true) (hn : ∀ m ∈ s.list, Outscores m n) : Climbed (s.push n) where
  finite := InMemoryInner.forall_push hs h.finite hf hfin
  climbs := by
    rw [InMemoryInner.list_push hs hf]
    refine List.pairwise_append.mpr ⟨h.climbs, List.pairwise_singleton _ _, fun m hm n' hn' => ?_⟩
    obtain rfl := List.mem_singleton.mp hn'
    exact hn m hm

end

theorem climbed_runs {A : Arith R} (hA : A.Compares) {t : List (Event X)} {s : InMemoryInner X}
    (hr : Runs (LedByBest A) t s) : Climbed s := by
  induction hr with
  | empty => exact ⟨fun n hn => (by cases hn), .nil⟩
  | @next t s h op hr hok hro ih =>
    have hs := runs_wf hr
    have heff := effect h op hro s
    -- without an evaluation there is no score to tell
    have hplain {n : AgentNode X} {k : X.SigningKey} {i : CommitInputs X} (hn : signNode i k = .ok n)
        (hf : s.nodes n.agentId = none) (hnone : i.evalResults = none) : Climbed (s.push n) := by
      have hnone : n.evalResults = none := (congrArg CommitInputs.evalResults (signNode_inputs hn).1).trans hnone
      refine climbed_push hs ih hf (fun y hy => ?_) fun _ _ _ _ he => absurd hnone he
      rw [storedScore, hnone] at hy
      cases hy
    rw [Op.event]
    generalize (exec h op.act s).1 = r, (exec h op.act s).2 = s' at heff
    cases heff with
    | failed => exact ih
    | pointed => exact ⟨ih.finite, ih.climbs⟩
    | resumed => exact hok.elim
    | root hn hf => exact hplain hn hf rfl
    | rolledBack _ _ _ _ _ hn hf => exact hplain hn hf rfl
    | cycle hc hcy _ =>
      cases hc with
      | run => exact hok.elim
      | @generation v _ intent scope context createdAt parentId parent candidate hsel hpar =>
        obtain ⟨hstrict, ⟨hash, rfl⟩, heval⟩ := hok
        have hscored {n : AgentNode X} {eval : EvalResult} (hn : n.evalResults = some eval.toValue) (y : F64)
            (hy : storedScore n = some y) : y.isFinite = true := by
          rw [storedScore_evaluated hn] at hy
          split at hy
          · cases hy
            assumption
          · cases hy
        cases hcy with
        | failed | awaiting => exact ih
        | @rejected _ _ node _ _ hn hf =>
          obtain ⟨hi, -⟩ := signNode_inputs hn
          have hrejected : node.status = .rejected := congrArg CommitInputs.status hi
          refine climbed_push hs ih hf (hscored (congrArg CommitInputs.evalResults hi)) fun m _ _ hp => ?_
          rw [hrejected] at hp
          cases hp
        | promoted he hup _ hn hf =>
          obtain ⟨hi, -⟩ := signNode_inputs hn
          have hresults := congrArg CommitInputs.evalResults hi
          obtain ⟨p, hp, hid, hbest⟩ := best_picks hA hsel
          obtain rfl : p = parent := by
            rw [InMemoryInner.mem_list hs, hid, hpar] at hp
            exact (Option.some.inj hp).symm
          refine climbed_push hs ih hf (hscored hresults) ?_
          exact outscores_best hA ih.finite (fun n hn => runs_candid hr hn) hp hbest (heval _ _ he.eval) hresults
            ((notImproved_none hstrict).mp hup)

/-- In every history led by `Best`, in the order of the ledger, what a cycle promoted
    scores higher than every node promoted before it with a positive score. -/
theorem best_climbs {A : Arith R} (hA : A.Compares) {t : List (Event X)} {s : InMemoryInner X}
    (hr : Runs (LedByBest A) t s) : s.list.Pairwise Outscores := (climbed_runs hA hr).climbs

namespace Reference

/-- `f64`s by the order of their patterns; what is drawn by weight is not asked for. -/
def keyed : Arith Int where
  ofF64 := F64.key
  ofNat n := n
  max := max
  add := (· + ·)
  mul := (· * ·)
  div := (· / ·)
  le a b := decide (a ≤ b)
  unit _ := 0

theorem keyed_compares : keyed.Compares where
  trans a b c hab hbc := decide_eq_true (le_trans (of_decide_eq_true hab) (of_decide_eq_true hbc))
  total a b := by
    rcases le_total a b with h | h
    · simp [keyed, h]
    · simp [keyed, h]
  le_ofF64 x y hx hy := (F64.le_finite hx hy).symm
  zero := rfl

/-- A generation of a strict driver led by `Best`. -/
def bestLed (createdAt : String) : Op Reference :=
  .runGeneration strictVeh (ParentSelector.best.select keyed fun _ => 0) widening.intent widening.allowedScope
    ⟨none, .null⟩ createdAt

theorem bestLed_allowed {t : List (Event Reference)} {s : InMemoryInner Reference} {h : Host Reference} {createdAt : String}
    {score : F64} (heval : h.evaluate = fun _ => .ok ⟨score, .null⟩) (hfin : score.isFinite = true) :
    LedByBest keyed t s h (bestLed createdAt) := by
  refine ⟨rfl, ⟨_, rfl⟩, ?_⟩
  rw [heval]
  rintro a eval ⟨⟩
  exact hfin

/-- From the root it leads to the child, whatever mutator proposes the root's artifact. -/
theorem bestLed_child {propose : AgentNode Reference → MutationIntent → MutationContext → Except Error (AgentArtifact Reference)}
    (hpropose : propose snapshotNode widening.intent ⟨none, .null⟩ = .ok rootArtifact) :
    (exec { host with propose := propose } (bestLed widening.createdAt).act (.push .default snapshotNode)).2 =
      .push (.push .default snapshotNode) child := by
  have hsel : exec { host with propose := propose } (ParentSelector.best.select keyed fun _ => 0)
      (.push .default snapshotNode) = (.ok snapshotNode.agentId, .push .default snapshotNode) := rfl
  have he : Evaluated strictVeh { host with propose := propose } widening "" ⟨half, .null⟩ := ⟨manifestDiff_self _, rfl⟩
  have hcycle := runCycle_promotes he rfl (by decide) child_signed
    (show (InMemoryInner.push .default snapshotNode).nodes child.agentId = none by decide)
  have hgeneration : exec { host with propose := propose } (strictVeh.runGeneration
      (ParentSelector.best.select keyed fun _ => 0) widening.intent widening.allowedScope ⟨none, .null⟩
      widening.createdAt) (.push .default snapshotNode) = _ :=
    runGeneration_cycles hsel (InMemoryInner.push_same .default snapshotNode) hpropose rfl rfl hcycle
  rw [bestLed, Op.act, exec_bind]
  exact congrArg (fun out => (Prog.andThen out _).2) hgeneration

/-- The child's own artifact, evaluated at 1.0. -/
def improved : AgentNode Reference :=
  { child with
    agentId := "8fb4b28b5ac4988069a9c2e16dbb77f2e88c280f21b984b4d8c7e6f1aa22cc37"
    parentId := some child.agentId
    generation := 2
    createdAt := "2026-01-01T00:02:00Z"
    evalResults := some (EvalResult.toValue ⟨one, .null⟩)
    signature := "698fcc053a185852a65b1d8992e549ff0742ac2366e3a44b4ae138b85727c8c2" ++
      "13849567ba5db55f2aa00292c7dd2ea62cd6862d11bdf90dc63bb578cbe2e406" }

theorem improved_signed : signNode (cycleInputs onChild "" ⟨one, .null⟩ .promoted true) seed = .ok improved :=
  signNode_eq rfl (by decide) (by decide +kernel)

def improvingHost : Host Reference := { host with evaluate := fun _ => .ok ⟨one, .null⟩ }

/-- `Best` picks the child over the root, and 1.0 is above 0.5. -/
theorem bestLed_improves : (exec improvingHost (bestLed onChild.createdAt).act (.push (.push .default snapshotNode) child)).2 =
    .push (.push (.push .default snapshotNode) child) improved := by
  have hsel : exec improvingHost (ParentSelector.best.select keyed fun _ => 0) (.push (.push .default snapshotNode) child) =
      (.ok child.agentId, .push (.push .default snapshotNode) child) := rfl
  have he : Evaluated strictVeh improvingHost onChild "" ⟨one, .null⟩ := ⟨manifestDiff_self _, rfl⟩
  have hcycle := runCycle_promotes he rfl (by decide) improved_signed
    (show (InMemoryInner.push (.push .default snapshotNode) child).nodes improved.agentId = none by decide)
  have hgeneration : exec improvingHost (strictVeh.runGeneration (ParentSelector.best.select keyed fun _ => 0)
      widening.intent widening.allowedScope ⟨none, .null⟩ onChild.createdAt) (.push (.push .default snapshotNode) child) = _ :=
    runGeneration_cycles hsel (InMemoryInner.push_same _ child) rfl rfl rfl hcycle
  rw [bestLed, Op.act, exec_bind]
  exact congrArg (fun out => (Prog.andThen out _).2) hgeneration

/-- The root, the child of it that `Best` led to, at 0.5, and the child's, at 1.0. -/
theorem best_climbs_improved : [snapshotNode, child, improved].Pairwise Outscores ∧ storedScore child = some half ∧
    storedScore improved = some one := by
  have h₁ : Runs (LedByBest keyed) _ (.push .default snapshotNode) := snapshot_run trivial
  have h₂ := h₁.then host (bestLed widening.createdAt) (bestLed_allowed rfl (by decide)) (fun h s => (select_picks _).1)
    (bestLed_child rfl)
  have h₃ := h₂.then improvingHost (bestLed onChild.createdAt) (bestLed_allowed rfl (by decide))
    (fun h s => (select_picks _).1) bestLed_improves
  exact ⟨best_climbs keyed_compares h₃, rfl, rfl⟩

end Reference

end RigVeh
