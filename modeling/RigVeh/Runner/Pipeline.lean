/-
  RigVeh.Runner.Pipeline — the crate's own evaluators, one in another (`StubEvaluator`
  and `CompositeEvaluator` in `src/evaluator.rs`, `RetrievalEvaluator` in
  `src/rag_evaluator.rs`).

  None of them overrides `evaluate_staged`, so as a stage each goes on whatever it
  scored. However deep composites are nested, what they come to is a flat list of
  evaluations (`Pipeline.leaves`), done from left to right: the first that fails is the
  error, and if none does the last one's result stands (`evaluate_flat`). So a cycle
  stores the result of the last leaf and of no other, and stores nothing if a leaf
  fails (`pipeline_cycle`).
-/

import RigVeh.Runner.Staged

namespace RigVeh

open RigVeh.Json RigVeh.Base

variable {X : Crates}

/-- What the adapter reads off a report of `rig_evals_rag`. -/
structure ReportType where
  MultiReport : Type
  /-- `metrics`, each with its name and mean. -/
  metrics : MultiReport → List (String × F64)
  toValue : MultiReport → Except String Value

structure RetrievalEvaluator (X : Crates) (M : ReportType) where
  primaryMetric : String
  factory : AgentArtifact X → Except Error M.MultiReport

namespace RetrievalEvaluator

variable {M : ReportType}

def evaluate (e : RetrievalEvaluator X M) (artifact : AgentArtifact X) : Except Error EvalResult := do
  let report ← e.factory artifact
  match (M.metrics report).find? (·.1 = e.primaryMetric) with
  | none => .error (.evaluator ("metric " ++ e.primaryMetric ++ " not in report"))
  | some metric =>
    -- `unwrap_or(Value::Null)`
    return ⟨metric.2, (M.toValue report).toOption.getD .null⟩

def evaluator (e : RetrievalEvaluator X M) : Evaluator X := .single e.evaluate

end RetrievalEvaluator

inductive Pipeline (X : Crates) (M : ReportType) where
  | stub (score : F64)
  | retrieval (e : RetrievalEvaluator X M)
  | composite (stages : List (Pipeline X M))

/-- One evaluation. -/
abbrev Leaf (X : Crates) := AgentArtifact X → Except Error EvalResult

/-- A composite without stages. -/
def noStages : Leaf X := fun _ => .error (.evaluator "composite has no stages")

namespace Pipeline

variable {M : ReportType}

mutual

def evaluator : Pipeline X M → Evaluator X
  | stub score => StubEvaluator score
  | retrieval e => e.evaluator
  | composite stages => CompositeEvaluator (evaluators stages)

def evaluators : List (Pipeline X M) → List (Evaluator X)
  | [] => []
  | stage :: stages => stage.evaluator :: evaluators stages

end

mutual

/-- Its evaluations, in the order in which they are done. -/
def leaves : Pipeline X M → List (Leaf X)
  | stub score => [fun _ => .ok ⟨score, .null⟩]
  | retrieval e => [e.evaluate]
  | composite stages => if stages.isEmpty then [noStages] else leavesOf stages

def leavesOf : List (Pipeline X M) → List (Leaf X)
  | [] => []
  | stage :: stages => stage.leaves ++ leavesOf stages

end

end Pipeline

/-- One evaluation after the other. -/
def resultsOf (leaves : List (Leaf X)) (artifact : AgentArtifact X) : Except Error (List EvalResult) :=
  leaves.mapM fun leaf : Leaf X => leaf artifact

/-- All evaluations are done and the last one's result stands. -/
def lastOf (leaves : List (Leaf X)) : Leaf X := fun artifact => do
  match (← resultsOf leaves artifact).getLast? with
  | some result => return result
  | none => noStages artifact

/-! ## Flat -/

section

variable {M : ReportType} {artifact : AgentArtifact X}

theorem resultsOf_cons (leaf : Leaf X) (leaves : List (Leaf X)) (artifact : AgentArtifact X) :
    resultsOf (leaf :: leaves) artifact =
      leaf artifact >>= fun result => resultsOf leaves artifact >>= fun results => .ok (result :: results) :=
  List.mapM_cons

/-- Stages with the trait's own `evaluate_staged` all run. -/
theorem runFrom_single (evaluates : List (Leaf X)) (artifact : AgentArtifact X) (idx : Nat) :
    CompositeEvaluator.runFrom artifact idx (evaluates.map Evaluator.single) =
      (resultsOf evaluates artifact).map (·.map (⟨·, .Continue⟩)) := by
  induction evaluates generalizing idx with
  | nil => rfl
  | cons evaluate rest ih =>
    rw [List.map_cons, CompositeEvaluator.runFrom, ih, resultsOf_cons]
    rcases hr : evaluate artifact with e | result
    · simp only [Evaluator.single, hr, bind, Except.bind]
      rfl
    · simp only [Evaluator.single, hr, bind, Except.bind, pure, Except.pure]
      rcases resultsOf rest artifact with e | results <;> rfl

theorem evaluate_single (evaluates : List (Leaf X)) (artifact : AgentArtifact X) :
    CompositeEvaluator.evaluate (evaluates.map Evaluator.single) artifact = lastOf evaluates artifact := by
  rw [CompositeEvaluator.evaluate, CompositeEvaluator.run, runFrom_single, lastOf]
  rcases resultsOf evaluates artifact with e | results
  · rfl
  · simp only [Except.map, bind, Except.bind, List.getLast?_map]
    cases results.getLast? <;> rfl

/-- None of them overrides `evaluate_staged`. -/
theorem Pipeline.evaluator_single (p : Pipeline X M) : p.evaluator = .single p.evaluator.evaluate := by
  cases p <;> rfl

theorem Pipeline.evaluators_single (stages : List (Pipeline X M)) :
    Pipeline.evaluators stages = (stages.map fun p => p.evaluator.evaluate).map Evaluator.single := by
  induction stages with
  | nil => rfl
  | cons p stages ih =>
    rw [Pipeline.evaluators, ih, p.evaluator_single]
    rfl

/-- The last of the results, if none of the evaluations fails. -/
def outcome (leaves : List (Leaf X)) (artifact : AgentArtifact X) : Except Error (Option EvalResult) :=
  (resultsOf leaves artifact).map List.getLast?

theorem lastOf_outcome (leaves : List (Leaf X)) (artifact : AgentArtifact X) :
    lastOf leaves artifact = outcome leaves artifact >>= fun last =>
      match last with
      | some result => .ok result
      | none => noStages artifact := by
  rw [lastOf, outcome]
  rcases resultsOf leaves artifact with e | results <;> rfl

theorem outcome_append (l m : List (Leaf X)) (artifact : AgentArtifact X) : outcome (l ++ m) artifact =
    outcome l artifact >>= fun first => outcome m artifact >>= fun last => .ok (last.or first) := by
  have hmap : resultsOf (l ++ m) artifact =
      resultsOf l artifact >>= fun xs => resultsOf m artifact >>= fun ys => .ok (xs ++ ys) := List.mapM_append
  rw [outcome, hmap, outcome, outcome]
  rcases resultsOf l artifact with e | results
  · rfl
  · rcases resultsOf m artifact with e | results'
    · rfl
    · exact congrArg Except.ok List.getLast?_append

/-- Some evaluation is always done. -/
theorem leaves_ne : (p : Pipeline X M) → p.leaves ≠ []
  | .stub _ => List.cons_ne_nil _ _
  | .retrieval _ => List.cons_ne_nil _ _
  | .composite [] => List.cons_ne_nil _ _
  | .composite (stage :: _) => List.append_ne_nil_of_left_ne_nil (leaves_ne stage) _

/-- Where something is done, the last of it is what counts. -/
theorem lastOf_ok {leaves : List (Leaf X)} (hne : leaves ≠ []) (artifact : AgentArtifact X) :
    (lastOf leaves artifact).map some = outcome leaves artifact := by
  rw [lastOf_outcome, outcome]
  rcases hr : resultsOf leaves artifact with e | results
  · rfl
  · have hlen : results ≠ [] := by
      intro hnil
      cases leaves with
      | nil => exact hne rfl
      | cons leaf rest =>
        rw [resultsOf_cons] at hr
        obtain ⟨_, -, hr⟩ := Prog.bind_ok hr
        obtain ⟨_, -, hr⟩ := Prog.bind_ok hr
        rw [hnil] at hr
        cases hr
    obtain ⟨last, hlast⟩ := Option.ne_none_iff_exists'.mp (mt List.getLast?_eq_none_iff.mp hlen)
    simp only [Except.map, bind, Except.bind, hlast]

mutual

/-- Nested or flat, the same evaluations are done and the same result stands. -/
theorem evaluate_flat : (p : Pipeline X M) → (artifact : AgentArtifact X) →
    p.evaluator.evaluate artifact = lastOf p.leaves artifact
  | .stub _, _ => rfl
  | .retrieval e, artifact => by
    rw [Pipeline.leaves, lastOf, resultsOf_cons]
    show e.evaluate artifact = _
    rcases e.evaluate artifact with e | result <;> rfl
  | .composite [], _ => rfl
  | .composite (stage :: stages), artifact => by
    have hstages := stages_flat (stage :: stages) artifact
    have heval : (Pipeline.composite (stage :: stages)).evaluator.evaluate artifact =
        CompositeEvaluator.evaluate (Pipeline.evaluators (stage :: stages)) artifact := rfl
    rw [heval, Pipeline.evaluators_single, evaluate_single, lastOf_outcome, hstages, ← lastOf_outcome]
    rfl

theorem stages_flat : (stages : List (Pipeline X M)) → (artifact : AgentArtifact X) →
    outcome (stages.map fun p => p.evaluator.evaluate) artifact = outcome (Pipeline.leavesOf stages) artifact
  | [], _ => rfl
  | stage :: stages, artifact => by
    have hstage : outcome [stage.evaluator.evaluate] artifact = outcome stage.leaves artifact := by
      rw [← lastOf_ok (leaves_ne stage), ← evaluate_flat stage artifact, outcome, resultsOf_cons]
      rcases stage.evaluator.evaluate artifact with e | result <;> rfl
    rw [List.map_cons, ← List.singleton_append, outcome_append, hstage, stages_flat stages artifact, Pipeline.leavesOf,
      outcome_append]

end

end

/-! ## In a cycle -/

/-- The node of an outcome stores what the candidate's evaluation gave. -/
theorem committed_evaluation {v : Veh X} {h : Host X} {i : CycleInputs X} {s : InMemoryInner X} {result : EvalResult}
    (heval : h.evaluate i.candidate = .ok result) {outcome : CycleOutcome X}
    (ho : (exec h (v.runCycle i) s).1 = .ok outcome) {n : AgentNode X} (hn : n ∈ outcome.node) :
    n.evalResults = some result.toValue := by
  have hstored {diff : String} {eval : EvalResult} {status : NodeStatus} {valid : Bool} {k : X.SigningKey}
      (he : Evaluated v h i diff eval) (hsign : signNode (cycleInputs i diff eval status valid) k = .ok n) :
      n.evalResults = some result.toValue := by
    obtain rfl := Except.ok.inj (he.eval.symm.trans heval)
    exact congrArg CommitInputs.evalResults (signNode_inputs hsign).1
  obtain ⟨_, hc⟩ := cycle_of_result ho
  cases hc with
  | promoted he _ _ hsign _ =>
    cases hn
    exact hstored he hsign
  | rejected _ he hsign _ =>
    cases hn
    exact hstored he hsign
  | awaiting => cases hn

/-- A cycle under the crate's own evaluators, however nested, fails and leaves the ledger
    alone if a leaf does; otherwise the node that it commits, if it commits one, stores the
    result of the last leaf. -/
theorem pipeline_cycle {M : ReportType} (p : Pipeline X M) (v : Veh X) (h : Host X) (i : CycleInputs X)
    (s : InMemoryInner X) :
    (∀ e, resultsOf p.leaves i.candidate = .error e →
      ∃ e', exec (h.evaluatedBy p.evaluator) (v.runCycle i) s = (.error e', s)) ∧
    ∀ results, resultsOf p.leaves i.candidate = .ok results → ∃ result, results.getLast? = some result ∧
      exec (h.evaluatedBy p.evaluator) (v.runCycle i) s =
        exec (h.evaluatedBy (.single fun _ => .ok result)) (v.runCycle i) s ∧
      ∀ outcome, (exec (h.evaluatedBy p.evaluator) (v.runCycle i) s).1 = .ok outcome →
        ∀ n ∈ outcome.node, n.evalResults = some result.toValue := by
  have heval : (h.evaluatedBy p.evaluator).evaluate i.candidate = lastOf p.leaves i.candidate :=
    evaluate_flat p i.candidate
  constructor
  · intro e he
    have hfail : (h.evaluatedBy p.evaluator).evaluate i.candidate = .error e := by
      rw [heval, lastOf, he]
      rfl
    rw [runCycle_plan, Veh.plan]
    rcases manifestDiff i.parent.artifact i.candidate with e' | diff
    · exact ⟨e', rfl⟩
    · rw [Prog.ok_bind, hfail]
      exact ⟨e, rfl⟩
  · intro results hresults
    have hsome := lastOf_ok (leaves_ne p) i.candidate
    rw [outcome, hresults] at hsome
    rcases hlastOf : lastOf p.leaves i.candidate with e | result
    · rw [hlastOf] at hsome
      cases hsome
    rw [hlastOf] at hsome heval
    refine ⟨result, (Except.ok.inj hsome).symm, ?_, fun outcome ho n hn => ?_⟩
    · have hplan : v.plan (h.evaluatedBy p.evaluator) i = v.plan (h.evaluatedBy (.single fun _ => .ok result)) i :=
        plan_congr heval
      rw [runCycle_plan, runCycle_plan, hplan]
    · exact committed_evaluation heval ho hn

/-! ## A report without its metric -/

namespace Reference

/-- Reports are their metrics, and cannot be written. -/
def bareReports : ReportType := ⟨List (String × F64), id, fun _ => .error "report"⟩

/-- It looks for one metric in a report of another. -/
def recallAtTen : RetrievalEvaluator Reference bareReports := ⟨"recall@10", fun _ => .ok [("mrr", half)]⟩

theorem recall_missing : ∃ e', exec (host.evaluatedBy (Pipeline.composite [.stub half, .retrieval recallAtTen]).evaluator)
    (veh.runCycle widening) (.push .default snapshotNode) = (.error e', .push .default snapshotNode) :=
  (pipeline_cycle (.composite [.stub half, .retrieval recallAtTen]) veh host widening (.push .default snapshotNode)).1
    (.evaluator "metric recall@10 not in report") rfl

end Reference

end RigVeh
