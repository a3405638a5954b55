/-
  RigVeh.Runner.Staged — staged evaluation (`src/evaluator.rs`) in a cycle.

  A composite runs its stages in order up to the first that decides anything but to go
  on (`run_stages`), and as an evaluator returns the last one's number. What a stage
  decided goes no further: a cycle does what it would with any evaluator that returns
  that number (`judged_by_last`), and a candidate that failed its last stage is
  promoted when the number and the gate allow (`stopped_promoted`).
-/

import RigVeh.Runner.Plan
import RigVeh.Runner.Regression

namespace RigVeh

open RigVeh.Json RigVeh.Base

variable {X : Crates}

structure StagedResult where
  result : EvalResult
  decision : EvalStage

structure Evaluator (X : Crates) where
  evaluate : AgentArtifact X → Except Error EvalResult
  evaluateStaged : AgentArtifact X → Nat → Except Error StagedResult

namespace Evaluator

/-- An evaluator with the trait's own `evaluate_staged`. -/
def single (evaluate : AgentArtifact X → Except Error EvalResult) : Evaluator X where
  evaluate := evaluate
  evaluateStaged artifact _ := do return ⟨← evaluate artifact, .Continue⟩

end Evaluator

def StubEvaluator (score : F64) : Evaluator X := .single fun _ => .ok ⟨score, .null⟩

namespace CompositeEvaluator

/-- The rest of the loop of `run`, at the stage of this index. -/
def runFrom (artifact : AgentArtifact X) : Nat → List (Evaluator X) → Except Error (List StagedResult)
  | _, [] => .ok []
  | idx, stage :: stages => do
    let staged ← stage.evaluateStaged artifact idx
    if staged.decision = .Stop ∨ staged.decision = .Promote then return [staged]
    else return staged :: (← runFrom artifact (idx + 1) stages)

def run (stages : List (Evaluator X)) (artifact : AgentArtifact X) : Except Error (List StagedResult) :=
  runFrom artifact 0 stages

def evaluate (stages : List (Evaluator X)) (artifact : AgentArtifact X) : Except Error EvalResult := do
  let runs ← run stages artifact
  match runs.getLast? with
  | some staged => return staged.result
  | none => .error (.evaluator "composite has no stages")

end CompositeEvaluator

def CompositeEvaluator (stages : List (Evaluator X)) : Evaluator X := .single (CompositeEvaluator.evaluate stages)

/-! ## Runs -/

/-- `runs` are the results of the first stages, from the index `idx`: all but the last
    decided to go on, and the last did too only if there is no stage after it. -/
inductive Staged (artifact : AgentArtifact X) : Nat → List (Evaluator X) → List StagedResult → Prop
  | finished (idx : Nat) : Staged artifact idx [] []
  | decided {idx : Nat} {stage : Evaluator X} (stages : List (Evaluator X)) {staged : StagedResult} :
      stage.evaluateStaged artifact idx = .ok staged → staged.decision ≠ .Continue →
      Staged artifact idx (stage :: stages) [staged]
  | went {idx : Nat} {stage : Evaluator X} {stages : List (Evaluator X)} {staged : StagedResult}
      {runs : List StagedResult} : stage.evaluateStaged artifact idx = .ok staged → staged.decision = .Continue →
      Staged artifact (idx + 1) stages runs → Staged artifact idx (stage :: stages) (staged :: runs)

namespace CompositeEvaluator

variable {artifact : AgentArtifact X} {stages : List (Evaluator X)} {runs : List StagedResult}

theorem ends_iff {d : EvalStage} : d = .Stop ∨ d = .Promote ↔ d ≠ .Continue := by
  cases d <;> simp

theorem runFrom_staged {idx : Nat} : runFrom artifact idx stages = .ok runs ↔ Staged artifact idx stages runs := by
  induction stages generalizing idx runs with
  | nil =>
    constructor
    · intro h
      cases h
      exact .finished idx
    · intro h
      cases h
      rfl
  | cons stage stages ih =>
    rw [runFrom]
    constructor
    · intro h
      obtain ⟨staged, hs, h⟩ := Prog.bind_ok h
      by_cases hd : staged.decision = .Continue
      · rw [if_neg (mt ends_iff.mp (not_not.mpr hd))] at h
        obtain ⟨rest, hrest, h⟩ := Prog.bind_ok h
        cases h
        exact .went hs hd (ih.mp hrest)
      · rw [if_pos (ends_iff.mpr hd)] at h
        cases h
        exact .decided stages hs hd
    · intro h
      cases h with
      | decided _ hs hd =>
        rw [hs, Prog.ok_bind, if_pos (ends_iff.mpr hd)]
        rfl
      | went hs hd hrest =>
        rw [hs, Prog.ok_bind, if_neg (mt ends_iff.mp (not_not.mpr hd)), ih.mpr hrest]
        rfl

/-- The stages run in order, up to the first that does not decide to go on. -/
theorem run_stages : run stages artifact = .ok runs ↔ Staged artifact 0 stages runs := runFrom_staged

theorem evaluate_last {last : StagedResult} (hr : run stages artifact = .ok runs) (hl : runs.getLast? = some last) :
    evaluate stages artifact = .ok last.result := by
  rw [evaluate, hr, Prog.ok_bind, hl]
  rfl

end CompositeEvaluator

/-! ## In a cycle -/

/-- The collaborators with this evaluator. -/
def Host.evaluatedBy (h : Host X) (e : Evaluator X) : Host X := { h with evaluate := e.evaluate }

section

variable {v : Veh X} {h h' : Host X} {i : CycleInputs X}

/-- Of its collaborators a cycle's plan depends on the evaluation of the candidate. -/
theorem plan_congr (heval : h.evaluate i.candidate = h'.evaluate i.candidate) : v.plan h i = v.plan h' i := by
  rw [Veh.plan, Veh.plan, heval]

/-- A cycle under a composite is judged by the number of the last stage that ran, whatever
    that stage decided. -/
theorem judged_by_last (v : Veh X) (h : Host X) (i : CycleInputs X) (s : InMemoryInner X) (stages : List (Evaluator X))
    {runs : List StagedResult} {last : StagedResult} (hr : CompositeEvaluator.run stages i.candidate = .ok runs)
    (hl : runs.getLast? = some last) :
    exec (h.evaluatedBy (CompositeEvaluator stages)) (v.runCycle i) s =
      exec (h.evaluatedBy (.single fun _ => .ok last.result)) (v.runCycle i) s ∧
    ((∃ node eval, (exec (h.evaluatedBy (CompositeEvaluator stages)) (v.runCycle i) s).1 = .ok (.promoted node eval)) ↔
      v.notImproved i.parent last.result = none ∧ GateApproves v (h.evaluatedBy (CompositeEvaluator stages)) i s) ∧
    ((∃ pending, (exec (h.evaluatedBy (CompositeEvaluator stages)) (v.runCycle i) s).1 = .ok (.awaitingApproval pending)) ↔
      v.notImproved i.parent last.result = none ∧ GatePauses v (h.evaluatedBy (CompositeEvaluator stages)) i) := by
  have heval : (h.evaluatedBy (CompositeEvaluator stages)).evaluate i.candidate = .ok last.result :=
    CompositeEvaluator.evaluate_last hr hl
  refine ⟨?_, runCycle_promoted_iff heval, runCycle_awaiting_iff heval⟩
  have hplan : v.plan (h.evaluatedBy (CompositeEvaluator stages)) i =
      v.plan (h.evaluatedBy (.single fun _ => .ok last.result)) i := plan_congr heval
  rw [runCycle_plan, runCycle_plan, hplan]

end

namespace Reference

/-- A stage that scores a candidate 0.5 and lets it fail. -/
def failingStage : Evaluator Reference := ⟨fun _ => .ok ⟨half, .null⟩, fun _ _ => .ok ⟨⟨half, .null⟩, .Stop⟩⟩

theorem failingStage_run : CompositeEvaluator.run [failingStage] rootArtifact = .ok [⟨⟨half, .null⟩, .Stop⟩] := rfl

/-- The candidate failed its stage, and the cycle promotes it. -/
theorem stopped_promoted :
    CompositeEvaluator.run [failingStage] widening.candidate = .ok [⟨⟨half, .null⟩, .Stop⟩] ∧
    exec (host.evaluatedBy (CompositeEvaluator [failingStage])) (strictVeh.runCycle widening) (.push .default snapshotNode) =
      (.ok (.promoted child ⟨half, .null⟩), .push (.push .default snapshotNode) child) := by
  refine ⟨failingStage_run, ?_⟩
  have he : Evaluated strictVeh (host.evaluatedBy (CompositeEvaluator [failingStage])) widening "" ⟨half, .null⟩ :=
    ⟨manifestDiff_self _, rfl⟩
  exact runCycle_promotes he rfl (by decide) child_signed (by decide)

theorem judged_by_last_failing :
    exec (host.evaluatedBy (CompositeEvaluator [failingStage])) (strictVeh.runCycle widening) (.push .default snapshotNode) =
      exec (host.evaluatedBy (StubEvaluator half)) (strictVeh.runCycle widening) (.push .default snapshotNode) :=
  (judged_by_last strictVeh host widening _ [failingStage] failingStage_run rfl).1

end Reference

end RigVeh
