/-
  RigVeh.Runner.Stages — the calls of staged evaluation (`src/evaluator.rs`).

  Here an evaluator is an object of two programs (`DynEvaluator`): a stage of the host's
  is asked by a call and may answer anything, a composite asks its stages. What a
  composite asks is the walk over its stages (`walk`), up to the first that fails or
  decides anything but to go on; so the stages it asks are those needed, in order, each
  with its index (`run_exact`).

  `Staged` has the same loop over evaluators that answer the same whenever they are
  asked (`composite_answers`).
-/

import RigVeh.Base.Trace
import RigVeh.Runner.Staged

namespace RigVeh

open RigVeh.Json RigVeh.Base

variable {X : Crates} {ι : Type}

inductive StageCall (ι : Type) (X : Crates) where
  /-- `Evaluator::evaluate` of a stage of the host's. -/
  | evaluate (stage : ι) (artifact : AgentArtifact X)
  /-- `Evaluator::evaluate_staged` of a stage of the host's. -/
  | evaluateStaged (stage : ι) (artifact : AgentArtifact X) (idx : Nat)

@[reducible] def StageCall.Ans : StageCall ι X → Type
  | evaluate _ _ => Except Error EvalResult
  | evaluateStaged _ _ _ => Except Error StagedResult

/-- The stage a call is made to. -/
def StageCall.stage : StageCall ι X → ι
  | evaluate stage _ => stage
  | evaluateStaged stage _ _ => stage

@[reducible] def stageCalls (ι : Type) (X : Crates) : Sig := ⟨StageCall ι X, StageCall.Ans⟩

/-- A program that may ask stages of the host's, and may fail. -/
abbrev Asks (ι : Type) (X : Crates) (α : Type) := ExceptT Error (Prog (stageCalls ι X)) α

/-- `dyn Evaluator`. -/
structure DynEvaluator (ι : Type) (X : Crates) where
  evaluate : AgentArtifact X → Asks ι X EvalResult
  evaluateStaged : AgentArtifact X → Nat → Asks ι X StagedResult

namespace DynEvaluator

def host (stage : ι) : DynEvaluator ι X where
  evaluate artifact := .mk (Prog.op (S := stageCalls ι X) (.evaluate stage artifact))
  evaluateStaged artifact idx := .mk (Prog.op (S := stageCalls ι X) (.evaluateStaged stage artifact idx))

/-- An evaluator with the trait's own `evaluate_staged`. -/
def byDefault (evaluate : AgentArtifact X → Asks ι X EvalResult) : DynEvaluator ι X where
  evaluate := evaluate
  evaluateStaged artifact _ := do
    let result ← evaluate artifact
    return ⟨result, .Continue⟩

/-- The rest of the loop of `CompositeEvaluator::run`, at the stage of this index. -/
def runFrom (artifact : AgentArtifact X) : Nat → List (DynEvaluator ι X) → Asks ι X (List StagedResult)
  | _, [] => return []
  | idx, stage :: stages => do
    let staged ← stage.evaluateStaged artifact idx
    if staged.decision = .Stop ∨ staged.decision = .Promote then return [staged]
    else return staged :: (← runFrom artifact (idx + 1) stages)

/-- `CompositeEvaluator::run`. -/
def run (stages : List (DynEvaluator ι X)) (artifact : AgentArtifact X) : Asks ι X (List StagedResult) :=
  runFrom artifact 0 stages

def lastResult (runs : List StagedResult) : Except Error EvalResult :=
  match runs.getLast? with
  | some staged => .ok staged.result
  | none => .error (.evaluator "composite has no stages")

/-- `CompositeEvaluator`, as an evaluator. -/
def composite (stages : List (DynEvaluator ι X)) : DynEvaluator ι X :=
  byDefault fun artifact => do
    let runs ← run stages artifact
    Prog.attempt (lastResult runs)

theorem composite_evaluate (stages : List (DynEvaluator ι X)) (artifact : AgentArtifact X) :
    (composite stages).evaluate artifact = (runFrom artifact 0 stages >>= fun runs => Prog.attempt (lastResult runs)) := rfl

end DynEvaluator

/-! ## The walk -/

structure Invocation (ι : Type) where
  stage : ι
  idx : Nat
  answer : Except Error StagedResult

def Invocation.GoesOn (v : Invocation ι) : Prop := ∃ r, v.answer = .ok r ∧ r.decision = .Continue

/-- As a call of `evaluate_staged` with its answer. -/
def Invocation.asked (artifact : AgentArtifact X) (v : Invocation ι) : Prog.Answered (stageCalls ι X) :=
  ⟨.evaluateStaged v.stage artifact v.idx, v.answer⟩

def goesOn : Except Error StagedResult → Bool
  | .ok r => r.decision = .Continue
  | .error _ => false

section

variable {σ : Type} (f : Prog.Handler (stageCalls ι X) σ) (artifact : AgentArtifact X)

/-- The stages asked from the index `idx`, and the state they leave. -/
def walk : Nat → List ι → σ → List (Invocation ι) × σ
  | _, [], s => ([], s)
  | idx, stage :: stages, s =>
    let out := f (.evaluateStaged stage artifact idx) s
    if goesOn out.1 then
      let rest := walk (idx + 1) stages out.2
      (⟨stage, idx, out.1⟩ :: rest.1, rest.2)
    else ([⟨stage, idx, out.1⟩], out.2)

variable {f artifact} {idx : Nat} {stage : ι} {stages : List ι} {s : σ}

theorem goesOn_iff {v : Invocation ι} : goesOn v.answer = true ↔ v.GoesOn := by
  unfold Invocation.GoesOn
  cases v.answer with
  | error e => simp [goesOn]
  | ok r => simp [goesOn]

theorem walk_on (h : goesOn (f (.evaluateStaged stage artifact idx) s).1 = true) :
    walk f artifact idx (stage :: stages) s =
      (⟨stage, idx, (f (.evaluateStaged stage artifact idx) s).1⟩ ::
        (walk f artifact (idx + 1) stages (f (.evaluateStaged stage artifact idx) s).2).1,
        (walk f artifact (idx + 1) stages (f (.evaluateStaged stage artifact idx) s).2).2) := by
  rw [walk]
  exact if_pos h

theorem walk_ends (h : goesOn (f (.evaluateStaged stage artifact idx) s).1 = false) :
    walk f artifact idx (stage :: stages) s =
      ([⟨stage, idx, (f (.evaluateStaged stage artifact idx) s).1⟩], (f (.evaluateStaged stage artifact idx) s).2) := by
  rw [walk]
  exact if_neg (by simp [h])

/-- What a composite of stages of the host's asks and returns. -/
theorem runFrom_walk (f : Prog.Handler (stageCalls ι X) σ) (artifact : AgentArtifact X) (idx : Nat) (stages : List ι)
    (s : σ) :
    Prog.run f (DynEvaluator.runFrom artifact idx (stages.map .host)).run s =
        ((walk f artifact idx stages s).1.mapM (·.answer), (walk f artifact idx stages s).2) ∧
      Prog.trace f (DynEvaluator.runFrom artifact idx (stages.map .host)).run s =
        (walk f artifact idx stages s).1.map (Invocation.asked artifact) := by
  induction stages generalizing idx s with
  | nil => exact ⟨rfl, rfl⟩
  | cons stage stages ih =>
    have hask : Prog.run f ((DynEvaluator.host stage : DynEvaluator ι X).evaluateStaged artifact idx).run s =
        f (.evaluateStaged stage artifact idx) s := rfl
    have htrace : Prog.trace f ((DynEvaluator.host stage : DynEvaluator ι X).evaluateStaged artifact idx).run s =
        [⟨.evaluateStaged stage artifact idx, (f (.evaluateStaged stage artifact idx) s).1⟩] := rfl
    rw [List.map_cons, DynEvaluator.runFrom, Prog.run_seq, Prog.trace_seq, hask, htrace]
    rcases hout : f (.evaluateStaged stage artifact idx) s with ⟨e | staged, s'⟩
    · rw [walk_ends (by rw [hout]; rfl), hout]
      exact ⟨rfl, rfl⟩
    by_cases hd : staged.decision = .Continue
    · rw [walk_on (by rw [hout]; simp [goesOn, hd]), hout]
      obtain ⟨hrun, htrace⟩ := ih (idx + 1) s'
      rw [Prog.andThen_ok, Prog.traceThen_ok, if_neg (mt CompositeEvaluator.ends_iff.mp (not_not.mpr hd)), Prog.run_seq,
        Prog.trace_seq, hrun, htrace]
      simp only [List.mapM_cons, List.map_cons]
      cases (walk f artifact (idx + 1) stages s').1.mapM (·.answer) with
      | error e => exact ⟨rfl, congrArg (List.cons _) (List.append_nil _)⟩
      | ok runs => exact ⟨rfl, congrArg (List.cons _) (List.append_nil _)⟩
    · rw [walk_ends (by rw [hout]; simp [goesOn, hd]), hout]
      rw [Prog.andThen_ok, Prog.traceThen_ok, if_pos (CompositeEvaluator.ends_iff.mpr hd)]
      exact ⟨rfl, rfl⟩

theorem evaluate_walk (f : Prog.Handler (stageCalls ι X) σ) (artifact : AgentArtifact X) (stages : List ι) (s : σ) :
    Prog.run f ((DynEvaluator.composite (stages.map .host)).evaluate artifact).run s =
        ((walk f artifact 0 stages s).1.mapM (·.answer) >>= DynEvaluator.lastResult, (walk f artifact 0 stages s).2) ∧
      Prog.trace f ((DynEvaluator.composite (stages.map .host)).evaluate artifact).run s =
        (walk f artifact 0 stages s).1.map (Invocation.asked artifact) := by
  obtain ⟨hrun, htrace⟩ := runFrom_walk f artifact 0 stages s
  rw [DynEvaluator.composite_evaluate, Prog.run_seq, Prog.trace_seq, hrun, htrace]
  cases (walk f artifact 0 stages s).1.mapM (·.answer) with
  | error e => exact ⟨rfl, List.append_nil _⟩
  | ok runs => exact ⟨rfl, List.append_nil _⟩

/-! ## Exactly the stages needed -/

/-- The stages are asked in order, each with its index, and each exactly if all before
    it went on. -/
structure Needed (stages : List ι) (ran : List (Invocation ι)) : Prop where
  order : ran.map (fun v => (v.stage, v.idx)) <+: stages.zipIdx
  asked : ∀ i, i < ran.length ↔ i < stages.length ∧ ∀ j < i, ∃ v, ran[j]? = some v ∧ v.GoesOn

theorem walk_order (f : Prog.Handler (stageCalls ι X) σ) (artifact : AgentArtifact X) (idx : Nat) (stages : List ι)
    (s : σ) : (walk f artifact idx stages s).1.map (fun v => (v.stage, v.idx)) <+: stages.zipIdx idx := by
  induction stages generalizing idx s with
  | nil => exact List.prefix_rfl
  | cons stage stages ih =>
    rw [List.zipIdx_cons]
    cases hgo : goesOn (f (.evaluateStaged stage artifact idx) s).1 with
    | true =>
      rw [walk_on hgo, List.map_cons, List.cons_prefix_cons]
      exact ⟨rfl, ih _ _⟩
    | false =>
      rw [walk_ends hgo]
      exact ⟨stages.zipIdx (idx + 1), rfl⟩

theorem walk_asked (f : Prog.Handler (stageCalls ι X) σ) (artifact : AgentArtifact X) (idx : Nat) (stages : List ι)
    (s : σ) (i : Nat) : i < (walk f artifact idx stages s).1.length ↔
      i < stages.length ∧ ∀ j < i, ∃ v, (walk f artifact idx stages s).1[j]? = some v ∧ v.GoesOn := by
  induction stages generalizing idx s i with
  | nil => simp [walk]
  | cons stage stages ih =>
    cases hgo : goesOn (f (.evaluateStaged stage artifact idx) s).1 with
    | true =>
      rw [walk_on hgo]
      cases i with
      | zero => simp
      | succ i =>
        rw [List.length_cons, List.length_cons, Nat.succ_lt_succ_iff, Nat.succ_lt_succ_iff, ih]
        constructor
        · intro h
          refine ⟨h.1, ?_⟩
          intro j hj
          cases j with
          | zero => exact ⟨_, rfl, goesOn_iff.mp hgo⟩
          | succ j => exact h.2 j (by omega)
        · intro h
          exact ⟨h.1, fun j hj => h.2 (j + 1) (by omega)⟩
    | false =>
      rw [walk_ends hgo]
      cases i with
      | zero => simp
      | succ i =>
        constructor
        · intro h
          simp at h
        · intro h
          obtain ⟨v, hv, hgoes⟩ := h.2 0 (by omega)
          cases hv
          rw [goesOn_iff.mpr hgoes] at hgo
          cases hgo

theorem walk_needed (f : Prog.Handler (stageCalls ι X) σ) (artifact : AgentArtifact X) (stages : List ι) (s : σ) :
    Needed stages (walk f artifact 0 stages s).1 :=
  ⟨walk_order f artifact 0 stages s, walk_asked f artifact 0 stages s⟩

theorem answers_ok {ran : List (Invocation ι)} (h : ∀ v ∈ ran, v.GoesOn) : ∃ runs, ran.mapM (·.answer) = .ok runs := by
  induction ran with
  | nil => exact ⟨[], rfl⟩
  | cons v ran ih =>
    obtain ⟨r, hr, -⟩ := h v List.mem_cons_self
    obtain ⟨runs, hruns⟩ := ih fun u hu => h u (List.mem_cons_of_mem _ hu)
    exact ⟨r :: runs, by rw [List.mapM_cons, hr, hruns]; rfl⟩

/-- What is concluded is the last answer. -/
theorem last_answer {ran : List (Invocation ι)} {v : Invocation ι} (h : ∀ u ∈ ran, u.GoesOn) :
    ((ran ++ [v]).mapM (·.answer) >>= DynEvaluator.lastResult) = v.answer.map (·.result) := by
  obtain ⟨runs, hruns⟩ := answers_ok h
  rw [List.mapM_append, hruns]
  cases hv : v.answer with
  | error e => simp [hv, bind, Except.bind, Except.map]
  | ok r => simp [hv, bind, Except.bind, Except.map, pure, Except.pure, DynEvaluator.lastResult]

theorem Needed.last {stages : List ι} {ran : List (Invocation ι)} {v : Invocation ι} (h : Needed stages ran)
    (hv : ran.getLast? = some v) : (ran.mapM (·.answer) >>= DynEvaluator.lastResult) = v.answer.map (·.result) := by
  obtain ⟨init, rfl⟩ := List.getLast?_eq_some_iff.mp hv
  apply last_answer
  intro u hu
  obtain ⟨j, hj, hget⟩ := List.mem_iff_getElem.mp hu
  obtain ⟨w, hw, hgoes⟩ := ((h.asked init.length).mp (by simp)).2 j hj
  rw [List.getElem?_append_left hj, List.getElem?_eq_getElem hj, hget] at hw
  cases hw
  exact hgoes

/-- Staged evaluation asks exactly the stages needed, whatever they answer, and returns
    their results, or the error of the one that failed; as an evaluator it returns the
    result of the last one asked. -/
theorem run_exact (f : Prog.Handler (stageCalls ι X) σ) (artifact : AgentArtifact X) (stages : List ι) (s : σ) :
    ∃ ran, Needed stages ran ∧
      Prog.trace f (DynEvaluator.run (stages.map .host) artifact).run s = ran.map (Invocation.asked artifact) ∧
      (Prog.run f (DynEvaluator.run (stages.map .host) artifact).run s).1 = ran.mapM (·.answer) ∧
      Prog.trace f ((DynEvaluator.composite (stages.map .host)).evaluate artifact).run s =
        ran.map (Invocation.asked artifact) ∧
      (∀ v, ran.getLast? = some v →
        (Prog.run f ((DynEvaluator.composite (stages.map .host)).evaluate artifact).run s).1 = v.answer.map (·.result)) ∧
      (stages = [] → (Prog.run f ((DynEvaluator.composite (stages.map .host)).evaluate artifact).run s).1 =
        .error (.evaluator "composite has no stages")) := by
  obtain ⟨hrun, htrace⟩ := runFrom_walk f artifact 0 stages s
  obtain ⟨heval, hasked⟩ := evaluate_walk f artifact stages s
  have hneeded := walk_needed f artifact stages s
  refine ⟨_, hneeded, htrace, congrArg Prod.fst hrun, hasked, ?_, ?_⟩
  · intro v hv
    rw [heval, hneeded.last hv]
  · intro hnil
    subst hnil
    rfl

/-! ## Evaluators that answer the same whenever they are asked -/

def answers : Prog.Handler (stageCalls (Evaluator X) X) Unit
  | .evaluate stage artifact, s => (stage.evaluate artifact, s)
  | .evaluateStaged stage artifact idx, s => (stage.evaluateStaged artifact idx, s)

theorem runFrom_answers (artifact : AgentArtifact X) (idx : Nat) (stages : List (Evaluator X)) (s : Unit) :
    Prog.run answers (DynEvaluator.runFrom artifact idx (stages.map .host)).run s =
      (CompositeEvaluator.runFrom artifact idx stages, s) := by
  induction stages generalizing idx with
  | nil => rfl
  | cons stage stages ih =>
    have hask : Prog.run answers ((DynEvaluator.host stage).evaluateStaged artifact idx).run s =
        (stage.evaluateStaged artifact idx, s) := rfl
    rw [List.map_cons, DynEvaluator.runFrom, Prog.run_seq, hask, CompositeEvaluator.runFrom]
    cases stage.evaluateStaged artifact idx with
    | error e => rfl
    | ok staged =>
      rw [Prog.andThen_ok, Prog.ok_bind]
      by_cases hd : staged.decision = .Stop ∨ staged.decision = .Promote
      · rw [if_pos hd, if_pos hd]
        rfl
      · rw [if_neg hd, if_neg hd, Prog.run_seq, ih]
        cases CompositeEvaluator.runFrom artifact (idx + 1) stages with
        | error e => rfl
        | ok runs => rfl

/-- The composite of `Staged` is this one, asking such evaluators. -/
theorem composite_answers (artifact : AgentArtifact X) (stages : List (Evaluator X)) (s : Unit) :
    (Prog.run answers ((DynEvaluator.composite (stages.map .host)).evaluate artifact).run s).1 =
      (CompositeEvaluator stages).evaluate artifact := by
  have hrun := runFrom_answers artifact 0 stages s
  have hcomp : (CompositeEvaluator stages).evaluate artifact =
      (CompositeEvaluator.runFrom artifact 0 stages >>= DynEvaluator.lastResult) := rfl
  rw [DynEvaluator.composite_evaluate, hcomp, Prog.run_seq, hrun]
  cases CompositeEvaluator.runFrom artifact 0 stages with
  | error e => rfl
  | ok runs => rfl

end

end RigVeh
