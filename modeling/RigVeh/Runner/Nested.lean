/-
  RigVeh.Runner.Nested — a composite that is a stage of a composite.

  It has only the trait's own `evaluate_staged`, which evaluates it whole and goes on
  (`nested_walk`). So nested stages are evaluated as flattened ones exactly if none of
  the inner ones ends the evaluation, or no stage comes after them (`nested_iff`): a
  candidate that an inner stage stopped is evaluated further (`stop_passed`).
-/

import RigVeh.Runner.Stages

namespace RigVeh

open RigVeh.Json RigVeh.Base

section

variable {X : Crates} {ι σ : Type} {f : Prog.Handler (stageCalls ι X) σ} {artifact : AgentArtifact X} {idx : Nat}
  {stages A B : List ι} {s : σ}

/-- No stage that is asked ends the evaluation: the first that does not go on, if there
    is one, fails. -/
def NeverEnds (f : Prog.Handler (stageCalls ι X) σ) (artifact : AgentArtifact X) : List ι → σ → Prop
  | [], _ => True
  | stage :: stages, s =>
    match f (.evaluateStaged stage artifact 0) s with
    | (.error _, _) => True
    | (.ok r, s') => r.decision = .Continue ∧ NeverEnds f artifact stages s'

/-- The stages answer the same at every index. -/
def Blind (f : Prog.Handler (stageCalls ι X) σ) : Prop :=
  ∀ stage artifact i j s, f (.evaluateStaged stage artifact i) s = f (.evaluateStaged stage artifact j) s

theorem walk_append_on (h : ∀ v ∈ (walk f artifact idx A s).1, v.GoesOn) :
    walk f artifact idx (A ++ B) s =
      ((walk f artifact idx A s).1 ++ (walk f artifact (idx + A.length) B (walk f artifact idx A s).2).1,
        (walk f artifact (idx + A.length) B (walk f artifact idx A s).2).2) := by
  induction A generalizing idx s with
  | nil => rfl
  | cons stage A ih =>
    have hlen : idx + (stage :: A).length = idx + 1 + A.length := by
      rw [List.length_cons]
      omega
    cases hgo : goesOn (f (.evaluateStaged stage artifact idx) s).1 with
    | true =>
      rw [walk_on hgo] at h ⊢
      rw [List.cons_append, walk_on hgo, ih fun v hv => h v (List.mem_cons_of_mem _ hv), hlen]
      rfl
    | false =>
      rw [walk_ends hgo] at h
      rw [goesOn_iff.mpr (h _ List.mem_cons_self)] at hgo
      cases hgo

theorem walk_append_ends (h : ¬ ∀ v ∈ (walk f artifact idx A s).1, v.GoesOn) :
    walk f artifact idx (A ++ B) s = walk f artifact idx A s := by
  induction A generalizing idx s with
  | nil =>
    refine absurd ?_ h
    intro v hv
    cases hv
  | cons stage A ih =>
    rw [List.cons_append]
    cases hgo : goesOn (f (.evaluateStaged stage artifact idx) s).1 with
    | true =>
      rw [walk_on hgo] at h ⊢
      rw [walk_on hgo, ih]
      intro hall
      refine h ?_
      intro v hv
      rcases List.mem_cons.mp hv with rfl | hv
      · exact goesOn_iff.mp hgo
      · exact hall v hv
    | false => rw [walk_ends hgo, walk_ends hgo]

theorem walk_blind (hf : Blind f) (artifact : AgentArtifact X) (i j : Nat) (stages : List ι) (s : σ) :
    (walk f artifact i stages s).2 = (walk f artifact j stages s).2 ∧
      ((walk f artifact i stages s).1.map fun v => (v.stage, v.answer)) =
        (walk f artifact j stages s).1.map fun v => (v.stage, v.answer) := by
  induction stages generalizing i j s with
  | nil => exact ⟨rfl, rfl⟩
  | cons stage stages ih =>
    have hsame := hf stage artifact i j s
    cases hgo : goesOn (f (.evaluateStaged stage artifact i) s).1 with
    | true =>
      obtain ⟨hstate, hran⟩ := ih (i + 1) (j + 1) (f (.evaluateStaged stage artifact j) s).2
      rw [walk_on hgo, walk_on (hsame ▸ hgo), hsame]
      exact ⟨hstate, congrArg (List.cons _) hran⟩
    | false =>
      rw [walk_ends hgo, walk_ends (hsame ▸ hgo), hsame]
      exact ⟨rfl, rfl⟩

/-- A walk went on to the end, failed, or was ended by a decision. -/
theorem walk_outcome (hf : Blind f) (artifact : AgentArtifact X) (idx : Nat) (stages : List ι) (s : σ) :
    (NeverEnds f artifact stages s ∧ ∀ v ∈ (walk f artifact idx stages s).1, v.GoesOn) ∨
    (NeverEnds f artifact stages s ∧ ∃ e, (walk f artifact idx stages s).1.mapM (·.answer) = .error e) ∨
    (¬ NeverEnds f artifact stages s ∧ (¬ ∀ v ∈ (walk f artifact idx stages s).1, v.GoesOn) ∧
      ∃ runs, (walk f artifact idx stages s).1.mapM (·.answer) = .ok runs) := by
  induction stages generalizing idx s with
  | nil => exact .inl ⟨trivial, fun v hv => by cases hv⟩
  | cons stage stages ih =>
    unfold NeverEnds
    have hout := hf stage artifact 0 idx s
    rcases hask : f (.evaluateStaged stage artifact idx) s with ⟨e | r, s'⟩
    · rw [hask] at hout
      rw [walk_ends (by rw [hask]; rfl), hask, hout]
      exact .inr (.inl ⟨trivial, e, rfl⟩)
    rw [hask] at hout
    by_cases hd : r.decision = .Continue
    · rw [walk_on (by rw [hask]; simp [goesOn, hd]), hask, hout]
      simp only [List.mapM_cons, List.forall_mem_cons]
      obtain ⟨hends, hall⟩ | ⟨hends, e, he⟩ | ⟨hends, hnot, runs, hruns⟩ := ih (idx + 1) s'
      · exact .inl ⟨⟨hd, hends⟩, ⟨r, rfl, hd⟩, hall⟩
      · refine .inr (.inl ⟨⟨hd, hends⟩, e, ?_⟩)
        rw [he]
        rfl
      · refine .inr (.inr ⟨fun h => hends h.2, fun h => hnot h.2, r :: runs, ?_⟩)
        rw [hruns]
        rfl
    · rw [walk_ends (by rw [hask]; simp [goesOn, hd]), hask, hout]
      refine .inr (.inr ⟨fun h => hd h.1, ?_, [r], rfl⟩)
      intro hall
      obtain ⟨r', hr, hd'⟩ := hall _ List.mem_cons_self
      cases hr
      exact hd hd'

/-- A composite that is a stage is asked for its whole result, and goes on. -/
theorem nested_walk (f : Prog.Handler (stageCalls ι X) σ) (artifact : AgentArtifact X) (A B : List ι) (s : σ) :
    Prog.run f ((DynEvaluator.composite (.composite (A.map .host) :: B.map .host)).evaluate artifact).run s =
        Prog.andThen ((walk f artifact 0 A s).1.mapM (·.answer) >>= DynEvaluator.lastResult, (walk f artifact 0 A s).2)
          (fun result s' => ((walk f artifact 1 B s').1.mapM (·.answer) >>= fun runs =>
            DynEvaluator.lastResult (⟨result, .Continue⟩ :: runs), (walk f artifact 1 B s').2)) ∧
      Prog.trace f ((DynEvaluator.composite (.composite (A.map .host) :: B.map .host)).evaluate artifact).run s =
        (walk f artifact 0 A s).1.map (Invocation.asked artifact) ++
          Prog.traceThen ((walk f artifact 0 A s).1.mapM (·.answer) >>= DynEvaluator.lastResult, (walk f artifact 0 A s).2)
            (fun _ s' => (walk f artifact 1 B s').1.map (Invocation.asked artifact)) := by
  obtain ⟨hrun, htrace⟩ := evaluate_walk f artifact A s
  have heval : (DynEvaluator.composite (.composite (A.map .host) :: B.map .host)).evaluate artifact =
      ((DynEvaluator.composite (A.map .host)).evaluate artifact >>= fun result =>
        (DynEvaluator.runFrom artifact 1 (B.map .host) >>= fun runs =>
          Prog.attempt (DynEvaluator.lastResult (⟨result, .Continue⟩ :: runs))) : Asks ι X EvalResult) := by
    have hgo : ¬ (EvalStage.Continue = .Stop ∨ EvalStage.Continue = .Promote) := by decide
    simp only [DynEvaluator.composite, DynEvaluator.byDefault, DynEvaluator.run, DynEvaluator.runFrom, bind_assoc,
      pure_bind, if_neg hgo]
  rw [heval, Prog.run_seq, Prog.trace_seq, hrun, htrace]
  cases (walk f artifact 0 A s).1.mapM (·.answer) >>= DynEvaluator.lastResult with
  | error e => exact ⟨rfl, rfl⟩
  | ok result =>
    obtain ⟨hrun, htrace⟩ := runFrom_walk f artifact 1 B (walk f artifact 0 A s).2
    simp only [Prog.andThen_ok, Prog.traceThen_ok]
    rw [Prog.run_seq, Prog.trace_seq, hrun, htrace]
    cases (walk f artifact 1 B (walk f artifact 0 A s).2).1.mapM (·.answer) with
    | error e => exact ⟨rfl, congrArg _ (List.append_nil _)⟩
    | ok runs => exact ⟨rfl, congrArg _ (List.append_nil _)⟩

theorem walk_nil (f : Prog.Handler (stageCalls ι X) σ) (artifact : AgentArtifact X) (idx : Nat) (s : σ) :
    (walk f artifact idx stages s).1 = [] ↔ stages = [] := by
  rw [← List.length_eq_zero_iff, ← List.length_eq_zero_iff]
  have h := walk_asked f artifact idx stages s 0
  simp only [Nat.not_lt_zero, false_implies, implies_true, and_true] at h
  omega

/-- What was asked and succeeded has a last result. -/
theorem lastResult_ok {ran : List (Invocation ι)} {runs : List StagedResult} (hne : ran ≠ [])
    (h : ran.mapM (·.answer) = .ok runs) : ∃ result, DynEvaluator.lastResult runs = .ok result := by
  cases ran with
  | nil => exact absurd rfl hne
  | cons v ran =>
    rw [List.mapM_cons] at h
    obtain ⟨r, -, h⟩ := Prog.bind_ok h
    obtain ⟨rest, -, h⟩ := Prog.bind_ok h
    cases h
    unfold DynEvaluator.lastResult
    rw [List.getLast?_cons]
    exact ⟨_, rfl⟩

/-- The last result of two runs one after the other is the second one's, if it has any. -/
theorem lastResult_append {runs runs' : List StagedResult} {result : EvalResult} {d : EvalStage}
    (h : DynEvaluator.lastResult runs = .ok result) :
    DynEvaluator.lastResult (runs ++ runs') = DynEvaluator.lastResult (⟨result, d⟩ :: runs') := by
  cases hlast : runs'.getLast? with
  | none =>
    obtain rfl := List.getLast?_eq_none_iff.mp hlast
    rw [List.append_nil, h]
    rfl
  | some last =>
    unfold DynEvaluator.lastResult
    rw [List.getLast?_append, List.getLast?_cons, hlast]
    rfl

theorem asked_stages (artifact : AgentArtifact X) (ran : List (Invocation ι)) :
    (ran.map (Invocation.asked artifact)).map (·.1.stage) = ran.map (·.stage) := by
  rw [List.map_map]
  rfl

/-- The results and the stages asked depend on the answers alone. -/
theorem walk_blind_answers (hf : Blind f) (artifact : AgentArtifact X) (i j : Nat) (stages : List ι) (s : σ) :
    (walk f artifact i stages s).1.mapM (·.answer) = (walk f artifact j stages s).1.mapM (·.answer) ∧
      (walk f artifact i stages s).1.map (·.stage) = (walk f artifact j stages s).1.map (·.stage) := by
  have h := (walk_blind hf artifact i j stages s).2
  constructor
  · have := congrArg (List.mapM Prod.snd) h
    rwa [List.mapM_map, List.mapM_map] at this
  · have := congrArg (List.map Prod.fst) h
    rwa [List.map_map, List.map_map] at this

/-- Nested stages give the same result and ask the same stages as flattened ones exactly
    if no inner stage ends the evaluation, or no stage comes after them. -/
theorem nested_iff (hf : Blind f) (artifact : AgentArtifact X) (hA : A ≠ []) (B : List ι) (s : σ) :
    ((Prog.run f ((DynEvaluator.composite (.composite (A.map .host) :: B.map .host)).evaluate artifact).run s).1 =
        (Prog.run f ((DynEvaluator.composite ((A ++ B).map .host)).evaluate artifact).run s).1 ∧
      (Prog.trace f ((DynEvaluator.composite (.composite (A.map .host) :: B.map .host)).evaluate artifact).run s).map
          (·.1.stage) =
        (Prog.trace f ((DynEvaluator.composite ((A ++ B).map .host)).evaluate artifact).run s).map (·.1.stage)) ↔
      B = [] ∨ NeverEnds f artifact A s := by
  obtain ⟨hflat, hflatTrace⟩ := evaluate_walk f artifact (A ++ B) s
  obtain ⟨hnested, hnestedTrace⟩ := nested_walk f artifact A B s
  rw [hflat, hflatTrace, hnested, hnestedTrace]
  have hran : (walk f artifact 0 A s).1 ≠ [] := mt (walk_nil f artifact 0 s).mp hA
  obtain ⟨hends, hall⟩ | ⟨hends, e, he⟩ | ⟨hends, hnot, runs, hruns⟩ := walk_outcome hf artifact 0 A s
  · -- every inner stage went on: the outer ones are asked either way
    obtain ⟨runs, hruns⟩ := answers_ok hall
    obtain ⟨result, hresult⟩ := lastResult_ok hran hruns
    obtain ⟨hans, hstages⟩ := walk_blind_answers hf artifact 1 (0 + A.length) B (walk f artifact 0 A s).2
    refine iff_of_true ?_ (.inr hends)
    rw [walk_append_on hall, hruns, Prog.ok_bind, hresult, Prog.andThen_ok, Prog.traceThen_ok, hans, List.map_append,
      List.map_append, List.map_append, asked_stages, asked_stages, asked_stages, hstages, List.mapM_append, hruns,
      Prog.ok_bind]
    refine ⟨?_, rfl⟩
    cases (walk f artifact (0 + A.length) B (walk f artifact 0 A s).2).1.mapM (·.answer) with
    | error e => rfl
    | ok runs' => exact (lastResult_append hresult).symm
  · -- an inner stage failed: so does either evaluation
    have hnot : ¬ ∀ v ∈ (walk f artifact 0 A s).1, v.GoesOn := by
      intro hall
      obtain ⟨runs, hruns⟩ := answers_ok hall
      rw [hruns] at he
      cases he
    refine iff_of_true ?_ (.inr hends)
    rw [walk_append_ends hnot, he]
    exact ⟨rfl, congrArg _ (List.append_nil _)⟩
  · -- an inner stage ended the evaluation, and only the flattened one ends there
    obtain ⟨result, hresult⟩ := lastResult_ok hran hruns
    rw [walk_append_ends hnot, hruns, Prog.ok_bind, hresult, Prog.andThen_ok, Prog.traceThen_ok, List.map_append,
      asked_stages, asked_stages]
    constructor
    · intro h
      have hlen := congrArg List.length h.2
      rw [List.length_append, List.length_map, List.length_map] at hlen
      have hempty : (walk f artifact 1 B (walk f artifact 0 A s).2).1.length = 0 := by omega
      exact .inl ((walk_nil f artifact 1 _).mp (List.length_eq_zero_iff.mp hempty))
    · intro h
      obtain rfl := h.resolve_right hends
      exact ⟨rfl, List.append_nil _⟩

end

namespace Reference

/-- `ScriptedStage` (`tests/staged_evaluator.rs`): a stage that always answers the same. -/
def scripted : Prog.Handler (stageCalls StagedResult Reference) Unit
  | .evaluate stage _, s => (.ok stage.result, s)
  | .evaluateStaged stage _ _, s => (.ok stage, s)

def failed : StagedResult := ⟨⟨half, .null⟩, .Stop⟩

def cleared : StagedResult := ⟨⟨.ofNat 1, .null⟩, .Continue⟩

theorem nested_iff_cleared :
    ((Prog.run scripted ((DynEvaluator.composite (.composite ([cleared].map .host) :: [failed].map .host)).evaluate
          rootArtifact).run ()).1 =
        (Prog.run scripted ((DynEvaluator.composite (([cleared] ++ [failed]).map .host)).evaluate
          rootArtifact).run ()).1 ∧
      (Prog.trace scripted ((DynEvaluator.composite (.composite ([cleared].map .host) :: [failed].map .host)).evaluate
          rootArtifact).run ()).map (·.1.stage) =
        (Prog.trace scripted ((DynEvaluator.composite (([cleared] ++ [failed]).map .host)).evaluate
          rootArtifact).run ()).map (·.1.stage)) ↔
      [failed] = [] ∨ NeverEnds scripted rootArtifact [cleared] () :=
  nested_iff (fun _ _ _ _ _ => rfl) rootArtifact (List.cons_ne_nil cleared []) [failed] ()

/-- The inner stage lets the candidate fail. Flattened, that ends the evaluation with
    0.5; nested, the next stage is asked and its 1 is the result. -/
theorem stop_passed :
    (Prog.run scripted ((DynEvaluator.composite (.composite ([failed].map .host) :: [cleared].map .host)).evaluate
        rootArtifact).run ()).1 = .ok cleared.result ∧
    (Prog.run scripted ((DynEvaluator.composite (([failed] ++ [cleared]).map .host)).evaluate rootArtifact).run ()).1 =
      .ok failed.result ∧ cleared.result.score ≠ failed.result.score := by
  refine ⟨rfl, rfl, ?_⟩
  decide

end Reference

end RigVeh
