/-
  RigVeh.Runner.Retry — operations delivered more than once.

  What `commit_root`, `run_cycle` and `resume_with_approval` sign is fixed by their
  arguments and the evaluation (`Op.signed`). So such an operation that has committed
  is refused when it is delivered again, at any time later, as a duplicate
  (`again_refused`), and a history is the one without its redeliveries
  (`redelivered`): a caller that lost an answer may ask again. `commit_rollback` and
  `run_generation` sign what the ledger is at the time and may commit again.
-/

import RigVeh.Runner.Independent

namespace RigVeh

open RigVeh.Json RigVeh.Base

variable {X : Crates}

/-- The node the operation comes to append, whatever is stored. -/
def Op.signed (h : Host X) : Op X → Option (AgentNode X)
  | .commitRoot v artifact scope createdAt => (signNode (rootInputs artifact scope createdAt) v.signingKey).toOption
  | .resumeWithApproval pending key => (signNode (approvedInputs pending) key).toOption
  | .runCycle v i => PlannedCycle.yields ⟨v, h, i⟩
  | _ => none

/-- The operation is delivered again, to collaborators that evaluate alike. -/
def Again (e : Event X) (h : Host X) (op : Op X) : Prop :=
  op = e.op ∧ (∃ n, e.Commits n) ∧
    match op with
    | .commitRoot _ _ _ _ => True
    | .resumeWithApproval _ _ => True
    | .runCycle _ i => h.evaluate i.candidate = e.host.evaluate i.candidate
    | _ => False

section

variable {h h' : Host X} {s : InMemoryInner X} {n : AgentNode X}

/-- An operation is refused if its node is stored. -/
theorem signed_refused {op : Op X} (hn : op.signed h = some n) (hf : s.nodes n.agentId ≠ none) :
    exec h op.act s = (.error (InMemoryInner.duplicate n.agentId), s) := by
  have hsign {r : Except Error (AgentNode X)} (h : r.toOption = some n) : r = .ok n := by
    cases r with
    | error e => cases h
    | ok m => exact congrArg Except.ok (Option.some.inj h)
  cases op with
  | commitRoot => rw [Op.act, exec_bind, Veh.commitRoot, commit_refused (hsign hn) hf, Prog.andThen_error]
  | resumeWithApproval => rw [Op.act, exec_bind, Veh.resumeWithApproval, commit_refused (hsign hn) hf, Prog.andThen_error]
  | runCycle v i =>
    have hrun : exec h (v.runCycle i) s = _ := PlannedCycle.run_duplicate (c := ⟨v, h, i⟩) hn hf
    rw [Op.act, exec_bind, hrun, Prog.andThen_error]
  | _ => cases hn

/-- Collaborators that evaluate alike have the same node signed. -/
theorem again_signed {e : Event X} {op : Op X} (ha : Again e h op) : op.signed h = e.op.signed e.host := by
  obtain ⟨rfl, -, hsame⟩ := ha
  generalize e.op = op at hsame
  cases op with
  | runCycle v i =>
    have hplan : v.plan h i = v.plan e.host i := by
      rw [Veh.plan, Veh.plan, show h.evaluate i.candidate = e.host.evaluate i.candidate from hsame]
    exact congrArg (fun p => p.toOption.bind CycleOutcome.node) hplan
  | _ => rfl

end

/-! ## Histories -/

section

variable {ok : Rule X} {t : List (Event X)} {s : InMemoryInner X}

theorem runs_is_event (hr : Runs ok t s) {e : Event X} (he : e ∈ t) : e = e.op.event e.host e.before := by
  induction hr with
  | empty => cases he
  | next h op _ _ _ ih =>
    rcases List.mem_append.mp he with he | he
    · exact ih he
    · obtain rfl := List.mem_singleton.mp he
      rfl

/-- What an event committed is what its operation comes to append. -/
theorem commits_signed (hr : Runs ok t s) {e : Event X} (he : e ∈ t) {n : AgentNode X} (hn : e.Commits n) {h : Host X}
    {op : Op X} (ha : Again e h op) : e.op.signed e.host = some n := by
  obtain ⟨rfl, -, hkind⟩ := ha
  obtain ⟨hd, -⟩ := commits_deed hr he hn
  have hafter : e.after = (exec e.host e.op.act e.before).2 := congrArg Event.after (runs_is_event hr he)
  obtain ⟨hfresh, hstored⟩ := hn
  rw [hafter] at hstored
  generalize e.op = op at hd hkind hstored
  cases op with
  | commitRoot =>
    cases hd with
    | root hsign => rw [Op.signed, hsign]; rfl
    | promoted hc => cases hc
    | rejected hc => cases hc
  | resumeWithApproval =>
    cases hd with
    | resumed hsign => rw [Op.signed, hsign]; rfl
    | promoted hc => cases hc
    | rejected hc => cases hc
  | runCycle v i =>
    have hrun : (exec e.host (Op.runCycle v i).act e.before).2 = (PlannedCycle.run ⟨v, e.host, i⟩ e.before).2 := by
      rw [Op.act, exec_bind, PlannedCycle.run]
      generalize exec e.host (v.runCycle i) e.before = out
      obtain ⟨r, s'⟩ := out
      cases r <;> rfl
    rw [hrun] at hstored
    rcases hy : PlannedCycle.yields ⟨v, e.host, i⟩ with _ | m
    · rw [PlannedCycle.run_unyielding hy, hfresh] at hstored
      cases hstored
    by_cases hf : e.before.nodes m.agentId = none
    · obtain ⟨o, hp, ho⟩ := PlannedCycle.yields_some.mp hy
      rw [PlannedCycle.run_fresh hp ho hf] at hstored
      rcases InMemoryInner.stored_push hstored with hstored | ⟨-, rfl⟩
      · rw [hfresh] at hstored
        cases hstored
      · exact hy
    · rw [PlannedCycle.run_duplicate hy hf, hfresh] at hstored
      cases hstored
  | _ => exact hkind.elim

/-- An operation that has committed is refused when it is delivered again. -/
theorem again_refused (hr : Runs ok t s) {e : Event X} (he : e ∈ t) {n : AgentNode X} (hn : e.Commits n) {h : Host X}
    {op : Op X} (ha : Again e h op) : exec h op.act s = (.error (InMemoryInner.duplicate n.agentId), s) := by
  refine signed_refused ((again_signed ha).trans (commits_signed hr he hn ha)) ?_
  rw [(runs_event hr he).later _ _ hn.2]
  exact Option.some_ne_none n

/-- Every history reaches the ledger of one without redeliveries, made of some of its
    events in their order; each event left out was delivered again, after one that is
    kept, and was refused as a duplicate of the node that one committed. -/
theorem redelivered (hr : Runs ok t s) : ∃ t', t'.Sublist t ∧ Runs (fun _ _ _ _ => True) t' s ∧
    t'.Pairwise (fun e e' => ¬ Again e e'.host e'.op) ∧
      ∀ e ∈ t, e ∈ t' ∨ ∃ e₀ ∈ t', Again e₀ e.host e.op ∧
        ∀ n, e₀.Commits n → e.result = .error (InMemoryInner.duplicate n.agentId) ∧ e.after = e.before := by
  induction hr with
  | empty => exact ⟨[], List.Sublist.refl _, .empty, .nil, fun e he => by cases he⟩
  | @next t s h op hr _ hro ih =>
    obtain ⟨t', hsub, hr', hpair, hall⟩ := ih
    by_cases hagain : ∃ e₀ ∈ t', Again e₀ h op
    · obtain ⟨e₀, he₀, ha⟩ := hagain
      have hrefused {n : AgentNode X} (hn : e₀.Commits n) := again_refused hr' he₀ hn ha
      obtain ⟨n, hn⟩ := ha.2.1
      refine ⟨t', hsub.trans (List.sublist_append_left _ _), ?_, hpair, fun e he => ?_⟩
      · rw [Op.event, hrefused hn]
        exact hr'
      · rcases List.mem_append.mp he with he | he
        · exact hall e he
        · obtain rfl := List.mem_singleton.mp he
          refine .inr ⟨e₀, he₀, ha, fun m hm => ?_⟩
          rw [Op.event, hrefused hm]
          exact ⟨rfl, rfl⟩
    · refine ⟨t' ++ [op.event h s], hsub.append (List.Sublist.refl _), .next h op hr' trivial hro, ?_, fun e he => ?_⟩
      · refine List.pairwise_append.mpr ⟨hpair, List.pairwise_singleton _ _, fun e₀ he₀ e he ha => ?_⟩
        obtain rfl := List.mem_singleton.mp he
        exact hagain ⟨e₀, he₀, ha⟩
      · rcases List.mem_append.mp he with he | he
        · rcases hall e he with hkept | ⟨e₀, he₀, h⟩
          · exact .inl (List.mem_append_left _ hkept)
          · exact .inr ⟨e₀, List.mem_append_left _ he₀, h⟩
        · exact .inl (List.mem_append_right _ he)

end

namespace Reference

/-- The root is committed, and its commit is delivered again. -/
theorem redelivered_root : ∃ t, Runs (X := Reference) (fun _ _ _ _ => True) t (.push .default snapshotNode) ∧ t.length = 2 ∧
    ∃ t', t'.Sublist t ∧ Runs (fun _ _ _ _ => True) t' (.push .default snapshotNode) ∧
      t'.Pairwise fun e e' => ¬ Again e e'.host e'.op := by
  let root := Op.commitRoot veh rootArtifact .default "2026-01-01T00:00:00Z"
  have hsigned : root.signed host = some snapshotNode := congrArg Except.toOption snapshot_signed
  have h₁ : Runs (X := Reference) (fun _ _ _ _ => True) _ (.push .default snapshotNode) := snapshot_run trivial
  have h₂ := h₁.then host root trivial trivial (congrArg Prod.snd (signed_refused hsigned (by simp)))
  obtain ⟨t', hsub, hr, hpair, -⟩ := redelivered h₂
  exact ⟨_, h₂, rfl, t', hsub, hr, hpair⟩

end Reference

end RigVeh
