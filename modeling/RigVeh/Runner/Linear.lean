/-
  RigVeh.Runner.Linear — interleaved operations as if they ran one at a time.

  `commit_root`, `run_cycle`, `resume_with_approval` and `rollback_to` touch the ledger
  last: all they do before is ask the collaborators and read a node, and a node read is
  the same later (`op_late`). So any number of them, interleaved call by call, end in
  the ledger of a sequential history with their results, in the order they returned
  (`ops_linearized`), and what holds of histories holds of interleavings.
  `commit_rollback` and `run_generation` decide on what they read of the ledger, which
  may have changed when they append, and are not among them.
-/

import RigVeh.Base.Serial
import RigVeh.Base.Trace
import RigVeh.Runner.Head
import RigVeh.Runner.Scope

namespace RigVeh

open RigVeh.Json RigVeh.Base RigVeh.Base.Prog

variable {X : Crates}

/-- The operations that decide nothing on a read that may be overtaken. -/
def Op.Atomic : Op X → Prop
  | .commitRollback _ _ _ => False
  | .runGeneration _ _ _ _ _ _ => False
  | _ => True

theorem Op.Atomic.readsOnly {op : Op X} (h : op.Atomic) : op.ReadsOnly := by
  cases op with
  | runGeneration => exact h.elim
  | _ => trivial

/-! ## The operations are late -/

abbrev Puts {α : Type} (x : Act X α) : Prop := Late Shared (keeping (X := X) fun _ => True) x.run

theorem commit_late (i : CommitInputs X) (k : X.SigningKey) : Puts (commit i k) :=
  late_check fun node _ => late_map (x := Act.append node) (late_last _)

theorem runCycle_late (v : Veh X) (i : CycleInputs X) : Puts (v.runCycle i) := by
  refine late_check fun diff _ => late_then (.evaluate i.candidate) id rfl (fun s r s' _ hm => ?_) fun eval => ?_
  · exact .inr ⟨hm, fun _ _ _ => rfl⟩
  · have hcommit {α : Type} (c : CommitInputs X) (f : AgentNode X → α) :
        Puts (commit c v.signingKey >>= fun node => pure (f node)) := late_map (commit_late c _)
    rcases v.notImproved i.parent eval with _ | reason
    · rcases v.policy i.parent i.intent i.candidate.capabilitySbom with _ | reason | reason
      · exact hcommit _ _
      · exact hcommit _ _
      · trivial
    · exact hcommit _ _

theorem rollbackTo_late (id : AgentId) : Puts (Veh.rollbackTo id : Act X Unit) := by
  rw [Puts, Veh.rollbackTo, rollbackTarget, bind_assoc]
  refine late_then (.ledger (.get id)) (fun r => r) rfl (fun s r s' _ hm => ?_) fun target => ?_
  · -- a node that was found is found again, and nothing comes after an error
    cases r with
    | error e => exact .inl ⟨e, rfl⟩
    | ok n =>
      obtain ⟨hn, hs⟩ := shared_get hm
      exact .inr ⟨hs, fun u hl _ => Prod.ext (InMemoryInner.get_ok.mpr (hl id n hn)).symm rfl⟩
  · rw [bind_assoc]
    refine late_check fun _ _ => ?_
    split
    · trivial
    · exact late_last _

theorem op_late {op : Op X} (ho : op.Atomic) : Puts op.act := by
  cases op with
  | commitRoot => exact late_map (commit_late _ _)
  | runCycle v i => exact late_map (runCycle_late v i)
  | resumeWithApproval => exact late_map (commit_late _ _)
  | rollbackTo id => exact late_map (rollbackTo_late id)
  | commitRollback => exact ho.elim
  | runGeneration => exact ho.elim

/-! ## Alone -/

def Call.OfLedger : Call X → Prop
  | .ledger _ => True
  | _ => False

theorem commit_ofLedger (i : CommitInputs X) (k : X.SigningKey) : (commit i k).run.Makes Call.OfLedger :=
  makes_check fun _ _ => ⟨trivial, fun r => by cases r <;> trivial⟩

theorem map_ofLedger {α β : Type} {x : Act X α} (f : α → β) (hx : x.run.Makes Call.OfLedger) :
    (x >>= fun a => pure (f a)).run.Makes Call.OfLedger :=
  makes_seq hx fun _ => trivial

theorem rollbackTo_ofLedger (id : AgentId) : (Veh.rollbackTo id : Act X Unit).run.Makes Call.OfLedger := by
  have htarget : (rollbackTarget id : Act X (AgentNode X)).run.Makes Call.OfLedger := by
    refine makes_seq ⟨trivial, fun _ => trivial⟩ fun target => makes_check fun _ _ => ?_
    split <;> trivial
  exact makes_seq htarget fun _ => ⟨trivial, fun _ => trivial⟩

/-- The ledger leaves no choice. -/
theorem ledger_solo {α : Type} {p : Prog (calls X) α} (hp : p.Makes Call.OfLedger) {s s' : InMemoryInner X} {r : α}
    (hs : Solo Shared p s r s') (h : Host X) : run h.answer p s = (r, s') := by
  refine solo_run (C := Call.OfLedger) (fun c hc s r s' hm => ?_) hp hs
  cases c with
  | ledger c => exact Eq.symm hm
  | _ => exact hc.elim

/-- A cycle asks for one evaluation, and then only the ledger. -/
theorem runCycle_asks (v : Veh X) (i : CycleInputs X) :
    (∃ e, (Op.runCycle v i).act.run = .ret (.error e)) ∨
      ∃ k, (Op.runCycle v i).act.run = .call (S := calls X) (.evaluate i.candidate) k ∧ ∀ r, (k r).Makes Call.OfLedger := by
  rw [Op.act, Veh.runCycle, bind_assoc]
  rcases manifestDiff i.parent.artifact i.candidate with e | diff
  · exact .inl ⟨e, rfl⟩
  have hseq {β : Type} (g : EvalResult → Act X β) : (Act.evaluate i.candidate >>= g).run =
      .call (S := calls X) (.evaluate i.candidate) fun r => (attempt r >>= g).run :=
    seq_call (x := Act.evaluate i.candidate) rfl
  refine .inr ⟨_, (congrArg ExceptT.run (bind_assoc (Act.evaluate i.candidate) _ _)).trans (hseq _), fun r => ?_⟩
  refine makes_check fun eval _ => map_ofLedger Outcome.cycle ?_
  have hcommit {α : Type} (c : CommitInputs X) (f : AgentNode X → α) :
      (commit c v.signingKey >>= fun node => pure (f node)).run.Makes Call.OfLedger := map_ofLedger f (commit_ofLedger c _)
  rcases v.notImproved i.parent eval with _ | reason
  · rcases v.policy i.parent i.intent i.candidate.capabilitySbom with _ | reason | reason
    · exact hcommit _ _
    · exact hcommit _ _
    · trivial
  · exact hcommit _ _

/-- Collaborators of which only the evaluator is asked. -/
def evaluating (r : Except Error EvalResult) : Host X where
  evaluate _ := r
  propose _ _ _ := .error .missingParent
  enforce _ _ := .ok ()
  teardown := .ok ()
  now := 0

/-- Alone, an operation does what it does with some collaborators. -/
theorem solo_exec {op : Op X} (ho : op.Atomic) {s s' : InMemoryInner X} {r : Except Error (Outcome X)}
    (hs : Solo Shared op.act.run s r s') : ∃ h, exec h op.act s = (r, s') := by
  have hledger (hp : op.act.run.Makes Call.OfLedger) : ∃ h, exec h op.act s = (r, s') :=
    ⟨evaluating (.error .missingParent), ledger_solo hp hs _⟩
  cases op with
  | commitRoot => exact hledger (map_ofLedger _ (commit_ofLedger _ _))
  | resumeWithApproval => exact hledger (map_ofLedger _ (commit_ofLedger _ _))
  | rollbackTo id => exact hledger (map_ofLedger _ (rollbackTo_ofLedger id))
  | commitRollback => exact ho.elim
  | runGeneration => exact ho.elim
  | runCycle v i =>
    rcases runCycle_asks v i with ⟨e, hrun⟩ | ⟨k, hrun, hk⟩
    · refine hledger ?_
      rw [hrun]
      trivial
    · rw [hrun, solo_call] at hs
      obtain ⟨answer, s₁, hm, hs⟩ := hs
      obtain rfl : s₁ = s := hm
      refine ⟨evaluating answer, ?_⟩
      rw [exec, hrun]
      exact ledger_solo (hk answer) hs (evaluating answer)

/-! ## Interleaved -/

/-- Any of these operations may be started at any time. -/
def StartedAtomic : InMemoryInner X → List (Prog (calls X) (Except Error (Outcome X))) →
    Prog (calls X) (Except Error (Outcome X)) → Prop :=
  fun _ _ p => ∃ op : Op X, op.Atomic ∧ p = op.act.run

/-- Operations that ran one after the other are a history. -/
theorem serial_runs {l : List (Prog (calls X) (Except Error (Outcome X)) × Except Error (Outcome X))}
    {s : InMemoryInner X} (hs : Serial Shared .default l s) (hl : ∀ x ∈ l, ∃ op : Op X, op.Atomic ∧ x.1 = op.act.run) :
    ∃ t : List (Event X), Runs (fun _ _ _ op => op.Atomic) t s ∧
      List.Forall₂ (fun x e => x.1 = e.op.act.run ∧ x.2 = e.result) l t := by
  generalize h₀ : (InMemoryInner.default : InMemoryInner X) = s₀ at hs
  induction hs with
  | none =>
    subst h₀
    exact ⟨[], .empty, .nil⟩
  | @next s₁ s' l p r _ hsolo ih =>
    obtain ⟨t, ht, hall⟩ := ih (fun x hx => hl x (List.mem_append_left _ hx))
    obtain ⟨op, ho, hp⟩ := hl (p, r) (by simp)
    obtain rfl : p = op.act.run := hp
    obtain ⟨h, hexec⟩ := solo_exec ho hsolo
    refine ⟨_, ht.then h op ho ho.readsOnly (by rw [hexec]), List.rel_append hall (.cons ⟨rfl, ?_⟩ .nil)⟩
    rw [Op.event, hexec]

/-- However these operations were interleaved and whatever their collaborators answered,
    the ledger is that of a sequential history of those that returned, each with the
    result it returned, in the order they did. -/
theorem ops_linearized {d : List (Return (calls X) (Except Error (Outcome X)))} {s : InMemoryInner X}
    {ps : List (Prog (calls X) (Except Error (Outcome X)) × Prog (calls X) (Except Error (Outcome X)))}
    (hc : Course Shared StartedAtomic .default d s ps) :
    (d.map Return.who).Nodup ∧ (∀ x, x ∈ d ↔ ps[x.who]? = some (x.prog, .ret x.result)) ∧
      ∃ t : List (Event X), Runs (fun _ _ _ op => op.Atomic) t s ∧
        List.Forall₂ (fun x e => x.prog = e.op.act.run ∧ x.result = e.result) d t := by
  have hserial : Serial Shared .default (d.map fun x => (x.prog, x.result)) s :=
    course_serial (P := keeping fun _ => True) (fun _ _ _ _ _ hm => ⟨trivial, shared_keeps hm⟩) trivial
      (fun _ _ p ⟨op, ho, hp⟩ => by
        rw [hp]
        exact op_late ho) hc
  refine ⟨course_nodup hc, course_returned hc, ?_⟩
  have hops (x : _) (hx : x ∈ d.map fun x => (x.prog, x.result)) : ∃ op : Op X, op.Atomic ∧ x.1 = op.act.run := by
    obtain ⟨y, hy, rfl⟩ := List.mem_map.mp hx
    exact course_started (Q := fun p => ∃ op : Op X, op.Atomic ∧ p = op.act.run) (fun _ _ _ h => h) hc _
      (List.mem_of_getElem? ((course_returned hc y).mp hy))
  obtain ⟨t, ht, hall⟩ := serial_runs hserial hops
  exact ⟨t, ht, List.forall₂_map_left_iff.mp hall⟩

namespace Reference

/-- A program that leaves another ledger makes a call. -/
theorem call_left {p : Prog (calls Reference) (Except Error (Outcome Reference))} {s s' : InMemoryInner Reference}
    {r : Except Error (Outcome Reference)} (hp : run host.answer p s = (r, s')) (hs : s' ≠ s) : ∃ c k, p = .call c k := by
  cases p with
  | ret a => exact absurd (congrArg Prod.snd hp).symm hs
  | call c k => exact ⟨c, k, rfl⟩

theorem push_ne {s : InMemoryInner Reference} {node : AgentNode Reference} (hf : s.nodes node.agentId = none) :
    s.push node ≠ s := by
  intro h
  have hsame := InMemoryInner.push_same s node
  rw [h, hf] at hsame
  cases hsame

/-- A cycle has its candidate evaluated, the root is committed, the cycle commits the child. -/
theorem child_course : ∃ d ps, Course Shared StartedAtomic .default d (.push (.push .default snapshotNode) child) ps ∧
    d.map Return.who = [1, 0] := by
  have hroot : run host.answer (Op.commitRoot veh rootArtifact .default "2026-01-01T00:00:00Z").act.run .default =
      (.ok (.node snapshotNode), .push .default snapshotNode) := by
    change exec host (Op.commitRoot veh rootArtifact .default "2026-01-01T00:00:00Z").act .default = _
    have hcommit : exec host (commit (rootInputs rootArtifact .default "2026-01-01T00:00:00Z") seed) .default =
        (.ok snapshotNode, .push .default snapshotNode) := commit_fresh snapshot_signed rfl
    rw [Op.act, exec_bind, Veh.commitRoot, show veh.signingKey = seed from rfl, hcommit]
    rfl
  have hcycle : run host.answer (Op.runCycle veh widening).act.run (.push .default snapshotNode) =
      (.ok (.cycle (.promoted child ⟨half, .null⟩)), .push (.push .default snapshotNode) child) := by
    change exec host (Op.runCycle veh widening).act (.push .default snapshotNode) = _
    simp only [Op.act, exec_bind, child_promoted, Prog.andThen_ok, exec_pure]
  have hne : InMemoryInner.push (.push .default snapshotNode) child ≠ .push .default snapshotNode :=
    push_ne (by decide)
  rcases runCycle_asks veh widening with ⟨e, hrun⟩ | ⟨k, hrun, -⟩
  · rw [hrun] at hcycle
    exact absurd (congrArg Prod.snd hcycle).symm hne
  obtain ⟨c, k', hk⟩ := call_left (p := k (.ok ⟨half, .null⟩)) (by rwa [hrun] at hcycle) hne
  obtain ⟨c₀, k₀, hk₀⟩ := call_left hroot (push_ne rfl)
  have h₀ : Course (Shared (X := Reference)) StartedAtomic .default [] .default [] := .init
  have h₁ := h₀.spawn _ ⟨.runCycle veh widening, trivial, rfl⟩
  rw [hrun] at h₁
  have h₂ : Course Shared StartedAtomic .default _ .default ([] ++ (_, k (.ok ⟨half, .null⟩)) :: []) :=
    .step _ k (.ok ⟨half, .null⟩) h₁ rfl
  rw [hk] at h₂
  have h₃ := h₂.spawn _ ⟨.commitRoot veh rootArtifact .default "2026-01-01T00:00:00Z", trivial, rfl⟩
  rw [hk₀] at h₃ hroot
  rw [hrun, run_call, show host.answer (.evaluate widening.candidate) _ = (.ok ⟨half, .null⟩, _) from rfl, hk] at hcycle
  have hsolo := run_solo (host_shared host) (.call c₀ k₀) .default
  have hsolo' := run_solo (host_shared host) (.call c k') (.push .default snapshotNode)
  rw [hroot] at hsolo
  rw [hcycle] at hsolo'
  have h₄ := course_solo [_] [] h₃ (fun _ h => by cases h) hsolo
  have h₅ := course_solo [] [_] h₄ (fun _ h => by cases h) hsolo'
  exact ⟨_, _, h₅, rfl⟩

theorem ops_linearized_child : ∃ d : List (Return (calls Reference) (Except Error (Outcome Reference))),
    d.map Return.who = [1, 0] ∧
      ∃ t : List (Event Reference), Runs (fun _ _ _ op => op.Atomic) t (.push (.push .default snapshotNode) child) ∧
        List.Forall₂ (fun x e => x.prog = e.op.act.run ∧ x.result = e.result) d t := by
  obtain ⟨d, ps, hc, hd⟩ := child_course
  exact ⟨d, hd, (ops_linearized hc).2.2⟩

end Reference

end RigVeh
