/-
  RigVeh.Runner.Bracket — what a generation calls, and when (`src/evolution.rs`).

  After the selection a generation gets the parent, proposes a candidate and has the
  sandbox enforce its scope on it. Either one of these fails and nothing follows
  (`Unopened`), or the sandbox is open: the cycle runs in it, and one teardown comes
  last (`Bracketed`). A cycle evaluates and appends that candidate and calls nothing
  else (`runCycle_makes`). Every collaborator may answer anything, at any call.
-/

import RigVeh.Base.Trace
import RigVeh.Runner.Selection

namespace RigVeh

open RigVeh.Json RigVeh.Base

variable {X : Crates}

/-- An evaluation, or an append. -/
def Call.Works : Call X → Prop
  | .evaluate _ => True
  | .ledger (.append _) => True
  | _ => False

/-- An evaluation of the candidate, or an append of a node of it. -/
def Call.WorksOn (candidate : AgentArtifact X) : Call X → Prop
  | .evaluate artifact => artifact = candidate
  | .ledger (.append node) => node.artifact = candidate
  | _ => False

/-- The calls a selector may make: it is given the ledger, to read it. -/
def Call.Reads : Call X → Prop
  | .ledger (.append _) => False
  | .ledger (.setHead _) => False
  | .ledger _ => True
  | .now => True
  | _ => False

def Call.isTeardown : Call X → Bool
  | .teardown => true
  | _ => false

/-- Neither a cycle's work nor the end of it. -/
def Call.Prepares (c : Call X) : Prop := ¬ c.Works ∧ c.isTeardown = false

/-- A built-in selector only reads. -/
theorem select_reads {R : Type} (A : Arith R) (hash : List Hashed → UInt64) (b : ParentSelector) :
    (b.select A hash : Act X AgentId).run.Makes Call.Reads := by
  rw [ParentSelector.select_choose]
  apply Prog.makes_seq
  · exact ⟨trivial, fun _ => trivial⟩
  · intro nodes
    refine Prog.makes_mono ?_ (ParentSelector.choose_makes A hash nodes b)
    intro c hc
    obtain rfl := hc
    trivial

theorem reads_prepares {c : Call X} (h : c.Reads) : c.Prepares := by
  cases c with
  | ledger c =>
    cases c with
    | append | setHead => exact h.elim
    | get | head | nodes => exact ⟨id, rfl⟩
  | now => exact ⟨id, rfl⟩
  | evaluate | propose | enforce | teardown => exact h.elim

theorem worksOn_not_teardown {candidate : AgentArtifact X} {c : Call X} (h : c.WorksOn candidate) :
    c.isTeardown = false := by
  cases c with
  | teardown => exact h.elim
  | ledger | evaluate | propose | enforce | now => rfl

/-! ## In a cycle -/

theorem commit_makes (inputs : CommitInputs X) (signingKey : X.SigningKey) :
    (commit inputs signingKey).run.Makes (Call.WorksOn inputs.artifact) := by
  apply Prog.makes_check
  intro node hn
  obtain ⟨hi, -⟩ := signNode_inputs hn
  refine ⟨congrArg CommitInputs.artifact hi, ?_⟩
  intro r
  cases r <;> trivial

/-- A cycle calls nothing but work on its candidate. -/
theorem runCycle_makes (v : Veh X) (i : CycleInputs X) : (v.runCycle i).run.Makes (Call.WorksOn i.candidate) := by
  apply Prog.makes_check
  intro mutationDiff _
  apply Prog.makes_seq
  · exact ⟨rfl, fun _ => trivial⟩
  intro eval
  have hcommit (status : NodeStatus) (validParent : Bool) :=
    commit_makes (cycleInputs i mutationDiff eval status validParent) v.signingKey
  cases v.notImproved i.parent eval with
  | some reason => exact Prog.makes_seq (hcommit .rejected false) fun _ => trivial
  | none =>
    cases v.policy i.parent i.intent i.candidate.capabilitySbom with
    | approve => exact Prog.makes_seq (hcommit .promoted true) fun _ => trivial
    | deny reason => exact Prog.makes_seq (hcommit .rejected false) fun _ => trivial
    | requireApproval reason => trivial

/-! ## Around a cycle -/

/-- The error of the cycle, else that of the teardown, else the cycle's outcome. -/
def closing (cycle : Except Error (CycleOutcome X)) (teardown : Except Error Unit) : Except Error (CycleOutcome X) :=
  match cycle, teardown with
  | .error e, _ => .error e
  | .ok _, .error e => .error e
  | .ok outcome, .ok _ => .ok outcome

variable {σ : Type}

/-- The calls after a selection and the error of the last of them, which comes before the
    sandbox is open. -/
inductive Stopped (intent : MutationIntent) (allowedScope : AllowedScope) (context : MutationContext) :
    Except Error AgentId → List (Prog.Answered (calls X)) → Error → Prop
  | select (e : Error) : Stopped intent allowedScope context (.error e) [] e
  | get (parentId : AgentId) (e : Error) :
      Stopped intent allowedScope context (.ok parentId) [⟨.ledger (.get parentId), .error e⟩] e
  | propose (parentId : AgentId) (parent : AgentNode X) (e : Error) :
      Stopped intent allowedScope context (.ok parentId)
        [⟨.ledger (.get parentId), .ok parent⟩, ⟨.propose parent intent context, .error e⟩] e
  | enforce (parentId : AgentId) (parent : AgentNode X) (candidate : AgentArtifact X) (e : Error) :
      Stopped intent allowedScope context (.ok parentId)
        [⟨.ledger (.get parentId), .ok parent⟩, ⟨.propose parent intent context, .ok candidate⟩,
          ⟨.enforce candidate allowedScope, .error e⟩] e

/-- The sandbox did not open, and nothing was done. -/
structure Unopened (intent : MutationIntent) (allowedScope : AllowedScope) (context : MutationContext)
    (selected : Except Error AgentId) (l : List (Prog.Answered (calls X))) (r : Except Error (CycleOutcome X)) : Prop where
  stopped : ∃ e, Stopped intent allowedScope context selected l e ∧ r = .error e
  prepares : ∀ a ∈ l, a.1.Prepares

/-- The sandbox opened for the cycle `i`, which ran in it from `s`, and was torn down
    once, at the end. -/
structure Opened (v : Veh X) (f : Prog.Handler (calls X) σ) (context : MutationContext) (parentId : AgentId)
    (i : CycleInputs X) (s : σ) (teardown : Except Error Unit) (l : List (Prog.Answered (calls X)))
    (r : Except Error (CycleOutcome X)) : Prop where
  calls : l = [⟨.ledger (.get parentId), .ok i.parent⟩, ⟨.propose i.parent i.intent context, .ok i.candidate⟩,
    ⟨.enforce i.candidate i.allowedScope, .ok ()⟩] ++ (Prog.trace f (v.runCycle i).run s ++ [⟨.teardown, teardown⟩])
  works : ∀ a ∈ Prog.trace f (v.runCycle i).run s, a.1.WorksOn i.candidate
  once : l.countP (·.1.isTeardown) = 1
  result : r = closing (Prog.run f (v.runCycle i).run s).1 teardown

/-- The part of a generation in the sandbox. -/
def Veh.runSandboxed (v : Veh X) (i : CycleInputs X) : Act X (CycleOutcome X) := do
  let outcome ← observe (v.runCycle i)
  let teardown ← observe Act.teardown
  let result ← Prog.attempt outcome
  Prog.attempt teardown
  return result

theorem runSandboxed_run (v : Veh X) (i : CycleInputs X) (f : Prog.Handler (calls X) σ) (s : σ) :
    ∃ teardown, (Prog.run f (v.runSandboxed i).run s).1 = closing (Prog.run f (v.runCycle i).run s).1 teardown ∧
      Prog.trace f (v.runSandboxed i).run s = Prog.trace f (v.runCycle i).run s ++ [⟨.teardown, teardown⟩] := by
  have hrun : Prog.run f (observe (v.runCycle i)).run s =
      (.ok (Prog.run f (v.runCycle i).run s).1, (Prog.run f (v.runCycle i).run s).2) := by
    rw [observe, ExceptT.run_mk, Prog.run_bind]
    rfl
  have htrace : Prog.trace f (observe (v.runCycle i)).run s = Prog.trace f (v.runCycle i).run s := by
    rw [observe, ExceptT.run_mk, Prog.trace_bind]
    exact List.append_nil _
  generalize Prog.run f (v.runCycle i).run s = cycle at hrun ⊢
  obtain ⟨outcome, s'⟩ := cycle
  have hclose : Prog.run f (observe (Act.teardown : Act X Unit)).run s' =
      (.ok (f .teardown s').1, (f .teardown s').2) := rfl
  have hlast : Prog.trace f (observe (Act.teardown : Act X Unit)).run s' = [⟨.teardown, (f .teardown s').1⟩] := rfl
  refine ⟨(f .teardown s').1, ?_, ?_⟩
  · rw [Veh.runSandboxed, Prog.run_seq, hrun, Prog.andThen_ok, Prog.run_seq, hclose, Prog.andThen_ok]
    cases outcome with
    | error e => rfl
    | ok outcome => cases (f .teardown s').1 <;> rfl
  · rw [Veh.runSandboxed, Prog.trace_seq, hrun, htrace, Prog.traceThen_ok, Prog.trace_seq, hclose, hlast,
      Prog.traceThen_ok]
    refine congrArg _ (congrArg _ ?_)
    cases outcome with
    | error e => rfl
    | ok outcome => cases (f .teardown s').1 <;> rfl

section

variable {v : Veh X} {f : Prog.Handler (calls X) σ} {intent : MutationIntent} {allowedScope : AllowedScope}
  {context : MutationContext} {createdAt : String} {selected : Except Error AgentId}

theorem stopped_prepares {l : List (Prog.Answered (calls X))} {e : Error}
    (h : Stopped intent allowedScope context selected l e) : ∀ a ∈ l, a.1.Prepares := by
  cases h with
  | select | get | propose | enforce => simp [Call.Prepares, Call.Works, Call.isTeardown]

/-- The sandbox stayed closed, or was opened for a candidate of the selected parent. -/
def Bracketed (v : Veh X) (f : Prog.Handler (calls X) σ) (intent : MutationIntent) (allowedScope : AllowedScope)
    (context : MutationContext) (createdAt : String) (selected : Except Error AgentId)
    (l : List (Prog.Answered (calls X))) (r : Except Error (CycleOutcome X)) : Prop :=
  Unopened intent allowedScope context selected l r ∨ ∃ parentId parent candidate s teardown, selected = .ok parentId ∧
    Opened v f context parentId ⟨parent, intent, candidate, allowedScope, createdAt⟩ s teardown l r

theorem stopped_bracketed {l : List (Prog.Answered (calls X))} {e : Error}
    (h : Stopped intent allowedScope context selected l e) :
    Bracketed v f intent allowedScope context createdAt selected l (.error e) :=
  .inl ⟨⟨e, h, rfl⟩, stopped_prepares h⟩

variable (v f intent allowedScope context createdAt)

/-- With a candidate there, the rest is opening the sandbox and the cycle in it. -/
theorem enforce_bracketed (parentId : AgentId) (parent : AgentNode X) (candidate : AgentArtifact X) (s : σ) :
    Bracketed v f intent allowedScope context createdAt (.ok parentId)
      ([⟨.ledger (.get parentId), .ok parent⟩, ⟨.propose parent intent context, .ok candidate⟩] ++
        Prog.trace f (Act.enforce candidate allowedScope >>= fun _ =>
          v.runSandboxed ⟨parent, intent, candidate, allowedScope, createdAt⟩).run s)
      (Prog.run f (Act.enforce candidate allowedScope >>= fun _ =>
        v.runSandboxed ⟨parent, intent, candidate, allowedScope, createdAt⟩).run s).1 := by
  have hrun : Prog.run f (Act.enforce candidate allowedScope).run s = f (.enforce candidate allowedScope) s := rfl
  have htrace : Prog.trace f (Act.enforce candidate allowedScope).run s =
      [⟨.enforce candidate allowedScope, (f (.enforce candidate allowedScope) s).1⟩] := rfl
  rw [Prog.trace_seq, Prog.run_seq, hrun, htrace]
  rcases f (.enforce candidate allowedScope) s with ⟨e | ⟨⟩, s'⟩
  · exact stopped_bracketed (.enforce parentId parent candidate e)
  obtain ⟨teardown, hresult, hcalls⟩ := runSandboxed_run v ⟨parent, intent, candidate, allowedScope, createdAt⟩ f s'
  have hworks := Prog.trace_makes f (runCycle_makes v ⟨parent, intent, candidate, allowedScope, createdAt⟩) s'
  have hnone := List.countP_eq_zero.mpr fun a ha => by simpa using worksOn_not_teardown (hworks a ha)
  refine .inr ⟨parentId, parent, candidate, s', teardown, rfl, ?_, hworks, ?_, hresult⟩
  · rw [Prog.traceThen_ok, hcalls]
    rfl
  · rw [Prog.traceThen_ok, hcalls, List.countP_append, List.countP_append, List.countP_append, hnone]
    rfl

/-- With a parent selected, the rest is getting it, proposing a candidate and so on. -/
theorem get_bracketed (parentId : AgentId) (s : σ) :
    Bracketed v f intent allowedScope context createdAt (.ok parentId)
      (Prog.trace f (Act.get parentId >>= fun parent => Act.propose parent intent context >>= fun candidate =>
        Act.enforce candidate allowedScope >>= fun _ =>
          v.runSandboxed ⟨parent, intent, candidate, allowedScope, createdAt⟩).run s)
      (Prog.run f (Act.get parentId >>= fun parent => Act.propose parent intent context >>= fun candidate =>
        Act.enforce candidate allowedScope >>= fun _ =>
          v.runSandboxed ⟨parent, intent, candidate, allowedScope, createdAt⟩).run s).1 := by
  have hget : Prog.run f (Act.get parentId : Act X (AgentNode X)).run s = f (.ledger (.get parentId)) s := rfl
  have hgets : Prog.trace f (Act.get parentId : Act X (AgentNode X)).run s =
      [⟨.ledger (.get parentId), (f (.ledger (.get parentId)) s).1⟩] := rfl
  rw [Prog.trace_seq, Prog.run_seq, hget, hgets]
  rcases f (.ledger (.get parentId)) s with ⟨e | parent, s₁⟩
  · exact stopped_bracketed (.get parentId e)
  have hpropose : Prog.run f (Act.propose parent intent context).run s₁ = f (.propose parent intent context) s₁ := rfl
  have hproposes : Prog.trace f (Act.propose parent intent context).run s₁ =
      [⟨.propose parent intent context, (f (.propose parent intent context) s₁).1⟩] := rfl
  rw [Prog.traceThen_ok, Prog.andThen_ok, Prog.trace_seq, Prog.run_seq, hpropose, hproposes]
  rcases f (.propose parent intent context) s₁ with ⟨e | candidate, s₂⟩
  · exact stopped_bracketed (.propose parentId parent e)
  · exact enforce_bracketed v f intent allowedScope context createdAt parentId parent candidate s₂

end

/-- Whatever the collaborators answer, the sandbox of a generation either did not open,
    as a call before failed, and nothing was done, or it was open for all that was done,
    to one candidate, and torn down once at the end; the selector's own calls come first. -/
theorem sandbox_bracketed (v : Veh X) (select : Act X AgentId) (intent : MutationIntent) (allowedScope : AllowedScope)
    (context : MutationContext) (createdAt : String) (f : Prog.Handler (calls X) σ) (s : σ) :
    ∃ l, Prog.trace f (v.runGeneration select intent allowedScope context createdAt).run s =
        Prog.trace f select.run s ++ l ∧
      Bracketed v f intent allowedScope context createdAt (Prog.run f select.run s).1 l
        (Prog.run f (v.runGeneration select intent allowedScope context createdAt).run s).1 ∧
      (select.run.Makes Call.Reads → ∀ a ∈ Prog.trace f select.run s, a.1.Prepares) := by
  have hgen : v.runGeneration select intent allowedScope context createdAt =
      (select >>= fun parentId => Act.get parentId >>= fun parent => Act.propose parent intent context >>=
        fun candidate => Act.enforce candidate allowedScope >>= fun _ =>
          v.runSandboxed ⟨parent, intent, candidate, allowedScope, createdAt⟩) := rfl
  rw [hgen, Prog.trace_seq, Prog.run_seq]
  refine ⟨_, rfl, ?_, ?_⟩
  · rcases Prog.run f select.run s with ⟨e | parentId, s'⟩
    · exact stopped_bracketed (.select e)
    · exact get_bracketed v f intent allowedScope context createdAt parentId s'
  · intro hreads a ha
    exact reads_prepares (Prog.trace_makes f hreads s a ha)

end RigVeh
