/-
  RigVeh.Runner.Head — the head while operations are interleaved.

  Operations share one ledger (`Shared`). `rollback_to` checks its target in one call and
  moves the head in a later one. What it relies on is that stored nodes stay
  (`heads.later`), what it gives is `Live`: the head names a stored promoted node, and
  is absent only while there is none. Each operation is safe for this protocol
  (`op_safe`), whatever the collaborators answer, so every interleaving keeps it
  (`head_live`).
-/

import RigVeh.Runner.History
import RigVeh.Runner.Shared

namespace RigVeh

open RigVeh.Json RigVeh.Base RigVeh.Base.Prog

variable {X : Crates}

/-- Nothing promoted is stored without a head, and the head is stored and promoted. -/
structure Live (s : InMemoryInner X) : Prop where
  wf : s.Wf
  verified : ∀ id n, s.nodes id = some n → verifyNode n = .ok ()
  headless : s.head = none → ∀ id n, s.nodes id = some n → n.status ≠ .promoted
  head : ∀ id, s.head = some id → ∃ n, s.nodes id = some n ∧ n.status = .promoted

theorem live_default : Live (.default : InMemoryInner X) := by
  refine ⟨InMemoryInner.default_wf, ?_, ?_, ?_⟩ <;> intros <;> contradiction

theorem live_push {s : InMemoryInner X} (h : Live s) {node : AgentNode X} (hv : verifyNode node = .ok ())
    (hf : s.nodes node.agentId = none) : Live (s.push node) where
  wf := InMemoryInner.push_wf h.wf hf
  verified id n hn := by
    rcases InMemoryInner.stored_push hn with hn | ⟨-, rfl⟩
    · exact h.verified id n hn
    · exact hv
  headless hh id n hn := by
    rw [InMemoryInner.push_head] at hh
    split at hh
    · cases hh
    rename_i hp
    rcases InMemoryInner.stored_push hn with hn | ⟨-, rfl⟩
    · exact h.headless hh id n hn
    · exact hp
  head id hid := by
    rw [InMemoryInner.push_head] at hid
    split at hid
    · rename_i hp
      cases hid
      exact ⟨node, InMemoryInner.push_same s node, hp⟩
    · obtain ⟨n, hn, hp⟩ := h.head id hid
      exact ⟨n, InMemoryInner.push_stored hf hn, hp⟩

theorem live_point {s : InMemoryInner X} (h : Live s) {id : AgentId} {n : AgentNode X} (hn : s.nodes id = some n)
    (hp : n.status = .promoted) : Live { s with head := some id } where
  wf := InMemoryInner.head_wf h.wf _
  verified := h.verified
  headless hh := by cases hh
  head := by
    rintro _ ⟨⟩
    exact ⟨n, hn, hp⟩

/-- A live head is kept, and stored nodes stay as they are. -/
def heads : Protocol (InMemoryInner X) where
  inv := Live
  later s s' := ∀ id n, s.nodes id = some n → s'.nodes id = some n
  refl _ _ _ h := h
  trans h h' id n hn := h' id n (h id n hn)

/-! ## Calls -/

section

variable {s : InMemoryInner X}

abbrev Keeps {α : Type} (R : α → InMemoryInner X → Prop) (x : Act X α) (s : InMemoryInner X) : Prop :=
  SafeTo Shared heads R x s

theorem append_safe {node : AgentNode X} (hv : verifyNode node = .ok ()) :
    Keeps (fun _ _ => True) (Act.append node) s :=
  append_keeps (I := Live) fun _ _ hi hf => live_push hi hv hf

/-- What is read stays read. -/
theorem get_safe (id : AgentId) : Keeps (fun n s' => s'.nodes id = some n) (Act.get id) s :=
  get_keeps (I := Live) id

theorem head_safe : Keeps (fun _ _ => True) Act.head s := head_keeps (I := Live)

theorem setHead_safe {id : AgentId} {n : AgentNode X} (hn : s.nodes id = some n) (hp : n.status = .promoted) :
    Keeps (fun _ _ => True) (Act.setHead id) s := by
  intro s₁ hl hi r s₂ hm
  rcases shared_setHead hm with ⟨-, rfl⟩ | ⟨-, rfl⟩
  · exact ⟨live_point hi (hl id n hn) hp, fun _ _ h => h, fun _ _ _ _ _ => trivial⟩
  · exact ⟨hi, fun _ _ h => h, fun _ _ _ _ _ => trivial⟩

theorem evaluate_safe (a : AgentArtifact X) : Keeps (fun _ _ => True) (Act.evaluate a) s :=
  evaluate_keeps (I := Live) a

end

/-! ## Operations -/

section

variable (hS : X.Signs) (hH : X.HexReads) {s : InMemoryInner X}

include hS hH in
theorem commit_safe (hi : Live s) (i : CommitInputs X) (k : X.SigningKey) : Keeps (fun _ _ => True) (commit i k) s := by
  apply safeTo_check hi
  intro node hn s' _ hi'
  apply safeTo_then hi' (append_safe (verify_signNode hS hH hn))
  intro _ _ _ _ _
  exact safeTo_pure fun _ _ _ => trivial

include hS hH in
theorem runCycle_safe (hi : Live s) (v : Veh X) (i : CycleInputs X) : Keeps (fun _ _ => True) (v.runCycle i) s := by
  apply safeTo_check hi
  intro diff _ s₁ _ hi₁
  apply safeTo_then hi₁ (evaluate_safe _)
  intro eval s₂ _ hi₂ _
  have hcommit {α : Type} (c : CommitInputs X) (f : AgentNode X → α) :
      Keeps (fun _ _ => True) (commit c v.signingKey >>= fun node => pure (f node)) s₂ :=
    safeTo_then hi₂ (commit_safe hS hH hi₂ c _) fun _ _ _ _ _ => safeTo_pure fun _ _ _ => trivial
  rcases v.notImproved i.parent eval with _ | reason
  · rcases v.policy i.parent i.intent i.candidate.capabilitySbom with _ | reason | reason
    · exact hcommit _ _
    · exact hcommit _ _
    · exact safeTo_pure fun _ _ _ => trivial
  · exact hcommit _ _

/-- The target is still stored, verified and promoted when the program goes on. -/
theorem rollbackTarget_safe (hi : Live s) (id : AgentId) :
    Keeps (fun target s' => s'.nodes id = some target ∧ target.status = .promoted) (rollbackTarget id) s :=
  rollbackTarget_keeps (I := Live) hi id

theorem rollbackTo_safe (hi : Live s) (id : AgentId) : Keeps (fun _ _ => True) (Veh.rollbackTo id : Act X Unit) s :=
  safeTo_then hi (rollbackTarget_safe hi id) fun _ _ _ _ ht => setHead_safe ht.1 ht.2

include hS hH in
theorem commitRollback_safe (hi : Live s) (v : Veh X) (targetId : AgentId) (createdAt : String) :
    Keeps (fun _ _ => True) (v.commitRollback targetId createdAt) s := by
  apply safeTo_then hi (rollbackTarget_safe hi targetId)
  intro target s₁ _ hi₁ _
  apply safeTo_then hi₁ head_safe
  intro head s₂ _ hi₂ _
  rcases head with _ | parentId
  · exact safeTo_attempt fun _ he => by cases he
  · exact safeTo_then hi₂ (get_safe parentId) fun _ _ _ hi₃ _ => commit_safe hS hH hi₃ _ _

/-- The operations of the runner itself. -/
def Op.OfRunner : Op X → Prop
  | .runGeneration _ _ _ _ _ _ => False
  | _ => True

include hS hH in
theorem op_safe (hi : Live s) {op : Op X} (ho : op.OfRunner) : Keeps (fun _ _ => True) op.act s := by
  have hdone {α β : Type} {x : Act X α} (f : α → β) (hx : Keeps (fun _ _ => True) x s) :
      Keeps (fun _ _ => True) (x >>= fun a => pure (f a)) s :=
    safeTo_then hi hx fun _ _ _ _ _ => safeTo_pure fun _ _ _ => trivial
  cases op with
  | commitRoot v artifact scope createdAt => exact hdone _ (commit_safe hS hH hi _ _)
  | runCycle v i => exact hdone _ (runCycle_safe hS hH hi v i)
  | resumeWithApproval pending key => exact hdone _ (commit_safe hS hH hi _ _)
  | rollbackTo id => exact hdone _ (rollbackTo_safe hi id)
  | commitRollback v targetId createdAt => exact hdone _ (commitRollback_safe hS hH hi v targetId createdAt)
  | runGeneration => exact ho.elim

end

/-! ## Interleavings -/

/-- Any operation of any runner may be started at any time. -/
def Started : InMemoryInner X → List (Prog (calls X) (Except Error (Outcome X))) →
    Prog (calls X) (Except Error (Outcome X)) → Prop :=
  fun _ _ p => ∃ op : Op X, op.OfRunner ∧ p = op.act.run

/-- In every ledger an interleaving reaches there is no head exactly if nothing promoted
    was appended; otherwise it names a stored promoted node that verifies. -/
theorem head_live (hS : X.Signs) (hH : X.HexReads) {s : InMemoryInner X}
    {ps : List (Prog (calls X) (Except Error (Outcome X)))} (hp : Pool Shared Started .default s ps) :
    (s.head = none ↔ ∀ n ∈ s.list, n.status ≠ .promoted) ∧
      ∀ id, s.head = some id → ∃ n ∈ s.list, n.agentId = id ∧ n.status = .promoted ∧ verifyNode n = .ok () := by
  obtain ⟨hl, -⟩ := pool_safe (P := heads) (Q := fun _ _ => True) live_default
    (fun s _ p hi _ ⟨op, ho, h⟩ => h ▸ safe_mono (fun _ _ _ _ => trivial) (op_safe hS hH hi ho)) hp
  have hhead (id : AgentId) (hid : s.head = some id) :
      ∃ n ∈ s.list, n.agentId = id ∧ n.status = .promoted ∧ verifyNode n = .ok () := by
    obtain ⟨n, hn, hp⟩ := hl.head id hid
    have hkey := hl.wf.keyed id n hn
    exact ⟨n, (InMemoryInner.mem_list hl.wf).mpr (hkey ▸ hn), hkey, hp, hl.verified id n hn⟩
  refine ⟨⟨fun hnone n hn => hl.headless hnone _ n ((InMemoryInner.mem_list hl.wf).mp hn), fun hno => ?_⟩, hhead⟩
  rcases hs : s.head with _ | id
  · rfl
  · obtain ⟨n, hn, -, hp, -⟩ := hhead id hs
    exact absurd hp (hno n hn)

namespace Reference

/-- A commit of what can be signed is one call. -/
theorem commitRoot_calls {artifact : AgentArtifact Reference} {scope : AllowedScope} {createdAt : String}
    {node : AgentNode Reference} (hn : signNode (rootInputs artifact scope createdAt) seed = .ok node) :
    ∃ k, (Op.commitRoot veh artifact scope createdAt).act.run = Prog.call (S := calls Reference) (.ledger (.append node)) k := by
  rw [Op.act, Veh.commitRoot, commit, show veh.signingKey = seed from rfl, hn]
  exact ⟨_, rfl⟩

/-- A rollback to the root is started, the root is committed, the rollback reads it. -/
theorem head_live_snapshot : ∃ (s : InMemoryInner Reference) (ps : List (Prog (calls Reference) _)),
    Pool Shared Started .default s ps ∧ ps.length = 2 ∧ s.head = some snapshotNode.agentId ∧
      ∃ n ∈ s.list, n.agentId = snapshotNode.agentId ∧ n.status = .promoted ∧ verifyNode n = .ok () := by
  obtain ⟨k, hk⟩ := commitRoot_calls snapshot_signed
  have h₀ : Pool (Shared (X := Reference)) Started .default .default [] := .init
  have h₁ := h₀.spawn _ ⟨.rollbackTo snapshotNode.agentId, trivial, rfl⟩
  have h₂ := h₁.spawn _ ⟨.commitRoot veh rootArtifact .default "2026-01-01T00:00:00Z", trivial, rfl⟩
  rw [hk] at h₂
  have happend : Shared (.ledger (.append snapshotNode)) .default (.ok ()) (.push .default snapshotNode) :=
    (InMemoryInner.append_fresh rfl).symm
  have hget : Shared (.ledger (.get snapshotNode.agentId)) (.push .default snapshotNode) (.ok snapshotNode)
      (.push .default snapshotNode) := rfl
  have h₃ := Pool.step _ k _ (show Pool Shared Started .default .default ([_] ++ _ :: []) from h₂) happend
  have h₄ := Pool.step _ _ _ (show Pool Shared Started .default _ ([] ++ .call (.ledger (.get _)) _ :: _) from h₃) hget
  exact ⟨_, _, h₄, rfl, rfl, (head_live signs hexReads h₄).2 _ rfl⟩

end Reference

end RigVeh
