/-
  RigVeh.Runner.Restore — what a signed rollback restores and keeps.

  `Restored` is the ledger after `commit_rollback`: one node more, made head, with its
  position from the old head and its contents from the target. Any promoted node of a
  ledger reached by operations can be a target again (`Retargetable`); a signed
  rollback to it is refused only when the node it signs is already stored. So along
  any sequence of rollbacks, signed or of the pointer alone, and whether they succeed
  or fail, stored nodes stay and the head carries what the last target does
  (`rollback_restores`).
-/

import RigVeh.Runner.Outcome

namespace RigVeh

open RigVeh.Json RigVeh.Base

variable {X : Crates}

/-! ## Reached ledgers -/

section

variable {ok : Rule X} {t : List (Event X)} {h : Host X} {s s' : InMemoryInner X} {op : Op X}
  {r : Except Error (Outcome X)}

/-- Operations keep the head live. -/
theorem effect_live (hS : X.Signs) (hH : X.HexReads) (he : Effect h s op r s') (hi : Live s) : Live s' := by
  have hpush {i : CommitInputs X} {k : X.SigningKey} {n : AgentNode X} (hn : signNode i k = .ok n)
      (hf : s.nodes n.agentId = none) : Live (s.push n) := live_push hi (verify_signNode hS hH hn) hf
  cases he with
  | failed => exact hi
  | pointed hn _ hp => exact live_point hi hn hp
  | root hn hf => exact hpush hn hf
  | resumed hn hf => exact hpush hn hf
  | rolledBack _ _ _ _ _ hn hf => exact hpush hn hf
  | cycle _ hcy _ =>
    cases hcy with
    | failed => exact hi
    | awaiting => exact hi
    | promoted _ _ _ hn hf => exact hpush hn hf
    | rejected _ _ hn hf => exact hpush hn hf

theorem runs_live (hS : X.Signs) (hH : X.HexReads) (hr : Runs ok t s) : Live s := by
  induction hr with
  | empty => exact live_default
  | next h op _ _ hro ih => exact effect_live hS hH (effect h op hro _) ih

/-- A stored node's SBOM is its artifact's. -/
theorem runs_derived (hr : Runs ok t s) {id : AgentId} {n : AgentNode X} (hn : s.nodes id = some n) :
    n.capabilitySbom = n.artifact.capabilitySbom := by
  obtain ⟨_, _, _, hd⟩ := committed hr hn
  exact hd.derived

/-- A stored node's artifact can be signed once more. -/
theorem runs_encodes (hr : Runs ok t s) {id : AgentId} {n : AgentNode X} (hn : s.nodes id = some n) :
    ∃ m, X.manifestToValue n.artifact.manifest = .ok m := by
  obtain ⟨_, _, _, hd⟩ := committed hr hn
  obtain ⟨i, k, hsign⟩ := hd.signed
  obtain ⟨payload, hp, -⟩ := Prog.bind_ok hsign
  obtain ⟨m, hm, -⟩ := CommitInputs.signingPayload_eq hp
  rw [show n.artifact = i.artifact from congrArg CommitInputs.artifact (signNode_inputs hsign).1]
  exact ⟨m, hm⟩

end

/-! ## One rollback -/

structure Restored (s s' : InMemoryInner X) (targetId : AgentId) (createdAt : String) (node : AgentNode X) : Prop where
  appended : Appended s s' node
  head : s'.head = some node.agentId
  position : ∃ parentId parent, s.head = some parentId ∧ s.nodes parentId = some parent ∧
    node.parentId = some parentId ∧ node.generation = parent.generation + 1
  contents : ∃ target, s.nodes targetId = some target ∧ verifyNode target = .ok () ∧ target.status = .promoted ∧
    node.artifact = target.artifact ∧ node.capabilitySbom = target.capabilitySbom ∧
    node.allowedScope = target.allowedScope
  rollbackTarget : node.mutationIntent.rollbackTarget = some targetId
  createdAt_eq : node.createdAt = createdAt
  promoted : node.status = .promoted
  verifies : verifyNode node = .ok ()

/-- A rollback to `node` succeeds: of the pointer, and a signed one that takes its position
    from the head and its contents from `node`, unless the node so signed is stored already. -/
structure Retargetable (s : InMemoryInner X) (node : AgentNode X) : Prop where
  points : ∀ h : Host X, exec h (Veh.rollbackTo node.agentId) s = (.ok (), { s with head := some node.agentId })
  commits : ∀ (h : Host X) (v : Veh X) (createdAt : String), ∃ parentId parent again,
    s.head = some parentId ∧ s.nodes parentId = some parent ∧
    signNode (rollbackInputs parent node node.agentId createdAt) v.signingKey = .ok again ∧
    (s.nodes again.agentId = none → exec h (v.commitRollback node.agentId createdAt) s = (.ok again, s.push again)) ∧
    (s.nodes again.agentId ≠ none → exec h (v.commitRollback node.agentId createdAt) s =
      (.error (InMemoryInner.duplicate again.agentId), s))

theorem rollbackTarget_rollback (id : AgentId) : (MutationIntent.rollback id).rollbackTarget = some id := rfl

section

variable (hS : X.Signs) (hH : X.HexReads) {ok : Rule X} {t : List (Event X)} {s : InMemoryInner X} {node : AgentNode X}

include hS hH

theorem rolledBack_restored (hr : Runs ok t s) {v : Veh X} {targetId parentId : AgentId} {createdAt : String}
    {target parent : AgentNode X} (ht : s.nodes targetId = some target) (hv : verifyNode target = .ok ())
    (hp : target.status = .promoted) (hh : s.head = some parentId) (hpar : s.nodes parentId = some parent)
    (hn : signNode (rollbackInputs parent target targetId createdAt) v.signingKey = .ok node)
    (hf : s.nodes node.agentId = none) : Restored s (s.push node) targetId createdAt node := by
  obtain ⟨hi, hsbom, -⟩ := signNode_inputs hn
  have hprom : node.status = .promoted := congrArg CommitInputs.status hi
  have hid : node.parentId = some parent.agentId := congrArg CommitInputs.parentId hi
  refine ⟨push_appended hf, ?_, ⟨parentId, parent, hh, hpar, ?_, congrArg CommitInputs.generation hi⟩,
    ⟨target, ht, hv, hp, congrArg CommitInputs.artifact hi, ?_, congrArg CommitInputs.allowedScope hi⟩, ?_,
    congrArg CommitInputs.createdAt hi, hprom, verify_signNode hS hH hn⟩
  · rw [InMemoryInner.push_head, if_pos hprom]
  · rw [hid, runs_keyed hr hpar]
  · rw [hsbom, runs_derived hr ht]
    rfl
  · rw [show node.mutationIntent = .rollback targetId from congrArg CommitInputs.mutationIntent hi,
      rollbackTarget_rollback]

theorem promoted_retargetable (hr : Runs ok t s) (hn : s.nodes node.agentId = some node) (hp : node.status = .promoted) :
    Retargetable s node := by
  have hlive := runs_live hS hH hr
  have hv := hlive.verified _ node hn
  have htarget (h : Host X) : exec h (rollbackTarget node.agentId) s = (.ok node, s) := rollbackTarget_found hn hv hp
  refine ⟨?_, ?_⟩
  · intro h
    rw [Veh.rollbackTo, exec_bind, htarget, Prog.andThen_ok, exec_setHead, InMemoryInner.setHead, if_pos]
    rw [hn]
    rfl
  · intro h v createdAt
    rcases hh : s.head with _ | parentId
    · exact (hlive.headless hh _ node hn hp).elim
    obtain ⟨parent, hpar, -⟩ := hlive.head parentId hh
    obtain ⟨m, hm⟩ := runs_encodes hr hn
    obtain ⟨again, ha⟩ := signNode_total (i := rollbackInputs parent node node.agentId createdAt) hm v.signingKey
    refine ⟨parentId, parent, again, rfl, hpar, ha, fun hf => commitRollback_commits hn hv hp hh hpar ha hf, ?_⟩
    intro hf
    simp only [Veh.commitRollback, exec_bind, htarget, Prog.andThen_ok, exec_head, hh, exec_get,
      InMemoryInner.get_ok.mpr hpar, commit_refused ha hf]

end

/-! ## Sequences of rollbacks -/

/-- What a host may ask for: a signed rollback, or one of the pointer. -/
inductive Rollback (X : Crates) where
  | commit (v : Veh X) (targetId : AgentId) (createdAt : String)
  | pointer (targetId : AgentId)

namespace Rollback

def op : Rollback X → Op X
  | commit v targetId createdAt => .commitRollback v targetId createdAt
  | pointer targetId => .rollbackTo targetId

def target : Rollback X → AgentId
  | commit _ targetId _ => targetId
  | pointer targetId => targetId

theorem readsOnly (r : Rollback X) : r.op.ReadsOnly := by
  cases r <;> trivial

end Rollback

/-- One rollback after others: the ledger left, and the target of the last one that
    returned Ok. -/
def roll (h : Host X) (out : InMemoryInner X × Option AgentId) (r : Rollback X) : InMemoryInner X × Option AgentId :=
  ((exec h r.op.act out.1).2, if (exec h r.op.act out.1).1.isOk then some r.target else out.2)

/-- Nothing stored in `s` is lost or moved in `s'`. -/
structure Kept (s s' : InMemoryInner X) : Prop where
  order : s.insertionOrder <+: s'.insertionOrder
  stored : ∀ id n, s.nodes id = some n → s'.nodes id = some n

theorem Kept.refl (s : InMemoryInner X) : Kept s s := ⟨List.prefix_refl _, fun _ _ h => h⟩

theorem Kept.trans {a b c : InMemoryInner X} (h : Kept a b) (h' : Kept b c) : Kept a c :=
  ⟨h.order.trans h'.order, fun id n hn => h'.stored id n (h.stored id n hn)⟩

/-- The head holds what the stored node `id` holds. -/
def HeadCarries (s : InMemoryInner X) (id : AgentId) : Prop :=
  ∃ target headId n, s.nodes id = some target ∧ s.head = some headId ∧ s.nodes headId = some n ∧
    n.artifact = target.artifact ∧ n.capabilitySbom = target.capabilitySbom ∧ n.allowedScope = target.allowedScope

/-- `s` is left by some history of operations. -/
def Reached (s : InMemoryInner X) : Prop := ∃ t, Runs (fun _ _ _ _ => True) t s

section

variable (hS : X.Signs) (hH : X.HexReads) {h : Host X} {s : InMemoryInner X}

include hS hH

/-- A rollback that fails changes nothing; after any other the head carries the target's
    contents. -/
theorem roll_step (hr : Reached s) (r : Rollback X) :
    (∃ e, exec h r.op.act s = (.error e, s)) ∨
      (exec h r.op.act s).1.isOk = true ∧ Kept s (exec h r.op.act s).2 ∧ HeadCarries (exec h r.op.act s).2 r.target := by
  obtain ⟨t, hr⟩ := hr
  have he := effect h r.op r.readsOnly s
  generalize exec h r.op.act s = out at he ⊢
  obtain ⟨res, s'⟩ := out
  cases r with
  | commit v targetId createdAt =>
    cases he with
    | failed e => exact .inl ⟨_, rfl⟩
    | cycle hc => cases hc
    | @rolledBack _ _ parentId _ target parent node ht hv hp hh hpar hn hf =>
      obtain ⟨happ, hhead, -, ⟨target', ht', -, -, ha, hb, hc⟩, -⟩ :=
        rolledBack_restored hS hH hr ht hv hp hh hpar hn hf
      have hkeep : ∀ id n, s.nodes id = some n → (s.push node).nodes id = some n := fun _ _ => InMemoryInner.push_stored hf
      exact .inr ⟨rfl, ⟨happ.order ▸ List.prefix_append _ _, hkeep⟩,
        target', node.agentId, node, hkeep _ _ ht', hhead, happ.stored, ha, hb, hc⟩
  | pointer targetId =>
    cases he with
    | failed e => exact .inl ⟨_, rfl⟩
    | cycle hc => cases hc
    | @pointed _ target ht _ _ =>
      exact .inr ⟨rfl, ⟨List.prefix_refl _, fun _ _ hn => hn⟩, target, targetId, target, ht, rfl, ht, rfl, rfl, rfl⟩

omit hS hH in
theorem roll_reached (hr : Reached s) (last : Option AgentId) (r : Rollback X) : Reached (roll h (s, last) r).1 := by
  obtain ⟨t, hr⟩ := hr
  exact ⟨_, hr.then h r.op trivial r.readsOnly rfl⟩

/-- What one rollback keeps a sequence keeps. -/
theorem rolls_keep (hr : Reached s) (last : Option AgentId) (hl : ∀ id, last = some id → HeadCarries s id)
    (rs : List (Rollback X)) :
    Reached (rs.foldl (roll h) (s, last)).1 ∧ Kept s (rs.foldl (roll h) (s, last)).1 ∧
      ∀ id, (rs.foldl (roll h) (s, last)).2 = some id → HeadCarries (rs.foldl (roll h) (s, last)).1 id := by
  induction rs generalizing s last with
  | nil => exact ⟨hr, .refl s, hl⟩
  | cons r rs ih =>
    rw [List.foldl_cons]
    have hstep : Kept s (roll h (s, last) r).1 ∧
        ∀ id, (roll h (s, last) r).2 = some id → HeadCarries (roll h (s, last) r).1 id := by
      unfold roll
      rcases roll_step hS hH (h := h) hr r with ⟨e, herr⟩ | ⟨hok, hkept, hcarries⟩
      · rw [herr]
        exact ⟨.refl s, hl⟩
      · refine ⟨hkept, ?_⟩
        intro id hid
        rw [if_pos hok] at hid
        cases hid
        exact hcarries
    obtain ⟨hreach, hkept, hcarries⟩ := ih (roll_reached hr last r) (roll h (s, last) r).2 hstep.2
    exact ⟨hreach, hstep.1.trans hkept, hcarries⟩

end

/-- A signed rollback restores its target and keeps history, its node can be a target
    again, and so on along any sequence of rollbacks. -/
theorem rollback_restores (hS : X.Signs) (hH : X.HexReads) {ok : Rule X} {t : List (Event X)} {s : InMemoryInner X}
    (hr : Runs ok t s) (h : Host X) :
    (∀ (v : Veh X) targetId createdAt node s', exec h (v.commitRollback targetId createdAt) s = (.ok node, s') →
      Restored s s' targetId createdAt node ∧
        ∀ rs : List (Rollback X), Retargetable (rs.foldl (roll h) (s', none)).1 node) ∧
    ∀ rs : List (Rollback X), Kept s (rs.foldl (roll h) (s, none)).1 ∧
      ∀ id, (rs.foldl (roll h) (s, none)).2 = some id → HeadCarries (rs.foldl (roll h) (s, none)).1 id := by
  have hreach : Reached s := ⟨t, hr.mono fun _ _ _ _ _ => trivial⟩
  refine ⟨?_, fun rs => (rolls_keep hS hH hreach none (by simp) rs).2⟩
  intro v targetId createdAt node s' hx
  obtain ⟨parentId, target, parent, ht, hv, hp, hh, hpar, hn, hf, rfl⟩ := commitRollback_ok hx
  have hrest := rolledBack_restored hS hH hr ht hv hp hh hpar hn hf
  refine ⟨hrest, ?_⟩
  intro rs
  have hreach' : Reached (s.push node) := by
    obtain ⟨t', hr'⟩ := hreach
    refine ⟨_, hr'.then h (.commitRollback v targetId createdAt) trivial trivial ?_⟩
    simp only [Op.act, exec_bind, hx, Prog.andThen_ok, exec_pure]
  obtain ⟨⟨_, hrun⟩, hkept, -⟩ := rolls_keep hS hH (h := h) hreach' none (by simp) rs
  exact promoted_retargetable hS hH hrun (hkept.stored _ _ hrest.appended.stored) hrest.promoted

namespace Reference

/-- The rollback to that rollback, one minute later. -/
def rerolled : AgentNode Reference :=
  { rolledBack with
    agentId := "c1c54154bd07b35a6d93211fc0bb3e397b9d1948c5795bd1f0a1ae9db7f39b9e"
    parentId := some rolledBack.agentId
    generation := 2
    createdAt := "2026-01-01T00:02:00Z"
    mutationIntent := .rollback rolledBack.agentId
    signature := "f9551d3a925470a8b2d2173c555781aea0e35d562364779bc0eae541cfb50fd6" ++
      "4925679fb8ee616368d147f1b4afd56308a112422eac7881cd0da951c52d640f" }

theorem rerolled_signed :
    signNode (rollbackInputs rolledBack rolledBack rolledBack.agentId "2026-01-01T00:02:00Z") seed = .ok rerolled :=
  signNode_eq rfl (by decide) (by decide +kernel)

/-- The capped root is restored, and so is the rollback that restored it. -/
theorem rollback_restores_capped :
    Restored (.push .default cappedRoot) (.push (.push .default cappedRoot) rolledBack) cappedRoot.agentId
      "2026-01-01T00:01:00Z" rolledBack ∧
    exec host (veh.commitRollback rolledBack.agentId "2026-01-01T00:02:00Z") (.push (.push .default cappedRoot) rolledBack) =
      (.ok rerolled, .push (.push (.push .default cappedRoot) rolledBack) rerolled) := by
  have hr : Runs (fun _ _ _ _ => True) _ (InMemoryInner.push .default cappedRoot) :=
    commitRoot_commits .empty trivial cappedRoot_signed rfl
  have hroot : (InMemoryInner.push .default cappedRoot).nodes cappedRoot.agentId = some cappedRoot :=
    InMemoryInner.push_same _ _
  have hv := verify_signNode signs hexReads cappedRoot_signed
  obtain ⟨hrestored, hagain⟩ := (rollback_restores signs hexReads hr host).1 veh _ _ _ _
    (commitRollback_commits hroot hv rfl rfl hroot rolledBack_signed (by decide))
  refine ⟨hrestored, ?_⟩
  obtain ⟨parentId, parent, again, hh, hpar, hsign, hfresh, -⟩ := (hagain []).commits host veh "2026-01-01T00:02:00Z"
  cases hh
  obtain rfl : rolledBack = parent := Option.some.inj ((InMemoryInner.push_same _ rolledBack).symm.trans hpar)
  obtain rfl : rerolled = again := Except.ok.inj (rerolled_signed.symm.trans hsign)
  exact hfresh (by decide)

end Reference

end RigVeh
