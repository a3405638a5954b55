/-
  RigVeh.Runner.Based — the head a signed rollback is based on.

  `commit_rollback` reads its target, the head and the head's node and then appends;
  each is one call, and others may be answered in between (`commitRollback_did`). The
  parent it records is the head it read. That is still the head when it appends
  exactly if no call in between moved it, or the last that did moved it back
  (`rollback_based_iff`); a root committed meanwhile is a counterexample
  (`rollback_overtaken`).
-/

import RigVeh.Base.Timeline
import RigVeh.Runner.Head
import RigVeh.Runner.Mediation

namespace RigVeh

open RigVeh.Json RigVeh.Base RigVeh.Base.Prog

variable {X : Crates}

abbrev Answered (X : Crates) := Moment (calls X) (InMemoryInner X)

/-! ## The calls of a rollback -/

section

variable {l : List (Answered X)}

theorem commit_did {i : CommitInputs X} {k : X.SigningKey} {node : AgentNode X} :
    Did (commit i k).run l (.ret (.ok node)) ↔
      signNode i k = .ok node ∧ ∃ j s s', l = [⟨j, .ledger (.append node), .ok (), s, s'⟩] := by
  rw [commit, did_seq]
  constructor
  · rintro ⟨l₁, l₂, n, hl, hn, h⟩
    obtain ⟨hnil, hn⟩ := did_attempt.mp hn
    obtain ⟨_, happend, rfl⟩ := did_map.mp h
    rw [hnil, List.nil_append] at hl
    exact ⟨hn, did_op.mp (hl ▸ happend)⟩
  · rintro ⟨hn, h⟩
    exact ⟨[], l, node, rfl, did_attempt.mpr ⟨rfl, hn⟩, did_map.mpr ⟨(), did_op.mpr h, rfl⟩⟩

theorem rollbackTarget_did {id : AgentId} {target : AgentNode X} :
    Did (rollbackTarget id).run l (.ret (.ok target)) ↔ (verifyNode target = .ok () ∧ target.status = .promoted) ∧
      ∃ j s s', l = [⟨j, .ledger (.get id), .ok target, s, s'⟩] := by
  rw [rollbackTarget, did_seq]
  constructor
  · rintro ⟨l₁, l₂, n, hl, hget, h⟩
    obtain ⟨l₃, l₄, _, hl', hv, h⟩ := did_seq.mp h
    obtain ⟨hnil, hv⟩ := did_attempt.mp hv
    split at h
    · cases (did_attempt.mp h).2
    rename_i hp
    obtain ⟨hnil', hn⟩ := did_ret.mp h
    cases hn
    rw [hl', hnil, hnil', List.append_nil, List.append_nil] at hl
    exact ⟨⟨hv, not_not.mp hp⟩, did_op.mp (hl ▸ hget)⟩
  · rintro ⟨⟨hv, hp⟩, h⟩
    refine ⟨l, [], target, (List.append_nil l).symm, did_op.mpr h, did_seq.mpr ⟨[], [], (), rfl, ?_, ?_⟩⟩
    · exact did_attempt.mpr ⟨rfl, hv⟩
    · rw [if_neg (not_not.mpr hp)]
      exact .none _

/-- The calls of a rollback that committed `node`. -/
inductive RollbackCalls (v : Veh X) (targetId : AgentId) (createdAt : String) (node : AgentNode X) :
    List (Answered X) → Prop
  | mk {i₁ i₂ i₃ i₄ : Nat} {s₁ s₁' s₂ s₂' s₃ s₃' s₄ s₄' : InMemoryInner X} {target parent : AgentNode X}
      {parentId : AgentId} : verifyNode target = .ok () → target.status = .promoted →
      signNode (rollbackInputs parent target targetId createdAt) v.signingKey = .ok node →
      RollbackCalls v targetId createdAt node [
        ⟨i₁, .ledger (.get targetId), .ok target, s₁, s₁'⟩,
        ⟨i₂, .ledger .head, .ok (some parentId), s₂, s₂'⟩,
        ⟨i₃, .ledger (.get parentId), .ok parent, s₃, s₃'⟩,
        ⟨i₄, .ledger (.append node), .ok (), s₄, s₄'⟩]

theorem commitRollback_did {v : Veh X} {targetId : AgentId} {createdAt : String} {node : AgentNode X} :
    Did (Op.commitRollback v targetId createdAt).act.run l (.ret (.ok (.node node))) ↔
      RollbackCalls v targetId createdAt node l := by
  rw [Op.act, did_map, Veh.commitRollback]
  constructor
  · rintro ⟨n, h, hn⟩
    cases hn
    obtain ⟨l₁, r₁, target, rfl, htarget, h₁⟩ := did_seq.mp h
    obtain ⟨⟨hv, hp⟩, i₁, s₁, s₁', rfl⟩ := rollbackTarget_did.mp htarget
    obtain ⟨l₂, r₂, head, rfl, hhead, h₂⟩ := did_seq.mp h₁
    obtain ⟨i₂, s₂, s₂', rfl⟩ := did_op.mp hhead
    cases head with
    | none => cases (did_attempt.mp h₂).2
    | some parentId =>
      obtain ⟨l₃, r₃, parent, rfl, hget, h₃⟩ := did_seq.mp h₂
      obtain ⟨i₃, s₃, s₃', rfl⟩ := did_op.mp hget
      obtain ⟨hn, i₄, s₄, s₄', rfl⟩ := commit_did.mp h₃
      exact .mk hv hp hn
  · intro h
    cases h with
    | @mk i₁ i₂ i₃ i₄ s₁ s₁' s₂ s₂' s₃ s₃' s₄ s₄' target parent parentId hv hp hn =>
      have htarget : Did (rollbackTarget targetId).run [_] (.ret (.ok target)) :=
        rollbackTarget_did.mpr ⟨⟨hv, hp⟩, i₁, s₁, s₁', rfl⟩
      have hhead : Did (Act.head (X := X)).run [_] (.ret (.ok (some parentId))) := did_op.mpr ⟨i₂, s₂, s₂', rfl⟩
      have hget : Did (Act.get parentId).run [_] (.ret (.ok parent)) := did_op.mpr ⟨i₃, s₃, s₃', rfl⟩
      have hcommit := commit_did.mpr ⟨hn, i₄, s₄, s₄', rfl⟩
      refine ⟨node, did_seq.mpr ⟨[_], [_, _, _], target, rfl, htarget, ?_⟩, rfl⟩
      refine did_seq.mpr ⟨[_], [_, _], some parentId, rfl, hhead, ?_⟩
      exact did_seq.mpr ⟨[_], [_], parent, rfl, hget, hcommit⟩

end

/-! ## The head between two calls -/

/-- The head a call moved the ledger's to, if it did. -/
def headMove : Answered X → Option AgentId
  | ⟨_, .ledger (.append node), .ok (), _, _⟩ => if node.status = .promoted then some node.agentId else none
  | ⟨_, .ledger (.setHead id), .ok (), _, _⟩ => some id
  | _ => none

/-- Where the last move went. -/
def lastMove (l : List (Answered X)) : Option AgentId := (l.filterMap headMove).getLast?

theorem call_head {m : Answered X} (h : Shared m.call m.before m.ans m.after) :
    m.after.head = (headMove m).or m.before.head := by
  obtain ⟨i, c, r, s, s'⟩ := m
  have h : Shared c s r s' := h
  cases c with
  | ledger c =>
    cases c with
    | append node =>
      rcases shared_append h with ⟨-, rfl, rfl⟩ | ⟨⟨e, rfl⟩, rfl⟩
      · rw [InMemoryInner.push_head, headMove]
        split <;> rfl
      · rfl
    | setHead id =>
      rcases shared_setHead h with ⟨rfl, rfl⟩ | ⟨⟨e, rfl⟩, rfl⟩
      · rfl
      · rfl
    | _ =>
      obtain rfl : s' = s := congrArg Prod.snd h
      rfl
  | _ =>
    obtain rfl : s' = s := h
    rfl

/-- After some calls the head is where the last of them that moved it put it. -/
theorem linked_head {s s' : InMemoryInner X} {l : List (Answered X)} (h : Linked s l s')
    (hstep : ∀ m ∈ l, Shared m.call m.before m.ans m.after) : s'.head = (lastMove l).or s.head := by
  induction l generalizing s with
  | nil =>
    obtain rfl : s = s' := h
    rfl
  | cons m l ih =>
    obtain ⟨rfl, h⟩ := h
    rw [ih h fun m' hm' => hstep m' (.tail m hm'), call_head (hstep m (.head l)), ← Option.or_assoc]
    congr 1
    rw [lastMove, lastMove, List.filterMap_cons]
    cases headMove m with
    | none => rw [Option.or_none]
    | some id => rw [List.getLast?_cons]; cases (l.filterMap headMove).getLast? <;> rfl

theorem call_wf {m : Answered X} (h : Shared m.call m.before m.ans m.after) (hw : m.before.Wf) : m.after.Wf := by
  obtain ⟨i, c, r, s, s'⟩ := m
  cases c with
  | ledger c =>
    have h : (r, s') = c.answer s := h
    rw [show s' = (c.answer s).2 from congrArg Prod.snd h]
    exact (c.answer_moves s).wf hw
  | _ =>
    obtain rfl : s' = s := h
    exact hw

/-! ## What a rollback is based on -/

/-- The `i`-th operation read the head, `between` happened, and it appended `node`. -/
structure Basis (t : List (Answered X)) (i : Nat) (node : AgentNode X) (read : Answered X)
    (between : List (Answered X)) (write : Answered X) : Prop where
  split : ∃ pre post, t = pre ++ read :: (between ++ write :: post)
  reads : read.who = i ∧ read.call = .ledger .head
  writes : write.who = i ∧ write.call = .ledger (.append node)

section

variable {start : InMemoryInner X → List (Prog (calls X) (Except Error (Outcome X))) →
    Prog (calls X) (Except Error (Outcome X)) → Prop} {t : List (Answered X)} {s : InMemoryInner X}
  {ps : List (Prog (calls X) (Except Error (Outcome X)) × Prog (calls X) (Except Error (Outcome X)))}
  {i : Nat} {v : Veh X} {targetId : AgentId} {createdAt : String} {node : AgentNode X}

theorem basis_exists (hd : RollbackCalls v targetId createdAt node (t.filter (·.who = i))) :
    ∃ read between write, Basis t i node read between write := by
  generalize hown : t.filter (fun m => m.who = i) = own at hd
  have hwho {m : Answered X} (hm : m ∈ own) : m.who = i := by
    rw [← hown] at hm
    exact of_decide_eq_true (List.mem_filter.mp hm).2
  cases hd with
  | mk =>
    obtain ⟨pre, between, post, hsplit⟩ := filter_split [_] [_] [] hown
    exact ⟨_, between, _, ⟨pre, post, hsplit⟩, ⟨hwho (.tail _ (.head _)), rfl⟩, hwho (by simp), rfl⟩

section

variable {own : List (Answered X)} (hd : RollbackCalls v targetId createdAt node own)
  (hs : ∀ m ∈ own, Shared m.call m.before m.ans m.after) {m : Answered X}

include hd hs

/-- The parent a rollback recorded is the head it read. -/
theorem head_read (hw : ∀ m ∈ own, m.before.Wf) (hm : m ∈ own) (hc : m.call = .ledger .head) :
    ∃ parentId, m.before.head = some parentId ∧ node.parentId = some parentId ∧ m.after = m.before := by
  cases hd with
  | @mk i₁ i₂ i₃ i₄ s₁ s₁' s₂ s₂' s₃ s₃' s₄ s₄' target parent parentId hv hp hn =>
    have hthird : (⟨i₃, .ledger (.get parentId), .ok parent, s₃, s₃'⟩ : Answered X) ∈ [
        ⟨i₁, .ledger (.get targetId), .ok target, s₁, s₁'⟩, ⟨i₂, .ledger .head, .ok (some parentId), s₂, s₂'⟩,
        ⟨i₃, .ledger (.get parentId), .ok parent, s₃, s₃'⟩, ⟨i₄, .ledger (.append node), .ok (), s₄, s₄'⟩] := by simp
    have hstored : s₃.nodes parentId = some parent := (shared_get (hs _ hthird)).1
    have hkey : parent.agentId = parentId := (hw _ hthird).keyed parentId parent hstored
    have hparent : node.parentId = some parent.agentId := congrArg CommitInputs.parentId (signNode_inputs hn).1
    have hread := hs m hm
    simp only [List.mem_cons, List.not_mem_nil, or_false] at hm
    rcases hm with rfl | rfl | rfl | rfl
    · cases hc
    · obtain ⟨hhead, hafter⟩ := shared_head hread
      exact ⟨parentId, hhead.symm, by rw [hparent, hkey], hafter⟩
    · cases hc
    · cases hc

theorem node_pushed (hm : m ∈ own) (hc : m.call = .ledger (.append node)) : m.after = m.before.push node := by
  cases hd with
  | mk =>
    have hwrite := hs m hm
    simp only [List.mem_cons, List.not_mem_nil, or_false] at hm
    rcases hm with rfl | rfl | rfl | rfl
    · cases hc
    · cases hc
    · cases hc
    · rcases shared_append hwrite with ⟨-, -, hafter⟩ | ⟨⟨e, he⟩, -⟩
      · exact hafter
      · cases he

end

/-- However a rollback that returned `node` was interleaved with other operations, the
    head it appends to is the parent it recorded if and only if the last call since it
    read the head that moved the head, if any did, put it back. -/
theorem rollback_based_iff (ht : Timeline Shared start .default t s ps)
    (hi : ps[i]? = some ((Op.commitRollback v targetId createdAt).act.run, .ret (.ok (.node node)))) :
    (∃ read between write, Basis t i node read between write) ∧
      ∀ read between write, Basis t i node read between write → write.after = write.before.push node ∧
        (node.parentId = write.before.head ↔ ∀ id, lastMove between = some id → read.before.head = some id) := by
  have hd := commitRollback_did.mp (timeline_did ht hi)
  have hlink := timeline_linked ht
  have hwf := (linked_keeps hlink InMemoryInner.default_wf fun m hm => call_wf (timeline_steps ht hm)).2
  refine ⟨basis_exists hd, fun read between write hb => ?_⟩
  obtain ⟨⟨pre, post, hsplit⟩, ⟨hri, hread⟩, hwi, hwrite⟩ := hb
  have hown {m : Answered X} (hm : m ∈ t) (hwho : m.who = i) : m ∈ t.filter (·.who = i) :=
    List.mem_filter.mpr ⟨hm, decide_eq_true hwho⟩
  have hs : ∀ m ∈ t.filter (·.who = i), Shared m.call m.before m.ans m.after :=
    fun m hm => timeline_steps ht (List.mem_of_mem_filter hm)
  obtain ⟨parentId, hhead, hparent, hafter⟩ :=
    head_read hd hs (fun m hm => hwf m (List.mem_of_mem_filter hm)) (hown (by simp [hsplit]) hri) hread
  refine ⟨node_pushed hd hs (hown (by simp [hsplit]) hwi) hwrite, ?_⟩
  -- from the read to the append, only `between` moved the head
  rw [hsplit] at hlink
  obtain ⟨_, -, -, hlink⟩ := linked_append.mp hlink
  obtain ⟨_, hlink, hbefore, -⟩ := linked_append.mp hlink
  have hmoved := linked_head hlink fun m hm => timeline_steps ht (by simp [hsplit, hm])
  rw [← hbefore, hafter, hhead] at hmoved
  rw [hparent, hmoved, hhead]
  cases lastMove between with
  | none => simp
  | some id => simp

end

namespace Reference

/-- The ledger with the capped root, and with a second root. -/
def rooted : InMemoryInner Reference := .push .default cappedRoot
def rerooted : InMemoryInner Reference := rooted.push snapshotNode

/-- The rollback's reads: the root is its target and the head, and will be its parent. -/
def rootRead : Answered Reference := ⟨1, .ledger (.get cappedRoot.agentId), .ok cappedRoot, rooted, rooted⟩
def headRead : Answered Reference := ⟨1, .ledger .head, .ok (some cappedRoot.agentId), rooted, rooted⟩

/-- A second root is committed meanwhile. -/
def between : List (Answered Reference) := [rootRead, ⟨2, .ledger (.append snapshotNode), .ok (), rooted, rerooted⟩]

def lateAppend : Answered Reference := ⟨1, .ledger (.append rolledBack), .ok (), rerooted, rerooted.push rolledBack⟩

def overtaken : List (Answered Reference) :=
  [⟨0, .ledger (.append cappedRoot), .ok (), .default, rooted⟩, rootRead] ++ headRead :: (between ++ [lateAppend])

theorem commitRoot_did {artifact : AgentArtifact Reference} {scope : AllowedScope} {createdAt : String}
    {node : AgentNode Reference} (hn : signNode (rootInputs artifact scope createdAt) seed = .ok node) (i : Nat)
    (s s' : InMemoryInner Reference) : Did (Op.commitRoot veh artifact scope createdAt).act.run
      [⟨i, .ledger (.append node), .ok (), s, s'⟩] (.ret (.ok (.node node))) :=
  did_map.mpr ⟨node, commit_did.mpr ⟨hn, i, s, s', rfl⟩, rfl⟩

theorem overtaken_timeline : ∃ s ps, Timeline Shared Started .default overtaken s ps ∧
    ps[1]? = some ((Op.commitRollback veh cappedRoot.agentId "2026-01-01T00:01:00Z").act.run,
      .ret (.ok (.node rolledBack))) := by
  have happend {s : InMemoryInner Reference} {node : AgentNode Reference} (hf : s.nodes node.agentId = none) :
      Shared (.ledger (.append node)) s (.ok ()) (s.push node) := (InMemoryInner.append_fresh hf).symm
  have hcalls : RollbackCalls veh cappedRoot.agentId "2026-01-01T00:01:00Z" rolledBack
      ([rootRead, headRead, rootRead] ++ [lateAppend]) :=
    .mk (verify_signNode signs hexReads cappedRoot_signed) rfl rolledBack_signed
  obtain ⟨paused, hreads, hwrites⟩ := did_split (commitRollback_did.mpr hcalls)
  have h₀ : Timeline (Shared (X := Reference)) Started .default [] .default [] := .init
  have h₁ := h₀.spawn _ ⟨.commitRoot veh rootArtifact capped "2026-01-01T00:00:00Z", trivial, rfl⟩
  have h₂ := timeline_does [] [] h₁ (commitRoot_did cappedRoot_signed 0 .default rooted) ⟨rfl, rfl⟩
    (List.forall_mem_singleton.mpr ⟨rfl, happend rfl⟩)
  have h₃ := h₂.spawn _ ⟨.commitRollback veh cappedRoot.agentId "2026-01-01T00:01:00Z", trivial, rfl⟩
  have hsteps : ∀ m ∈ [rootRead, headRead, rootRead], m.who = 1 ∧ Shared m.call m.before m.ans m.after :=
    List.forall_mem_cons.mpr ⟨⟨rfl, rfl⟩, List.forall_mem_cons.mpr ⟨⟨rfl, rfl⟩, List.forall_mem_singleton.mpr ⟨rfl, rfl⟩⟩⟩
  have h₄ := timeline_does [_] [] h₃ hreads ⟨rfl, rfl, rfl, rfl⟩ hsteps
  have h₅ := h₄.spawn _ ⟨.commitRoot veh rootArtifact .default "2026-01-01T00:00:00Z", trivial, rfl⟩
  have h₆ := timeline_does [_, _] [] h₅ (commitRoot_did snapshot_signed 2 rooted rerooted) ⟨rfl, rfl⟩
    (List.forall_mem_singleton.mpr ⟨rfl, happend rfl⟩)
  have h₇ := timeline_does [_] [_] h₆ hwrites ⟨rfl, rfl⟩
    (List.forall_mem_singleton.mpr ⟨rfl, happend (by decide)⟩)
  exact ⟨_, _, h₇, rfl⟩

theorem overtaken_basis : Basis overtaken 1 rolledBack headRead between lateAppend :=
  ⟨⟨_, [], rfl⟩, ⟨rfl, rfl⟩, rfl, rfl⟩

/-- There the rollback would be based on the head it replaces only if the second root had
    been taken back. -/
theorem rollback_based_overtaken : rolledBack.parentId = rerooted.head ↔
    ∀ id, lastMove between = some id → rooted.head = some id := by
  obtain ⟨s, ps, ht, hi⟩ := overtaken_timeline
  exact ((rollback_based_iff ht hi).2 headRead between lateAppend overtaken_basis).2

/-- It returns `Ok`, though the head it replaces is the second root and not its parent. -/
theorem rollback_overtaken : ∃ s ps, Timeline Shared Started .default overtaken s ps ∧
    Pool Shared Started .default s (ps.map Prod.snd) ∧
    ps[1]? = some ((Op.commitRollback veh cappedRoot.agentId "2026-01-01T00:01:00Z").act.run,
      .ret (.ok (.node rolledBack))) ∧ Basis overtaken 1 rolledBack headRead between lateAppend ∧
    lateAppend.before.head = some snapshotNode.agentId ∧ rolledBack.parentId ≠ lateAppend.before.head := by
  obtain ⟨s, ps, ht, hi⟩ := overtaken_timeline
  exact ⟨s, ps, ht, pool_iff_timeline.mpr ⟨_, ps, ht, rfl⟩, hi, overtaken_basis, rfl, by decide⟩

end Reference

end RigVeh
