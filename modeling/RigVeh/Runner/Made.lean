/-
  RigVeh.Runner.Made — what interleaved operations may do to a ledger.

  An operation writes at most one node or moves the head to a promoted one. `Made` are
  the inputs it may sign, told by what the ledger holds when it appends: a root, a cycle
  on a stored parent with the verdict of its runner, or a rollback from a promoted node
  to another. A pause is `Held` with what its cycle found. The calls of each operation
  are gone through once (`op_made`), and what a push of a made node and a move of the
  head keep (`Closed`) holds in every ledger that operations reach (`served_closed`):
  such a ledger was built up by these two steps, whatever is interleaved.
-/

import RigVeh.Runner.Bracket
import RigVeh.Runner.Shared

namespace RigVeh

open RigVeh.Json RigVeh.Base RigVeh.Base.Prog

variable {X : Crates}

/-! ## What operations ask for and return -/

/-- The cycle that an operation asks for. -/
inductive Op.Orders : Op X → Veh X → CycleInputs X → Prop
  | cycle (v : Veh X) (i : CycleInputs X) : Orders (.runCycle v i) v i
  | generation (v : Veh X) (select : Act X AgentId) (intent : MutationIntent) (allowedScope : AllowedScope)
      (context : MutationContext) (createdAt : String) (parent : AgentNode X) (candidate : AgentArtifact X) :
      Orders (.runGeneration v select intent allowedScope context createdAt) v
        ⟨parent, intent, candidate, allowedScope, createdAt⟩

/-- A selector may read the ledger and the clock. -/
def Op.SelectsByReading : Op X → Prop
  | .runGeneration _ select _ _ _ _ => select.run.Makes Call.Reads
  | _ => True

def CycleOutcome.nodes : CycleOutcome X → List (AgentNode X)
  | .promoted node _ => [node]
  | .rejected node _ => [node]
  | .awaitingApproval _ => []

def Outcome.nodes : Outcome X → List (AgentNode X)
  | .node n => [n]
  | .cycle outcome => outcome.nodes
  | .done => []

/-! ## What they sign -/

/-- What becomes at once of a cycle that scored `eval`. -/
inductive Verdict (v : Veh X) (i : CycleInputs X) (eval : EvalResult) : NodeStatus → Bool → Prop
  | approved : v.notImproved i.parent eval = none →
      v.policy i.parent i.intent i.candidate.capabilitySbom = .approve → Verdict v i eval .promoted true
  | regressed {reason : String} : v.notImproved i.parent eval = some reason → Verdict v i eval .rejected false
  | denied {reason : String} : v.notImproved i.parent eval = none →
      v.policy i.parent i.intent i.candidate.capabilitySbom = .deny reason → Verdict v i eval .rejected false

section

variable (ok : Op X → Prop)

/-- A cycle some operation asked for, on a stored parent, and its diff. -/
structure Planned (s : InMemoryInner X) (v : Veh X) (i : CycleInputs X) (diff : String) : Prop where
  asked : ∃ op, ok op ∧ op.Orders v i
  parent : s.nodes i.parent.agentId = some i.parent
  diff : manifestDiff i.parent.artifact i.candidate = .ok diff

/-- What an operation may sign to append to `s`, and with which key. -/
inductive Made (s : InMemoryInner X) : CommitInputs X → X.SigningKey → Prop
  | root {v : Veh X} {artifact : AgentArtifact X} {allowedScope : AllowedScope} {createdAt : String} :
      ok (.commitRoot v artifact allowedScope createdAt) →
      Made s (rootInputs artifact allowedScope createdAt) v.signingKey
  | cycle {v : Veh X} {i : CycleInputs X} {diff : String} {eval : EvalResult} {status : NodeStatus} {valid : Bool} :
      Planned ok s v i diff → Verdict v i eval status valid →
      Made s (cycleInputs i diff eval status valid) v.signingKey
  | resumed {v : Veh X} {i : CycleInputs X} {diff : String} {eval : EvalResult} {reason : String} {key : X.SigningKey} :
      Planned ok s v i diff → v.notImproved i.parent eval = none →
      v.policy i.parent i.intent i.candidate.capabilitySbom = .requireApproval reason →
      ok (.resumeWithApproval (Veh.pause i diff eval reason) key) →
      Made s (cycleInputs i diff eval .promoted true) key
  | rolledBack {v : Veh X} {createdAt : String} {parent target : AgentNode X} :
      ok (.commitRollback v target.agentId createdAt) → s.nodes target.agentId = some target → target.status = .promoted →
      s.nodes parent.agentId = some parent → parent.status = .promoted →
      Made s (rollbackInputs parent target target.agentId createdAt) v.signingKey

/-- The pause of a cycle that waits for an approval. -/
def Held (s : InMemoryInner X) (pending : PendingApproval X) : Prop :=
  ∃ v i diff eval reason, Planned ok s v i diff ∧ v.notImproved i.parent eval = none ∧
    v.policy i.parent i.intent i.candidate.capabilitySbom = .requireApproval reason ∧ pending = Veh.pause i diff eval reason

/-- What an outcome names: pauses are held, nodes are stored. -/
def Names (o : Outcome X) (s : InMemoryInner X) : Prop :=
  (∀ pending, o = .cycle (.awaitingApproval pending) → Held ok s pending) ∧
    ∀ n ∈ o.nodes, s.nodes n.agentId = some n

end

variable {ok : Op X → Prop} {s s' : InMemoryInner X}

theorem Planned.later {v : Veh X} {i : CycleInputs X} {diff : String} (h : Planned ok s v i diff) (hl : NodesStay s s') :
    Planned ok s' v i diff := ⟨h.asked, hl _ _ h.parent, h.diff⟩

theorem Made.later {i : CommitInputs X} {key : X.SigningKey} (h : Made ok s i key) (hl : NodesStay s s') :
    Made ok s' i key := by
  cases h with
  | root hok => exact .root hok
  | cycle hp hv => exact .cycle (hp.later hl) hv
  | resumed hp hi ha hok => exact .resumed (hp.later hl) hi ha hok
  | rolledBack hok ht htp hp hpp => exact .rolledBack hok (hl _ _ ht) htp (hl _ _ hp) hpp

theorem Held.later {pending : PendingApproval X} (h : Held ok s pending) (hl : NodesStay s s') : Held ok s' pending := by
  obtain ⟨v, i, diff, eval, reason, hp, h⟩ := h
  exact ⟨v, i, diff, eval, reason, hp.later hl, h⟩

theorem Names.later {o : Outcome X} (h : Names ok o s) (hl : NodesStay s s') : Names ok o s' :=
  ⟨fun pending ho => (h.1 pending ho).later hl, fun n hn => hl _ _ (h.2 n hn)⟩

/-- An outcome of one node is no pause. -/
theorem names_one {o : Outcome X} {n : AgentNode X} (ho : o.nodes = [n]) (hn : s.nodes n.agentId = some n) : Names ok o s := by
  refine ⟨fun pending h => ?_, fun m hm => ?_⟩
  · rw [h] at ho
    cases ho
  · rw [ho, List.mem_singleton] at hm
    rw [hm, hn]

theorem names_none {o : Outcome X} (ho : o = .done) : Names ok o s := by
  subst ho
  refine ⟨fun pending h => ?_, fun n h => ?_⟩ <;> cases h

/-- What a resume signs is what its cycle would have. -/
theorem held_made {pending : PendingApproval X} (h : Held ok s pending) {key : X.SigningKey}
    (hok : ok (.resumeWithApproval pending key)) : Made ok s (approvedInputs pending) key := by
  obtain ⟨v, i, diff, eval, reason, hp, hi, ha, rfl⟩ := h
  have hmade : Made ok s (cycleInputs i diff eval .promoted true) key := .resumed hp hi ha hok
  exact hmade

/-! ## What pushes and moves of the head keep -/

/-- Nodes are stored under their ids, and the head names a promoted one. -/
structure Headed (s : InMemoryInner X) : Prop where
  wf : s.Wf
  head : ∀ id, s.head = some id → ∃ n, s.nodes id = some n ∧ n.status = .promoted

structure Closed (ok : Op X → Prop) (I : InMemoryInner X → Prop) : Prop where
  empty : I .default
  push : ∀ {s i k node}, Headed s → I s → Made ok s i k → signNode i k = .ok node → s.nodes node.agentId = none →
    I (s.push node)
  point : ∀ {s id n}, Headed s → I s → s.nodes id = some n → n.status = .promoted → I { s with head := some id }

theorem headed_default : Headed (.default : InMemoryInner X) := ⟨InMemoryInner.default_wf, fun _ h => by cases h⟩

theorem headed_push (h : Headed s) {node : AgentNode X} (hf : s.nodes node.agentId = none) : Headed (s.push node) where
  wf := InMemoryInner.push_wf h.wf hf
  head id hid := by
    rw [InMemoryInner.push_head] at hid
    split at hid
    · rename_i hp
      cases hid
      exact ⟨node, InMemoryInner.push_same s node, hp⟩
    · obtain ⟨n, hn, hp⟩ := h.head id hid
      exact ⟨n, InMemoryInner.push_stored hf hn, hp⟩

theorem headed_point (h : Headed s) {id : AgentId} {n : AgentNode X} (hn : s.nodes id = some n) (hp : n.status = .promoted) :
    Headed { s with head := some id } where
  wf := InMemoryInner.head_wf h.wf _
  head := by
    rintro _ ⟨⟩
    exact ⟨n, hn, hp⟩

/-! ## Calls -/

section

variable {I : InMemoryInner X → Prop} (hI : Closed ok I)

/-- A closed invariant, with what it rests on. -/
abbrev Upheld (I : InMemoryInner X → Prop) (s : InMemoryInner X) : Prop := Headed s ∧ I s

theorem reads_made {α : Type} {x : Act X α} (hx : x.run.Makes Call.Reads) : KeepsTo (Upheld I) (fun _ _ => True) x s := by
  refine safe_mono (fun _ _ _ _ _ _ => trivial) (safe_makes (P := keeping (Upheld I)) (C := Call.Reads) ?_ hx s)
  intro c hc s r s' hi hm
  cases c with
  | ledger c =>
    cases c with
    | append | setHead => exact hc.elim
    | _ =>
      obtain rfl : s' = s := congrArg Prod.snd hm
      exact ⟨hi, fun _ _ h => h⟩
  | now =>
    obtain rfl : s' = s := hm
    exact ⟨hi, fun _ _ h => h⟩
  | _ => exact hc.elim

/-- The head that is read is stored and promoted from then on. -/
theorem head_made : KeepsTo (Upheld I) (fun head s' => ∀ id, head = some id → ∃ n, s'.nodes id = some n ∧ n.status = .promoted)
    Act.head s := by
  intro s₁ _ hi r s₂ hm
  obtain ⟨rfl, rfl⟩ : r = .ok s₁.head ∧ s₂ = s₁ := Prod.mk.inj hm
  refine ⟨hi, fun _ _ h => h, fun s' hl _ head hhead id hid => ?_⟩
  cases hhead
  obtain ⟨n, hn, hp⟩ := hi.1.head id hid
  exact ⟨n, hl _ _ hn, hp⟩

include hI

/-- A commit of made inputs stores what it returns. -/
theorem commit_made (hi : Upheld I s) {i : CommitInputs X} {k : X.SigningKey} (hm : Made ok s i k) :
    KeepsTo (Upheld I) (fun n s' => s'.nodes n.agentId = some n) (commit i k) s := by
  apply safeTo_check hi
  intro node hn s₁ hl₁ hi₁
  have happend : KeepsTo (Upheld I) (fun _ s' => s'.nodes node.agentId = some node) (Act.append node) s₁ := by
    intro s₂ hl₂ hi₂ r s₃ hm₂
    rcases shared_append hm₂ with ⟨hf, -, rfl⟩ | ⟨⟨e, rfl⟩, rfl⟩
    · refine ⟨⟨headed_push hi₂.1 hf, hI.push hi₂.1 hi₂.2 ((hm.later hl₁).later hl₂) hn hf⟩,
        fun _ _ h => InMemoryInner.push_stored hf h, fun s₄ hl₄ _ _ _ => hl₄ _ _ (InMemoryInner.push_same _ _)⟩
    · exact ⟨hi₂, fun _ _ h => h, fun _ _ _ _ h => by cases h⟩
  apply safeTo_then hi₁ happend
  intro _ s₂ _ _ hstored
  exact safeTo_pure fun s₃ hl₃ _ => hl₃ _ _ hstored

/-- A committed node, told as what the operation returns. -/
theorem commit_names {α : Type} (hi : Upheld I s) {i : CommitInputs X} {k : X.SigningKey} (hm : Made ok s i k)
    (f : AgentNode X → α) (g : α → Outcome X) (hf : ∀ n, (g (f n)).nodes = [n]) :
    KeepsTo (Upheld I) (fun a s' => Names ok (g a) s') (commit i k >>= fun n => pure (f n)) s :=
  safeTo_then hi (commit_made hI hi hm) fun n _ _ _ hn =>
    safeTo_pure fun _ hl _ => (names_one (hf n) hn).later hl

theorem setHead_made {id : AgentId} {n : AgentNode X} (hn : s.nodes id = some n) (hp : n.status = .promoted) :
    KeepsTo (Upheld I) (fun _ _ => True) (Act.setHead id) s := by
  intro s₁ hl hi r s₂ hm
  rcases shared_setHead hm with ⟨-, rfl⟩ | ⟨-, rfl⟩
  · exact ⟨⟨headed_point hi.1 (hl _ _ hn) hp, hI.point hi.1 hi.2 (hl _ _ hn) hp⟩, fun _ _ h => h, fun _ _ _ _ _ => trivial⟩
  · exact ⟨hi, fun _ _ h => h, fun _ _ _ _ _ => trivial⟩

/-! ## Operations -/

theorem runCycle_made (hi : Upheld I s) {op : Op X} (hop : ok op) {v : Veh X} {i : CycleInputs X} (ho : op.Orders v i)
    (hp : s.nodes i.parent.agentId = some i.parent) :
    KeepsTo (Upheld I) (fun o s' => Names ok (.cycle o) s') (v.runCycle i) s := by
  apply safeTo_check hi
  intro diff hd s₁ hl₁ hi₁
  apply safeTo_then hi₁ (evaluate_keeps i.candidate)
  intro eval s₂ hl₂ hi₂ _
  have hplan : Planned ok s₂ v i diff := ⟨⟨op, hop, ho⟩, hl₂ _ _ (hl₁ _ _ hp), hd⟩
  have hcommit {status : NodeStatus} {valid : Bool} (hv : Verdict v i eval status valid) (f : AgentNode X → CycleOutcome X)
      (hf : ∀ n, (f n).nodes = [n]) :
      KeepsTo (Upheld I) (fun o s' => Names ok (.cycle o) s')
        (commit (cycleInputs i diff eval status valid) v.signingKey >>= fun n => pure (f n)) s₂ :=
    commit_names hI hi₂ (.cycle hplan hv) f .cycle hf
  rcases hn : v.notImproved i.parent eval with _ | reason
  · rcases ha : v.policy i.parent i.intent i.candidate.capabilitySbom with _ | reason | reason
    · exact hcommit (.approved hn ha) (.promoted · eval) fun _ => rfl
    · exact hcommit (.denied hn ha) (.rejected · reason) fun _ => rfl
    · refine safeTo_pure fun s₃ hl₃ _ => ⟨fun pending h => ?_, fun _ h => by cases h⟩
      cases h
      exact ⟨v, i, diff, eval, reason, hplan.later hl₃, hn, ha, rfl⟩
  · exact hcommit (.regressed hn) (.rejected · reason) fun _ => rfl

/-- The parent a generation reads is still stored when its cycle runs. -/
theorem runGeneration_made (hi : Upheld I s) {v : Veh X} {select : Act X AgentId} {intent : MutationIntent}
    {allowedScope : AllowedScope} {context : MutationContext} {createdAt : String}
    (hop : ok (.runGeneration v select intent allowedScope context createdAt)) (hsel : select.run.Makes Call.Reads) :
    KeepsTo (Upheld I) (fun o s' => Names ok (.cycle o) s')
      (v.runGeneration select intent allowedScope context createdAt) s := by
  apply safeTo_then hi (reads_made hsel)
  intro parentId s₁ _ hi₁ _
  apply safeTo_then hi₁ (get_keeps parentId)
  intro parent s₂ _ hi₂ hp₂
  apply safeTo_then hi₂ (propose_keeps parent intent context)
  intro candidate s₃ hl₃ hi₃ _
  apply safeTo_then hi₃ (enforce_keeps candidate allowedScope)
  intro _ s₄ hl₄ hi₄ _
  have hp₄ : s₄.nodes parent.agentId = some parent := by
    rw [hi₂.1.wf.keyed parentId parent hp₂]
    exact hl₄ _ _ (hl₃ _ _ hp₂)
  apply safeTo_then hi₄ (observe_keeps hi₄ (runCycle_made hI hi₄ hop (.generation _ _ _ _ _ _ parent candidate) hp₄))
  intro outcome s₅ _ hi₅ ho
  apply safeTo_then hi₅ (observe_keeps hi₅ teardown_keeps)
  intro teardown s₆ hl₆ hi₆ _
  apply safeTo_check hi₆
  intro result hr s₇ hl₇ hi₇
  apply safeTo_check hi₇
  intro _ _ s₈ hl₈ _
  apply safeTo_pure
  intro s₉ hl₉ _
  exact ((((ho result hr).later hl₆).later hl₇).later hl₈).later hl₉

theorem commitRollback_made (hi : Upheld I s) {v : Veh X} {targetId : AgentId} {createdAt : String}
    (hop : ok (.commitRollback v targetId createdAt)) :
    KeepsTo (Upheld I) (fun n s' => s'.nodes n.agentId = some n) (v.commitRollback targetId createdAt) s := by
  apply safeTo_then hi (rollbackTarget_keeps hi targetId)
  intro target s₁ _ hi₁ ht
  apply safeTo_then hi₁ head_made
  intro head s₂ hl₂ hi₂ hhead
  rcases head with _ | parentId
  · exact safeTo_attempt fun _ h => by cases h
  apply safeTo_then hi₂ (get_keeps parentId)
  intro parent s₃ hl₃ hi₃ hp
  obtain ⟨n, hn, hpp⟩ := hhead parentId rfl
  obtain rfl : n = parent := Option.some.inj ((hl₃ _ _ hn).symm.trans hp)
  obtain rfl : target.agentId = targetId := hi₁.1.wf.keyed _ _ ht.1
  obtain rfl : n.agentId = parentId := hi₃.1.wf.keyed _ _ hp
  exact commit_made hI hi₃ (.rolledBack hop (hl₃ _ _ (hl₂ _ _ ht.1)) ht.2 hp hpp)

/-- An operation that is asked for keeps what is closed and names what the ledger holds. -/
theorem op_made (hi : Upheld I s) {op : Op X} (hop : ok op) (hsel : op.SelectsByReading)
    (hcycle : ∀ v i, op = .runCycle v i → s.nodes i.parent.agentId = some i.parent)
    (hresume : ∀ pending key, op = .resumeWithApproval pending key → Held ok s pending) :
    KeepsTo (Upheld I) (Names ok) op.act s := by
  cases op with
  | commitRoot v artifact scope createdAt =>
    refine safeTo_then hi (commit_made hI hi (.root hop)) fun n s₁ _ _ hn => ?_
    exact safeTo_pure fun s₂ hl _ => (names_one rfl hn).later hl
  | runCycle v i =>
    refine safeTo_then hi (runCycle_made hI hi hop (.cycle v i) (hcycle v i rfl)) fun o s₁ _ _ ho => ?_
    exact safeTo_pure fun s₂ hl _ => ho.later hl
  | resumeWithApproval pending key =>
    refine safeTo_then hi (commit_made hI hi (held_made (hresume pending key rfl) hop)) fun n s₁ _ _ hn => ?_
    exact safeTo_pure fun s₂ hl _ => (names_one rfl hn).later hl
  | rollbackTo id =>
    refine safeTo_then hi (safeTo_then hi (rollbackTarget_keeps hi id) fun _ _ _ _ ht => setHead_made hI ht.1 ht.2) ?_
    exact fun _ _ _ _ _ => safeTo_pure fun _ _ _ => names_none rfl
  | commitRollback v targetId createdAt =>
    refine safeTo_then hi (commitRollback_made hI hi hop) fun n s₁ _ _ hn => ?_
    exact safeTo_pure fun s₂ hl _ => (names_one rfl hn).later hl
  | runGeneration v select intent scope context createdAt =>
    refine safeTo_then hi (runGeneration_made hI hi hop hsel) fun o s₁ _ _ ho => ?_
    exact safeTo_pure fun s₂ hl _ => ho.later hl

end

/-! ## Interleavings -/

/-- Operations asked for, started at any time: cycles on nodes of the ledger, resumes of
    pauses that were returned, generations whose selector only reads. -/
def Served (ok : Op X → Prop) : InMemoryInner X → List (Prog (calls X) (Except Error (Outcome X))) →
    Prog (calls X) (Except Error (Outcome X)) → Prop :=
  fun s ps p => ∃ op : Op X, p = op.act.run ∧ ok op ∧ op.SelectsByReading ∧
    match op with
    | .runCycle _ i => s.nodes i.parent.agentId = some i.parent
    | .resumeWithApproval pending _ => .ret (.ok (.cycle (.awaitingApproval pending))) ∈ ps
    | _ => True

section

variable {I : InMemoryInner X → Prop} {ps : List (Prog (calls X) (Except Error (Outcome X)))}

theorem served_safe (hI : Closed ok I) (hi : Upheld I s)
    (hps : ∀ pending, .ret (.ok (.cycle (.awaitingApproval pending))) ∈ ps → Held ok s pending)
    {p : Prog (calls X) (Except Error (Outcome X))} (hp : Served ok s ps p) :
    Safe Shared (keeping (Upheld I)) (fun r s' => ∀ o, r = .ok o → Names ok o s') p s := by
  obtain ⟨op, rfl, hok, hsel, hop⟩ := hp
  refine op_made hI hi hok hsel ?_ ?_
  · rintro v i rfl
    exact hop
  · rintro pending key rfl
    exact hps pending hop

/-- What is closed holds in every ledger that interleaved operations reach, and what they
    returned is named truly. -/
theorem served_closed (hI : Closed ok I) (hp : Pool Shared (Served ok) .default s ps) :
    Headed s ∧ I s ∧ ∀ o, .ret (.ok o) ∈ ps → Names ok o s := by
  have hpool := pool_safe (P := keeping (Upheld I)) (Q := fun r s' => ∀ o, r = .ok o → Names ok o s')
    ⟨headed_default, hI.empty⟩
    (fun s ps p hi hps hst => served_safe hI hi
      (fun pending hmem => (hps _ hmem s (fun _ _ h => h) hi _ rfl).1 pending rfl) hst) hp
  exact ⟨hpool.1.1, hpool.1.2, fun o ho => hpool.2 _ ho s (fun _ _ h => h) hpool.1 o rfl⟩

end

end RigVeh
