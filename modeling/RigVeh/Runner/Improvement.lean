/-
  RigVeh.Runner.Improvement — what the strict-improvement rule (FR-5) enforces.

  A cycle compares the score its evaluator returns with the one stored with its parent.
  `PromotedAt t n p x` says that in the trace `t` a cycle on `p` promoted `n`, at once or
  after an approval, and evaluated it at `x`. Where the parent was promoted so too, the
  rule made the score rise exactly if the new one is a number and the parent's was
  finite, or -∞ and left behind (`strict_improvement_iff`): a NaN is not `<=` anything,
  and a score that is not finite is stored as null.
-/

import RigVeh.Runner.Mediation
import RigVeh.Runner.Scope

namespace RigVeh

open RigVeh.Json RigVeh.Base

variable {X : Crates}

/-! ## The rule -/

theorem notImproved_none {v : Veh X} (hs : v.requireStrictImprovement = true) {parent : AgentNode X} {eval : EvalResult} :
    v.notImproved parent eval = none ↔ ∀ b, storedScore parent = some b → eval.score.le b = false := by
  rw [Veh.notImproved, if_pos hs]
  cases storedScore parent with
  | none => simp
  | some b =>
    by_cases hle : eval.score.le b = true
    · simp [hle]
    · simp [hle]

/-- The score read back of an evaluated node: null stands for what is not finite. -/
theorem storedScore_evaluated {n : AgentNode X} {eval : EvalResult} (h : n.evalResults = some eval.toValue) :
    storedScore n = if eval.score.isFinite = true then some eval.score else none := by
  rw [storedScore, h, Option.bind_some]
  have hget : eval.toValue.1.get "score" = some (Value.ofF64 eval.score).1 := rfl
  rw [hget, Option.bind_some, Value.ofF64]
  split <;> rfl

/-! ## Cycles of a trace -/

/-- The cycle that `op` runs in `s`, on what its mutator proposes. -/
inductive Op.RunsCycle (h : Host X) (s : InMemoryInner X) : Op X → Veh X → CycleInputs X → Prop
  | run (v : Veh X) (i : CycleInputs X) : RunsCycle h s (.runCycle v i) v i
  | generation {v : Veh X} {select : Act X AgentId} {intent : MutationIntent} {allowedScope : AllowedScope}
      {context : MutationContext} {createdAt : String} {parentId : AgentId} {parent : AgentNode X}
      {candidate : AgentArtifact X} : (exec h select s).1 = .ok parentId → s.nodes parentId = some parent →
      h.propose parent intent context = .ok candidate →
      RunsCycle h s (.runGeneration v select intent allowedScope context createdAt) v
        ⟨parent, intent, candidate, allowedScope, createdAt⟩

section

variable {h : Host X} {s : InMemoryInner X} {op : Op X} {v v' : Veh X} {i i' : CycleInputs X} {o : CycleOutcome X}

theorem runsCycle_unique (hc : op.RunsCycle h s v i) (hc' : op.RunsCycle h s v' i') : v = v' ∧ i = i' := by
  cases hc with
  | run =>
    cases hc'
    exact ⟨rfl, rfl⟩
  | generation hsel hpar hprop =>
    cases hc' with
    | generation hsel' hpar' hprop' =>
      rw [hsel] at hsel'
      cases hsel'
      rw [hpar] at hpar'
      cases hpar'
      rw [hprop] at hprop'
      cases hprop'
      exact ⟨rfl, rfl⟩

theorem runsCycle_generation {select : Act X AgentId} {intent : MutationIntent} {allowedScope : AllowedScope}
    {context : MutationContext} {createdAt : String} (hro : (exec h select s).2 = s)
    (hr : (exec h (v.runGeneration select intent allowedScope context createdAt) s).1 = .ok o) :
    ∃ i, (Op.runGeneration v select intent allowedScope context createdAt).RunsCycle h s v i ∧
      (exec h (v.runCycle i) s).1 = .ok o := by
  obtain ⟨parentId, s₁, hsel, hr₁⟩ := exec_bind_ok hr
  obtain rfl : s₁ = s := by rw [← hro, hsel]
  obtain ⟨parent, s₂, hget, hr₂⟩ := exec_bind_ok hr₁
  rw [exec_get] at hget
  obtain ⟨hparent, rfl⟩ := Prod.mk.inj hget
  obtain ⟨candidate, s₃, hprop, hr₃⟩ := exec_bind_ok hr₂
  rw [exec_propose] at hprop
  obtain ⟨hcandidate, rfl⟩ := Prod.mk.inj hprop
  obtain ⟨_, s₄, henf, hr₄⟩ := exec_bind_ok hr₃
  rw [exec_enforce] at henf
  obtain ⟨-, rfl⟩ := Prod.mk.inj henf
  obtain ⟨outcome, s₅, hobs, hr₅⟩ := exec_bind_ok hr₄
  rw [exec_observe] at hobs
  obtain ⟨houtcome, -⟩ := Prod.mk.inj hobs
  obtain ⟨_, _, -, hr₆⟩ := exec_bind_ok hr₅
  obtain ⟨result, _, hresult, hr₇⟩ := exec_bind_ok hr₆
  obtain ⟨_, _, -, hr₈⟩ := exec_bind_ok hr₇
  cases hr₈
  refine ⟨_, .generation (by rw [hsel]) (InMemoryInner.get_ok.mp hparent) hcandidate, ?_⟩
  rw [Except.ok.inj houtcome]
  exact (Prod.mk.inj hresult).1

/-- An operation that ends in a cycle's outcome ran that cycle. -/
theorem runsCycle_of_result (hro : op.ReadsOnly) (hr : (exec h op.act s).1 = .ok (.cycle o)) :
    ∃ v i, op.RunsCycle h s v i ∧ (exec h (v.runCycle i) s).1 = .ok o := by
  cases op with
  | runCycle v i =>
    obtain ⟨o', s', hrun, ho⟩ := exec_bind_ok hr
    cases ho
    exact ⟨v, i, .run v i, by rw [hrun]⟩
  | runGeneration v select intent allowedScope context createdAt =>
    obtain ⟨o', s', hgen, ho⟩ := exec_bind_ok hr
    cases ho
    obtain ⟨i, hc, hrun⟩ := runsCycle_generation (hro h s) (by rw [hgen])
    exact ⟨v, i, hc, hrun⟩
  | _ =>
    -- the others end in a node, or in nothing
    obtain ⟨_, _, -, ho⟩ := exec_bind_ok hr
    cases ho

/-- What came out of a cycle was evaluated. -/
theorem runCycle_evaluates (hr : (exec h (v.runCycle i) s).1 = .ok o) : ∃ eval, h.evaluate i.candidate = .ok eval := by
  obtain ⟨_, hc⟩ := cycle_of_result hr
  cases hc with
  | promoted he => exact ⟨_, he.eval⟩
  | rejected _ he => exact ⟨_, he.eval⟩
  | awaiting he => exact ⟨_, he.eval⟩

/-- A cycle that was not rejected cleared the rule with the score it was evaluated at. -/
theorem runCycle_cleared {eval : EvalResult} (he : h.evaluate i.candidate = .ok eval)
    (hr : (exec h (v.runCycle i) s).1 = .ok o) :
    (∀ n e, o = .promoted n e → v.notImproved i.parent eval = none ∧ n.evalResults = some eval.toValue) ∧
      ∀ pending, o = .awaitingApproval pending →
        v.notImproved i.parent eval = none ∧ pending.evalResults = eval.toValue := by
  obtain ⟨_, hc⟩ := cycle_of_result hr
  cases hc with
  | rejected => simp
  | promoted he' hi _ hn =>
    obtain rfl := Except.ok.inj (he.symm.trans he'.eval)
    refine ⟨fun n e ho => ?_, by simp⟩
    cases ho
    exact ⟨hi, congrArg CommitInputs.evalResults (signNode_inputs hn).1⟩
  | awaiting he' hi _ =>
    obtain rfl := Except.ok.inj (he.symm.trans he'.eval)
    refine ⟨by simp, fun pending ho => ?_⟩
    cases ho
    exact ⟨hi, rfl⟩

end

/-- Every cycle is strict, and approvals resume what was paused. -/
def Strict : Rule X := fun t _ _ op =>
  match op with
  | .runCycle v _ => v.requireStrictImprovement = true
  | .runGeneration v _ _ _ _ _ => v.requireStrictImprovement = true
  | .resumeWithApproval pending _ => Paused t pending
  | _ => True

theorem strict_cycle {t : List (Event X)} {s : InMemoryInner X} {h : Host X} {op : Op X} {v : Veh X} {i : CycleInputs X}
    (ho : Strict t s h op) (hc : op.RunsCycle h s v i) : v.requireStrictImprovement = true := by
  cases hc with
  | run => exact ho
  | generation => exact ho

/-- `e` ran a cycle on `p` and evaluated its candidate at `x`. -/
def Event.Scored (e : Event X) (p : AgentNode X) (x : F64) : Prop :=
  ∃ v i eval, e.op.RunsCycle e.host e.before v i ∧ i.parent = p ∧ e.host.evaluate i.candidate = .ok eval ∧ eval.score = x

theorem event_result {op : Op X} {h : Host X} {s s' : InMemoryInner X} {r : Except Error (Outcome X)}
    (hx : exec h op.act s = (r, s')) : (op.event h s).result = r := by rw [Op.event, hx]

theorem scored_run (v : Veh X) (i : CycleInputs X) {h : Host X} {s : InMemoryInner X} {eval : EvalResult}
    (he : h.evaluate i.candidate = .ok eval) : ((Op.runCycle v i).event h s).Scored i.parent eval.score :=
  ⟨v, i, eval, .run v i, rfl, he, rfl⟩

/-- `e` promoted `n`, at once or after an approval. -/
def Event.Promotes (e : Event X) (n : AgentNode X) : Prop :=
  (∃ eval, e.result = .ok (.cycle (.promoted n eval))) ∨
    ∃ pending key, e.op = .resumeWithApproval pending key ∧ e.result = .ok (.node n)

/-- `n` was promoted by a cycle on `p` that evaluated it at `x`. -/
inductive PromotedAt (t : List (Event X)) (n p : AgentNode X) (x : F64) : Prop
  | cycle {e : Event X} {eval : EvalResult} : e ∈ t → e.Scored p x → e.result = .ok (.cycle (.promoted n eval)) →
      PromotedAt t n p x
  | resumed {e e' : Event X} {pending : PendingApproval X} {key : X.SigningKey} : e ∈ t → e.Scored p x →
      e.result = .ok (.cycle (.awaitingApproval pending)) → e' ∈ t → e'.op = .resumeWithApproval pending key →
      e'.result = .ok (.node n) → PromotedAt t n p x

section

variable {ok : Rule X} {t : List (Event X)} {s : InMemoryInner X}

theorem cycle_scored (hr : Runs ok t s) {e : Event X} (he : e ∈ t) {o : CycleOutcome X}
    (ho : e.result = .ok (.cycle o)) : ∃ p x, e.Scored p x := by
  obtain ⟨hro, hres⟩ := runs_executed hr he
  obtain ⟨v, i, hc, hrun⟩ := runsCycle_of_result hro (hres.symm.trans ho)
  obtain ⟨eval, heval⟩ := runCycle_evaluates hrun
  exact ⟨i.parent, eval.score, v, i, eval, hc, rfl, heval, rfl⟩

/-- The outcome of a strict cycle on `p`, evaluated at `x`, in terms of both. -/
theorem scored_cleared (hr : Runs Strict t s) {e : Event X} (he : e ∈ t) {p : AgentNode X} {x : F64} (hs : e.Scored p x)
    {o : CycleOutcome X} (ho : e.result = .ok (.cycle o)) : ∃ eval : EvalResult, eval.score = x ∧
      (∀ n e, o = .promoted n e → (∀ b, storedScore p = some b → x.le b = false) ∧ n.evalResults = some eval.toValue) ∧
      ∀ pending, o = .awaitingApproval pending →
        (∀ b, storedScore p = some b → x.le b = false) ∧ pending.evalResults = eval.toValue := by
  obtain ⟨v, i, eval, hc, rfl, heval, rfl⟩ := hs
  obtain ⟨hro, hres⟩ := runs_executed hr he
  obtain ⟨⟨t', -, -, hok⟩, -, -⟩ := runs_event hr he
  obtain ⟨v', i', hc', hrun⟩ := runsCycle_of_result hro (hres.symm.trans ho)
  obtain ⟨rfl, rfl⟩ := runsCycle_unique hc hc'
  have hclear := runCycle_cleared heval hrun
  rw [notImproved_none (strict_cycle hok hc)] at hclear
  exact ⟨eval, rfl, hclear⟩

/-- A promoted node cleared the rule against its parent, and stores its evaluation. -/
theorem promoted_cleared (hr : Runs Strict t s) {n p : AgentNode X} {x : F64} (hp : PromotedAt t n p x) :
    ∃ eval : EvalResult, eval.score = x ∧ n.evalResults = some eval.toValue ∧
      ∀ b, storedScore p = some b → x.le b = false := by
  cases hp with
  | cycle he hs ho =>
    obtain ⟨eval, hx, hprom, -⟩ := scored_cleared hr he hs ho
    obtain ⟨hclear, hstored⟩ := hprom _ _ rfl
    exact ⟨eval, hx, hstored, hclear⟩
  | @resumed e e' pending key he hs ho he' hop hres =>
    obtain ⟨eval, hx, -, hpause⟩ := scored_cleared hr he hs ho
    obtain ⟨hclear, hstored⟩ := hpause _ rfl
    have heff := (runs_event hr he').effect
    rw [hop, hres] at heff
    generalize e'.after = s' at heff
    cases heff with
    | resumed hn =>
      refine ⟨eval, hx, ?_, hclear⟩
      rw [show n.evalResults = some pending.evalResults from congrArg CommitInputs.evalResults (signNode_inputs hn).1,
        hstored]
    | cycle hc => cases hc

/-- Every promotion is of a candidate that was evaluated. -/
theorem promotes_promotedAt (hr : Runs Strict t s) {e : Event X} (he : e ∈ t) {n : AgentNode X} (hn : e.Promotes n) :
    ∃ p x, PromotedAt t n p x := by
  rcases hn with ⟨eval, hres⟩ | ⟨pending, key, hop, hres⟩
  · obtain ⟨p, x, hs⟩ := cycle_scored hr he hres
    exact ⟨p, x, .cycle he hs hres⟩
  · obtain ⟨⟨t', hpre, -, hok⟩, -, -⟩ := runs_event hr he
    rw [hop] at hok
    obtain ⟨c, hc, hpause⟩ := hok
    have hc := hpre.subset hc
    obtain ⟨p, x, hs⟩ := cycle_scored hr hc hpause
    exact ⟨p, x, .resumed hc hs hpause he hop hres⟩

/-- Each promoted candidate was evaluated; over a parent promoted so too, its score is
    higher exactly if it is a number and the parent's is finite, or -∞ and left behind. -/
theorem strict_improvement_iff (hr : Runs Strict t s) :
    (∀ e ∈ t, ∀ n, e.Promotes n → ∃ p y, PromotedAt t n p y) ∧
      ∀ n p q x y, PromotedAt t n p y → PromotedAt t p q x → (x.lt y = true ↔
        y.isNan = false ∧ (x.isFinite = true ∨ (x = .negInfinity ∧ y ≠ .negInfinity))) := by
  refine ⟨fun e he n hn => promotes_promotedAt hr he hn, fun n p q x y hn hp => ?_⟩
  obtain ⟨eval, rfl, hstored, -⟩ := promoted_cleared hr hp
  obtain ⟨-, -, -, hclear⟩ := promoted_cleared hr hn
  rw [storedScore_evaluated hstored] at hclear
  by_cases hfin : eval.score.isFinite = true
  · simp only [if_pos hfin, Option.some.injEq, forall_eq'] at hclear
    rw [F64.lt_of_finite hfin]
    simp [hclear, hfin]
  · rw [F64.lt_of_not_finite (Bool.not_eq_true _ ▸ hfin)]
    simp only [hfin, false_or, Bool.false_eq_true]
    exact ⟨fun ⟨h1, h2, h3⟩ => ⟨h2, h1, h3⟩, fun ⟨h1, h2, h3⟩ => ⟨h2, h1, h3⟩⟩

end

namespace Reference

/-- `Veh::new(..)`. -/
def strictVeh : Veh Reference := ⟨DefaultPolicyGate.evaluate, seed, true⟩

def nan : F64 := ⟨0x7ff8000000000000⟩

def nanHost : Host Reference := { host with evaluate := fun _ => .ok ⟨nan, .null⟩ }

/-- The child's own artifact, once more. -/
def onChild : CycleInputs Reference := ⟨child, .new "x", rootArtifact, shellScope, "2026-01-01T00:02:00Z"⟩

def nanChild : AgentNode Reference :=
  { child with
    agentId := "efd201c6eb731de3d653dc090c276a000e6b38d5627b80227fed2c09f4c7c2c6"
    parentId := some child.agentId
    generation := 2
    createdAt := "2026-01-01T00:02:00Z"
    evalResults := some (EvalResult.toValue ⟨nan, .null⟩)
    signature := "aeec9790a8baf87ceffcc7327038d2f85c610fa21e212deaa8950a12c140120f" ++
      "88323779c42f77439bcce12c1ff87c71c2caf19f72614abdc9f573f213233b00" }

theorem nanChild_signed : signNode (cycleInputs onChild "" ⟨nan, .null⟩ .promoted true) seed = .ok nanChild :=
  signNode_eq rfl (by decide) (by decide +kernel)

/-- The pinned root's child, promoted by a strict cycle. -/
theorem child_strict : exec host (Op.runCycle strictVeh widening).act (.push .default snapshotNode) =
    (.ok (.cycle (.promoted child ⟨half, .null⟩)), .push (.push .default snapshotNode) child) := by
  have he : Evaluated strictVeh host widening "" ⟨half, .null⟩ := ⟨manifestDiff_self _, rfl⟩
  rw [Op.act, exec_bind, runCycle_promotes he rfl (by decide) child_signed (by decide)]
  rfl

theorem nanChild_strict : exec nanHost (Op.runCycle strictVeh onChild).act (.push (.push .default snapshotNode) child) =
    (.ok (.cycle (.promoted nanChild ⟨nan, .null⟩)), .push (.push (.push .default snapshotNode) child) nanChild) := by
  have he : Evaluated strictVeh nanHost onChild "" ⟨nan, .null⟩ := ⟨manifestDiff_self _, rfl⟩
  rw [Op.act, exec_bind, runCycle_promotes he rfl (by decide) nanChild_signed (by decide)]
  rfl

/-- The pinned root, its child at 0.5 and the child's at NaN. -/
theorem nan_promoted : ∃ t s, Runs (X := Reference) Strict t s ∧ PromotedAt t child snapshotNode half ∧
    PromotedAt t nanChild child nan := by
  have h₁ : Runs Strict _ (.push .default snapshotNode) := snapshot_run trivial
  have h₂ := h₁.then host (.runCycle strictVeh widening) rfl trivial (congrArg Prod.snd child_strict)
  have h₃ := h₂.then nanHost (.runCycle strictVeh onChild) rfl trivial (congrArg Prod.snd nanChild_strict)
  refine ⟨_, _, h₃, ?_, ?_⟩
  · exact .cycle (List.mem_append_left _ (List.mem_append_right _ (.head _)))
      (scored_run strictVeh widening (show host.evaluate rootArtifact = .ok ⟨half, .null⟩ from rfl)) (event_result child_strict)
  · exact .cycle (List.mem_append_right _ (.head _))
      (scored_run strictVeh onChild (show nanHost.evaluate rootArtifact = .ok ⟨nan, .null⟩ from rfl))
      (event_result nanChild_strict)

theorem strict_improvement_child : half.lt nan = true ↔
    nan.isNan = false ∧ (half.isFinite = true ∨ (half = .negInfinity ∧ nan ≠ .negInfinity)) := by
  obtain ⟨t, s, hr, hchild, hnan⟩ := nan_promoted
  exact (strict_improvement_iff hr).2 nanChild child snapshotNode half nan hnan hchild

/-- A NaN is promoted over 0.5. -/
theorem nan_not_improved : ∃ t s, Runs (X := Reference) Strict t s ∧ PromotedAt t child snapshotNode half ∧
    PromotedAt t nanChild child nan ∧ half.lt nan = false := by
  obtain ⟨t, s, hr, hchild, hnan⟩ := nan_promoted
  exact ⟨t, s, hr, hchild, hnan, by decide⟩

end Reference

end RigVeh
