/-
  RigVeh.Runner.Selector — the built-in parent selectors (`src/selector.rs`) and the
  evolution driver (`src/evolution.rs`).

  Scores are compared and weighed in an arithmetic `A`, and drawn with a hash and a
  clock; which node is picked depends on all three, that it is one with `validParent`
  on none of them (`select_picks`).
-/

import RigVeh.Runner.Veh

namespace RigVeh

open RigVeh.Json RigVeh.Base

variable {X : Crates}

/-- What the selectors compute with scores. -/
structure Arith (R : Type) where
  ofF64 : F64 → R
  ofNat : Nat → R
  /-- `f64::max`. -/
  max : R → R → R
  add : R → R → R
  mul : R → R → R
  div : R → R → R
  le : R → R → Bool
  /-- `v as f64 / u64::MAX as f64`. -/
  unit : UInt64 → R

/-- What is fed to std's `DefaultHasher`. -/
inductive Hashed where
  | str (s : String)
  | u64 (n : UInt64)
  | u128 (n : Nat)

variable {R : Type} (A : Arith R) (hash : List Hashed → UInt64)

def noValidParent : Error := .ledger "no valid parent nodes in ledger"

/-- `ParentSelector::score_of`, as the built-in selectors inherit it. -/
def scoreOf (node : AgentNode X) : R :=
  match storedScore node with
  | some x => A.ofF64 x
  | none => A.ofNat 0

def orError (o : Option AgentId) (e : Error) : Except Error AgentId :=
  match o with
  | some id => .ok id
  | none => .error e

def nanos (n : Nat) : Hashed := .u128 n

def pseudoUnit (seed : Option UInt64) (weighted : List (R × AgentId)) : Act X R := do
  let first ← match seed with
    | some s => pure (Hashed.u64 s)
    | none => do pure (nanos (← Act.now))
  return A.unit (hash (first :: weighted.map fun w => .str w.2))

/-- The first entry at which the running sum reaches `r`. -/
def reach (r : R) : R → List (R × AgentId) → Option AgentId
  | _, [] => none
  | acc, (w, id) :: rest => if A.le r (A.add acc w) then some id else reach r (A.add acc w) rest

def weightedChoice (weighted : List (R × AgentId)) (seed : Option UInt64) : Act X AgentId :=
  if weighted.isEmpty then Prog.attempt (.error noValidParent)
  else
    let last := weighted.getLast?.map Prod.snd
    let total := (weighted.map Prod.fst).foldl A.add (A.ofNat 0)
    if A.le total (A.ofNat 0) then Prog.attempt (orError last (.ledger "weighted_choice empty fallback"))
    else do
      let u ← pseudoUnit A hash seed weighted
      match reach A (A.mul u total) (A.ofNat 0) weighted with
      | some id => return id
      | none => Prog.attempt (orError last (.ledger "weighted_choice exhausted"))

inductive ParentSelector where
  | latest
  | best
  | random (seed : Option UInt64)
  | scoreProportional (seed : Option UInt64)
  | scoreChildProportional (seed : Option UInt64)

namespace ParentSelector

def better (best : Option (R × AgentId)) (score : R) (id : AgentId) : Option (R × AgentId) :=
  match best with
  | some (b, old) => if A.le score b then some (b, old) else some (score, id)
  | none => some (score, id)

def bestOf (nodes : List (AgentNode X)) : Option (R × AgentId) :=
  nodes.foldl (fun best node => if node.validParent then better A best (scoreOf A node) node.agentId else best) none

/-- The nodes that name `id` as their parent. -/
def childCount (nodes : List (AgentNode X)) (id : AgentId) : Nat := nodes.countP (·.parentId = some id)

def randomIndex (seed : Option UInt64) (valid : List (AgentNode X)) : Act X Nat :=
  match seed with
  | some s => pure (s.toNat % valid.length)
  | none => do
    let time ← Act.now
    return (hash (valid.map (fun n => .str n.agentId) ++ [nanos time])).toNat % valid.length

def select : ParentSelector → Act X AgentId
  | latest => do
    let nodes ← Act.nodes
    Prog.attempt (orError ((nodes.reverse.find? (·.validParent)).map (·.agentId)) noValidParent)
  | best => do
    let nodes ← Act.nodes
    Prog.attempt (orError ((bestOf A nodes).map Prod.snd) noValidParent)
  | random seed => do
    let valid := (← Act.nodes).filter (·.validParent)
    if valid.isEmpty then Prog.attempt (.error noValidParent) else do
      let idx ← randomIndex hash seed valid
      Prog.attempt (orError (valid[idx]?.map (·.agentId)) (.ledger "random index out of bounds"))
  | scoreProportional seed => do
    let valid := (← Act.nodes).filter (·.validParent)
    weightedChoice A hash (valid.map fun n => (A.max (scoreOf A n) (A.ofNat 0), n.agentId)) seed
  | scoreChildProportional seed => do
    let nodes ← Act.nodes
    let weighted := (nodes.filter (·.validParent)).map fun n =>
      (A.div (A.max (scoreOf A n) (A.ofNat 0)) (A.add (A.ofNat 1) (A.ofNat (childCount nodes n.agentId))), n.agentId)
    weightedChoice A hash weighted seed

end ParentSelector

/-! ## The driver -/

/-- An outcome kept as a value, failed or not. -/
def observe {α : Type} (x : Act X α) : Act X (Except Error α) := .mk (x.run >>= fun r => .ret (.ok r))

/-- `EvolutionDriver::run_generation`, with any way to select. -/
def Veh.runGeneration (v : Veh X) (select : Act X AgentId) (intent : MutationIntent) (allowedScope : AllowedScope)
    (context : MutationContext) (createdAt : String) : Act X (CycleOutcome X) := do
  let parentId ← select
  let parent ← Act.get parentId
  let candidate ← Act.propose parent intent context
  Act.enforce candidate allowedScope
  let outcome ← observe (v.runCycle ⟨parent, intent, candidate, allowedScope, createdAt⟩)
  let teardown ← observe Act.teardown
  -- the cycle's error comes before the teardown's
  let result ← Prog.attempt outcome
  Prog.attempt teardown
  return result

end RigVeh
