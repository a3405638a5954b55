/-
  RigVeh.Runner.Uniform — a seeded random choice is uniform over its seeds.

  `Random::with_seed` takes the seed modulo the number of nodes that may become a
  parent. The seeds do not divide evenly: of the 2^64 each such node has as many as any
  other or one more, the first in insertion order having the one more
  (`random_uniform`).
-/

import Mathlib.Data.Int.CardIntervalMod
import RigVeh.Ledger.Jsonl
import RigVeh.Runner.Weighted

namespace RigVeh

open RigVeh.Json RigVeh.Base

variable {X : Crates} {R : Type}

/-- The nodes that may become a parent, in insertion order. -/
def InMemoryInner.valid (s : InMemoryInner X) : List (AgentNode X) := s.list.filter (·.validParent)

section

variable (A : Arith R) (hash : List Hashed → UInt64) (h : Host X) {s : InMemoryInner X}

/-- No two of them share an id. -/
theorem valid_nodup (hs : s.Wf) : (s.valid.map (·.agentId)).Nodup := by
  refine List.Nodup.sublist (List.filter_sublist.map _) ?_
  rw [InMemoryInner.list_ids hs]
  exact hs.nodup

theorem random_run (hne : s.valid ≠ []) (seed : UInt64) :
    ∃ hlt, (exec h ((ParentSelector.random (some seed)).select A hash) s).1 =
      .ok (s.valid.get ⟨seed.toNat % s.valid.length, hlt⟩).agentId := by
  have hlt := Nat.mod_lt seed.toNat (List.length_pos_iff.mpr hne)
  refine ⟨hlt, ?_⟩
  have hchoose : exec h ((ParentSelector.random (some seed)).select A hash) s =
      exec h ((ParentSelector.random (some seed)).choose A hash s.list) s :=
    ParentSelector.select_run (f := h.answer) A hash _ rfl
  have hnone : ¬ (s.list.filter (·.validParent)).isEmpty = true := mt List.isEmpty_iff.mp hne
  rw [hchoose, ParentSelector.choose, if_neg hnone, exec_bind]
  show (Prog.andThen (.ok (seed.toNat % s.valid.length), s) fun idx s =>
    exec h (Prog.attempt (orError (s.valid[idx]?.map (·.agentId)) _)) s).1 = _
  rw [Prog.andThen_ok, exec_attempt, List.getElem?_eq_getElem hlt]
  rfl

/-- A seed picks the node whose place it is modulo their number. -/
theorem random_picks (hs : s.Wf) {j : Nat} {n : AgentNode X} (hj : s.valid[j]? = some n) (seed : UInt64) :
    (exec h ((ParentSelector.random (some seed)).select A hash) s).1 = .ok n.agentId ↔ seed.toNat % s.valid.length = j := by
  obtain ⟨hlen, rfl⟩ := List.getElem?_eq_some_iff.mp hj
  obtain ⟨hlt, hrun⟩ := random_run A hash h (List.ne_nil_of_length_pos (Nat.zero_lt_of_lt hlen)) seed
  rw [hrun, Except.ok.injEq]
  constructor
  · intro hid
    have hi : seed.toNat % s.valid.length < (s.valid.map (·.agentId)).length := by rwa [List.length_map]
    have hj : j < (s.valid.map (·.agentId)).length := by rwa [List.length_map]
    have hsame : (s.valid.map (·.agentId))[seed.toNat % s.valid.length] = (s.valid.map (·.agentId))[j] := by
      rw [List.getElem_map, List.getElem_map]
      exact hid
    exact (valid_nodup hs).getElem_inj_iff.mp hsame
  · rintro rfl
    rfl

open Classical in
/-- Of all the seeds a node has as many as any other, or one more. -/
theorem random_uniform (hs : s.Wf) {j : Nat} {n : AgentNode X} (hj : s.valid[j]? = some n) :
    Nat.count (fun seed => (exec h ((ParentSelector.random (some (.ofNat seed))).select A hash) s).1 = .ok n.agentId)
      (2 ^ 64) = 2 ^ 64 / s.valid.length + if j < 2 ^ 64 % s.valid.length then 1 else 0 := by
  have hlen := (List.getElem?_eq_some_iff.mp hj).1
  have hmod : j % s.valid.length = j := Nat.mod_eq_of_lt hlen
  have hcount := Nat.count_modEq_card (2 ^ 64) (Nat.zero_lt_of_lt hlen) j
  rw [hmod] at hcount
  rw [← hcount, Nat.count_eq_card_filter_range, Nat.count_eq_card_filter_range]
  refine congrArg Finset.card (Finset.filter_congr fun seed hseed => ?_)
  rw [random_picks A hash h hs hj, UInt64.toNat_ofNat_of_lt' (Finset.mem_range.mp hseed), Nat.ModEq, hmod]

end

namespace Reference

theorem scoredLedger_wf : scoredLedger.Wf :=
  InMemoryInner.push_wf (InMemoryInner.push_wf InMemoryInner.default_wf rfl) (by decide)

open Classical in
/-- Of the two nodes each has half of the seeds. -/
theorem random_uniform_child :
    Nat.count (fun seed => (exec host ((ParentSelector.random (some (.ofNat seed))).select rational fun _ => 0)
      scoredLedger).1 = .ok child.agentId) (2 ^ 64) = 2 ^ 64 / 2 + if 1 < 2 ^ 64 % 2 then 1 else 0 :=
  random_uniform rational (fun _ => 0) host scoredLedger_wf (j := 1) rfl

end Reference

end RigVeh
