/-
  RigVeh.Base.Serial — interleavings that are as if the programs ran one at a time.

  `Solo` is one program run by itself against a system, `Serial` several of them one
  after the other. `Course` is a pool with the list of what returned, in the order it
  did: a program that returned before another was started stands before it.

  An answer `Waits` if it changed nothing and would be given again in every later state
  of the protocol. A program is `Late` if each of its answers waits or is its last. Up
  to its last call such a program can be put off until it returns, so a course of late
  programs ends where running them in the order they returned does, each with the
  result it had (`course_serial`). Calls that wait are no part of the argument later: a
  program is shown late by its text (`late_then`, `late_last`, `late_map`).
-/

import RigVeh.Base.Program

namespace RigVeh.Base.Prog

variable {S : Sig} {α β ε σ : Type} (M : Sys S σ)

/-! ## By itself -/

/-- `p` started in `s` may return `a` and leave `s'`, if nothing else makes a call. -/
inductive Solo : Prog S α → σ → α → σ → Prop
  | ret (a : α) (s : σ) : Solo (.ret a) s a s
  | call {c : S.Call} {k : S.Ans c → Prog S α} {s s₁ s' : σ} {r : S.Ans c} {a : α} : M c s r s₁ →
      Solo (k r) s₁ a s' → Solo (.call c k) s a s'

/-- The programs of `l`, one after the other, return what stands beside them. -/
inductive Serial : σ → List (Prog S α × α) → σ → Prop
  | none (s : σ) : Serial s [] s
  | next {s s₁ s' : σ} {l : List (Prog S α × α)} {p : Prog S α} {a : α} : Serial s l s₁ → Solo M p s₁ a s' →
      Serial s (l ++ [(p, a)]) s'

variable {M}

theorem solo_ret {a b : α} {s s' : σ} : Solo M (.ret a) s b s' ↔ b = a ∧ s' = s := by
  constructor
  · intro h
    cases h
    exact ⟨rfl, rfl⟩
  · intro ⟨hb, hs⟩
    subst hb hs
    exact .ret _ _

theorem solo_call {c : S.Call} {k : S.Ans c → Prog S α} {s s' : σ} {a : α} :
    Solo M (.call c k) s a s' ↔ ∃ r s₁, M c s r s₁ ∧ Solo M (k r) s₁ a s' := by
  constructor
  · intro h
    cases h with
    | call hm h => exact ⟨_, _, hm, h⟩
  · intro ⟨_, _, hm, h⟩
    exact .call hm h

/-- What a handler leaves no choice about is the run against it. -/
theorem solo_run {h : Handler S σ} {C : S.Call → Prop} (hC : ∀ c, C c → ∀ s r s', M c s r s' → h c s = (r, s'))
    {p : Prog S α} (hp : p.Makes C) {s s' : σ} {a : α} (hs : Solo M p s a s') : run h p s = (a, s') := by
  induction hs with
  | ret a s => rfl
  | call hm _ ih =>
    rw [run_call, hC _ hp.1 _ _ _ hm]
    exact ih (hp.2 _)

/-- What a handler of the system does, the system may do. -/
theorem run_solo {h : Handler S σ} (hh : ∀ c s, M c s (h c s).1 (h c s).2) (p : Prog S α) (s : σ) :
    Solo M p s (run h p s).1 (run h p s).2 := by
  induction p generalizing s with
  | ret a => exact .ret a s
  | call c k ih => exact .call (hh c s) (ih _ _)

/-! ## In order of return -/

/-- The `who`-th program started was `prog` and returned `result`. -/
structure Return (S : Sig) (α : Type) where
  who : Nat
  prog : Prog S α
  result : α

/-- Whether the program that now goes on as `q` has just returned. -/
def returned (who : Nat) (p : Prog S α) : Prog S α → List (Return S α)
  | .ret a => [⟨who, p, a⟩]
  | .call _ _ => []

variable (M)

/-- A pool with what returned, in order; each program beside the one it was started as. -/
inductive Course (start : σ → List (Prog S α) → Prog S α → Prop) (s₀ : σ) :
    List (Return S α) → σ → List (Prog S α × Prog S α) → Prop
  | init : Course start s₀ [] s₀ []
  | spawn {d : List (Return S α)} {s : σ} {ps : List (Prog S α × Prog S α)} (p : Prog S α) : Course start s₀ d s ps →
      start s (ps.map Prod.snd) p → Course start s₀ (d ++ returned ps.length p p) s (ps ++ [(p, p)])
  | step {d : List (Return S α)} {s s' : σ} {pre post : List (Prog S α × Prog S α)} {p : Prog S α} (c : S.Call)
      (k : S.Ans c → Prog S α) (r : S.Ans c) : Course start s₀ d s (pre ++ (p, .call c k) :: post) → M c s r s' →
      Course start s₀ (d ++ returned pre.length p (k r)) s' (pre ++ (p, k r) :: post)

variable {M} {start : σ → List (Prog S α) → Prog S α → Prop} {s₀ s s' : σ} {d : List (Return S α)}
  {ps : List (Prog S α × Prog S α)}

/-- The interleavings of the pool are those that have a course. -/
theorem pool_iff_course {qs : List (Prog S α)} :
    Pool M start s₀ s qs ↔ ∃ d ps, Course M start s₀ d s ps ∧ ps.map Prod.snd = qs := by
  constructor
  · intro h
    induction h with
    | init => exact ⟨[], [], .init, rfl⟩
    | spawn p _ hst ih =>
      obtain ⟨d, ps, h, rfl⟩ := ih
      exact ⟨_, _, .spawn p h hst, by rw [List.map_append]; rfl⟩
    | step c k r _ hm ih =>
      obtain ⟨d, ps, h, hps⟩ := ih
      obtain ⟨pre, rest, rfl, rfl, hrest⟩ := List.map_eq_append_iff.mp hps
      obtain ⟨⟨p, q⟩, post, rfl, hq, rfl⟩ := List.map_eq_cons_iff.mp hrest
      obtain rfl : q = .call c k := hq
      exact ⟨_, _, .step c k r h hm, by simp⟩
  · intro ⟨d, ps, h, hps⟩
    subst hps
    induction h with
    | init => exact .init
    | spawn p _ hst ih =>
      rw [List.map_append]
      exact .spawn p ih hst
    | step c k r _ hm ih =>
      rw [List.map_append, List.map_cons] at ih ⊢
      exact .step c k r ih hm

/-- What is listed is what the pool's programs are and returned. -/
theorem course_returned (h : Course M start s₀ d s ps) (x : Return S α) :
    x ∈ d ↔ ps[x.who]? = some (x.prog, .ret x.result) := by
  have hreturned (i : Nat) (p q : Prog S α) : x ∈ returned i p q ↔ i = x.who ∧ (p, q) = (x.prog, .ret x.result) := by
    obtain ⟨who, prog, result⟩ := x
    cases q with
    | ret a => simp [returned, eq_comm]
    | call c k => simp [returned]
  induction h with
  | init => simp
  | @spawn d s ps p _ _ ih =>
    rw [List.mem_append, hreturned, List.getElem?_append, show x ∈ d ↔ ps[x.who]? = _ from ih]
    split
    · rename_i hlt
      simp only [Nat.ne_of_gt hlt, false_and, or_false]
    · rename_i hge
      rw [List.getElem?_eq_none (Nat.le_of_not_lt hge), List.getElem?_singleton]
      by_cases hi : ps.length = x.who
      · simp [hi]
      · simp [hi, show x.who - ps.length ≠ 0 by omega]
  | @step d s s' pre post p c k r _ _ ih =>
    rw [List.mem_append, hreturned, show x ∈ d ↔ (pre ++ (p, .call c k) :: post)[x.who]? = _ from ih,
      List.getElem?_append, List.getElem?_append]
    split
    · rename_i hlt
      simp only [Nat.ne_of_gt hlt, false_and, or_false]
    · rename_i hge
      rw [List.getElem?_cons, List.getElem?_cons]
      by_cases hi : pre.length = x.who
      · simp [hi]
      · simp [hi, show x.who - pre.length ≠ 0 by omega]

/-- Every program there was started as one that may be. -/
theorem course_started {Q : Prog S α → Prop} (hstart : ∀ s ps p, start s ps p → Q p) (h : Course M start s₀ d s ps) :
    ∀ x ∈ ps, Q x.1 := by
  induction h with
  | init => exact fun x hx => by cases hx
  | spawn p _ hst ih =>
    intro x hx
    rcases List.mem_append.mp hx with hx | hx
    · exact ih x hx
    · obtain rfl := List.mem_singleton.mp hx
      exact hstart _ _ _ hst
  | @step d s s' pre post p c k r _ _ ih =>
    intro x hx
    rcases List.mem_append.mp hx with hx | hx
    · exact ih x (List.mem_append_left _ hx)
    · rcases List.mem_cons.mp hx with rfl | hx
      · exact ih (p, .call c k) (by simp)
      · exact ih x (by simp [hx])

/-- Each program is listed once. -/
theorem course_nodup (h : Course M start s₀ d s ps) : (d.map Return.who).Nodup := by
  have hnew {d : List (Return S α)} {i : Nat} {p q : Prog S α} (hd : (d.map Return.who).Nodup)
      (hi : ∀ x ∈ d, x.who ≠ i) : ((d ++ returned i p q).map Return.who).Nodup := by
    cases q with
    | ret a =>
      rw [List.map_append, returned]
      refine List.nodup_append.mpr ⟨hd, List.pairwise_singleton _ _, fun j hj j' hj' => ?_⟩
      obtain ⟨x, hx, rfl⟩ := List.mem_map.mp hj
      obtain rfl := List.mem_singleton.mp hj'
      exact hi x hx
    | call c k => rwa [returned, List.append_nil]
  induction h with
  | init => exact List.nodup_nil
  | @spawn d s ps p h _ ih =>
    refine hnew ih fun x hx hwho => ?_
    have hlt := (List.getElem?_eq_some_iff.mp ((course_returned h x).mp hx)).1
    omega
  | @step d s s' pre post p c k r h _ ih =>
    refine hnew ih fun x hx hwho => ?_
    -- the program that makes the call has not returned before
    have hat := (course_returned h x).mp hx
    rw [hwho, List.getElem?_append_right (Nat.le_refl _), Nat.sub_self] at hat
    cases hat

/-- A program of the pool may be run to its end before any other makes a call. -/
theorem course_solo (pre post : List (Prog S α × Prog S α)) {p q : Prog S α} {a : α}
    (h : Course M start s₀ d s (pre ++ (p, q) :: post)) (hcall : ∀ b, q ≠ .ret b) (hs : Solo M q s a s') :
    Course M start s₀ (d ++ [⟨pre.length, p, a⟩]) s' (pre ++ (p, .ret a) :: post) := by
  induction hs with
  | ret a => exact absurd rfl (hcall a)
  | @call c k s s₁ s' r a hm hs ih =>
    have hnext := Course.step c k r h hm
    generalize hq : k r = q at hnext hs ih
    cases q with
    | ret b =>
      obtain ⟨rfl, rfl⟩ := solo_ret.mp hs
      exact hnext
    | call c k =>
      rw [returned, List.append_nil] at hnext
      exact ih hnext fun b hb => by cases hb

/-! ## Putting off -/

variable (M) (P : Protocol σ)

/-- The answer changed nothing, and would be given in every later state as well. -/
def Waits (c : S.Call) (s : σ) (r : S.Ans c) (s' : σ) : Prop :=
  s' = s ∧ ∀ u, P.later s u → P.inv u → M c u r u

/-- Each answer waits, or is the last. -/
def Late : Prog S α → Prop
  | .ret _ => True
  | .call c k => ∀ s r s', P.inv s → M c s r s' → (∃ a, k r = .ret a) ∨ Waits M P c s r s' ∧ Late (k r)

/-- What `p` did until it goes on as `q` may be put off. -/
def PutOff (p q : Prog S α) (s : σ) : Prop :=
  Late M P q ∧ ∀ u a u', P.later s u → P.inv u → Solo M q u a u' → Solo M p u a u'

variable {M P}

theorem putOff_later {p q : Prog S α} (h : PutOff M P p q s) (hl : P.later s s') : PutOff M P p q s' :=
  ⟨h.1, fun u a u' hu => h.2 u a u' (P.trans hl hu)⟩

/-- A call of a program that may be put off: the program returns, having run alone from
    here, or may still be put off. -/
theorem putOff_step {p : Prog S α} {c : S.Call} {k : S.Ans c → Prog S α} {r : S.Ans c} (hi : P.inv s)
    (h : PutOff M P p (.call c k) s) (hm : M c s r s') :
    (∃ a, k r = .ret a ∧ Solo M p s a s') ∨ s' = s ∧ PutOff M P p (k r) s := by
  rcases h.1 s r s' hi hm with ⟨a, ha⟩ | ⟨⟨hs, hw⟩, hlate⟩
  · refine .inl ⟨a, ha, h.2 s a s' (P.refl s) hi (.call hm ?_)⟩
    rw [ha]
    exact .ret a s'
  · exact .inr ⟨hs, hlate, fun u a u' hl hu hsolo => h.2 u a u' hl hu (.call (hw u hl hu) hsolo)⟩

/-- A course of late programs ends where running them in the order they returned ends,
    with the results they had. -/
theorem course_serial (hM : ∀ c s r s', P.inv s → M c s r s' → P.inv s' ∧ P.later s s') (h₀ : P.inv s₀)
    (hstart : ∀ s ps p, start s ps p → Late M P p) (h : Course M start s₀ d s ps) :
    Serial M s₀ (d.map fun x => (x.prog, x.result)) s := by
  suffices hall : P.inv s ∧ Serial M s₀ (d.map fun x => (x.prog, x.result)) s ∧
      ∀ x ∈ ps, (∃ a, x.2 = .ret a) ∨ PutOff M P x.1 x.2 s from hall.2.1
  induction h with
  | init => exact ⟨h₀, .none _, fun x hx => by cases hx⟩
  | @spawn d s ps p _ hst ih =>
    obtain ⟨hi, hserial, hps⟩ := ih
    have hlate := hstart _ _ _ hst
    refine ⟨hi, ?_, fun x hx => ?_⟩
    · cases p with
      | ret a =>
        rw [List.map_append]
        exact .next hserial (.ret a s)
      | call c k => rwa [returned, List.append_nil]
    · rcases List.mem_append.mp hx with hx | hx
      · exact hps x hx
      · obtain rfl := List.mem_singleton.mp hx
        exact .inr ⟨hlate, fun _ _ _ _ _ hs => hs⟩
  | @step d s s' pre post p c k r _ hm ih =>
    obtain ⟨hi, hserial, hps⟩ := ih
    obtain ⟨hi', hl⟩ := hM c s r s' hi hm
    -- the others may be put off further
    have hothers (x : Prog S α × Prog S α) (hx : x ∈ pre ++ post) : (∃ a, x.2 = .ret a) ∨ PutOff M P x.1 x.2 s' :=
      (hps x (by rcases List.mem_append.mp hx with h | h <;> simp [h])).imp_right fun h => putOff_later h hl
    have hown : PutOff M P p (.call c k) s := (hps (p, .call c k) (by simp)).resolve_left fun ⟨_, h⟩ => by cases h
    suffices hthis : Serial M s₀ ((d ++ returned pre.length p (k r)).map fun x => (x.prog, x.result)) s' ∧
        ((∃ a, k r = .ret a) ∨ PutOff M P p (k r) s') by
      refine ⟨hi', hthis.1, fun x hx => ?_⟩
      rcases List.mem_append.mp hx with hx | hx
      · exact hothers x (List.mem_append_left _ hx)
      · rcases List.mem_cons.mp hx with rfl | hx
        · exact hthis.2
        · exact hothers x (List.mem_append_right _ hx)
    rcases putOff_step hi hown hm with ⟨a, ha, hsolo⟩ | ⟨rfl, hput⟩
    · rw [ha, List.map_append]
      exact ⟨.next hserial hsolo, .inl ⟨a, rfl⟩⟩
    · generalize k r = q at hput
      cases q with
      | ret a =>
        rw [List.map_append]
        exact ⟨.next hserial (hput.2 _ a _ (P.refl _) hi (.ret a _)), .inl ⟨a, rfl⟩⟩
      | call c k => exact ⟨by rwa [returned, List.append_nil], .inr hput⟩

/-! ## Programs that are late -/

theorem late_bind_ret {p : Prog S α} {f : α → β} (h : Late M P p) : Late M P (p >>= fun a => .ret (f a)) := by
  induction p with
  | ret a => trivial
  | call c k ih =>
    intro s r s' hi hm
    rcases h s r s' hi hm with ⟨a, ha⟩ | ⟨hw, hlate⟩
    · exact .inl ⟨f a, congrArg (· >>= fun a => Prog.ret (f a)) ha⟩
    · exact .inr ⟨hw, ih r hlate⟩

/-- Passing a result on makes no call. -/
theorem late_map {x : ExceptT ε (Prog S) α} {f : α → β} (h : Late M P x.run) :
    Late M P (x >>= fun a => pure (f a)).run := by
  have hrun : (x >>= fun a => pure (f a)).run = x.run >>= fun r => .ret (r.map f) := by
    rw [ExceptT.run_bind]
    refine congrArg (x.run >>= ·) (funext fun r => ?_)
    cases r <;> rfl
  rw [hrun]
  exact late_bind_ret h

theorem late_check {r : Except ε α} {f : α → ExceptT ε (Prog S) β} (hf : ∀ a, r = .ok a → Late M P (f a).run) :
    Late M P (attempt r >>= f).run := by
  cases r with
  | error e => trivial
  | ok a => exact hf a rfl

/-- What comes after a call goes on from its answer. -/
theorem seq_call {x : ExceptT ε (Prog S) α} {g : α → ExceptT ε (Prog S) β} {c : S.Call} {f : S.Ans c → Except ε α}
    (hx : x.run = .call c fun r => .ret (f r)) : (x >>= g).run = .call c fun r => (attempt (f r) >>= g).run := by
  rw [ExceptT.run_bind, hx]
  rfl

/-- One call, whatever its answer. -/
theorem late_last (c : S.Call) : Late M P (op c) := fun _ r _ _ _ => .inl ⟨r, rfl⟩

/-- A call that fails, or whose answer waits. -/
theorem late_then {x : ExceptT ε (Prog S) α} {g : α → ExceptT ε (Prog S) β} (c : S.Call) (f : S.Ans c → Except ε α)
    (hx : x.run = .call c fun r => .ret (f r))
    (hc : ∀ s r s', P.inv s → M c s r s' → (∃ e, f r = .error e) ∨ Waits M P c s r s') (hg : ∀ a, Late M P (g a).run) :
    Late M P (x >>= g).run := by
  rw [seq_call hx]
  intro s r s' hi hm
  rcases hc s r s' hi hm with ⟨e, he⟩ | hw
  · exact .inl ⟨.error e, congrArg (fun r => (attempt r >>= g).run) he⟩
  · exact .inr ⟨hw, late_check fun a _ => hg a⟩

end RigVeh.Base.Prog
