/-
  RigVeh.Base.Program — programs that make calls, run alone or interleaved.

  A program returns, or makes one call and goes on with the answer. A call is atomic;
  what is between two calls of a program is its own and never seen by another. Two
  meanings are given:
  - `run`: one program alone against a handler, a function answering each call and
    leaving a state. A failing program (`ExceptT ε (Prog S)`) keeps the state its
    calls left, as code that returns early on an error does.
  - `Pool`: any number of programs started at any time, each step one call of one of
    them, against a system `Sys` that may answer a call in several ways.

  The proof rule is rely/guarantee with one protocol for all programs: `Safe P Q p s`
  says that from `s`, whatever protocol steps others take in between, every call of
  `p` is a protocol step and, when `p` returns, `Q` holds from then on. `pool_safe`:
  if every program started is safe when it starts, the protocol's invariant holds in
  every state of the pool.
-/

import Mathlib.Tactic.Common

namespace RigVeh.Base

/-- The calls programs may make, and the type of each one's answer. -/
structure Sig where
  Call : Type
  Ans : Call → Type

inductive Prog (S : Sig) (α : Type) : Type where
  | ret (a : α)
  | call (c : S.Call) (k : S.Ans c → Prog S α)

namespace Prog

variable {S : Sig} {α β ε σ : Type}

def bind : Prog S α → (α → Prog S β) → Prog S β
  | .ret a, f => f a
  | .call c k, f => .call c fun r => (k r).bind f

instance : Monad (Prog S) where
  pure := .ret
  bind := .bind

/-- The program that makes one call and returns its answer. -/
def op (c : S.Call) : Prog S (S.Ans c) := .call c .ret

@[simp] theorem pure_eq (a : α) : (pure a : Prog S α) = .ret a := rfl
@[simp] theorem ret_bind (a : α) (f : α → Prog S β) : (Prog.ret a >>= f) = f a := rfl
@[simp] theorem call_bind (c : S.Call) (k : S.Ans c → Prog S α) (f : α → Prog S β) :
    (Prog.call c k >>= f) = .call c fun r => k r >>= f := rfl
@[simp] theorem op_bind (c : S.Call) (f : S.Ans c → Prog S β) : (op c >>= f) = .call c f := rfl

theorem bind_ret (p : Prog S α) : (p >>= Prog.ret) = p := by
  induction p with
  | ret a => rfl
  | call c k ih => rw [call_bind]; exact congrArg (Prog.call c) (funext ih)

theorem bind_assoc' {γ : Type} (p : Prog S α) (f : α → Prog S β) (g : β → Prog S γ) :
    (p >>= f >>= g) = (p >>= fun a => f a >>= g) := by
  induction p with
  | ret a => rfl
  | call c k ih => simp only [call_bind]; exact congrArg (Prog.call c) (funext ih)

instance : LawfulMonad (Prog S) := LawfulMonad.mk' (Prog S) bind_ret (fun _ _ => rfl) bind_assoc'

/-! ## Alone -/

/-- A deterministic way to answer calls. -/
abbrev Handler (S : Sig) (σ : Type) := (c : S.Call) → σ → S.Ans c × σ

def run (h : Handler S σ) : Prog S α → σ → α × σ
  | .ret a, s => (a, s)
  | .call c k, s => (k (h c s).1).run h (h c s).2

variable (h : Handler S σ)

@[simp] theorem run_ret (a : α) (s : σ) : run h (.ret a) s = (a, s) := rfl
@[simp] theorem run_call (c : S.Call) (k : S.Ans c → Prog S α) (s : σ) :
    run h (.call c k) s = run h (k (h c s).1) (h c s).2 := rfl
@[simp] theorem run_op (c : S.Call) (s : σ) : run h (op c) s = h c s := rfl

@[simp] theorem run_bind (p : Prog S α) (f : α → Prog S β) (s : σ) :
    run h (p >>= f) s = run h (f (run h p s).1) (run h p s).2 := by
  induction p generalizing s with
  | ret a => rfl
  | call c k ih => exact ih _ _

/-! ## Failing -/

theorem bind_ok {x : Except ε α} {f : α → Except ε β} {b : β} (h : x >>= f = .ok b) :
    ∃ a, x = .ok a ∧ f a = .ok b := by
  cases x with
  | error e => cases h
  | ok a => exact ⟨a, rfl, h⟩

theorem ok_bind (a : α) (f : α → Except ε β) : (Except.ok a >>= f) = f a := rfl

theorem mapError_ok {δ : Type} {x : Except ε α} {f : ε → δ} {a : α} : x.mapError f = .ok a ↔ x = .ok a := by
  cases x <;> simp [Except.mapError]

/-- The program that returns a result already there, or fails with its error. -/
def attempt (r : Except ε α) : ExceptT ε (Prog S) α := .mk (.ret r)

@[simp] theorem run_attempt (r : Except ε α) (s : σ) : run h (attempt r).run s = (r, s) := rfl

/-- Go on from a result and a state, or keep the failure and the state. -/
def andThen (out : Except ε α × σ) (k : α → σ → Except ε β × σ) : Except ε β × σ :=
  match out with
  | (.ok a, s) => k a s
  | (.error e, s) => (.error e, s)

@[simp] theorem andThen_ok (a : α) (s : σ) (k : α → σ → Except ε β × σ) : andThen (.ok a, s) k = k a s := rfl
@[simp] theorem andThen_error (e : ε) (s : σ) (k : α → σ → Except ε β × σ) : andThen (.error e, s) k = (.error e, s) := rfl

/-- After a failure nothing more is called. -/
theorem run_seq (x : ExceptT ε (Prog S) α) (f : α → ExceptT ε (Prog S) β) (s : σ) :
    run h (x >>= f).run s = andThen (run h x.run s) fun a s' => run h (f a).run s' := by
  rw [ExceptT.run_bind, run_bind]
  rcases run h x.run s with ⟨_ | _, s'⟩ <;> rfl

/-! ## Interleaved -/

/-- `M c s r s'`: the call `c` made in `s` may answer `r` and leave `s'`. -/
abbrev Sys (S : Sig) (σ : Type) := (c : S.Call) → σ → S.Ans c → σ → Prop

/-- What every program keeps and what every program may do to the state meanwhile. -/
structure Protocol (σ : Type) where
  inv : σ → Prop
  later : σ → σ → Prop
  refl : ∀ s, later s s
  trans : ∀ {a b c}, later a b → later b c → later a c

variable (M : Sys S σ) (P : Protocol σ)

def Safe (Q : α → σ → Prop) : Prog S α → σ → Prop
  | .ret a, s => ∀ s', P.later s s' → P.inv s' → Q a s'
  | .call c k, s => ∀ s₁, P.later s s₁ → P.inv s₁ → ∀ r s₂, M c s₁ r s₂ →
      P.inv s₂ ∧ P.later s₁ s₂ ∧ Safe Q (k r) s₂

variable {M P}

theorem safe_later {Q : α → σ → Prop} {p : Prog S α} {s s' : σ} (hl : P.later s s') (hs : Safe M P Q p s) :
    Safe M P Q p s' := by
  cases p with
  | ret a => exact fun t ht => hs t (P.trans hl ht)
  | call c k => exact fun t ht => hs t (P.trans hl ht)

theorem safe_mono {Q Q' : α → σ → Prop} (hQ : ∀ a s, P.inv s → Q a s → Q' a s) {p : Prog S α} {s : σ}
    (hs : Safe M P Q p s) : Safe M P Q' p s := by
  induction p generalizing s with
  | ret a => exact fun t ht hi => hQ a t hi (hs t ht hi)
  | call c k ih =>
    intro s₁ hl hi r s₂ hm
    obtain ⟨h1, h2, h3⟩ := hs s₁ hl hi r s₂ hm
    exact ⟨h1, h2, ih r h3⟩

/-- What holds when a program returns holds from then on. -/
theorem safe_stays {Q : α → σ → Prop} {p : Prog S α} {s : σ} (hs : Safe M P Q p s) :
    Safe M P (fun a s' => ∀ t, P.later s' t → P.inv t → Q a t) p s := by
  induction p generalizing s with
  | ret a => exact fun s' hl _ t ht hi => hs t (P.trans hl ht) hi
  | call c k ih =>
    intro s₁ hl hi r s₂ hm
    obtain ⟨h1, h2, h3⟩ := hs s₁ hl hi r s₂ hm
    exact ⟨h1, h2, ih r h3⟩

/-- A program returns later than it started. -/
theorem safe_since {Q : α → σ → Prop} {p : Prog S α} {s₀ s : σ} (hl₀ : P.later s₀ s) (hs : Safe M P Q p s) :
    Safe M P (fun a s' => P.later s₀ s' ∧ Q a s') p s := by
  induction p generalizing s with
  | ret a => exact fun t ht hi => ⟨P.trans hl₀ ht, hs t ht hi⟩
  | call c k ih =>
    intro s₁ hl hi r s₂ hm
    obtain ⟨h1, h2, h3⟩ := hs s₁ hl hi r s₂ hm
    exact ⟨h1, h2, ih r (P.trans hl₀ (P.trans hl h2)) h3⟩

/-- Every call the program makes is one of `C`. -/
def Makes (C : S.Call → Prop) : Prog S α → Prop
  | .ret _ => True
  | .call c k => C c ∧ ∀ r, Makes C (k r)

/-- A program is safe if each call it may make is a protocol step. -/
theorem safe_makes {C : S.Call → Prop}
    (hC : ∀ c, C c → ∀ s r s', P.inv s → M c s r s' → P.inv s' ∧ P.later s s') {p : Prog S α} (hp : p.Makes C) (s : σ) :
    Safe M P (fun _ _ => True) p s := by
  induction p generalizing s with
  | ret a => exact fun _ _ _ => trivial
  | call c k ih =>
    intro s₁ _ hi r s₂ hm
    obtain ⟨h1, h2⟩ := hC c hp.1 s₁ r s₂ hi hm
    exact ⟨h1, h2, ih r (hp.2 r) s₂⟩

/-- Sequencing: the rest is safe from wherever the first part may leave the state. -/
theorem safe_bind {Q : β → σ → Prop} {p : Prog S α} {f : α → Prog S β} {s : σ}
    (hs : Safe M P (fun a s' => Safe M P Q (f a) s') p s) (hi : P.inv s) : Safe M P Q (p >>= f) s := by
  induction p generalizing s with
  | ret a => exact hs s (P.refl s) hi
  | call c k ih =>
    intro s₁ hl hi₁ r s₂ hm
    obtain ⟨h1, h2, h3⟩ := hs s₁ hl hi₁ r s₂ hm
    exact ⟨h1, h2, ih r h3 h1⟩

/-! ## Interleaved and failing -/

/-- `Safe` of a program that may fail, with a postcondition on what it returns. -/
def SafeTo (M : Sys S σ) (P : Protocol σ) (R : α → σ → Prop) (x : ExceptT ε (Prog S) α) (s : σ) : Prop :=
  Safe M P (fun r s' => ∀ a, r = .ok a → R a s') x.run s

theorem safeTo_attempt {R : α → σ → Prop} {r : Except ε α} {s : σ}
    (h : ∀ a, r = .ok a → ∀ s', P.later s s' → P.inv s' → R a s') : SafeTo M P R (attempt r) s :=
  fun s' hl hi a ha => h a ha s' hl hi

theorem safeTo_pure {R : α → σ → Prop} {a : α} {s : σ} (h : ∀ s', P.later s s' → P.inv s' → R a s') :
    SafeTo M P R (pure a : ExceptT ε (Prog S) α) s := by
  intro s' hl hi b hb
  cases hb
  exact h s' hl hi

/-- Sequencing: what the first part returns, the rest is safe with; a failure ends both. -/
theorem safeTo_seq {R : β → σ → Prop} {x : ExceptT ε (Prog S) α} {f : α → ExceptT ε (Prog S) β} {s : σ} (hi : P.inv s)
    (hx : SafeTo M P (fun a s' => P.inv s' → SafeTo M P R (f a) s') x s) : SafeTo M P R (x >>= f) s := by
  rw [SafeTo, ExceptT.run_bind]
  refine safe_bind (safe_mono ?_ hx) hi
  rintro (e | a) s' hi' h
  · intro t _ _ b hb
    cases hb
  · exact h a rfl hi'

/-- Sequencing, with what the state is later than. -/
theorem safeTo_then {R : α → σ → Prop} {R' : β → σ → Prop} {x : ExceptT ε (Prog S) α} {f : α → ExceptT ε (Prog S) β}
    {s : σ} (hi : P.inv s) (hx : SafeTo M P R x s)
    (hf : ∀ a s', P.later s s' → P.inv s' → R a s' → SafeTo M P R' (f a) s') : SafeTo M P R' (x >>= f) s := by
  refine safeTo_seq hi (safe_mono (fun r s' _ h a ha hi' => ?_) (safe_since (P.refl s) hx))
  exact hf a s' h.1 hi' (h.2 a ha)

/-- Sequencing after a result already there. -/
theorem safeTo_check {R : β → σ → Prop} {r : Except ε α} {f : α → ExceptT ε (Prog S) β} {s : σ} (hi : P.inv s)
    (hf : ∀ a, r = .ok a → ∀ s', P.later s s' → P.inv s' → SafeTo M P R (f a) s') :
    SafeTo M P R (attempt r >>= f) s := by
  apply safeTo_seq hi
  apply safeTo_attempt
  intro a ha s' hl hi' _
  exact hf a ha s' hl hi'

variable (M)

/-- The states and programs reached from `s₀` with no program running. `start` says
    which programs may be started, given the state and the programs already there
    (those that returned stay, with their results). -/
inductive Pool (start : σ → List (Prog S α) → Prog S α → Prop) (s₀ : σ) : σ → List (Prog S α) → Prop
  | init : Pool start s₀ s₀ []
  | spawn {s : σ} {ps : List (Prog S α)} (p : Prog S α) : Pool start s₀ s ps → start s ps p →
      Pool start s₀ s (ps ++ [p])
  | step {s s' : σ} {pre post : List (Prog S α)} (c : S.Call) (k : S.Ans c → Prog S α) (r : S.Ans c) :
      Pool start s₀ s (pre ++ .call c k :: post) → M c s r s' → Pool start s₀ s' (pre ++ k r :: post)

variable {M}

/-- Every interleaving of safe programs keeps the invariant and each program safe. -/
theorem pool_safe {Q : α → σ → Prop} {start : σ → List (Prog S α) → Prog S α → Prop} {s₀ : σ} (h₀ : P.inv s₀)
    (hstart : ∀ s ps p, P.inv s → (∀ q ∈ ps, Safe M P Q q s) → start s ps p → Safe M P Q p s)
    {s : σ} {ps : List (Prog S α)} (hp : Pool M start s₀ s ps) : P.inv s ∧ ∀ p ∈ ps, Safe M P Q p s := by
  induction hp with
  | init => exact ⟨h₀, fun _ h => by cases h⟩
  | spawn p _ hst ih =>
    refine ⟨ih.1, fun q hq => ?_⟩
    rcases List.mem_append.mp hq with hq | hq
    · exact ih.2 q hq
    · obtain rfl := List.mem_singleton.mp hq
      exact hstart _ _ _ ih.1 ih.2 hst
  | @step s s' pre post c k r _ hm ih =>
    obtain ⟨h1, h2, h3⟩ := ih.2 (.call c k) (by simp) s (P.refl s) ih.1 r s' hm
    refine ⟨h1, fun q hq => ?_⟩
    rcases List.mem_append.mp hq with hq | hq
    · exact safe_later h2 (ih.2 q (by simp [hq]))
    · rcases List.mem_cons.mp hq with rfl | hq
      · exact h3
      · exact safe_later h2 (ih.2 q (by simp [hq]))

/-- A program of the pool may be run to its end before any other makes a call. -/
theorem pool_run {start : σ → List (Prog S α) → Prog S α → Prop} {s₀ s : σ} {h : Handler S σ}
    (hh : ∀ c s, M c s (h c s).1 (h c s).2) (pre post : List (Prog S α)) {p : Prog S α}
    (hp : Pool M start s₀ s (pre ++ p :: post)) :
    Pool M start s₀ (run h p s).2 (pre ++ .ret (run h p s).1 :: post) := by
  induction p generalizing s with
  | ret a => exact hp
  | call c k ih => exact ih _ (.step c k _ hp (hh c s))

end Prog

end RigVeh.Base
