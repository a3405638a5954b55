/-
  RigVeh.Base.Trace — the calls a program makes, with their answers.

  `trace h p s` are the calls of `p` run alone against the handler `h` from `s`, in
  order. A program that fails stops there: the rest of it makes no call (`trace_seq`).
  What a program may call at all (`Makes`) is read off its text (`makes_seq`) and holds
  of every trace (`trace_makes`). Only the answers to that decide a run (`run_agree`),
  and only that changes the state (`run_still`).
-/

import RigVeh.Base.Program

namespace RigVeh.Base.Prog

variable {S : Sig} {α β ε σ : Type}

/-- A call with its answer. -/
abbrev Answered (S : Sig) := (c : S.Call) × S.Ans c

def trace (h : Handler S σ) : Prog S α → σ → List (Answered S)
  | .ret _, _ => []
  | .call c k, s => ⟨c, (h c s).1⟩ :: trace h (k (h c s).1) (h c s).2

variable (h : Handler S σ)

@[simp] theorem trace_ret (a : α) (s : σ) : trace h (.ret a) s = [] := rfl

@[simp] theorem trace_op (c : S.Call) (s : σ) : trace h (op c) s = [⟨c, (h c s).1⟩] := rfl

@[simp] theorem trace_attempt (r : Except ε α) (s : σ) : trace h (attempt r).run s = [] := rfl

theorem trace_bind (p : Prog S α) (f : α → Prog S β) (s : σ) :
    trace h (p >>= f) s = trace h p s ++ trace h (f (run h p s).1) (run h p s).2 := by
  induction p generalizing s with
  | ret a => rfl
  | call c k ih => exact congrArg (List.cons _) (ih _ _)

/-- What is traced after a result, nothing after a failure. -/
def traceThen (out : Except ε α × σ) (k : α → σ → List (Answered S)) : List (Answered S) :=
  match out with
  | (.ok a, s) => k a s
  | (.error _, _) => []

@[simp] theorem traceThen_ok (a : α) (s : σ) (k : α → σ → List (Answered S)) :
    traceThen (ε := ε) (.ok a, s) k = k a s := rfl
@[simp] theorem traceThen_error (e : ε) (s : σ) (k : α → σ → List (Answered S)) : traceThen (.error e, s) k = [] := rfl

theorem trace_seq (x : ExceptT ε (Prog S) α) (f : α → ExceptT ε (Prog S) β) (s : σ) :
    trace h (x >>= f).run s = trace h x.run s ++ traceThen (run h x.run s) fun a s' => trace h (f a).run s' := by
  rw [ExceptT.run_bind, trace_bind]
  rcases run h x.run s with ⟨_ | _, s'⟩ <;> rfl

/-! ## Which calls are made -/

variable {C : S.Call → Prop}

theorem trace_makes {p : Prog S α} (hp : p.Makes C) (s : σ) : ∀ a ∈ trace h p s, C a.1 := by
  induction p generalizing s with
  | ret a => simp
  | call c k ih =>
    intro a ha
    rcases List.mem_cons.mp ha with rfl | ha
    · exact hp.1
    · exact ih _ (hp.2 _) _ a ha

theorem makes_bind {p : Prog S α} {f : α → Prog S β} (hp : p.Makes C) (hf : ∀ a, (f a).Makes C) : (p >>= f).Makes C := by
  induction p with
  | ret a => exact hf a
  | call c k ih => exact ⟨hp.1, fun r => ih r (hp.2 r)⟩

theorem makes_seq {x : ExceptT ε (Prog S) α} {f : α → ExceptT ε (Prog S) β} (hx : x.run.Makes C)
    (hf : ∀ a, (f a).run.Makes C) : (x >>= f).run.Makes C := by
  rw [ExceptT.run_bind]
  apply makes_bind hx
  intro r
  cases r with
  | error e => trivial
  | ok a => exact hf a

theorem makes_mono {D : S.Call → Prop} (hCD : ∀ c, C c → D c) {p : Prog S α} (hp : p.Makes C) : p.Makes D := by
  induction p with
  | ret a => trivial
  | call c k ih => exact ⟨hCD c hp.1, fun r => ih r (hp.2 r)⟩

/-- What may call nothing but reads leaves the state as it was. -/
theorem run_still (hC : ∀ c, C c → ∀ s, (h c s).2 = s) {p : Prog S α} (hp : p.Makes C) (s : σ) : (run h p s).2 = s := by
  induction p generalizing s with
  | ret a => rfl
  | call c k ih =>
    rw [run_call, hC c hp.1 s]
    exact ih _ (hp.2 _) s

/-- Handlers that answer alike what a program may call run it alike. -/
theorem run_agree {f g : Handler S σ} (hC : ∀ c, C c → ∀ s, f c s = g c s) {p : Prog S α} (hp : p.Makes C) (s : σ) :
    run f p s = run g p s := by
  induction p generalizing s with
  | ret a => rfl
  | call c k ih =>
    rw [run_call, run_call, hC c hp.1 s]
    exact ih _ (hp.2 _) _

/-- Handlers that simulate each other on the calls made run a program alike. -/
theorem run_sim {τ : Type} {f : Handler S σ} {g : Handler S τ} {R : σ → τ → Prop}
    (hR : ∀ c s t, C c → R s t → (f c s).1 = (g c t).1 ∧ R (f c s).2 (g c t).2) {p : Prog S α} {s : σ} {t : τ}
    (hC : ∀ a ∈ trace g p t, C a.1) (h : R s t) : (run f p s).1 = (run g p t).1 ∧ R (run f p s).2 (run g p t).2 := by
  induction p generalizing s t with
  | ret a => exact ⟨rfl, h⟩
  | call c k ih =>
    obtain ⟨hans, hnext⟩ := hR c s t (hC _ (.head _)) h
    rw [run_call, run_call, hans]
    exact ih _ (fun a ha => hC a (.tail _ ha)) hnext

/-- After a result already there only its value matters. -/
theorem makes_check {r : Except ε α} {f : α → ExceptT ε (Prog S) β} (hf : ∀ a, r = .ok a → (f a).run.Makes C) :
    (attempt r >>= f).run.Makes C := by
  cases r with
  | error e => trivial
  | ok a => exact hf a rfl

end RigVeh.Base.Prog
