/-
  RigVeh.Base.Pair — two programs that go in step.

  `Paired Q V p q`: `p` and `q` make their calls side by side. `Q c d A` says that the call
  `c` of the one may stand beside the call `d` of the other, and that `A` then relates
  their answers, which need not be the same. After related answers they go on paired,
  and `V` relates what they return. The rules follow the text of the programs
  (`paired_seq`); handlers that answer such calls so, and keep their states related, run
  paired programs to related results (`paired_run`).
-/

import RigVeh.Base.Trace

namespace RigVeh.Base.Prog

variable {S : Sig} {α β γ δ ε σ τ : Type}

/-- Which calls may stand side by side, and how their answers are related. -/
abbrev Beside (S : Sig) := (c d : S.Call) → (S.Ans c → S.Ans d → Prop) → Prop

inductive Paired (Q : Beside S) (V : α → β → Prop) : Prog S α → Prog S β → Prop
  | ret {a : α} {b : β} : V a b → Paired Q V (.ret a) (.ret b)
  | call {c d : S.Call} {A : S.Ans c → S.Ans d → Prop} {k : S.Ans c → Prog S α} {k' : S.Ans d → Prog S β} :
      Q c d A → (∀ r r', A r r' → Paired Q V (k r) (k' r')) → Paired Q V (.call c k) (.call d k')

/-- The same error, or results related by `V`. -/
inductive Matches (V : α → β → Prop) : Except ε α → Except ε β → Prop
  | ok {a : α} {b : β} : V a b → Matches V (.ok a) (.ok b)
  | error (e : ε) : Matches V (.error e) (.error e)

theorem matches_eq {r : Except ε α} : Matches Eq r r := by
  cases r with
  | ok a => exact .ok rfl
  | error e => exact .error e

/-! ## Rules -/

section

variable {Q : Beside S} {V : α → β → Prop} {W : γ → δ → Prop}

theorem paired_bind {p : Prog S α} {q : Prog S β} {f : α → Prog S γ} {g : β → Prog S δ} (h : Paired Q V p q)
    (hf : ∀ a b, V a b → Paired Q W (f a) (g b)) : Paired Q W (p >>= f) (q >>= g) := by
  induction h with
  | ret hab => exact hf _ _ hab
  | call hq _ ih => exact .call hq ih

theorem paired_mono {V' : α → β → Prop} (hV : ∀ a b, V a b → V' a b) {p : Prog S α} {q : Prog S β}
    (h : Paired Q V p q) : Paired Q V' p q := by
  induction h with
  | ret hab => exact .ret (hV _ _ hab)
  | call hq _ ih => exact .call hq ih

/-- A program stands beside itself if each of its calls does and is answered alike. -/
theorem paired_same {C : S.Call → Prop} (hC : ∀ c, C c → Q c c Eq) {p : Prog S α} (hp : p.Makes C) : Paired Q Eq p p := by
  induction p with
  | ret a => exact .ret rfl
  | call c k ih =>
    refine .call (hC c hp.1) ?_
    rintro r _ rfl
    exact ih r (hp.2 r)

/-- Sequencing: a failure ends both, with the same error. -/
theorem paired_seq {x : ExceptT ε (Prog S) α} {y : ExceptT ε (Prog S) β} {f : α → ExceptT ε (Prog S) γ}
    {g : β → ExceptT ε (Prog S) δ} (h : Paired Q (Matches V) x.run y.run)
    (hf : ∀ a b, V a b → Paired Q (Matches W) (f a).run (g b).run) :
    Paired Q (Matches W) (x >>= f).run (y >>= g).run := by
  rw [ExceptT.run_bind, ExceptT.run_bind]
  refine paired_bind h fun r r' hr => ?_
  cases hr with
  | ok hab => exact hf _ _ hab
  | error e => exact .ret (.error e)

theorem paired_attempt {r : Except ε α} {r' : Except ε β} (h : Matches V r r') :
    Paired Q (Matches V) (attempt r).run (attempt r').run := .ret h

theorem paired_op {c d : S.Call} {A : S.Ans c → S.Ans d → Prop} (hq : Q c d A) : Paired Q A (op c) (op d) :=
  .call hq fun _ _ h => .ret h

/-- A program that may fail stands beside itself. -/
theorem paired_self {C : S.Call → Prop} (hC : ∀ c, C c → Q c c Eq) {x : ExceptT ε (Prog S) α} (hx : x.run.Makes C) :
    Paired Q (Matches Eq) x.run x.run := paired_mono (fun _ _ he => he ▸ matches_eq) (paired_same hC hx)

theorem paired_run {f : Handler S σ} {g : Handler S τ} {R : σ → τ → Prop} {C : S.Call → Prop}
    (hR : ∀ {c d : S.Call} {A : S.Ans c → S.Ans d → Prop}, Q c d A → C d → ∀ {s : σ} {t : τ}, R s t →
      A (f c s).1 (g d t).1 ∧ R (f c s).2 (g d t).2) {p : Prog S α} {q : Prog S β} (h : Paired Q V p q) {s : σ} {t : τ}
    (hC : ∀ a ∈ trace g q t, C a.1) (hs : R s t) : V (run f p s).1 (run g q t).1 ∧ R (run f p s).2 (run g q t).2 := by
  induction h generalizing s t with
  | ret hab => exact ⟨hab, hs⟩
  | call hq _ ih =>
    obtain ⟨hans, hnext⟩ := hR hq (hC _ (.head _)) hs
    exact ih _ _ hans (fun a ha => hC a (.tail _ ha)) hnext

end

end RigVeh.Base.Prog
