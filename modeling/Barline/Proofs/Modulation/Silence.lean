import Mathlib
import Barline.Modulation.Evaluation

/-!
# Expressions without noise

An expression that never calls `noise()` draws no word and comes to the same value, or fails in
the same way, whatever the random source.
-/

namespace Barline.Modulation

open Barline.Random (Source)

mutual

/-- Whether an expression calls `noise()` nowhere. -/
def Expr.noiseFree : Expr → Bool
  | .number _ => true
  | .period _ _ => true
  | .property _ => true
  | .binary _ left right => left.noiseFree && right.noiseFree
  | .call f args => f ≠ .noise && Expr.allNoiseFree args

/-- Whether none of a list of expressions calls `noise()`. -/
def Expr.allNoiseFree : List Expr → Bool
  | [] => true
  | e :: es => e.noiseFree && Expr.allNoiseFree es

end

/-- The random source of someone who never asks: it yields zeros and keeps nothing. -/
instance : Source Unit := ⟨fun _ => (0, ())⟩

/-- What an expression comes to on the silent source. -/
def Expr.outcome (e : Expr) (v : View) : Except EvalError Float :=
  ((e.evaluate v : Eval Unit Float).run.run ()).1

namespace Eval

section

variable {σ α β : Type}

/-- An evaluation that comes to `r` and leaves every source as it is. -/
def Silent (x : Eval σ α) (r : Except EvalError α) : Prop := ∀ s, x.run.run s = (r, s)

lemma silent_pure (a : α) : Silent (pure a : Eval σ α) (.ok a) := fun _ => rfl

lemma silent_throw (e : EvalError) : Silent (throw e : Eval σ α) (.error e) := fun _ => rfl

lemma silent_lift (r : Except EvalError α) : Silent (liftM r : Eval σ α) r := by
  intro s
  cases r <;> rfl

/-- What is drawn is drawn by the first step and then by the second, if there is one. -/
lemma run_bind (x : Eval σ α) (f : α → Eval σ β) (s : σ) :
    (x >>= f).run.run s =
      (match x.run.run s with
        | (.ok a, s) => (f a).run.run s
        | (.error e, s) => (.error e, s)) := by
  simp only [ExceptT.run_bind, StateT.run_bind]
  change (match x.run.run s with | p => _) = _
  rcases x.run.run s with ⟨a | e, s⟩ <;> rfl

lemma Silent.bind {x : Eval σ α} {r : Except EvalError α} {f : α → Eval σ β}
    {g : α → Except EvalError β} (hx : Silent x r) (hf : ∀ a, Silent (f a) (g a)) :
    Silent (x >>= f) (r >>= g) := by
  intro s
  rw [run_bind, hx s]
  cases r with
  | error e => rfl
  | ok a => exact hf a s

end

end Eval

lemma Function.silent_apply (f : Function) (v : View) (hf : f ≠ .noise) :
    ∃ g : List Float → Except EvalError Float,
      ∀ {σ : Type} [Source σ] (args : List Float), Eval.Silent (f.apply v args : Eval σ Float)
        (g args) := by
  cases f with
  | noise => exact (hf rfl).elim
  | ramp => exact ⟨_, fun args => Eval.silent_pure _⟩
  | cos => exact ⟨_, fun args => Eval.silent_lift (Function.cos.wave v args)⟩
  | tri => exact ⟨_, fun args => Eval.silent_lift (Function.tri.wave v args)⟩
  | saw => exact ⟨_, fun args => Eval.silent_lift (Function.saw.wave v args)⟩
  | square => exact ⟨_, fun args => Eval.silent_lift (Function.square.wave v args)⟩

mutual

/-- Evaluation without noise is silent, and comes to the same on every source. -/
theorem Expr.silent_value (v : View) : (e : Expr) → e.noiseFree →
    ∃ r, ∀ {σ : Type} [Source σ], Eval.Silent (e.value v : Eval σ Float) r
  | .number x, _ => ⟨.ok x, Eval.silent_pure x⟩
  | .period bars beats, _ => ⟨_, Eval.silent_pure (Meter.span bars beats v.signature.beatsPerBar)⟩
  | .property name, _ => ⟨v.property name, Eval.silent_lift _⟩
  | .binary op left right, h => by
    rw [Expr.noiseFree, Bool.and_eq_true] at h
    obtain ⟨l, hl⟩ := left.silent_value v h.1
    obtain ⟨r, hr⟩ := right.silent_value v h.2
    refine ⟨l >>= fun l => r >>= fun r => op.apply l r, fun {σ} _ => ?_⟩
    exact hl.bind fun l => hr.bind fun r => Eval.silent_lift _
  | .call f args, h => by
    rw [Expr.noiseFree, Bool.and_eq_true] at h
    obtain ⟨r, hr⟩ := Expr.silent_values v args h.2
    obtain ⟨g, hg⟩ := f.silent_apply v (by simpa using h.1)
    exact ⟨r >>= g, fun {σ} _ => hr.bind hg⟩

theorem Expr.silent_values (v : View) : (es : List Expr) → Expr.allNoiseFree es →
    ∃ r, ∀ {σ : Type} [Source σ], Eval.Silent (Expr.values v es : Eval σ (List Float)) r
  | [], _ => ⟨.ok [], Eval.silent_pure []⟩
  | e :: es, h => by
    rw [Expr.allNoiseFree, Bool.and_eq_true] at h
    obtain ⟨x, hx⟩ := e.silent_value v h.1
    obtain ⟨xs, hxs⟩ := Expr.silent_values v es h.2
    refine ⟨x >>= fun x => xs >>= fun xs => .ok (x :: xs), fun {σ} _ => ?_⟩
    exact hx.bind fun x => hxs.bind fun xs => Eval.silent_pure _

end

/-- An expression without noise has one outcome, which it reaches on every source. -/
theorem Expr.silent_evaluate {σ : Type} [Source σ] {e : Expr} (h : e.noiseFree) (v : View) :
    Eval.Silent (e.evaluate v : Eval σ Float) (e.outcome v) := by
  obtain ⟨r, hr⟩ := e.silent_value v h
  let finite (x : Float) : Except EvalError Float :=
    if x.isFinite then .ok x else .error .nonFinite
  have hall {τ : Type} [Source τ] : Eval.Silent (e.evaluate v : Eval τ Float) (r >>= finite) := by
    refine hr.bind fun x => ?_
    by_cases hx : x.isFinite = true
    · simpa [finite, hx] using Eval.silent_pure x
    · simpa [finite, hx] using Eval.silent_throw EvalError.nonFinite
  have houtcome : e.outcome v = r >>= finite := congrArg Prod.fst (hall ())
  rw [houtcome]
  exact hall

end Barline.Modulation
