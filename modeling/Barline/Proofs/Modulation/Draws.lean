import Barline.Proofs.Modulation.Silence

/-!
# How many words are drawn

The nodes of an expression are evaluated in a fixed order: operands before what is made of them,
and from left to right. A machine that takes the nodes in that order, with the values that are still
to be used on a stack, comes to what the expression comes to. Each `noise()` that the machine passes
draws one word and no other node draws any, so a source is left where the nodes passed leave it.
-/

namespace Barline

/-- What is left of a source after a number of words. -/
def Random.Source.after {σ : Type} [Source σ] (count : ℕ) : σ → σ := (fun s => (draw s).2)^[count]

namespace Modulation

open Barline.Random (Source Tape)

mutual

/-- The nodes of an expression in the order they are evaluated. -/
def Expr.nodes : Expr → List Expr
  | .number x => [.number x]
  | .period bars beats => [.period bars beats]
  | .property name => [.property name]
  | .binary op left right => left.nodes ++ right.nodes ++ [.binary op left right]
  | .call f args => Expr.allNodes args ++ [.call f args]

/-- The nodes of a list of expressions, one expression after another. -/
def Expr.allNodes : List Expr → List Expr
  | [] => []
  | e :: es => e.nodes ++ Expr.allNodes es

end

def Expr.isNoise : Expr → Bool
  | .call .noise _ => true
  | _ => false

/-- How often `noise()` is called in a list of nodes. -/
def noises (nodes : List Expr) : ℕ := nodes.countP (·.isNoise)

@[simp] lemma noises_append (before after : List Expr) :
    noises (before ++ after) = noises before + noises after := List.countP_append ..

section

variable {σ : Type} [Source σ]

/-- One node, which takes the values of its operands from the stack, the last of them first, and
leaves its own value there. -/
def Expr.step (v : View) : Expr → List Float → Eval σ (List Float)
  | .number x, stack => return x :: stack
  | .period bars beats, stack => return Meter.span bars beats v.signature.beatsPerBar :: stack
  | .property name, stack => return (← v.property name) :: stack
  | .binary op _ _, r :: l :: stack => return (← op.apply l r) :: stack
  | .binary .., stack => return stack
  | .call f args, stack =>
    return (← f.apply v (stack.take args.length).reverse) :: stack.drop args.length

/-- Nodes one after another. -/
def steps (v : View) (nodes : List Expr) (stack : List Float) : Eval σ (List Float) :=
  nodes.foldlM (fun stack node => node.step v stack) stack

lemma steps_append (v : View) (before after : List Expr) (stack : List Float) :
    (steps v (before ++ after) stack : Eval σ _) = steps v before stack >>= steps v after :=
  List.foldlM_append

lemma steps_cons (v : View) (node : Expr) (nodes : List Expr) (stack : List Float) :
    (steps v (node :: nodes) stack : Eval σ _) = node.step v stack >>= steps v nodes :=
  List.foldlM_cons

lemma steps_single (v : View) (node : Expr) (stack : List Float) :
    (steps v [node] stack : Eval σ _) = node.step v stack := by
  rw [steps_cons]
  exact bind_pure _

mutual

/-- The machine leaves the value of an expression on the stack, and fails as the expression does. -/
theorem Expr.steps_nodes (v : View) : (e : Expr) → (stack : List Float) →
    (steps v e.nodes stack : Eval σ _) = e.value v >>= fun x => pure (x :: stack)
  | .number x, stack => by
    rw [Expr.nodes, steps_single, Expr.value, pure_bind, Expr.step]
  | .period bars beats, stack => by
    rw [Expr.nodes, steps_single, Expr.value, pure_bind, Expr.step]
  | .property name, stack => by
    rw [Expr.nodes, steps_single, Expr.value, Expr.step]
  | .binary op left right, stack => by
    rw [Expr.nodes, Expr.value, steps_append, steps_append, left.steps_nodes v]
    simp only [bind_assoc, pure_bind, right.steps_nodes v, steps_single, Expr.step]
  | .call f args, stack => by
    rw [Expr.nodes, Expr.value, steps_append, bind_assoc]
    refine Expr.steps_allNodes v args stack fun xs hxs => ?_
    have htake : (xs.reverse ++ stack).take args.length = xs.reverse :=
      List.take_left' (by simp [hxs])
    have hdrop : (xs.reverse ++ stack).drop args.length = stack :=
      List.drop_left' (by simp [hxs])
    rw [steps_single, Expr.step, htake, hdrop, List.reverse_reverse]

/-- The machine leaves the values of a list of expressions on the stack, the last of them on top.
There are as many as expressions, so what takes them finds all of them. -/
theorem Expr.steps_allNodes (v : View) : (es : List Expr) → (stack : List Float) → ∀ {β : Type}
    {f g : List Float → Eval σ β},
    (∀ xs, xs.length = es.length → f (xs.reverse ++ stack) = g xs) →
    steps v (Expr.allNodes es) stack >>= f = Expr.values v es >>= g
  | [], stack, _, f, g, hfg => by
    rw [Expr.allNodes, Expr.values, pure_bind]
    exact hfg [] rfl
  | e :: es, stack, _, f, g, hfg => by
    rw [Expr.allNodes, Expr.values, steps_append, e.steps_nodes v]
    simp only [bind_assoc, pure_bind]
    refine bind_congr fun x => Expr.steps_allNodes v es (x :: stack) fun xs hxs => ?_
    have hall := hfg (x :: xs) (congrArg Nat.succ hxs)
    simpa using hall

end

end

namespace Eval

variable {σ α β : Type}

/-- A step in front of another leaves the errors that are impossible impossible. -/
lemma bind_ne_error {x : Eval σ α} {f : α → Eval σ β} {error : EvalError}
    (hx : ∀ s, (x.run.run s).1 ≠ .error error)
    (hf : ∀ a s, ((f a).run.run s).1 ≠ .error error) (s : σ) :
    ((x >>= f).run.run s).1 ≠ .error error := by
  rw [run_bind]
  rcases hrun : x.run.run s with ⟨e | a, s'⟩
  · intro he
    obtain rfl := Except.error.inj he
    exact hx s (congrArg Prod.fst hrun)
  · exact hf a s'

lemma lift_ne_error {r : Except EvalError α} {error : EvalError} (hr : r ≠ .error error) (s : σ) :
    ((liftM r : Eval σ α).run.run s).1 ≠ .error error := by
  rwa [silent_lift r s]

end Eval

lemma View.property_ne_nonFinite (v : View) (name : String) :
    v.property name ≠ .error .nonFinite := by
  unfold View.property
  split <;> simp

lemma Operator.apply_ne_nonFinite (op : Operator) (l r : Float) :
    op.apply l r ≠ .error .nonFinite := by
  cases op with
  | divide => rw [Operator.apply]; split <;> simp
  | _ => exact nofun

lemma Function.wave_ne_nonFinite (f : Function) (v : View) (args : List Float) :
    f.wave v args ≠ .error .nonFinite := by
  rw [Function.wave]
  split <;> simp

section

variable {σ : Type} [Source σ]

lemma Function.apply_ne_nonFinite (f : Function) (v : View) (args : List Float) (s : σ) :
    ((f.apply v args : Eval σ Float).run.run s).1 ≠ .error .nonFinite := by
  cases f with
  | noise => exact nofun
  | ramp => exact nofun
  | _ => exact Eval.lift_ne_error (Function.wave_ne_nonFinite _ v args) s

/-- No node fails for a value that is not finite: such a value goes on to the next node. -/
lemma Expr.step_ne_nonFinite (node : Expr) (v : View) (stack : List Float) (s : σ) :
    ((node.step v stack : Eval σ _).run.run s).1 ≠ .error .nonFinite := by
  have hpure (xs : List Float) (s : σ) :
      ((pure xs : Eval σ _).run.run s).1 ≠ .error .nonFinite := nofun
  cases node with
  | number | period => exact hpure _ s
  | property name =>
    exact Eval.bind_ne_error (Eval.lift_ne_error (v.property_ne_nonFinite name))
      (fun x => hpure (x :: stack)) s
  | binary op left right =>
    match stack with
    | [] | [_] => exact hpure _ s
    | r :: l :: stack =>
      exact Eval.bind_ne_error (Eval.lift_ne_error (op.apply_ne_nonFinite l r))
        (fun x => hpure (x :: stack)) s
  | call f args =>
    exact Eval.bind_ne_error (f.apply_ne_nonFinite v _) (fun x => hpure (x :: _)) s

end

open Eval in
lemma Expr.silent_step {node : Expr} (v : View) (stack : List Float)
    (hnode : node.isNoise = false) :
    ∃ r, ∀ {σ : Type} [Source σ], Silent (node.step v stack : Eval σ _) r := by
  cases node with
  | number | period => exact ⟨_, silent_pure _⟩
  | property name =>
    exact ⟨_, (silent_lift (v.property name)).bind fun x => silent_pure (x :: stack)⟩
  | binary op left right =>
    match stack with
    | [] | [_] => exact ⟨_, silent_pure _⟩
    | r :: l :: stack =>
      exact ⟨_, (silent_lift (op.apply l r)).bind fun x => silent_pure (x :: stack)⟩
  | call f args =>
    have hf : f ≠ .noise := by
      rintro rfl
      exact Bool.noConfusion hnode
    obtain ⟨g, hg⟩ := f.silent_apply v hf
    exact ⟨_, (hg _).bind fun x => silent_pure (x :: stack.drop args.length)⟩

section

variable {σ : Type} [Source σ]

/-- A node that has a value leaves the source past its word if it is a `noise()`, and where it was
if it is not. -/
lemma Expr.step_ok {v : View} {node : Expr} {stack stack' : List Float} {s s' : σ}
    (h : (node.step v stack).run.run s = (.ok stack', s')) :
    s' = Source.after (noises [node]) s := by
  cases hnode : node.isNoise with
  | false =>
    obtain ⟨r, hr⟩ := node.silent_step v stack hnode
    rw [hr s] at h
    simp [noises, hnode, Source.after, (Prod.mk.inj h).2]
  | true =>
    match node, hnode with
    | .call .noise args, _ => exact (Prod.mk.inj h).2.symm

lemma Expr.step_error {v : View} {node : Expr} {stack : List Float} {s s' : σ} {error : EvalError}
    (h : (node.step v stack).run.run s = (.error error, s')) : s' = s := by
  cases hnode : node.isNoise with
  | false =>
    obtain ⟨r, hr⟩ := node.silent_step v stack hnode
    rw [hr s] at h
    exact (Prod.mk.inj h).2.symm
  | true =>
    match node, hnode with
    | .call .noise args, _ => exact nomatch (Prod.mk.inj h).1

lemma after_noises_cons (node : Expr) (nodes : List Expr) (s : σ) :
    Source.after (noises (node :: nodes)) s =
      Source.after (noises nodes) (Source.after (noises [node]) s) := by
  rw [← List.singleton_append, noises_append, Nat.add_comm]
  exact Function.iterate_add_apply ..

/-- Nodes that all have a value draw one word for each `noise()`. -/
theorem steps_ok {v : View} {nodes : List Expr} {stack stack' : List Float} {s s' : σ}
    (h : (steps v nodes stack).run.run s = (.ok stack', s')) :
    s' = Source.after (noises nodes) s := by
  induction nodes generalizing stack s with
  | nil => exact (Prod.mk.inj h).2.symm
  | cons node nodes ih =>
    rw [steps_cons, Eval.run_bind] at h
    rcases hnode : (node.step v stack).run.run s with ⟨error | stack₁, s₁⟩
    · rw [hnode] at h
      exact nomatch (Prod.mk.inj h).1
    · rw [hnode] at h
      rw [after_noises_cons, ← Expr.step_ok hnode]
      exact ih h

/-- Where nodes fail, one of them fails on the values that those before it leave, and where they
leave the source. -/
theorem steps_error {v : View} {nodes : List Expr} {stack : List Float} {s s' : σ}
    {error : EvalError} (h : (steps v nodes stack).run.run s = (.error error, s')) :
    ∃ before node rest stack',
      nodes = before ++ node :: rest ∧
      (steps v before stack).run.run s = (.ok stack', s') ∧
      (node.step v stack').run.run s' = (.error error, s') := by
  induction nodes generalizing stack s with
  | nil => exact nomatch (Prod.mk.inj h).1
  | cons node nodes ih =>
    rw [steps_cons, Eval.run_bind] at h
    rcases hnode : (node.step v stack).run.run s with ⟨e | stack₁, s₁⟩
    · rw [hnode] at h
      obtain ⟨he, hs⟩ := Prod.mk.inj h
      obtain rfl := Except.error.inj he
      obtain rfl : s₁ = s' := hs
      obtain rfl := Expr.step_error hnode
      exact ⟨[], node, nodes, stack, rfl, rfl, hnode⟩
    · rw [hnode] at h
      obtain ⟨before, failing, rest, stack', rfl, hbefore, hfailing⟩ := ih h
      refine ⟨node :: before, failing, rest, stack', rfl, ?_, hfailing⟩
      rw [steps_cons, Eval.run_bind, hnode]
      exact hbefore

/-- Nodes fail as one of them does, so not for a value that is not finite. -/
lemma steps_ne_nonFinite (v : View) (nodes : List Expr) (stack : List Float) (s : σ) :
    ((steps v nodes stack : Eval σ _).run.run s).1 ≠ .error .nonFinite := by
  intro h
  obtain ⟨-, node, -, stack', -, -, hnode⟩ := steps_error (Prod.ext h rfl)
  exact node.step_ne_nonFinite v stack' _ (congrArg Prod.fst hnode)

lemma Expr.evaluate_eq (e : Expr) (v : View) (s : σ) :
    (e.evaluate v).run.run s =
      (match (steps v e.nodes []).run.run s with
        | (.ok stack, s') =>
          (if (stack.headD 0.0).isFinite then .ok (stack.headD 0.0) else .error .nonFinite, s')
        | (.error error, s') => (.error error, s')) := by
  rw [Expr.evaluate, e.steps_nodes v, Eval.run_bind, Eval.run_bind]
  rcases (e.value v).run.run s with ⟨error | x, s'⟩
  · rfl
  · change (if x.isFinite then pure x else throw .nonFinite : Eval σ Float).run.run s' =
      (if x.isFinite then .ok x else .error .nonFinite, s')
    split <;> rfl

end

mutual

lemma Expr.noiseFree_of_noises : (e : Expr) → noises e.nodes = 0 → e.noiseFree
  | .number _, _ | .period .., _ | .property _, _ => rfl
  | .binary op left right, h => by
    rw [Expr.nodes, noises_append, noises_append] at h
    have hleft := left.noiseFree_of_noises (by omega)
    have hright := right.noiseFree_of_noises (by omega)
    rw [Expr.noiseFree, hleft, hright, Bool.and_self]
  | .call f args, h => by
    rw [Expr.nodes, noises_append] at h
    have hargs := Expr.allNoiseFree_of_noises args (by omega)
    have hf : f ≠ .noise := by
      rintro rfl
      simp [noises, Expr.isNoise] at h
    simp [Expr.noiseFree, hf, hargs]

lemma Expr.allNoiseFree_of_noises :
    (es : List Expr) → noises (Expr.allNodes es) = 0 → Expr.allNoiseFree es
  | [], _ => rfl
  | e :: es, h => by
    rw [Expr.allNodes, noises_append] at h
    have he := e.noiseFree_of_noises (by omega)
    have hes := Expr.allNoiseFree_of_noises es (by omega)
    rw [Expr.allNoiseFree, he, hes, Bool.and_self]

end

/-- What an evaluation draws. If the expression has a value, finite or not, then it draws one word
for each `noise()` in it. If one of its nodes fails, then it draws one word for each `noise()`
before that node in the order of evaluation. An expression without `noise()` comes to the same
on all sources and leaves them as they are. -/
theorem Expr.evaluate_draws {σ : Type} [Source σ] (e : Expr) (v : View) (s : σ) :
    (∀ r s', (e.evaluate v).run.run s = (r, s') → (∃ x, r = .ok x) ∨ r = .error .nonFinite →
      s' = Source.after (noises e.nodes) s) ∧
    (∀ error s', (e.evaluate v).run.run s = (.error error, s') → error ≠ .nonFinite →
      ∃ before node rest stack,
        e.nodes = before ++ node :: rest ∧
        (steps v before []).run.run s = (.ok stack, s') ∧
        (node.step v stack).run.run s' = (.error error, s') ∧
        s' = Source.after (noises before) s) ∧
    (noises e.nodes = 0 → ∃ r, ∀ {τ : Type} [Source τ] (t : τ),
      (e.evaluate v).run.run t = (r, t)) := by
  refine ⟨fun r s' h hr => ?_, fun error s' h herror => ?_, fun h => ?_⟩
  · rw [e.evaluate_eq] at h
    rcases hsteps : (steps v e.nodes []).run.run s with ⟨error | stack, s₁⟩
    · rw [hsteps] at h
      obtain ⟨rfl, -⟩ := Prod.mk.inj h
      obtain ⟨x, hx⟩ | herror := hr
      · exact nomatch hx
      · obtain rfl := Except.error.inj herror
        exact (steps_ne_nonFinite v e.nodes [] s (congrArg Prod.fst hsteps)).elim
    · rw [hsteps] at h
      exact (Prod.mk.inj h).2 ▸ steps_ok hsteps
  · rw [e.evaluate_eq] at h
    rcases hsteps : (steps v e.nodes []).run.run s with ⟨error₁ | stack, s₁⟩
    · rw [hsteps] at h
      obtain ⟨he, rfl⟩ := Prod.mk.inj h
      obtain rfl := Except.error.inj he
      obtain ⟨before, node, rest, stack, hnodes, hbefore, hnode⟩ := steps_error hsteps
      exact ⟨before, node, rest, stack, hnodes, hbefore, hnode, steps_ok hbefore⟩
    · rw [hsteps] at h
      have hfinite := (Prod.mk.inj h).1
      split at hfinite
      · exact nomatch hfinite
      · exact (herror (Except.error.inj hfinite).symm).elim
  · exact ⟨e.outcome v, fun t => silent_evaluate (e.noiseFree_of_noises h) v t⟩

/-- `noise() / (1 - 1) + noise()` fails at the division, and `noise() - noise()` draws two words. -/
theorem Expr.evaluate_draws_quotient :
    let v : View := ⟨⟨60, 0.0, 1.0, 100.0, 1.0, 0.0⟩, .common, ⟨0.0, 4.0⟩⟩
    let noise : Expr := .call .noise []
    let quotient : Expr := .binary .divide noise (.binary .subtract (.number 1.0) (.number 1.0))
    let sum : Expr := .binary .add quotient noise
    let difference : Expr := .binary .subtract noise noise
    let source : Tape := .ofWords [0, 9223372036854775808, 18446744073709551615]
    ((sum.evaluate v).run.run source).1 = .error .divisionByZero ∧
      (∃ before node rest, sum.nodes = before ++ node :: rest ∧
        ((sum.evaluate v).run.run source).2 = Source.after (noises before) source) ∧
      ((difference.evaluate v).run.run source).1.isOk ∧
      ((difference.evaluate v).run.run source).2 = Source.after 2 source := by
  intro v noise quotient sum difference source
  have hsum : ((sum.evaluate v).run.run source).1 = .error .divisionByZero := by decide +kernel
  have hdifference : ((difference.evaluate v).run.run source).1.isOk := by decide +kernel
  obtain ⟨-, hfails, -⟩ := sum.evaluate_draws v source
  obtain ⟨before, node, rest, -, hnodes, -, -, hdrawn⟩ := hfails _ _ (Prod.ext hsum rfl) nofun
  obtain ⟨hdraws, -⟩ := difference.evaluate_draws v source
  have hvalue : ∃ x, ((difference.evaluate v).run.run source).1 = .ok x := by
    cases hr : ((difference.evaluate v).run.run source).1 with
    | ok x => exact ⟨x, rfl⟩
    | error error =>
      rw [hr] at hdifference
      exact Bool.noConfusion hdifference
  obtain ⟨x, hx⟩ := hvalue
  exact ⟨hsum, ⟨before, node, rest, hnodes, hdrawn⟩, hdifference,
    hdraws _ _ (Prod.ext hx rfl) (.inl ⟨x, rfl⟩)⟩

end Modulation

end Barline
