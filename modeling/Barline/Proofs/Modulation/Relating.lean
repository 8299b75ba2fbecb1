import Barline.Proofs.Binary64.Infinite
import Barline.Proofs.Modulation.Printing
import Barline.Proofs.Number.Rounding

/-!
# What the grammar makes of two feeds

A relation between readers that goes through one reader after another, and that holds where the
tokens are looked at, holds of the whole grammar. The expressions and limits that are read are then
the same on both feeds and well-formed, and assignments are the same but for where they stand.
-/

namespace Barline.Modulation

open Binary64 Number

namespace Parse

section

variable {α β γ σ τ ε δ : Type} [Feed σ ε] [Feed τ δ]

/-- The readers on two feeds are related by `R`, where `P` relates the positions that they find. The
first argument of `R` says how what they read is related. -/
structure Relates (P : Position → Position → Prop)
    (R : {α β : Type} → (α → β → Prop) → ParseFrom σ ε α → ParseFrom τ δ β → Prop) : Prop where
  pure {α β : Type} {V : α → β → Prop} {a : α} {b : β} (h : V a b) : R V (pure a) (pure b)
  bind {α β γ η : Type} {V : α → β → Prop} {W : γ → η → Prop} {x : ParseFrom σ ε α}
    {y : ParseFrom τ δ β} {f : α → ParseFrom σ ε γ} {g : β → ParseFrom τ δ η} (hx : R V x y)
    (hf : ∀ a b, V a b → R W (f a) (g b)) : R W (x >>= f) (y >>= g)
  ahead (offset : ℕ) : R (· = ·) (ahead offset) (ahead offset)
  here : R P here here
  advance : R (· = ·) advance advance
  left : R (· = ·) left left
  expected {α β : Type} {V : α → β → Prop} (words : List String) :
    R V (expected words) (expected words)
  refuse {α β : Type} {V : α → β → Prop} (cause : Cause) {p q : Position} (h : P p q) :
    R V (refuse cause p) (refuse cause q)

/-- Both values are the same, and it has a property. -/
structure Both (Q : α → Prop) (a b : α) : Prop where
  same : a = b
  holds : Q a

abbrev Sound : Expr → Expr → Prop := Both (·.wellFormed)

lemma allWellFormed_concat (es : List Expr) (e : Expr) :
    Expr.allWellFormed (es ++ [e]) = (Expr.allWellFormed es && e.wellFormed) := by
  induction es with
  | nil => simp [Expr.allWellFormed]
  | cons e' es ih =>
    rw [List.cons_append, Expr.allWellFormed, ih, Expr.allWellFormed, Bool.and_assoc]

/-- Arguments that a call may have. -/
structure Suffices (f : Function) (args : List Expr) : Prop where
  least : f.minArity ≤ args.length
  most : args.length ≤ f.maxArity
  all : Expr.allWellFormed args

lemma wellFormed_binary {op : Operator} {left right : Expr} (hl : left.wellFormed)
    (hr : right.wellFormed) : (Expr.binary op left right).wellFormed := by
  rw [Expr.wellFormed, hl, hr]
  rfl

lemma Suffices.wellFormed {f : Function} {args : List Expr} (h : Suffices f args) :
    (Expr.call f args).wellFormed := by
  rw [Expr.wellFormed, decide_eq_true h.least, decide_eq_true h.most, h.all]
  rfl

lemma minArity_le_maxArity (f : Function) : f.minArity ≤ f.maxArity := by cases f <;> decide

lemma one_le_toUInt32 {bar : Float} (hone : ¬ bar < 1.0) (hbar : isBarCount bar) :
    1 ≤ bar.toUInt32 := by
  rw [isBarCount, Bool.and_eq_true, decide_eq_true_iff] at hbar
  have hnumber : bar.isNaN = false := by
    rw [← Bool.not_eq_true]
    exact fun hnan => not_le_of_isNaN hnan _ hbar.2
  have hle : value bar ≤ 4294967295 := by
    rw [← value_largest32]
    exact (le_iff hnumber rfl).mp hbar.2
  have hge : 1 ≤ value bar := by
    rw [lt_iff hnumber rfl, not_lt, value_one] at hone
    exact hone
  have hvalue := toNat_toUInt32 (zero_le_one.trans hge) (hle.trans_lt (by norm_num))
  have hfloor : 1 ≤ ⌊value bar⌋₊ := Nat.le_floor (by exact_mod_cast hge)
  exact UInt32.le_iff_toNat_le.mpr (hvalue ▸ hfloor)

/-- What the readers of expressions give at a depth. -/
structure DepthRelates
    (R : {α β : Type} → (α → β → Prop) → ParseFrom σ ε α → ParseFrom τ δ β → Prop)
    (depth : ℕ) : Prop where
  sum : R Sound (sum depth) (sum depth)
  sumFrom {left : Expr} (h : left.wellFormed) : R Sound (sumFrom depth left) (sumFrom depth left)
  product : R Sound (product depth) (product depth)
  productFrom {left : Expr} (h : left.wellFormed) :
    R Sound (productFrom depth left) (productFrom depth left)
  signed : R Sound (signed depth) (signed depth)
  operand : R Sound (operand depth) (operand depth)
  arguments {f : Function} {done : List Expr} (h : Expr.allWellFormed done)
    (hle : done.length ≤ f.maxArity) :
    R (Both (Suffices f)) (arguments depth f done) (arguments depth f done)

/-- Two assignments are the same but for their positions, which are related, and well-formed. -/
structure SameUpTo (P : Position → Position → Prop) (a b : Assignment) : Prop where
  unplaced : a.unplaced = b.unplaced
  position : P a.position b.position
  wellFormed : a.wellFormed

lemma SameUpTo.eq {a b : Assignment} (h : SameUpTo (· = ·) a b) : a = b := by
  obtain ⟨hunplaced, hposition, -⟩ := h
  cases a
  cases b
  simp_all [Assignment.unplaced]

namespace Relates

variable {P : Position → Position → Prop}
  {R : {α β : Type} → (α → β → Prop) → ParseFrom σ ε α → ParseFrom τ δ β → Prop}
  (hR : Relates P R)
include hR

lemma give {Q : α → Prop} {a : α} (h : Q a) : R (Both Q) (Pure.pure a) (Pure.pure a) :=
  hR.pure ⟨rfl, h⟩

lemma share {Q : α → Prop} {W : β → γ → Prop} {x : ParseFrom σ ε α} {y : ParseFrom τ δ α}
    {f : α → ParseFrom σ ε β} {g : α → ParseFrom τ δ γ} (hx : R (Both Q) x y)
    (hf : ∀ a, Q a → R W (f a) (g a)) : R W (x >>= f) (y >>= g) := by
  refine hR.bind hx ?_
  rintro a _ ⟨rfl, ha⟩
  exact hf a ha

lemma behind {W : β → γ → Prop} {x : ParseFrom σ ε α} {y : ParseFrom τ δ α}
    {f : α → ParseFrom σ ε β} {g : α → ParseFrom τ δ γ} (hx : R (· = ·) x y)
    (hf : ∀ a, R W (f a) (g a)) : R W (x >>= f) (y >>= g) := by
  refine hR.bind hx ?_
  rintro a _ rfl
  exact hf a

lemma next : R (· = ·) next next := hR.ahead 0

/-- Past the next token, and on. -/
lemma past {W : β → γ → Prop} {f : Unit → ParseFrom σ ε β} {g : Unit → ParseFrom τ δ γ}
    (hf : R W (f ()) (g ())) : R W (Parse.advance >>= f) (Parse.advance >>= g) :=
  hR.behind hR.advance fun _ => hf

lemma require (t : Token) (words : List String) :
    R (· = ·) (require t words) (require t words) := by
  refine hR.behind hR.next fun t' => ?_
  split_ifs
  · exact hR.advance
  · exact hR.expected words

lemma numeral (x : Float) : R Sound (numeral x) (numeral x) := by
  unfold Parse.numeral
  refine hR.bind hR.here fun p q hpq => hR.behind (hR.ahead 1) fun second => ?_
  refine hR.behind (hR.ahead 2) fun third => ?_
  have hnumber : R Sound (Parse.advance >>= fun _ => Pure.pure (Expr.number x))
      (Parse.advance >>= fun _ => Pure.pure (.number x)) := hR.past (hR.give rfl)
  cases second with
  | colon =>
    cases third with
    | period beats =>
      dsimp only
      split_ifs
      · exact hR.past (hR.past (hR.past (hR.give rfl)))
      · exact hR.refuse _ hpq
    | _ => exact hnumber
  | _ => exact hnumber

lemma noteProperty : R Sound noteProperty noteProperty := by
  unfold Parse.noteProperty
  refine hR.past (hR.behind (hR.require _ _) fun _ => hR.behind hR.next fun t => ?_)
  cases t with
  | word name => exact hR.past (hR.give rfl)
  | _ => exact hR.expected _

lemma depth_zero : DepthRelates R 0 := by
  constructor <;> intros <;> exact hR.expected _

lemma depth_succ {depth : ℕ} (h : DepthRelates R depth) : DepthRelates R (depth + 1) where
  sum := by
    rw [Parse.sum, Parse.sum]
    exact hR.share h.product fun left hl => h.sumFrom hl
  sumFrom {left} hl := by
    rw [Parse.sumFrom, Parse.sumFrom]
    refine hR.behind hR.next fun t => ?_
    cases sumOperator? t with
    | none => exact hR.give hl
    | some op =>
      exact hR.past (hR.share h.product fun right hr => h.sumFrom (wellFormed_binary hl hr))
  product := by
    rw [Parse.product, Parse.product]
    exact hR.share h.signed fun left hl => h.productFrom hl
  productFrom {left} hl := by
    rw [Parse.productFrom, Parse.productFrom]
    refine hR.behind hR.next fun t => ?_
    cases productOperator? t with
    | none => exact hR.give hl
    | some op =>
      exact hR.past (hR.share h.signed fun right hr => h.productFrom (wellFormed_binary hl hr))
  signed := by
    rw [Parse.signed, Parse.signed]
    refine hR.behind hR.next fun t => ?_
    split_ifs
    · exact hR.past (hR.share h.signed fun e he => hR.give (wellFormed_binary rfl he))
    · exact h.operand
  operand := by
    rw [Parse.operand, Parse.operand]
    refine hR.behind hR.next fun t => ?_
    cases t with
    | number x => exact hR.numeral x
    | period beats => exact hR.past (hR.give rfl)
    | word name =>
      by_cases hname : name = "note"
      · subst hname
        exact hR.noteProperty
      · simp only
        cases Function.ofName? name with
        | none => exact hR.expected _
        | some f =>
          refine hR.past (hR.behind (hR.require _ _) fun _ => ?_)
          refine hR.share (h.arguments rfl (Nat.zero_le _)) fun args hargs => ?_
          exact hR.behind (hR.require _ _) fun _ => hR.give hargs.wellFormed
    | opening =>
      refine hR.past (hR.share h.sum fun inner hinner => ?_)
      exact hR.behind (hR.require _ _) fun _ => hR.give hinner
    | _ => exact hR.expected _
  arguments {f done} hdone hle := by
    -- there are never more arguments than a call may have, and none end before there are enough
    rw [Parse.arguments, Parse.arguments]
    by_cases hfull : f.maxArity ≤ done.length
    · rw [if_pos hfull, if_pos hfull]
      exact hR.give ⟨(minArity_le_maxArity f).trans hfull, hle, hdone⟩
    · have hmore : R (Both (Suffices f))
          (do Parse.arguments depth f (done ++ [← Parse.sum depth]))
          (do Parse.arguments depth f (done ++ [← Parse.sum depth])) :=
        hR.share h.sum fun argument hargument => h.arguments
          (by rw [allWellFormed_concat, hdone, hargument]; rfl) (by simp; omega)
      rw [if_neg hfull, if_neg hfull]
      refine hR.behind hR.next fun t => ?_
      split_ifs with hends
      · rw [Bool.and_eq_true, decide_eq_true_iff] at hends
        exact hR.give ⟨hends.1, hle, hdone⟩
      · exact hR.behind (hR.require _ _) fun _ => hmore
      · exact hmore

theorem depth (depth : ℕ) : DepthRelates R depth := by
  induction depth with
  | zero => exact hR.depth_zero
  | succ depth ih => exact hR.depth_succ ih

lemma expression : R Sound expression expression :=
  hR.behind hR.left fun count => (hR.depth (depthFor count)).sum

lemma pitch : R (Both (· ≤ 127)) pitch pitch := by
  unfold Parse.pitch
  refine hR.bind hR.here fun p q hpq => hR.behind hR.next fun t => ?_
  cases t with
  | pitch name midi =>
    dsimp only
    cases hpitch : Pitch.ofMidi? midi with
    | some pitch => exact hR.past (hR.give (Pitch.ofMidi?_eq_some_iff.mp hpitch).2)
    | none => exact hR.refuse _ hpq
  | _ => exact hR.expected _

lemma pitchRange : R (Both (·.wellFormed)) pitchRange pitchRange := by
  unfold Parse.pitchRange
  refine hR.bind hR.here fun p q hpq => hR.share hR.pitch fun low hlow => ?_
  refine hR.behind hR.next fun t => hR.behind (hR.ahead 1) fun second => ?_
  extract_lets go go'
  have hgo (high : UInt8) (hhigh : high ≤ 127) : R (Both (·.wellFormed)) (go high) (go' high) := by
    unfold go go'
    split_ifs with hlt
    · exact hR.refuse _ hpq
    · refine hR.give ?_
      rw [PitchRange.wellFormed, decide_eq_true (UInt8.not_lt.mp hlt), decide_eq_true hhigh]
      rfl
  split_ifs
  · exact hR.past (hR.share hR.pitch hgo)
  · exact hR.share (hR.give hlow) hgo

lemma quotient {p q : Position} (hpq : P p q) (n d : Float) :
    R (· = ·) (quotient n d p) (quotient n d q) := by
  unfold Parse.quotient
  split_ifs
  · exact hR.refuse _ hpq
  · exact hR.pure rfl

lemma literal : R (· = ·) literal literal := by
  unfold Parse.literal
  refine hR.bind hR.here fun p q hpq => hR.behind hR.next fun t => ?_
  cases t with
  | number x =>
    refine hR.past (hR.behind hR.next fun first => hR.behind (hR.ahead 1) fun second => ?_)
    refine hR.behind (hR.ahead 2) fun third => hR.behind (hR.ahead 3) fun fourth => ?_
    have hwhole : R (· = ·) (Pure.pure x : ParseFrom σ ε Float) (Pure.pure x) := hR.pure rfl
    cases first with
    | slash =>
      cases second with
      | number d => exact hR.past (hR.past (hR.quotient hpq x d))
      | _ => exact hwhole
    | plus =>
      cases second with
      | number n =>
        cases third with
        | slash =>
          cases fourth with
          | number d =>
            refine hR.past (hR.past (hR.past (hR.past ?_)))
            exact hR.behind (hR.quotient hpq n d) fun y => hR.pure rfl
          | _ => exact hwhole
        | _ => exact hwhole
      | _ => exact hwhole
    | _ => exact hwhole
  | _ => exact hR.expected _

lemma place : R (Both fun place => 1 ≤ place.1) place place := by
  unfold Parse.place
  refine hR.bind hR.here fun p q hpq => hR.behind hR.next fun t => ?_
  cases t with
  | number bar =>
    dsimp only
    split_ifs with hbar
    · exact hR.refuse _ hpq
    · simp only [Bool.or_eq_true, decide_eq_true_iff, Bool.not_eq_true', not_or,
        Bool.not_eq_false] at hbar
      refine hR.past (hR.behind (hR.require _ _) fun _ => hR.behind hR.literal fun beat => ?_)
      exact hR.give (one_le_toUInt32 hbar.1 hbar.2)
  | _ => exact hR.expected _

lemma timeRange : R (Both (·.wellFormed)) timeRange timeRange := by
  unfold Parse.timeRange
  refine hR.share hR.place fun start hstart => hR.behind (hR.require _ _) fun _ => ?_
  refine hR.share hR.place fun finish hfinish => hR.give ?_
  rw [TimeRange.wellFormed, decide_eq_true hstart, decide_eq_true hfinish]
  rfl

lemma pitchLimit : R (Both fun pitches => pitches.all (·.wellFormed)) pitchLimit pitchLimit := by
  unfold Parse.pitchLimit
  refine hR.behind hR.next fun t => ?_
  split_ifs
  · exact hR.share hR.pitchRange fun range hrange => hR.give hrange
  · exact hR.give rfl

lemma stretchLimit :
    R (Both fun stretch => stretch.all (·.wellFormed)) stretchLimit stretchLimit := by
  unfold Parse.stretchLimit
  refine hR.behind hR.next fun first => hR.behind (hR.ahead 1) fun second => ?_
  split_ifs
  · exact hR.share hR.timeRange fun range hrange => hR.give hrange
  · exact hR.give rfl

lemma assigned {p q : Position} (hpq : P p q) {pitches : Option PitchRange}
    {stretch : Option TimeRange} (hp : pitches.all (·.wellFormed))
    (hs : stretch.all (·.wellFormed)) :
    R (SameUpTo P) (assigned p pitches stretch) (assigned q pitches stretch) := by
  have hvalued (parameter : Parameter) (assign : Assign) :
      R (SameUpTo P) (valued p pitches stretch parameter assign)
        (valued q pitches stretch parameter assign) := by
    refine hR.past (hR.share hR.expression fun value hvalue => hR.pure ⟨rfl, hpq, ?_⟩)
    rw [Assignment.wellFormed, hp, hs, hvalue]
    rfl
  unfold Parse.assigned
  refine hR.behind hR.next fun keyword => ?_
  cases parameter? keyword with
  | none => exact hR.expected _
  | some parameter =>
    refine hR.past (hR.behind hR.next fun sign => ?_)
    cases sign with
    | equals => exact hvalued parameter .set
    | plusEquals => exact hvalued parameter .add
    | _ => exact hR.expected _

lemma assignment : R (SameUpTo P) assignment assignment := by
  unfold Parse.assignment
  refine hR.bind hR.here fun p q hpq => hR.share hR.pitchLimit fun pitches hp => ?_
  exact hR.share hR.stretchLimit fun stretch hs => hR.assigned hpq hp hs

/-- **The grammar keeps the relation.** The readers of programs are related on both feeds. -/
theorem assignments (rounds : ℕ) :
    R (List.Forall₂ (SameUpTo P)) (assignments rounds) (assignments rounds) := by
  induction rounds with
  | zero => exact hR.pure .nil
  | succ rounds ih =>
    rw [Parse.assignments, Parse.assignments]
    refine hR.behind hR.next fun t => ?_
    split_ifs
    · exact hR.pure .nil
    · exact hR.bind hR.assignment fun a b hab => hR.bind ih fun program program' h =>
        hR.pure (.cons hab h)

end Relates

end

end Parse

end Barline.Modulation
