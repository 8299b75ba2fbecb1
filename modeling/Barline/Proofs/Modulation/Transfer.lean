import Barline.Proofs.Modulation.Inverse
import Barline.Proofs.Text.Carrying

/-!
# Tokens in front of a program

An expression is read up to where it cannot go on, and it can go on neither at the end of the tokens
nor where an assignment begins. So an expression that is read to the end is read in the same way in
front of a program, wherever its tokens stand there.
-/

namespace Barline.Modulation

/-- Whether a token goes on with an assignment: it neither begins one nor closes the list. -/
def Token.goesOn : Token → Bool
  | .pitch .. | .number _ | .word _ | .finish => false
  | _ => true

namespace Parse

lemma BeginsAssignment.not_goesOn {t : Token} (h : BeginsAssignment t) : ¬ t.goesOn := by
  cases h <;> exact Bool.false_ne_true

/-- Another place for tokens: where they stand there, and what follows them instead of the closing
token. -/
structure Site where
  move : Position → Position
  behind : Tokens
  behind_ne_nil : behind ≠ []
  begins : tokenAt behind 0 = .finish ∨ BeginsAssignment (tokenAt behind 0)

/-- Tokens up to the closing one, and what they are in the other place. -/
inductive Site.Places (s : Site) : Tokens → Tokens → Prop
  | closing (p : Position) : s.Places [⟨.finish, p⟩] s.behind
  | cons {t : Located Token} {ts us : Tokens} (ht : t.value ≠ .finish) (h : s.Places ts us) :
    s.Places (t :: ts) (t.moved s.move :: us)

section

variable {s : Site} {ts us : Tokens}

lemma Site.places_append (s : Site) {front : Tokens} (h : ∀ t ∈ front, t.value ≠ .finish)
    (p : Position) :
    s.Places (front ++ [⟨.finish, p⟩]) (front.map (·.moved s.move) ++ s.behind) := by
  induction front with
  | nil => exact .closing p
  | cons t front ih =>
    obtain ⟨ht, hfront⟩ := List.forall_mem_cons.mp h
    exact .cons ht (ih hfront)

lemma Site.Places.length (h : s.Places ts us) :
    us.length + 1 = ts.length + s.behind.length := by
  induction h with
  | closing p => simp [Nat.add_comm]
  | cons ht h ih => simp only [List.length_cons]; omega

lemma Site.behind_ne (s : Site) {k : Token} (hk : k.goesOn) : tokenAt s.behind 0 ≠ k := by
  rintro rfl
  rcases s.begins with h | h
  · rw [h] at hk
    cases hk
  · exact h.not_goesOn hk

/-- A token that goes on with an assignment is next in both places or in neither. -/
lemma Site.Places.next_eq_iff (h : s.Places ts us) {k : Token} (hk : k.goesOn) :
    tokenAt us 0 = k ↔ tokenAt ts 0 = k := by
  cases h with
  | closing p =>
    refine ⟨fun h => absurd h (s.behind_ne hk), fun h => ?_⟩
    rw [← h] at hk
    cases hk
  | cons ht h => exact Iff.rfl

lemma Site.Places.tokenAt_eq (h : s.Places ts us) {k : ℕ} (hk : tokenAt ts k ≠ .finish) :
    tokenAt us k = tokenAt ts k := by
  induction h generalizing k with
  | closing p => cases k <;> exact absurd rfl hk
  | cons ht h ih =>
    cases k with
    | zero => rfl
    | succ k => exact ih hk

lemma Site.Places.uncons (h : s.Places ts us) {k : Token} (hnext : tokenAt ts 0 = k)
    (hk : k ≠ .finish) :
    ∃ t ts' us', ts = t :: ts' ∧ us = t.moved s.move :: us' ∧ t.value = k ∧ s.Places ts' us' := by
  cases h with
  | closing p => exact absurd hnext.symm hk
  | cons ht h => exact ⟨_, _, _, rfl, rfl, hnext, h⟩

lemma Site.endsSum (s : Site) : EndsSum s.behind := by
  rcases s.begins with h | h
  · exact ⟨⟨by simp [h], by simp [h, productOperator?]⟩, by simp [h, sumOperator?]⟩
  · exact h.endsSum

end

section

variable {α β γ δ : Type}

/-- Where `x` reads a value off the tokens `ts` and leaves tokens of which `F` holds, `y` reads it
off the tokens `us`, up to `R`, and leaves those tokens in the other place. They are at most `n`. -/
def TransfersAt (s : Site) (n : ℕ) (F : Tokens → Prop) (R : α → β → Prop) (x : Parse α)
    (y : Parse β) (ts us : Tokens) : Prop :=
  ∀ ⦃a : α⦄ ⦃rest : Tokens⦄, x ts = .ok (a, rest) → F rest →
    rest.length ≤ n ∧ ∃ b rest', y us = .ok (b, rest') ∧ s.Places rest rest' ∧ R a b

/-- From wherever the tokens begin, `y` reads what `x` reads. -/
def Transfers (s : Site) (F : Tokens → Prop) (x y : Parse α) : Prop :=
  ∀ ⦃ts us : Tokens⦄, s.Places ts us → TransfersAt s ts.length F (· = ·) x y ts us

/-- Whatever is left. -/
abbrev Anything : Tokens → Prop := fun _ => True

lemma bind_eq_ok {x : Parse α} {f : α → Parse β} {ts rest : Tokens} {b : β} :
    (x >>= f) ts = .ok (b, rest) ↔ ∃ a mid, x ts = .ok (a, mid) ∧ f a mid = .ok (b, rest) := by
  change (x ts >>= fun p => f p.1 p.2) = _ ↔ _
  rcases x ts with e | ⟨a, mid⟩
  · exact ⟨nofun, by rintro ⟨a, mid, h, -⟩; cases h⟩
  · exact ⟨fun h => ⟨a, mid, rfl, h⟩, by rintro ⟨_, _, ⟨⟩, h⟩; exact h⟩

namespace TransfersAt

variable {s : Site} {n m : ℕ} {F G : Tokens → Prop} {R : α → β → Prop} {Q : γ → δ → Prop}
  {x : Parse α} {y : Parse β} {f : α → Parse γ} {g : β → Parse δ} {ts us : Tokens}

lemma mono (h : TransfersAt s n F R x y ts us) (hn : n ≤ m) : TransfersAt s m F R x y ts us := by
  intro a rest hx hF
  obtain ⟨hle, hy⟩ := h hx hF
  exact ⟨hle.trans hn, hy⟩

/-- One reader after another, where success of the second says what the first has left. -/
lemma bind (hx : TransfersAt s m F R x y ts us)
    (hF : ∀ a mid c rest, f a mid = .ok (c, rest) → G rest → F mid)
    (hf : ∀ a b mid mid', R a b → s.Places mid mid' → mid.length ≤ m →
      TransfersAt s n G Q (f a) (g b) mid mid') :
    TransfersAt s n G Q (x >>= f) (y >>= g) ts us := by
  intro c rest h hG
  obtain ⟨a, mid, ha, hc⟩ := bind_eq_ok.mp h
  obtain ⟨hle, b, mid', hb, hp, hR⟩ := hx ha (hF a mid c rest hc hG)
  obtain ⟨hle', d, rest', hd, hp', hQ⟩ := hf a b mid mid' hR hp hle hc hG
  exact ⟨hle', d, rest', (bind_of_ok hb).trans hd, hp', hQ⟩

lemma of_ok {a : α} {b : β} {rest rest' : Tokens} (hx : x ts = .ok (a, rest))
    (hy : y us = .ok (b, rest')) (hR : R a b) (hp : s.Places rest rest') (hn : rest.length ≤ n) :
    TransfersAt s n F R x y ts us := by
  intro a' mid ha' _
  obtain ⟨rfl, rfl⟩ := Prod.mk.inj (Except.ok.inj (hx.symm.trans ha'))
  exact ⟨hn, b, rest', hy, hp, hR⟩

lemma pure {a : α} {b : β} (hR : R a b) (hp : s.Places ts us) (hn : ts.length ≤ n) :
    TransfersAt s n F R (pure a) (pure b) ts us := .of_ok rfl rfl hR hp hn

lemma expected (words : List String) : TransfersAt s n F R (expected words) y ts us := nofun

lemma refuse (cause : Cause) (position : Position) :
    TransfersAt s n F R (refuse cause position) y ts us := nofun

/-- Where nothing is read what is left is known beforehand. -/
lemma of_pure {a : α} (h : F ts → TransfersAt s n F R (Pure.pure a) y ts us) :
    TransfersAt s n F R (Pure.pure a) y ts us := by
  intro a' rest ha hF
  obtain ⟨rfl, rfl⟩ := Prod.mk.inj (Except.ok.inj ha)
  exact h hF rfl hF

/-- Where nothing more is read nothing more is read in the other place, for what is left allows no
more. -/
lemma ite {a : α} {b : β} {p q : Prop} [Decidable p] [Decidable q]
    (hgo : p → q ∧ TransfersAt s n F R x y ts us) (hend : ¬ p → F ts → ¬ q) (hR : R a b)
    (hp : s.Places ts us) (hn : ts.length ≤ n) :
    TransfersAt s n F R (if p then x else Pure.pure a) (if q then y else Pure.pure b) ts us := by
  by_cases h : p
  · obtain ⟨hq, hxy⟩ := hgo h
    rwa [if_pos h, if_pos hq]
  · rw [if_neg h]
    refine of_pure fun hF => ?_
    rw [if_neg (hend h hF)]
    exact pure hR hp hn

lemma ahead {k : ℕ} {f : Token → Parse γ} {g : Token → Parse δ}
    (h : TransfersAt s n G Q (f (tokenAt ts k)) (g (tokenAt us k)) ts us) :
    TransfersAt s n G Q (ahead k >>= f) (Parse.ahead k >>= g) ts us := h

lemma here {f : Position → Parse γ} {g : Position → Parse δ}
    (h : TransfersAt s n G Q (f (positionOf ts)) (g (positionOf us)) ts us) :
    TransfersAt s n G Q (here >>= f) (Parse.here >>= g) ts us := h

lemma advance {t : Located Token} (ht : t.value ≠ .finish) {f : Unit → Parse γ}
    {g : Unit → Parse δ} (h : TransfersAt s n G Q (f ()) (g ()) ts us) :
    TransfersAt s n G Q (advance >>= f) (Parse.advance >>= g) (t :: ts)
      (t.moved s.move :: us) := by
  intro c rest hc hG
  rw [advance_bind, past_cons ht] at hc
  rw [advance_bind, past_cons (t := t.moved s.move) ht]
  exact h hc hG

end TransfersAt

namespace Transfers

variable {s : Site} {F G : Tokens → Prop} {x y : Parse α} {f g : α → Parse β}

lemma pure (a : α) : Transfers s F (pure a) (pure a) := fun _ _ hp => .pure rfl hp le_rfl

lemma expected (words : List String) : Transfers s F (expected words) y :=
  fun _ _ _ => .expected words

lemma refuse (cause : Cause) (position : Position) : Transfers s F (refuse cause position) y :=
  fun _ _ _ => .refuse cause position

lemma bind_of (hx : Transfers s F x y)
    (hF : ∀ a mid c rest, f a mid = .ok (c, rest) → G rest → F mid)
    (hf : ∀ a, Transfers s G (f a) (g a)) : Transfers s G (x >>= f) (y >>= g) := by
  refine fun ts us hp => (hx hp).bind hF ?_
  rintro a _ mid mid' rfl hp' hle
  exact (hf a hp').mono hle

lemma bind (hx : Transfers s Anything x y) (hf : ∀ a, Transfers s G (f a) (g a)) :
    Transfers s G (x >>= f) (y >>= g) := hx.bind_of (fun _ _ _ _ _ _ => trivial) hf

lemma anti (h : Transfers s F x y) (hG : ∀ rest, G rest → F rest) : Transfers s G x y :=
  fun _ _ hp _ rest hx hrest => h hp hx (hG rest hrest)

lemma map (hx : Transfers s F x y) (f : α → β) :
    Transfers s F (x >>= fun a => Pure.pure (f a)) (y >>= fun a => Pure.pure (f a)) := by
  refine hx.bind_of (fun a mid b rest h hF => ?_) fun a => .pure (f a)
  obtain ⟨-, rfl⟩ := Prod.mk.inj (Except.ok.inj h)
  exact hF

lemma here {f g : Position → Parse β} (h : ∀ p q, Transfers s G (f p) (g q)) :
    Transfers s G (here >>= f) (Parse.here >>= g) :=
  fun ts us hp => h (positionOf ts) (positionOf us) hp

/-- A choice by the next token, which is the same in both places unless none is left. -/
lemma next {f g : Token → Parse β}
    (hend : ∀ p, TransfersAt s 1 G (· = ·) (f .finish) (g (tokenAt s.behind 0)) [⟨.finish, p⟩]
      s.behind)
    (hgo : ∀ t ts us, t.value ≠ .finish → s.Places ts us →
      TransfersAt s (ts.length + 1) G (· = ·) (f t.value) (g t.value) (t :: ts)
        (t.moved s.move :: us)) :
    Transfers s G (next >>= f) (Parse.next >>= g) := by
  intro ts us hp
  cases hp with
  | closing p => exact hend p
  | cons ht hp => exact hgo _ _ _ ht hp

lemma advance (h : Transfers s G x y) {t : Located Token} {ts us : Tokens} (ht : t.value ≠ .finish)
    (hp : s.Places ts us) :
    TransfersAt s (ts.length + 1) G (· = ·) (advance >>= fun _ => x)
      (Parse.advance >>= fun _ => y) (t :: ts) (t.moved s.move :: us) :=
  .advance ht ((h hp).mono (Nat.le_succ _))

end Transfers

variable {s : Site} {ts us : Tokens}

lemma transfers_require {k : Token} (hk : k ≠ .finish) (words : List String) :
    Transfers s Anything (require k words) (require k words) := by
  unfold require
  refine .next (fun p => ?_) fun t ts us ht hp => ?_
  · rw [if_neg hk.symm]
    exact .expected words
  · split_ifs
    · exact Transfers.advance (.pure ()) ht hp
    · exact .expected words

lemma transfers_numeral (x : Float) {t : Located Token} (ht : t.value ≠ .finish)
    (hp : s.Places ts us) :
    TransfersAt s (ts.length + 1) Anything (· = ·) (numeral x) (numeral x) (t :: ts)
      (t.moved s.move :: us) := by
  have hnumber (hts : tokenAt ts 0 = .colon → ∀ beats, tokenAt ts 1 ≠ .period beats)
      (hus : tokenAt us 0 = .colon → ∀ beats, tokenAt us 1 ≠ .period beats) :
      TransfersAt s (ts.length + 1) Anything (· = ·) (numeral x) (numeral x) (t :: ts)
        (t.moved s.move :: us) :=
    .of_ok (numeral_number x ht hts) (numeral_number x (t := t.moved s.move) ht hus) rfl hp
      (Nat.le_succ _)
  -- A period takes two tokens more, and neither of them is found where a program begins.
  cases hp with
  | closing p => exact hnumber nofun fun hcolon => absurd hcolon s.endsSum.noColon
  | @cons t' ts us ht' hp =>
    cases hp with
    | closing p => exact hnumber nofun fun _ _ => s.behind_ne rfl
    | @cons t'' ts us ht'' hp =>
      by_cases hperiod : t'.value = .colon ∧ ∃ beats, t''.value = .period beats
      · obtain ⟨hcolon, beats, hbeats⟩ := hperiod
        unfold numeral
        refine .here (.ahead (.ahead ?_))
        simp only [tokenAt_succ, tokenAt_zero, Located.moved_value, hcolon, hbeats]
        split_ifs
        · refine .advance ht (.advance ht' (.advance ht'' (.pure rfl hp ?_)))
          simp only [List.length_cons]
          omega
        · exact .refuse _ _
      · have hplain : t'.value = .colon → ∀ beats, t''.value ≠ .period beats :=
          fun hcolon beats hbeats => hperiod ⟨hcolon, beats, hbeats⟩
        exact hnumber hplain hplain

lemma transfers_noteProperty {t : Located Token} (ht : t.value ≠ .finish) (hp : s.Places ts us) :
    TransfersAt s (ts.length + 1) Anything (· = ·) noteProperty noteProperty (t :: ts)
      (t.moved s.move :: us) := by
  unfold noteProperty
  refine Transfers.advance ((transfers_require (by decide) _).bind fun _ => ?_) ht hp
  refine .next (fun p => .expected _) fun t ts us ht hp => ?_
  split
  · exact Transfers.advance (.pure _) ht hp
  · exact .expected _

/-- The readers of expressions transfer from one depth to another, which may be larger. -/
structure DepthTransfers (s : Site) (d d' : ℕ) : Prop where
  sum : Transfers s Anything (sum d) (sum d')
  sumFrom (left : Expr) : Transfers s Anything (sumFrom d left) (sumFrom d' left)
  product : Transfers s Anything (product d) (product d')
  productFrom (left : Expr) : Transfers s Anything (productFrom d left) (productFrom d' left)
  signed : Transfers s Anything (signed d) (signed d')
  operand : Transfers s Anything (operand d) (operand d')
  arguments (f : Function) (done : List Expr) :
    Transfers s Anything (arguments d f done) (arguments d' f done)

lemma depthTransfers_zero (s : Site) (d' : ℕ) : DepthTransfers s 0 d' := by
  constructor <;> intros <;> exact .expected _

lemma DepthTransfers.operand_succ {d d' : ℕ} (h : DepthTransfers s d d') :
    Transfers s Anything (Parse.operand (d + 1)) (Parse.operand (d' + 1)) := by
  rw [Parse.operand, Parse.operand]
  refine .next (fun p => .expected _) fun t ts us ht hp => ?_
  split
  · exact transfers_numeral _ ht hp
  · exact Transfers.advance (.pure _) ht hp
  · exact transfers_noteProperty ht hp
  · split
    · refine Transfers.advance ((transfers_require (by decide) _).bind fun _ => ?_) ht hp
      refine (h.arguments _ []).bind fun args => ?_
      exact (transfers_require (by decide) _).bind fun _ => .pure _
    · exact .expected _
  · refine Transfers.advance (h.sum.bind fun inner => ?_) ht hp
    exact (transfers_require (by decide) _).bind fun _ => .pure _
  · exact .expected _

/-- A call is over where its arguments are enough, and what stands behind ends none that is not. -/
lemma DepthTransfers.arguments_succ {d d' : ℕ} (h : DepthTransfers s d d') (f : Function)
    (done : List Expr) : Transfers s Anything (Parse.arguments (d + 1) f done)
      (Parse.arguments (d' + 1) f done) := by
  rw [Parse.arguments, Parse.arguments]
  by_cases hfull : f.maxArity ≤ done.length
  · rw [if_pos hfull, if_pos hfull]
    exact .pure _
  rw [if_neg hfull, if_neg hfull]
  have hnext : Transfers s Anything
      (do Parse.arguments d f (done ++ [← Parse.sum d]))
      (do Parse.arguments d' f (done ++ [← Parse.sum d'])) :=
    h.sum.bind fun argument => h.arguments f _
  have hmore : Transfers s Anything
      (do
        if !done.isEmpty then require .comma (afterArgument f done.length)
        Parse.arguments d f (done ++ [← Parse.sum d]))
      (do
        if !done.isEmpty then require .comma (afterArgument f done.length)
        Parse.arguments d' f (done ++ [← Parse.sum d'])) := by
    dsimp only
    split_ifs
    · exact (transfers_require (by decide) _).bind fun _ => hnext
    · exact hnext
  refine .next (fun p => ?_) fun t ts us ht hp => ?_
  · have hends (k : Token) (hk : k ≠ .closing) :
        ¬ (decide (f.minArity ≤ done.length) && decide (k = .closing)) = true := by simp [hk]
    rw [if_neg (hends .finish (by simp)), if_neg (hends _ (s.behind_ne rfl))]
    exact hmore (.closing p)
  · by_cases hends : (decide (f.minArity ≤ done.length) && decide (t.value = .closing)) = true
    · rw [if_pos hends, if_pos hends]
      exact .pure rfl (.cons ht hp) le_rfl
    · rw [if_neg hends, if_neg hends]
      exact hmore (.cons ht hp)

lemma depthTransfers_succ {d d' : ℕ} (h : DepthTransfers s d d') :
    DepthTransfers s (d + 1) (d' + 1) where
  sum := by
    rw [Parse.sum, Parse.sum]
    exact h.product.bind h.sumFrom
  sumFrom left := by
    rw [Parse.sumFrom, Parse.sumFrom]
    refine .next (fun p => ?_) fun t ts us ht hp => ?_
    · rw [s.endsSum.noTerm]
      exact .pure rfl (.closing p) le_rfl
    · split
      · exact Transfers.advance (h.product.bind fun right => h.sumFrom _) ht hp
      · exact .pure rfl (.cons ht hp) le_rfl
  product := by
    rw [Parse.product, Parse.product]
    exact h.signed.bind h.productFrom
  productFrom left := by
    rw [Parse.productFrom, Parse.productFrom]
    refine .next (fun p => ?_) fun t ts us ht hp => ?_
    · rw [s.endsSum.noFactor]
      exact .pure rfl (.closing p) le_rfl
    · split
      · exact Transfers.advance (h.signed.bind fun right => h.productFrom _) ht hp
      · exact .pure rfl (.cons ht hp) le_rfl
  signed := by
    rw [Parse.signed, Parse.signed]
    refine .next (fun p => ?_) fun t ts us ht hp => ?_
    · rw [if_neg (s.behind_ne rfl : tokenAt s.behind 0 ≠ .minus)]
      exact h.operand (.closing p)
    · split_ifs
      · exact Transfers.advance (h.signed.bind fun e => .pure _) ht hp
      · exact h.operand (.cons ht hp)
  operand := h.operand_succ
  arguments := h.arguments_succ

lemma depthTransfers (s : Site) {d d' : ℕ} (h : d ≤ d') : DepthTransfers s d d' := by
  induction d generalizing d' with
  | zero => exact depthTransfers_zero s d'
  | succ d ih =>
    obtain ⟨d', rfl⟩ : ∃ e, d' = e + 1 := ⟨d' - 1, by omega⟩
    exact depthTransfers_succ (ih (by omega))

lemma transfers_expression (s : Site) : Transfers s Anything expression expression := by
  intro ts us hp
  have hdepth : depthFor ts.length ≤ depthFor us.length := by
    have hlength := hp.length
    have hpos := List.length_pos_iff.mpr s.behind_ne_nil
    unfold depthFor
    omega
  intro e rest h hF
  rw [expression_apply] at h ⊢
  exact (depthTransfers s hdepth).sum hp h hF

end

end Parse

end Barline.Modulation
