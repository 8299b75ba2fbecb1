import Barline.Proofs.Modulation.Printing
import Barline.Proofs.Number.Rounding

/-!
# Reading printed expressions

Every well-formed expression is read back from the tokens that it is written with. The parser
meets an expression in three places, as an operand, at the beginning of a product and at the
beginning of a sum; what goes on behind it there is left to the caller, so that operators to the
left are taken up one by one.
-/

namespace Barline.Modulation

open Binary64 Number

namespace Parse

section

variable {α β : Type}

@[simp] lemma next_bind (f : Token → Parse β) (ts : Tokens) :
    (next >>= f) ts = f (tokenAt ts 0) ts := rfl

@[simp] lemma ahead_bind (n : ℕ) (f : Token → Parse β) (ts : Tokens) :
    (ahead n >>= f) ts = f (tokenAt ts n) ts := rfl

@[simp] lemma here_bind (f : Position → Parse β) (ts : Tokens) :
    (here >>= f) ts = f (positionOf ts) ts := rfl

@[simp] lemma advance_bind (f : Unit → Parse β) (ts : Tokens) :
    (advance >>= f) ts = f () (past ts) := rfl

@[simp] lemma advance_map (f : Unit → β) (ts : Tokens) :
    (f <$> advance) ts = .ok (f (), past ts) := rfl

@[simp] lemma pure_apply (a : α) (ts : Tokens) : (pure a : Parse α) ts = .ok (a, ts) := rfl

lemma bind_of_ok {x : Parse α} {f : α → Parse β} {ts us : Tokens} {a : α}
    (h : x ts = .ok (a, us)) : (x >>= f) ts = f a us := by
  change (x ts >>= fun p => f p.1 p.2) = _
  rw [h]
  rfl

lemma bind_of_error {x : Parse α} {f : α → Parse β} {ts : Tokens} {e : Error}
    (h : x ts = .error e) : (x >>= f) ts = .error e := by
  change (x ts >>= fun p => f p.1 p.2) = _
  rw [h]
  rfl

@[simp] lemma tokenAt_zero (t : Located Token) (ts : Tokens) : tokenAt (t :: ts) 0 = t.value := rfl

@[simp] lemma tokenAt_succ (t : Located Token) (ts : Tokens) (n : ℕ) :
    tokenAt (t :: ts) (n + 1) = tokenAt ts n := rfl

lemma past_cons {t : Located Token} (h : t.value ≠ .finish) (ts : Tokens) :
    past (t :: ts) = ts := by
  rw [past, tokenAt_zero, if_neg h]
  rfl

lemma require_cons {t : Located Token} {k : Token} (ht : t.value = k) (hk : k ≠ .finish)
    (words : List String) (ts : Tokens) : require k words (t :: ts) = .ok ((), ts) := by
  rw [require, next_bind, tokenAt_zero, if_pos ht]
  exact congrArg (fun ts => Except.ok ((), ts)) (past_cons (ht ▸ hk) ts)

/-- The next token cannot go on with a product. -/
structure EndsProduct (ts : Tokens) : Prop where
  noColon : tokenAt ts 0 ≠ .colon
  noFactor : productOperator? (tokenAt ts 0) = none

/-- The next token cannot go on with a sum. -/
structure EndsSum (ts : Tokens) : Prop extends EndsProduct ts where
  noTerm : sumOperator? (tokenAt ts 0) = none

lemma productFrom_end {d : ℕ} {e : Expr} {ts : Tokens} (h : EndsProduct ts) :
    productFrom (d + 1) e ts = .ok (e, ts) := by
  simp [productFrom, h.noFactor]

lemma sumFrom_end {d : ℕ} {e : Expr} {ts : Tokens} (h : EndsSum ts) :
    sumFrom (d + 1) e ts = .ok (e, ts) := by
  simp [sumFrom, h.noTerm]

lemma token_ne_finish (op : Operator) : op.token ≠ .finish := by cases op <;> decide

lemma productFrom_operator {d : ℕ} {op : Operator} {left : Expr} {t : Located Token} {ts : Tokens}
    (hop : op.level = 1) (ht : t.value = op.token) :
    productFrom (d + 1) left (t :: ts) =
      (signed d >>= fun right => productFrom d (.binary op left right)) ts := by
  have hnext : productOperator? t.value = some op := by
    rw [ht]
    cases op <;> first | rfl | cases hop
  have hpast := past_cons (ht ▸ token_ne_finish op) ts
  simp [productFrom, hnext, hpast]

lemma sumFrom_operator {d : ℕ} {op : Operator} {left : Expr} {t : Located Token} {ts : Tokens}
    (hop : op.level = 0) (ht : t.value = op.token) :
    sumFrom (d + 1) left (t :: ts) =
      (product d >>= fun right => sumFrom d (.binary op left right)) ts := by
  have hnext : sumOperator? t.value = some op := by
    rw [ht]
    cases op <;> first | rfl | cases hop
  have hpast := past_cons (ht ▸ token_ne_finish op) ts
  simp [sumFrom, hnext, hpast]

lemma signed_of_operand {d : ℕ} {ts : Tokens} (h : tokenAt ts 0 ≠ .minus) :
    signed (d + 1) ts = operand d ts := by
  simp [signed, h]

end

section

variable (sp : Spelling)

lemma length_enclose (needed : Bool) (ts : List Token) :
    ts.length ≤ (enclose needed ts).length := by
  unfold enclose
  split
  · simp; omega
  · exact le_rfl

lemma tokens_length_pos (e : Expr) (least : ℕ) : 1 ≤ (e.tokens sp least).length := by
  cases e with
  | number x => simp [Expr.tokens]
  | period bars beats =>
    rw [Expr.tokens, Spelling.period]
    split <;> simp
  | property name => simp [Expr.tokens]
  | call f args => simp [Expr.tokens]
  | binary op left right =>
    rw [Expr.tokens]
    refine le_trans ?_ (length_enclose _ _)
    simp only [List.length_append, List.length_cons]
    omega

/-- The tokens are those of an expression in a place that takes operators from a level on. -/
def Spells (e : Expr) (least : ℕ) (ts : Tokens) : Prop := ts.map (·.value) = e.tokens sp least

/-- An expression is read where an operand may stand. -/
def ReadsSigned (e : Expr) : Prop :=
  ∀ ⦃d : ℕ⦄ ⦃ts rest : Tokens⦄, Spells sp e 2 ts → 4 * ts.length ≤ d + 2 →
    tokenAt rest 0 ≠ .colon → signed d (ts ++ rest) = .ok (e, rest)

/-- An expression is read as the beginning of a product, which then goes on behind it. The depth
falls by no more than the number of tokens. -/
def ReadsProduct (e : Expr) : Prop :=
  ∀ ⦃d : ℕ⦄ ⦃ts rest : Tokens⦄, Spells sp e 1 ts → 4 * ts.length ≤ d + 1 →
    tokenAt rest 0 ≠ .colon →
    ∃ d', d ≤ d' + ts.length ∧ product d (ts ++ rest) = productFrom d' e rest

/-- An expression is read as the beginning of a sum, which then goes on behind it. -/
def ReadsSum (e : Expr) : Prop :=
  ∀ ⦃d : ℕ⦄ ⦃ts rest : Tokens⦄, Spells sp e 0 ts → 4 * ts.length ≤ d → EndsProduct rest →
    ∃ d', d ≤ d' + ts.length ∧ sum d (ts ++ rest) = sumFrom d' e rest

/-- An expression is read in every place where it may stand. -/
structure Readable (e : Expr) : Prop where
  signed : ReadsSigned sp e
  product : ReadsProduct sp e
  sum : ReadsSum sp e

end

section

variable {sp : Spelling} {e left right : Expr} {op : Operator} {least d : ℕ} {ts rest : Tokens}

lemma Spells.length_pos (h : Spells sp e least ts) : 1 ≤ ts.length := by
  rw [← List.length_map (·.value), h]
  exact tokens_length_pos sp e least

lemma ReadsProduct.to_end (h : ReadsProduct sp e) (hts : Spells sp e 1 ts)
    (hd : 4 * ts.length ≤ d + 1) (hr : EndsProduct rest) :
    product d (ts ++ rest) = .ok (e, rest) := by
  obtain ⟨d', hd', heq⟩ := h hts hd hr.noColon
  obtain ⟨d'', rfl⟩ : ∃ d'', d' = d'' + 1 := ⟨d' - 1, by have := hts.length_pos; omega⟩
  rw [heq, productFrom_end hr]

lemma ReadsSum.to_end (h : ReadsSum sp e) (hts : Spells sp e 0 ts) (hd : 4 * ts.length ≤ d)
    (hr : EndsSum rest) : sum d (ts ++ rest) = .ok (e, rest) := by
  obtain ⟨d', hd', heq⟩ := h hts hd hr.toEndsProduct
  obtain ⟨d'', rfl⟩ : ∃ d'', d' = d'' + 1 := ⟨d' - 1, by have := hts.length_pos; omega⟩
  rw [heq, sumFrom_end hr]

/-- What is written in a product as it is as an operand begins a product as its first operand. -/
lemma ReadsSigned.product (h : ReadsSigned sp e) (hsame : e.tokens sp 1 = e.tokens sp 2) :
    ReadsProduct sp e := by
  intro d ts rest hts hd hr
  obtain ⟨d', rfl⟩ : ∃ d', d = d' + 1 := ⟨d - 1, by have := hts.length_pos; omega⟩
  refine ⟨d', by have := hts.length_pos; omega, ?_⟩
  rw [Parse.product]
  exact bind_of_ok (h (hts.trans hsame) (by omega) hr)

/-- What is written in a sum as it is in a product begins a sum as its first product. -/
lemma ReadsProduct.sum (h : ReadsProduct sp e) (hsame : e.tokens sp 0 = e.tokens sp 1) :
    ReadsSum sp e := by
  intro d ts rest hts hd hr
  obtain ⟨d', rfl⟩ : ∃ d', d = d' + 1 := ⟨d - 1, by have := hts.length_pos; omega⟩
  refine ⟨d', by have := hts.length_pos; omega, ?_⟩
  rw [Parse.sum]
  exact bind_of_ok (h.to_end (hts.trans hsame) (by omega) hr)

lemma readsSigned_of_operand (hminus : (e.tokens sp 2).head? ≠ some .minus)
    (h : ∀ ⦃d : ℕ⦄ ⦃ts rest : Tokens⦄, Spells sp e 2 ts → 4 * ts.length ≤ d + 3 →
      tokenAt rest 0 ≠ .colon → operand d (ts ++ rest) = .ok (e, rest)) : ReadsSigned sp e := by
  intro d ts rest hts hd hr
  obtain ⟨d', rfl⟩ : ∃ d', d = d' + 1 := ⟨d - 1, by have := hts.length_pos; omega⟩
  have hfirst : tokenAt (ts ++ rest) 0 ≠ .minus := by
    cases ts with
    | nil => exact absurd hts.length_pos (by simp)
    | cons t ts =>
      rw [← hts] at hminus
      simpa using hminus
  rw [signed_of_operand hfirst]
  exact h hts (by omega) hr

/-- What is written alike in every place is read everywhere if it is read as an operand. -/
lemma ReadsSigned.readable (h : ReadsSigned sp e)
    (hsame : ∀ least, e.tokens sp least = e.tokens sp 2) : Readable sp e :=
  have hproduct := h.product (hsame 1)
  ⟨h, hproduct, hproduct.sum ((hsame 0).trans (hsame 1).symm)⟩

end

section

variable {sp : Spelling} {e left right : Expr} {op : Operator}

lemma endsSum_of_closing {t : Located Token} (h : t.value = .closing) (ts : Tokens) :
    EndsSum (t :: ts) := by
  constructor
  · constructor <;> simp [h, productOperator?]
  · simp [h, sumOperator?]

lemma spells_binary {ts : Tokens}
    (h : ts.map (·.value) = left.tokens sp op.level ++ op.token :: right.tokens sp (op.level + 1)) :
    ∃ ls t rs, ts = ls ++ t :: rs ∧ Spells sp left op.level ls ∧ t.value = op.token ∧
      Spells sp right (op.level + 1) rs := by
  obtain ⟨ls, us, rfl, hls, hus⟩ := List.map_eq_append_iff.mp h
  obtain ⟨t, rs, rfl, ht, hrs⟩ := List.map_eq_cons_iff.mp hus
  exact ⟨ls, t, rs, rfl, hls, ht, hrs⟩

lemma operand_enclosed (h : ReadsSum sp e) {d : ℕ} {o c : Located Token} {ts rest : Tokens}
    (ho : o.value = .opening) (hc : c.value = .closing) (hts : Spells sp e 0 ts)
    (hd : 4 * ts.length ≤ d) :
    operand (d + 1) (o :: ts ++ c :: rest) = .ok (e, rest) := by
  have hsum := h.to_end hts hd (endsSum_of_closing hc rest)
  have hopen : past (o :: (ts ++ c :: rest)) = ts ++ c :: rest := past_cons (by simp [ho]) _
  have hclose := require_cons hc nofun ["')'"] rest
  simp only [operand, List.cons_append, next_bind, tokenAt_zero, ho, advance_bind, hopen]
  rw [bind_of_ok hsum, bind_of_ok hclose, pure_apply]

end

section

variable {sp : Spelling} {left right : Expr} {op : Operator} {least : ℕ}

lemma tokens_bare (h : least ≤ op.level) :
    (Expr.binary op left right).tokens sp least =
      left.tokens sp op.level ++ op.token :: right.tokens sp (op.level + 1) := by
  simp [Expr.tokens, enclose, Nat.not_lt.mpr h]

lemma tokens_enclosed (sp : Spelling) (left right : Expr) (h : op.level < least) :
    (Expr.binary op left right).tokens sp least =
      .opening :: (Expr.binary op left right).tokens sp 0 ++ [.closing] := by
  rw [tokens_bare (Nat.zero_le _)]
  simp [Expr.tokens, enclose, h]

lemma level_lt_two (op : Operator) : op.level < 2 := by cases op <;> decide

lemma ReadsSum.signed (h : ReadsSum sp (.binary op left right)) :
    ReadsSigned sp (.binary op left right) := by
  have htokens := tokens_enclosed sp left right (level_lt_two op)
  refine readsSigned_of_operand (by rw [htokens]; simp) ?_
  intro d ts rest hts hd hr
  rw [Spells, htokens] at hts
  obtain ⟨os, cs, rfl, hos, hcs⟩ := List.map_eq_append_iff.mp hts
  obtain ⟨o, us, rfl, ho, hus⟩ := List.map_eq_cons_iff.mp hos
  obtain ⟨c, rfl, hc⟩ := List.map_eq_singleton_iff.mp hcs
  simp only [List.length_append, List.length_cons, List.length_nil] at hd
  obtain ⟨d', rfl⟩ : ∃ d', d = d' + 1 := ⟨d - 1, by omega⟩
  rw [List.append_assoc, List.singleton_append]
  exact operand_enclosed h ho hc hus (by omega)

theorem Readable.sum_operation (hl : Readable sp left) (hr : Readable sp right)
    (hop : op.level = 0) : Readable sp (.binary op left right) := by
  have hsum : ReadsSum sp (.binary op left right) := by
    intro d ts rest hts hd hrest
    rw [Spells, tokens_bare (Nat.zero_le _)] at hts
    obtain ⟨ls, t, rs, rfl, hls, ht, hrs⟩ := spells_binary hts
    rw [hop] at hls hrs
    have hends : EndsProduct (t :: (rs ++ rest)) := by
      constructor <;> rw [tokenAt_zero, ht] <;> revert hop <;> cases op <;> decide
    simp only [List.length_append, List.length_cons] at hd
    obtain ⟨d', hd', hleft⟩ := hl.sum hls (by omega : 4 * ls.length ≤ d) hends
    obtain ⟨d'', rfl⟩ : ∃ d'', d' = d'' + 1 := ⟨d' - 1, by have := hls.length_pos; omega⟩
    have hright := hr.product.to_end hrs (by omega : 4 * rs.length ≤ d'' + 1) hrest
    refine ⟨d'', by simp; omega, ?_⟩
    rw [List.append_assoc, List.cons_append, hleft, sumFrom_operator hop ht, bind_of_ok hright]
  have hsigned := hsum.signed
  have hsame := tokens_enclosed sp left right (by omega : op.level < 1)
  rw [← tokens_enclosed sp left right (level_lt_two op)] at hsame
  exact ⟨hsigned, hsigned.product hsame, hsum⟩

theorem Readable.product_operation (hl : Readable sp left) (hr : Readable sp right)
    (hop : op.level = 1) : Readable sp (.binary op left right) := by
  have hproduct : ReadsProduct sp (.binary op left right) := by
    intro d ts rest hts hd hrest
    rw [Spells, tokens_bare hop.ge] at hts
    obtain ⟨ls, t, rs, rfl, hls, ht, hrs⟩ := spells_binary hts
    rw [hop] at hls hrs
    have hcolon : tokenAt (t :: (rs ++ rest)) 0 ≠ .colon := by
      rw [tokenAt_zero, ht]
      cases op <;> decide
    simp only [List.length_append, List.length_cons] at hd
    obtain ⟨d', hd', hleft⟩ := hl.product hls (by omega : 4 * ls.length ≤ d + 1) hcolon
    obtain ⟨d'', rfl⟩ : ∃ d'', d' = d'' + 1 := ⟨d' - 1, by have := hls.length_pos; omega⟩
    have hright := hr.signed hrs (by omega : 4 * rs.length ≤ d'' + 2) hrest
    refine ⟨d'', by simp; omega, ?_⟩
    rw [List.append_assoc, List.cons_append, hleft, productFrom_operator hop ht,
      bind_of_ok hright]
  have hsum := hproduct.sum (by rw [tokens_bare (Nat.zero_le _), tokens_bare hop.ge])
  exact ⟨hsum.signed, hproduct, hsum⟩

end

section

variable {sp : Spelling} {d : ℕ} {rest : Tokens}

lemma numeral_number (x : Float) {t : Located Token} (ht : t.value ≠ .finish)
    (hr : tokenAt rest 0 = .colon → ∀ beats, tokenAt rest 1 ≠ .period beats) :
    numeral x (t :: rest) = .ok (.number x, rest) := by
  simp only [numeral, here_bind, ahead_bind, tokenAt_succ]
  cases hfirst : tokenAt rest 0 with
  | colon =>
    cases hsecond : tokenAt rest 1 with
    | period beats => exact absurd hsecond (hr hfirst beats)
    | _ => simp [past_cons ht]
  | _ => simp [past_cons ht]

lemma operand_number {x : Float} {t : Located Token} (ht : t.value = .number x) (ts : Tokens) :
    operand (d + 1) (t :: ts) = numeral x (t :: ts) := by
  simp [operand, ht]

theorem readable_number (x : Float) : Readable sp (.number x) := by
  refine (readsSigned_of_operand (by simp [Expr.tokens]) ?_).readable fun _ => rfl
  intro d ts rest hts hd hr
  obtain ⟨t, rfl, ht⟩ := List.map_eq_singleton_iff.mp hts
  obtain ⟨d', rfl⟩ : ∃ d', d = d' + 1 := ⟨d - 1, by simp at hd; omega⟩
  rw [List.singleton_append, operand_number ht]
  exact numeral_number x (by simp [ht]) fun hcolon => absurd hcolon hr

lemma isBarCount_toFloat (n : UInt32) : isBarCount n.toFloat = true := by
  have hnan := isNaN_toFloat32 n
  have hvalue := value_toFloat32 n
  obtain ⟨hfractionNaN, hfraction⟩ :=
    value_sub_truncate (isFinite_toFloat32 n) (by rw [hvalue]; positivity)
  rw [hvalue, Nat.floor_natCast, sub_self] at hfraction
  rw [isBarCount, Bool.and_eq_true, decide_eq_true_iff]
  constructor
  · rw [fraction, beq_iff hfractionNaN rfl, hfraction, value_zero]
  · rw [le_iff hnan rfl, hvalue, value_largest32]
    have hle : n.toNat ≤ 4294967295 := Nat.le_of_lt_succ n.toNat_lt
    exact_mod_cast hle

lemma numeral_period {bars : UInt32} {beats : Float} {n c p : Located Token}
    (hn : n.value ≠ .finish) (hc : c.value = .colon) (hp : p.value = .period beats) :
    numeral bars.toFloat (n :: c :: p :: rest) = .ok (.period bars beats, rest) := by
  have hcolon : past (c :: p :: rest) = p :: rest := past_cons (by simp [hc]) _
  have hperiod : past (p :: rest) = rest := past_cons (by simp [hp]) _
  simp [numeral, hc, hp, isBarCount_toFloat, past_cons hn, hcolon, hperiod]

theorem readable_period (bars : UInt32) (beats : Float) : Readable sp (.period bars beats) := by
  have htokens (least : ℕ) : (Expr.period bars beats).tokens sp least = sp.period bars beats := rfl
  refine (readsSigned_of_operand ?_ ?_).readable fun _ => rfl
  · rw [htokens, Spelling.period]
    split <;> simp
  · intro d ts rest hts hd hr
    rw [Spells, htokens, Spelling.period] at hts
    split at hts
    · rename_i hbare
      obtain ⟨t, rfl, ht⟩ := List.map_eq_singleton_iff.mp hts
      obtain ⟨d', rfl⟩ : ∃ d', d = d' + 1 := ⟨d - 1, by simp at hd; omega⟩
      have hpast : past (t :: rest) = rest := past_cons (by simp [ht]) _
      simp [operand, ht, hpast, hbare.1]
    · obtain ⟨n, us, rfl, hn, hus⟩ := List.map_eq_cons_iff.mp hts
      obtain ⟨c, us, rfl, hc, hus⟩ := List.map_eq_cons_iff.mp hus
      obtain ⟨p, rfl, hp⟩ := List.map_eq_singleton_iff.mp hus
      obtain ⟨d', rfl⟩ : ∃ d', d = d' + 1 := ⟨d - 1, by simp at hd; omega⟩
      rw [List.cons_append, operand_number hn]
      exact numeral_period (by simp [hn]) hc hp

theorem readable_property (name : String) : Readable sp (.property name) := by
  refine (readsSigned_of_operand (by simp [Expr.tokens]) ?_).readable fun _ => rfl
  intro d ts rest hts hd hr
  obtain ⟨n, us, rfl, hn, hus⟩ := List.map_eq_cons_iff.mp hts
  obtain ⟨c, us, rfl, hc, hus⟩ := List.map_eq_cons_iff.mp hus
  obtain ⟨p, rfl, hp⟩ := List.map_eq_singleton_iff.mp hus
  obtain ⟨d', rfl⟩ : ∃ d', d = d' + 1 := ⟨d - 1, by simp at hd; omega⟩
  have hword : past (n :: c :: p :: rest) = c :: p :: rest := past_cons (by simp [hn]) _
  have hdot := require_cons hc nofun ["'.'"] (p :: rest)
  have hname : past (p :: rest) = rest := past_cons (by simp [hp]) _
  simp only [List.cons_append, List.nil_append, operand, next_bind, tokenAt_zero, hn, noteProperty,
    advance_bind, hword]
  rw [bind_of_ok hdot]
  simp [hp, hname]

end

section

variable {sp : Spelling} {d : ℕ} {f : Function}

lemma minArity_pos (h : 0 < f.maxArity) : 0 < f.minArity := by
  revert h
  cases f <;> decide

lemma arguments_enough {done : List Expr} {ts : Tokens} (h : f.minArity ≤ done.length)
    (hts : tokenAt ts 0 = .closing) : arguments (d + 1) f done ts = .ok (done, ts) := by
  rw [arguments]
  split
  · rfl
  · simp [h, hts]

/-- While arguments are missing the next one is read, past the comma that all but the first have. -/
lemma arguments_next {done : List Expr} {comma ts : Tokens} (h : done.length < f.maxArity)
    (hcomma : comma.map (·.value) = if !done.isEmpty then [.comma] else []) :
    arguments (d + 1) f done (comma ++ ts) =
      (sum d >>= fun e => arguments d f (done ++ [e])) ts := by
  rw [arguments, if_neg (Nat.not_le.mpr h), next_bind]
  cases done with
  | nil =>
    have hmin : ¬ f.minArity ≤ ([] : List Expr).length := Nat.not_le.mpr (minArity_pos h)
    rw [List.map_eq_nil_iff.mp hcomma, List.nil_append, decide_eq_false hmin]
    rfl
  | cons a as =>
    obtain ⟨t, rfl, ht⟩ := List.map_eq_singleton_iff.mp hcomma
    have hclosing : tokenAt (t :: ts) 0 ≠ .closing := by simp [ht]
    rw [List.singleton_append]
    simp only [hclosing, decide_false, Bool.and_false, Bool.false_eq_true, if_false,
      List.isEmpty_cons, Bool.not_false, if_true]
    exact bind_of_ok (require_cons ht nofun _ ts)

/-- After a comma or in front of a closing parenthesis an argument is complete. -/
lemma endsSum_arguments {es : List Expr} {ts : Tokens} {c : Located Token} {rest : Tokens}
    (hts : ts.map (·.value) = Expr.argumentTokens sp true es) (hc : c.value = .closing) :
    EndsSum (ts ++ c :: rest) := by
  cases es with
  | nil =>
    rw [List.map_eq_nil_iff.mp hts]
    exact endsSum_of_closing hc rest
  | cons e es =>
    obtain ⟨t, us, rfl, ht, -⟩ := List.map_eq_cons_iff.mp hts
    constructor
    · constructor <;> simp [ht, productOperator?]
    · simp [ht, sumOperator?]

lemma arguments_read {es done : List Expr} {ts : Tokens} {c : Located Token} {rest : Tokens}
    (hes : ∀ e ∈ es, Readable sp e) (hmin : f.minArity ≤ done.length + es.length)
    (hmax : done.length + es.length ≤ f.maxArity)
    (hts : ts.map (·.value) = Expr.argumentTokens sp (!done.isEmpty) es)
    (hd : 4 * ts.length + 1 ≤ d) (hc : c.value = .closing) :
    arguments d f done (ts ++ c :: rest) = .ok (done ++ es, c :: rest) := by
  induction es generalizing d done ts with
  | nil =>
    obtain ⟨d, rfl⟩ : ∃ d', d = d' + 1 := ⟨d - 1, by omega⟩
    rw [List.map_eq_nil_iff.mp hts, List.append_nil]
    exact arguments_enough hmin hc
  | cons e es ih =>
    obtain ⟨d, rfl⟩ : ∃ d', d = d' + 1 := ⟨d - 1, by omega⟩
    simp only [List.length_cons] at hmin hmax
    rw [Expr.argumentTokens] at hts
    obtain ⟨us, more, rfl, hus, hmore⟩ := List.map_eq_append_iff.mp hts
    obtain ⟨comma, us, rfl, hcomma, hus⟩ := List.map_eq_append_iff.mp hus
    simp only [List.length_append] at hd
    have hpos := (show Spells sp e 0 us from hus).length_pos
    have hends : EndsSum (more ++ c :: rest) := endsSum_arguments hmore hc
    have hsum := (hes e List.mem_cons_self).sum.to_end hus (by omega : 4 * us.length ≤ d) hends
    rw [List.append_assoc, List.append_assoc, arguments_next (by omega) hcomma, bind_of_ok hsum,
      ih (fun e he => hes e (List.mem_cons_of_mem _ he)) (by simp; omega) (by simp; omega)
        (by rwa [List.isEmpty_eq_false_iff.mpr (by simp)]) (by omega), List.append_assoc,
      List.singleton_append]

lemma operand_call {t : Located Token} (ht : t.value = .word f.name) (ts : Tokens) :
    operand (d + 1) (t :: ts) = (do
      require .opening ["'('"]
      let args ← arguments d f []
      require .closing ["')'"]
      return .call f args : Parse Expr) ts := by
  have hpast : past (t :: ts) = ts := past_cons (by simp [ht]) ts
  rw [operand, next_bind, tokenAt_zero, ht]
  conv_rhs => rw [← hpast]
  cases f <;> rfl

theorem readable_call {args : List Expr} (hargs : ∀ e ∈ args, Readable sp e)
    (hmin : f.minArity ≤ args.length) (hmax : args.length ≤ f.maxArity) :
    Readable sp (.call f args) := by
  refine (readsSigned_of_operand (by simp [Expr.tokens]) ?_).readable fun _ => rfl
  intro d ts rest hts hd hr
  obtain ⟨n, os, rfl, hn, hos⟩ := List.map_eq_cons_iff.mp hts
  obtain ⟨o, as, rfl, ho, has⟩ := List.map_eq_cons_iff.mp hos
  obtain ⟨us, cs, rfl, hus, hcs⟩ := List.map_eq_append_iff.mp has
  obtain ⟨c, rfl, hc⟩ := List.map_eq_singleton_iff.mp hcs
  simp only [List.length_cons, List.length_append, List.length_nil] at hd
  obtain ⟨d, rfl⟩ : ∃ d', d = d' + 1 := ⟨d - 1, by omega⟩
  have hopen := require_cons ho nofun ["'('"] (us ++ c :: rest)
  have hread : arguments d f [] (us ++ c :: rest) = .ok (args, c :: rest) :=
    arguments_read hargs (by simpa using hmin) (by simpa using hmax) hus (by omega) hc
  have hclose := require_cons hc nofun ["')'"] rest
  rw [List.cons_append, operand_call hn, List.cons_append, List.append_assoc,
    List.singleton_append, bind_of_ok hopen, bind_of_ok hread, bind_of_ok hclose, pure_apply]

end

mutual

/-- Every well-formed expression is read. -/
theorem readable (sp : Spelling) : (e : Expr) → e.wellFormed → Readable sp e
  | .number x, _ => readable_number x
  | .period bars beats, _ => readable_period bars beats
  | .property name, _ => readable_property name
  | .binary op left right, h => by
    rw [Expr.wellFormed, Bool.and_eq_true] at h
    have hl := readable sp left h.1
    have hr := readable sp right h.2
    cases op with
    | add => exact hl.sum_operation hr rfl
    | subtract => exact hl.sum_operation hr rfl
    | multiply => exact hl.product_operation hr rfl
    | divide => exact hl.product_operation hr rfl
  | .call f args, h => by
    simp only [Expr.wellFormed, Bool.and_eq_true, decide_eq_true_iff] at h
    exact readable_call (allReadable sp args h.2) h.1.1 h.1.2

theorem allReadable (sp : Spelling) : (es : List Expr) → Expr.allWellFormed es →
    ∀ e ∈ es, Readable sp e
  | [], _ => by simp
  | e :: es, h => by
    rw [Expr.allWellFormed, Bool.and_eq_true] at h
    rw [List.forall_mem_cons]
    exact ⟨readable sp e h.1, allReadable sp es h.2⟩

end

end Parse

end Barline.Modulation
