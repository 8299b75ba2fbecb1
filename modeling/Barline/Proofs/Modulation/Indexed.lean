import Barline.Proofs.Modulation.Tiling

/-!
# Reading tokens by their index

The parser holds the tokens that are left. Where all tokens are kept and an index moves over them,
a read could fall outside of the list, and an advance could leave it. Here the same grammar is fed
that way, with every index checked. On a list that is closed both feeds come to the same, so no
check ever fails: a read past the end is turned to the closing token, and no advance passes that
one.
-/

namespace Barline.Modulation

namespace Indexed

open Parse

variable {α β γ δ : Type}

/-- How a reader on an index fails. -/
inductive Fault where
  /-- An index at which there is no token. -/
  | outside (index : ℕ)
  /-- An advance past the last token. -/
  | pastEnd
  | refused (error : Error)

/-- All tokens of a list, and an index that moves over them. -/
structure At where
  tokens : Tokens
  index : ℕ

/-- The token `offset` places ahead, or the last one if there are not as many. -/
def peekAt (offset : ℕ) : ParseFrom At Fault (Located Token) := fun s =>
  let index := min (s.index + offset) (s.tokens.length - 1)
  match s.tokens[index]? with
  | some t => .ok (t, s)
  | none => .error (.outside index)

def step : ParseFrom At Fault Unit := fun s =>
  if s.index + 1 < s.tokens.length then .ok ((), { s with index := s.index + 1 })
  else .error .pastEnd

instance : Feed At Fault where
  ahead offset := do return (← peekAt offset).value
  here := do return (← peekAt 0).position
  advance := do if (← peekAt 0).value = .finish then return () else step
  left := fun s => .ok (s.tokens.length - s.index, s)
  refusal error := fun _ => .error (.refused error)

/-- The program of a list of tokens, from its first token on. -/
def program (ts : Tokens) : Except Fault Program :=
  ((assignments (ts.length + 1)).run (⟨ts, 0⟩ : At)).map (·.1)

/-- A list of tokens that one closing token ends. -/
def Closed (ts : Tokens) : Prop := ∃ front p, ts = front ++ [⟨.finish, p⟩]

/-- Both readers come to what `V` relates, and the index stays on the tokens. -/
inductive Agree (V : α → β → Prop) (ts : Tokens) :
    Except Error (α × Tokens) → Except Fault (β × At) → Prop
  | ok {a : α} {b : β} (hV : V a b) {i : ℕ} (hi : i < ts.length) :
    Agree V ts (.ok (a, ts.drop i)) (.ok (b, ⟨ts, i⟩))
  | error (e : Error) : Agree V ts (.error e) (.error (.refused e))

/-- From every token on, the reader on an index does what the reader on the tokens left does. -/
def Follows (ts : Tokens) (V : α → β → Prop) (x : Parse α) (y : ParseFrom At Fault β) : Prop :=
  ∀ ⦃i : ℕ⦄, i < ts.length → Agree V ts (x (ts.drop i)) (y ⟨ts, i⟩)

section

variable {ts : Tokens}

lemma Follows.bind {V : α → β → Prop} {W : γ → δ → Prop} {x : Parse α} {y : ParseFrom At Fault β}
    {f : α → Parse γ} {g : β → ParseFrom At Fault δ} (hx : Follows ts V x y)
    (hf : ∀ a b, V a b → Follows ts W (f a) (g b)) : Follows ts W (x >>= f) (y >>= g) := by
  intro i hi
  have hagree := hx hi
  change Agree W ts (x (ts.drop i) >>= fun r => f r.1 r.2) (y ⟨ts, i⟩ >>= fun r => g r.1 r.2)
  revert hagree
  generalize x (ts.drop i) = r, y ⟨ts, i⟩ = r'
  rintro (⟨hV, hj⟩ | e)
  · exact hf _ _ hV hj
  · exact .error e

variable (hts : Closed ts)
include hts

/-- A read falls on a token, which is the one that is read from the tokens left. -/
lemma peekAt_apply {i : ℕ} (hi : i < ts.length) (offset : ℕ) :
    ∃ t, peekAt offset ⟨ts, i⟩ = .ok (t, ⟨ts, i⟩) ∧ t.value = tokenAt (ts.drop i) offset ∧
      (offset = 0 → t.position = positionOf (ts.drop i)) := by
  unfold peekAt tokenAt positionOf
  rw [List.getElem?_drop, List.head?_drop]
  by_cases hinside : i + offset < ts.length
  · have hmin : min (i + offset) (ts.length - 1) = i + offset := by omega
    refine ⟨ts[i + offset], by simp [hmin, hinside], by simp [hinside], ?_⟩
    rintro rfl
    simp [hi]
  · -- The index stops at the closing token, for which the tokens left stand in with `finish`.
    obtain ⟨front, p, rfl⟩ := hts
    rw [List.length_append, List.length_singleton] at hi hinside
    have hmin : min (i + offset) front.length = front.length := by omega
    exact ⟨⟨.finish, p⟩, by simp [hmin], by simp [hinside], fun h => by omega⟩

lemma follows_ahead (offset : ℕ) : Follows ts (· = ·) (ahead offset) (ahead offset) := by
  intro i hi
  obtain ⟨t, hpeek, hvalue, -⟩ := peekAt_apply hts hi offset
  change Agree _ ts (.ok (tokenAt (ts.drop i) offset, ts.drop i))
    (peekAt offset ⟨ts, i⟩ >>= fun r => .ok (r.1.value, r.2))
  rw [hpeek, ← hvalue]
  exact .ok rfl hi

lemma follows_here : Follows ts (· = ·) here here := by
  intro i hi
  obtain ⟨t, hpeek, -, hposition⟩ := peekAt_apply hts hi 0
  change Agree _ ts (.ok (positionOf (ts.drop i), ts.drop i))
    (peekAt 0 ⟨ts, i⟩ >>= fun r => .ok (r.1.position, r.2))
  rw [hpeek, ← hposition rfl]
  exact .ok rfl hi

lemma follows_advance : Follows ts (· = ·) advance advance := by
  intro i hi
  obtain ⟨t, hpeek, hvalue, -⟩ := peekAt_apply hts hi 0
  have hleft : advance (ts.drop i) = .ok ((), past (ts.drop i)) := rfl
  have hright : advance (⟨ts, i⟩ : At) =
      if t.value = .finish then .ok ((), ⟨ts, i⟩) else step ⟨ts, i⟩ := by
    change (peekAt 0 ⟨ts, i⟩ >>= fun r =>
      (if r.1.value = .finish then pure () else step : ParseFrom At Fault Unit) r.2) = _
    rw [hpeek]
    change (if t.value = .finish then pure () else step : ParseFrom At Fault Unit) ⟨ts, i⟩ = _
    split_ifs <;> rfl
  rw [hleft, hright, past, ← hvalue]
  split_ifs with hfinish
  · exact .ok rfl hi
  · -- The last token is a closing one, so this one is not the last.
    have hstep : i + 1 < ts.length := by
      obtain ⟨front, p, rfl⟩ := hts
      by_contra hlast
      rw [List.length_append, List.length_singleton] at hi hlast
      obtain rfl : i = front.length := by omega
      simp [hvalue, tokenAt] at hfinish
    rw [step, if_pos hstep, List.tail_drop]
    exact .ok rfl hstep

/-- On a closed list the index goes where the tokens left begin. -/
lemma relates_follows : Relates (· = ·) (Follows ts) where
  pure hV _ hi := .ok hV hi
  bind := .bind
  ahead := follows_ahead hts
  here := follows_here hts
  advance := follows_advance hts
  left i hi := by
    have hleft : left (ts.drop i) = .ok ((ts.drop i).length, ts.drop i) := rfl
    rw [hleft]
    exact .ok (List.length_drop ..) hi
  expected words := (follows_ahead hts 0).bind fun found found' hfound =>
    (follows_here hts).bind fun p q hpq => by
      subst hfound hpq
      exact fun _ _ => .error _
  refuse cause p q hpq := by
    subst hpq
    exact fun _ _ => .error _

/-- On a closed list no check fails, and both feeds come to the same. -/
theorem program_eq : program ts = (Parse.program ts).mapError .refused := by
  have hpos : 0 < ts.length := by
    obtain ⟨front, p, rfl⟩ := hts
    simp
  have hagree := (relates_follows hts).assignments (ts.length + 1) hpos
  rw [List.drop_zero] at hagree
  change (assignments (ts.length + 1) (⟨ts, 0⟩ : At)).map (·.1) =
    ((assignments (ts.length + 1) ts).map (·.1)).mapError .refused
  revert hagree
  generalize assignments (ts.length + 1) ts = r, assignments (ts.length + 1) (⟨ts, 0⟩ : At) = r'
  rintro (⟨hsame, -⟩ | _)
  · have heq := hsame.imp fun _ _ h => h.eq
    rw [List.forall₂_eq_eq_eq] at heq
    exact congrArg Except.ok heq.symm
  · rfl

end

end Indexed

/-- **Tokens tile their text, and their list is never left.** The tokens of a text, with trivia
between them, are the text; each stands where its own characters begin, one behind another, and the
last one alone closes the list. So an index that moves over the list as the grammar says stays on
it, and reads what the parser reads. -/
theorem tokenize_tiled {text : List Char} {ts : Tokens} (h : tokenize text = .ok ts) :
    (∃ gs last, Lexer.Tiling gs last text ts) ∧
      (∃ front, ts = front ++ [⟨.finish, .behind text⟩] ∧ ∀ t ∈ front, t.value ≠ .finish) ∧
      ts.Pairwise (fun t u => t.position.key < u.position.key) ∧
      Indexed.program ts = (Parse.program ts).mapError .refused := by
  obtain ⟨gs, last, htiling⟩ := Lexer.exists_tiling h
  obtain ⟨front, hts, hfront⟩ := htiling.ends
  exact ⟨⟨gs, last, htiling⟩, ⟨front, hts, hfront⟩, htiling.increasing,
    Indexed.program_eq ⟨front, _, hts⟩⟩

/-- Behind the number that ends the text the parser looks further than the list goes. -/
theorem tokenize_tiled_fraction :
    let text := "1|1-2|.5+1/2 timing=1//x".toList
    let ts : Tokens := [⟨.number 1.0, ⟨1, 1⟩⟩, ⟨.pipe, ⟨1, 2⟩⟩, ⟨.number 1.0, ⟨1, 3⟩⟩,
      ⟨.minus, ⟨1, 4⟩⟩, ⟨.number 2.0, ⟨1, 5⟩⟩, ⟨.pipe, ⟨1, 6⟩⟩, ⟨.number 0.5, ⟨1, 7⟩⟩,
      ⟨.plus, ⟨1, 9⟩⟩, ⟨.number 1.0, ⟨1, 10⟩⟩, ⟨.slash, ⟨1, 11⟩⟩, ⟨.number 2.0, ⟨1, 12⟩⟩,
      ⟨.word "timing", ⟨1, 14⟩⟩, ⟨.equals, ⟨1, 20⟩⟩, ⟨.number 1.0, ⟨1, 21⟩⟩, ⟨.finish, ⟨1, 25⟩⟩]
    tokenize text = .ok ts ∧ (∃ gs last, Lexer.Tiling gs last text ts) ∧
      (Indexed.program ts).isOk := by
  intro text ts
  have htokens : tokenize text = .ok ts := by decide +kernel
  have hprogram : (Parse.program ts).isOk := by decide +kernel
  obtain ⟨htiling, -, -, hindexed⟩ := tokenize_tiled htokens
  refine ⟨htokens, htiling, ?_⟩
  rw [hindexed]
  cases hparse : Parse.program ts with
  | ok program => rfl
  | error e => simp [hparse, Except.isOk, Except.toBool] at hprogram

end Barline.Modulation
