import Barline.Proofs.Modulation.Expressions
import Barline.Proofs.Score.Pointing
import Barline.Proofs.Text.Carrying

/-!
# Where errors in modulation texts point

The tokens of a text start where they say, and the closing one stands behind the text. A parser
that only goes on from token to token names the position of one of them.
-/

namespace Barline.Modulation

open Scan

/-- A token other than the closing one is read off the text where it says that it starts. -/
def StartsAt (text : List Char) (t : Located Token) : Prop :=
  t.value ≠ .finish ∧ ∃ front rest c, text = front ++ rest ∧ t.position = .behind front ∧
    Lexer.token ⟨rest, t.position⟩ = .ok (t.value, c)

lemma StartsAt.inside {text : List Char} {t : Located Token} (h : StartsAt text t) :
    Inside text t.position := by
  obtain ⟨hne, front, rest, c, htext, hposition, htoken⟩ := h
  cases rest with
  | nil => exact absurd (congrArg Prod.fst (Except.ok.inj htoken)).symm hne
  | cons x rest => exact ⟨x, front, rest, htext, hposition⟩

namespace Lexer

section

variable {text : List Char} {opens : Position → Prop} {shows : Position → String → Prop} {n : ℕ}

/-- What is left of a text begins with a character. -/
abbrev Goes (text : List Char) (n : ℕ) (c : Cursor) : Prop :=
  c.Within text (n + 1) ∧ c.rest ≠ []

lemma Goes.advance {c : Cursor} (h : Goes text n c) : c.advance.Within text n := by
  obtain ⟨_ | ⟨x, rest⟩, p⟩ := c
  · exact absurd rfl h.2
  · exact ⟨h.1.advance_cons.place, Nat.le_of_succ_le_succ h.1.length⟩

lemma leads_advance : Leads (Error.Points text opens shows) (Goes text n) (move Cursor.advance)
    fun _ => Cursor.Within text n := fun _ h => Goes.advance h

lemma leads_pitch (letter : Char) : Leads (Error.Points text opens shows) (Goes text n)
    (pitch letter) fun t c => t ≠ .finish ∧ c.Within text n := by
  unfold pitch
  refine leads_advance.bind fun _ => aims_accidental.bind fun accidental => ?_
  refine (leads_look _).bind fun negative => ?_
  extract_lets octave
  have hoctave (u : Unit) : Leads (Error.Points text opens shows) (Cursor.Within text n) (octave u)
      fun t c => t ≠ .finish ∧ c.Within text n := by
    refine aims_digits.bind fun digits => .ite (fun _ => leads_expected _) fun _ => ?_
    exact .pure fun c hc => ⟨nofun, hc⟩
  exact .ite (fun _ => aims_advance.bind hoctave) fun _ => hoctave ()

lemma leads_word {x : Char} (hx : isWordChar x) : Leads (Error.Points text opens shows)
    (fun c => c.Within text (n + 1) ∧ c.peek = some x) word
    fun t c => t ≠ .finish ∧ c.Within text n := by
  rintro ⟨_ | ⟨y, rest⟩, p⟩ ⟨h, hpeek⟩
  · cases hpeek
  · obtain rfl : y = x := Option.some.inj hpeek
    have hword : (y :: rest).takeWhile isWordChar = y :: rest.takeWhile isWordChar :=
      List.takeWhile_cons_of_pos hx
    change Token.word _ ≠ .finish ∧
      (Cursor.advanceBy ⟨y :: rest, p⟩ ((y :: rest).takeWhile isWordChar).length).Within text n
    rw [hword]
    exact ⟨nofun, (h.advanceBy _).place, h.length_advanceBy _⟩

lemma leads_digits : Leads (Error.Points text opens shows)
    (fun c => c.Within text (n + 1) ∧ (c.digitAt 0 = true ∨ c.digitAfter '.' = true)) digits
    fun _ c => c.Within text n ∨ c.Within text (n + 1) ∧ c.digitAfter '.' = true := by
  rintro ⟨_ | ⟨x, rest⟩, p⟩ ⟨h, hdigit⟩
  · simp [Cursor.digitAt, Cursor.digitAfter, Cursor.peek, Cursor.peekAt] at hdigit
  have hpast : Cursor.pastDigits ⟨x :: rest, p⟩ =
      Cursor.advanceBy ⟨x :: rest, p⟩ ((x :: rest).takeWhile Char.isDigit).length := rfl
  change (Cursor.pastDigits ⟨x :: rest, p⟩).Within text n ∨
    (Cursor.pastDigits ⟨x :: rest, p⟩).Within text (n + 1) ∧ _
  by_cases hx : x.isDigit
  · rw [List.takeWhile_cons_of_pos hx] at hpast
    rw [hpast]
    exact .inl ⟨(h.advanceBy _).place, h.length_advanceBy _⟩
  · rw [List.takeWhile_cons_of_neg hx] at hpast
    rw [hpast]
    exact .inr ⟨h, hdigit.resolve_left fun hat => hx (Option.any_some.symm.trans hat)⟩

lemma leads_number : Leads (Error.Points text opens shows)
    (fun c => c.Within text (n + 1) ∧ (c.digitAt 0 = true ∨ c.digitAfter '.' = true)) number
    fun t c => t ≠ .finish ∧ c.Within text n := by
  have hdecimal : Leads (Error.Points text opens shows)
      (fun c => c.Within text (n + 1) ∧ (c.digitAt 0 = true ∨ c.digitAfter '.' = true)) decimal
      fun _ => Cursor.Within text n := by
    unfold decimal
    refine leads_digits.bind fun whole => leads_view fun point => ?_
    refine .ite (fun hpoint => ?_) fun hpoint => ?_
    · refine Leads.bind (J := fun _ => Cursor.Within text n) ?_ fun _ =>
        aims_digits.bind fun fraction => aims_pure _
      rintro c ⟨hc | hc, hview⟩
      · exact hc.advance
      · exact Goes.advance ⟨hc.1, rest_ne_nil_of_digitAfter hc.2⟩
    · refine .pure ?_
      rintro c ⟨hc | hc, hview⟩
      · exact hc
      · exact absurd (hview.symm.trans hc.2) hpoint
  unfold number
  refine hdecimal.bind fun d => (leads_look _).bind fun period => .ite (fun _ => ?_) fun _ => ?_
  · exact aims_advance.bind fun _ => .pure fun c hc => ⟨nofun, hc⟩
  · exact .pure fun c hc => ⟨nofun, hc⟩

lemma symbol_ne_finish {x : Char} {t : Token} (h : symbol? x = some t) : t ≠ .finish := by
  rintro rfl
  unfold symbol? at h
  split at h <;> cases h

theorem leads_token : Leads (Error.Points text opens shows) (Goes text n) token
    fun t c => t ≠ .finish ∧ c.Within text n := by
  unfold token
  refine leads_view fun next => ?_
  cases next with
  | none =>
    rintro ⟨_ | ⟨x, rest⟩, p⟩ ⟨⟨-, hne⟩, hpeek⟩
    · exact absurd rfl hne
    · cases hpeek
  | some x =>
    refine leads_view fun point => .ite (fun hdigit => ?_) fun _ => .ite (fun _ => ?_) fun _ =>
      .ite (fun hword => ?_) fun _ => ?_
    · refine leads_number.before ?_
      rintro ⟨_ | ⟨y, rest⟩, p⟩ ⟨⟨⟨h, hne⟩, hpeek⟩, hpoint⟩
      · exact absurd rfl hne
      obtain rfl : y = x := Option.some.inj hpeek
      obtain hdigit | rfl := (Bool.or_eq_true _ _).mp hdigit
      · exact ⟨h, .inl (Option.any_some.trans hdigit)⟩
      · exact ⟨h, .inr hpoint⟩
    · exact (leads_pitch x).before fun c h => h.1.1
    · have hx : isWordChar x := by
        unfold isWordChar Char.isAlphanum Char.isAlpha
        grind
      exact (leads_word hx).before fun c h => ⟨h.1.1.1, h.1.2⟩
    · split
      · refine (leads_advance.before fun c h => h.1.1).bind fun _ => ?_
        refine (aims_eat _).bind fun equals => .ite (fun _ => ?_) fun _ => ?_
        · exact .pure fun c h => ⟨nofun, h⟩
        · exact .pure fun c h => ⟨nofun, h⟩
      · rename_i t ht
        refine (leads_advance.before fun c h => h.1.1).bind fun _ => ?_
        exact .pure fun c h => ⟨symbol_ne_finish ht, h⟩
      · exact (leads_expected _).before fun c h => h.1.1.1

lemma leads_located : Leads (Error.Points text opens shows)
    (fun c => c.Within text n ∧ c.rest ≠ [])
    (here >>= fun position => token >>= fun t => pure (some ⟨t, position⟩))
    (AfterRound (Cursor.Within text) (StartsAt text) n) := by
  rintro ⟨rest, p⟩ ⟨h, hne⟩
  obtain ⟨m, rfl⟩ : ∃ m, n = m + 1 := by
    have hlength := List.length_pos_iff.mpr hne
    exact ⟨n - 1, by have := h.length; omega⟩
  obtain ⟨front, htext, hposition⟩ := h.place
  have hleads : Leads (Error.Points text opens shows) (Goes text m) token _ := leads_token
  have htoken := hleads ⟨rest, p⟩ ⟨h, hne⟩
  have hrun : (here >>= fun position => token >>= fun t => pure (some ⟨t, position⟩) :
      Scan (Option (Located Token))) ⟨rest, p⟩ =
        (token >>= fun t => pure (some ⟨t, p⟩)) ⟨rest, p⟩ := rfl
  rw [hrun, bind_apply]
  cases hread : token ⟨rest, p⟩ with
  | error e =>
    rw [hread] at htoken
    exact htoken
  | ok r =>
    rw [hread] at htoken
    exact ⟨⟨htoken.1, front, rest, r.2, htext, hposition, hread⟩, m, Nat.lt_succ_self m, htoken.2⟩

lemma leads_nextToken : Leads (Error.Points text (OpensComment nextToken text) shows)
    (Between nextToken text n) nextToken
    (AfterRound (Between nextToken text) (StartsAt text) n) := by
  have hnext : Leads (Error.Points text (OpensComment nextToken text) shows)
      (Between nextToken text n) nextToken
      (AfterRound (Cursor.Within text) (StartsAt text) n) := by
    unfold nextToken
    refine leads_skipTrivia.bind fun _ => leads_view fun finished =>
      .ite (fun hfinished => ?_) fun hgoes => ?_
    · refine .pure fun c h => ⟨h.1, ?_⟩
      exact List.isEmpty_iff.mp (h.2.trans hfinished)
    · refine leads_located.before fun c h => ⟨h.1, fun hnil => hgoes ?_⟩
      exact h.2.symm.trans (List.isEmpty_iff.mpr hnil)
  refine (leads_reaches hnext).after ?_
  rintro (_ | t) c ⟨h, hreaches⟩
  · exact ⟨⟨h.1, hreaches⟩, h.2⟩
  · obtain ⟨ht, m, hm, hc⟩ := h
    exact ⟨ht, m, hm, hc, hreaches⟩

end

end Lexer

/-- A token is one of a text, and starts where it says. -/
def StandsIn (text : List Char) (t : Located Token) : Prop :=
  StartsAt text t ∧ ∃ tokens, tokenize text = .ok tokens ∧ t ∈ tokens

/-- A token that is shown as `shown` starts at a position. -/
def ShowsToken (text : List Char) (p : Position) (shown : String) : Prop :=
  ∃ token : Token, StandsIn text ⟨token, p⟩ ∧ token.text = shown

/-- Tokens of a text up to the closing one, which stands behind it. -/
def Closing (text : List Char) (ts : Tokens) : Prop :=
  ∃ tokens, ts = tokens ++ [⟨.finish, .behind text⟩] ∧ ∀ t ∈ tokens, StandsIn text t

section

variable {text : List Char} {ts : Tokens} {e : Error} {shows : Position → String → Prop}

/-- The tokens of a text start where they say, and the closing one stands behind the text. -/
theorem leads_tokens : Leads (Error.Points text (OpensComment Lexer.nextToken text) shows)
    (fun c => c = .start text) Lexer.tokens
    fun ts _ => ∃ tokens, ts = tokens ++ [⟨.finish, .behind text⟩] ∧
      ∀ t ∈ tokens, StartsAt text t := by
  unfold Lexer.tokens
  refine leads_view fun rounds => ?_
  refine Leads.bind (J := fun tokens c => (∀ t ∈ tokens, StartsAt text t) ∧
    (∃ m, Between Lexer.nextToken text m c) ∧ c.rest = []) ?_ fun tokens => ?_
  · rintro _ ⟨rfl, rfl⟩
    exact leads_many_end (fun m => Lexer.leads_nextToken) (Nat.lt_succ_self text.length)
      (.start text) ⟨.start text, .refl⟩
  · rintro ⟨rest, p⟩ ⟨htokens, ⟨m, h, -⟩, rfl⟩
    exact ⟨tokens, by rw [← h.position_of_nil], htokens⟩

lemma closing_of_tokenize (h : tokenize text = .ok ts) : Closing text ts := by
  have hleads : Leads (Error.Points text (OpensComment Lexer.nextToken text) fun _ _ => False)
    _ _ _ := leads_tokens
  obtain ⟨all, c, rfl, tokens, hall, hstarts⟩ := hleads.ok_of_map rfl h
  refine ⟨tokens, hall, fun t ht => ⟨hstarts t ht, all, h, ?_⟩⟩
  rw [hall]
  exact List.mem_append_left _ ht

lemma points_of_tokenize (h : tokenize text = .error e) :
    e.Points text (OpensComment Lexer.nextToken text) shows :=
  leads_tokens.error_of_map rfl h

end

namespace Parse

/-- In front of tokens of a text a reader goes on or says what is true of the text. -/
abbrev Aims {α : Type} (text : List Char) (opens : Position → Prop) (x : Parse α) : Prop :=
  Leads (Error.Points text opens (ShowsToken text)) (Closing text) x fun _ => Closing text

section

variable {α β : Type} {text : List Char} {opens : Position → Prop} {ts : Tokens}
  {position : Position}

lemma aims_pure (a : α) : Aims text opens (pure a) := fun _ h => h

lemma leads_ahead {E : Error → Prop} {I : Tokens → Prop} (offset : ℕ) :
    Leads E I (ahead offset) fun _ => I := fun _ h => h

lemma leads_next {E : Error → Prop} {I : Tokens → Prop} {J : β → Tokens → Prop}
    {f : Token → Parse β} (hf : ∀ t, Leads E (fun ts => I ts ∧ tokenAt ts 0 = t) (f t) J) :
    Leads E I (next >>= f) J := fun ts h => hf (tokenAt ts 0) ts ⟨h, rfl⟩

lemma closing_past (h : Closing text ts) : Closing text (past ts) := by
  obtain ⟨_ | ⟨t, tokens⟩, rfl, htokens⟩ := h
  · exact ⟨[], rfl, htokens⟩
  · obtain ⟨ht, htokens⟩ := List.forall_mem_cons.mp htokens
    rw [List.cons_append, past_cons ht.1.1]
    exact ⟨tokens, rfl, htokens⟩

lemma aims_advance : Aims text opens advance := fun _ h => closing_past h

lemma found_of_ne_finish {t : Token} (h : t ≠ .finish) : t.found = .token t.text := by
  cases t with
  | finish => exact absurd rfl h
  | _ => rfl

lemma leads_expected {J : α → Tokens → Prop} (words : List String) :
    Leads (Error.Points text opens (ShowsToken text)) (Closing text) (expected words) J := by
  rintro ts ⟨_ | ⟨t, tokens⟩, rfl, htokens⟩
  · exact .inl rfl
  · have ht := htokens t List.mem_cons_self
    have hpoints : Error.Points text opens (ShowsToken text)
        (.grammar words t.value.found t.position) := by
      rw [found_of_ne_finish ht.1.1]
      exact ⟨t.value, ht, rfl⟩
    exact hpoints

lemma leads_refuse {I : Tokens → Prop} {J : α → Tokens → Prop} (cause : Cause)
    (hposition : Inside text position) :
    Leads (Error.Points text opens (ShowsToken text)) I (refuse cause position) J :=
  fun _ _ => ⟨position, rfl, hposition⟩

lemma inside_of_next (h : Closing text ts) (hnext : tokenAt ts 0 ≠ .finish) :
    Inside text (positionOf ts) := by
  obtain ⟨_ | ⟨t, tokens⟩, rfl, htokens⟩ := h
  · exact absurd rfl hnext
  · exact (htokens t List.mem_cons_self).1.inside

lemma leads_here {J : β → Tokens → Prop} {f : Position → Parse β}
    (hf : ∀ p, Inside text p →
      Leads (Error.Points text opens (ShowsToken text)) (Closing text) (f p) J) :
    Leads (Error.Points text opens (ShowsToken text))
      (fun ts => Closing text ts ∧ tokenAt ts 0 ≠ .finish) (here >>= f) J :=
  fun ts h => hf _ (inside_of_next h.1 h.2) ts h.1

/-- A value that is refused begins with a token, as nothing is read from the closing one. -/
lemma aims_here {f : Position → Parse β} (hf : ∀ p, Inside text p → Aims text opens (f p))
    (hend : ∀ p, ∃ words, f p [⟨.finish, p⟩] = expected words [⟨.finish, p⟩]) :
    Aims text opens (here >>= f) := by
  intro ts h
  by_cases hnext : tokenAt ts 0 = .finish
  · obtain ⟨_ | ⟨t, tokens⟩, rfl, htokens⟩ := h
    · obtain ⟨words, hwords⟩ := hend (.behind text)
      have hexpected : Aims text opens (expected words : Parse β) := leads_expected words
      have hpoints := hexpected _ ⟨[], rfl, htokens⟩
      rw [List.nil_append, ← hwords] at hpoints
      exact hpoints
    · exact absurd hnext (htokens t List.mem_cons_self).1.1
  · exact leads_here hf ts ⟨h, hnext⟩

lemma aims_require (t : Token) (words : List String) : Aims text opens (require t words) := by
  unfold require
  exact (leads_ahead 0).bind fun t => .ite (fun _ => aims_advance) fun _ => leads_expected words

lemma leads_numeral (x : Float) : Leads (Error.Points text opens (ShowsToken text))
    (fun ts => Closing text ts ∧ tokenAt ts 0 ≠ .finish) (numeral x) fun _ => Closing text := by
  unfold numeral
  refine leads_here fun position hposition => (leads_ahead 1).bind fun second => ?_
  refine (leads_ahead 2).bind fun third => ?_
  split
  · refine .ite (fun _ => ?_) fun _ => leads_refuse _ hposition
    exact aims_advance.bind fun _ => aims_advance.bind fun _ => aims_advance.bind fun _ =>
      aims_pure _
  · exact aims_advance.bind fun _ => aims_pure _

lemma aims_noteProperty : Aims text opens noteProperty := by
  unfold noteProperty
  refine aims_advance.bind fun _ => (aims_require _ _).bind fun _ => ?_
  refine (leads_ahead 0).bind fun t => ?_
  split
  · exact aims_advance.bind fun _ => aims_pure _
  · exact leads_expected _

/-- At every depth the readers of expressions go on or say what is true of the text. -/
structure DepthAims (text : List Char) (opens : Position → Prop) (depth : ℕ) : Prop where
  sum : Aims text opens (sum depth)
  sumFrom (left : Expr) : Aims text opens (sumFrom depth left)
  product : Aims text opens (product depth)
  productFrom (left : Expr) : Aims text opens (productFrom depth left)
  signed : Aims text opens (signed depth)
  operand : Aims text opens (operand depth)
  arguments (f : Function) (done : List Expr) : Aims text opens (arguments depth f done)

lemma depthAims_zero : DepthAims text opens 0 := by
  constructor <;> intros <;> exact leads_expected _

lemma depthAims_succ {depth : ℕ} (h : DepthAims text opens depth) :
    DepthAims text opens (depth + 1) where
  sum := by
    rw [Parse.sum]
    exact h.product.bind h.sumFrom
  sumFrom left := by
    rw [Parse.sumFrom]
    refine (leads_ahead 0).bind fun t => ?_
    split
    · exact aims_advance.bind fun _ => h.product.bind fun right => h.sumFrom _
    · exact aims_pure _
  product := by
    rw [Parse.product]
    exact h.signed.bind h.productFrom
  productFrom left := by
    rw [Parse.productFrom]
    refine (leads_ahead 0).bind fun t => ?_
    split
    · exact aims_advance.bind fun _ => h.signed.bind fun right => h.productFrom _
    · exact aims_pure _
  signed := by
    rw [Parse.signed]
    refine (leads_ahead 0).bind fun t => .ite (fun _ => ?_) fun _ => h.operand
    exact aims_advance.bind fun _ => h.signed.bind fun e => aims_pure _
  operand := by
    rw [Parse.operand]
    refine leads_next fun t => ?_
    split
    · refine (leads_numeral _).before fun ts h => ⟨h.1, fun hnext => ?_⟩
      rw [h.2] at hnext
      cases hnext
    all_goals refine Leads.before (I := Closing text) ?_ fun ts h => h.1
    · exact aims_advance.bind fun _ => aims_pure _
    · exact aims_noteProperty
    · split
      · refine aims_advance.bind fun _ => (aims_require _ _).bind fun _ => ?_
        refine (h.arguments _ []).bind fun args => (aims_require _ _).bind fun _ => aims_pure _
      · exact leads_expected _
    · refine aims_advance.bind fun _ => h.sum.bind fun inner => ?_
      exact (aims_require _ _).bind fun _ => aims_pure _
    · exact leads_expected _
  arguments f done := by
    rw [Parse.arguments]
    have hnext : Aims text opens (do Parse.arguments depth f (done ++ [← Parse.sum depth])) :=
      h.sum.bind fun argument => h.arguments f _
    refine .ite (fun _ => aims_pure _) fun _ => (leads_ahead 0).bind fun t => ?_
    refine .ite (fun _ => aims_pure _) fun _ => .ite (fun _ => ?_) fun _ => hnext
    exact (aims_require _ _).bind fun _ => hnext

theorem depthAims (depth : ℕ) : DepthAims text opens depth := by
  induction depth with
  | zero => exact depthAims_zero
  | succ depth ih => exact depthAims_succ ih

lemma aims_expression : Aims text opens expression :=
  fun ts h => (depthAims (depthFor ts.length)).sum ts h

lemma aims_pitch : Aims text opens pitch := by
  unfold pitch
  refine aims_here (fun position hposition => ?_) fun position => ⟨["pitch"], rfl⟩
  refine (leads_ahead 0).bind fun t => ?_
  split
  · split
    · exact aims_advance.bind fun _ => aims_pure _
    · exact leads_refuse _ hposition
  · exact leads_expected _

lemma aims_pitchRange : Aims text opens pitchRange := by
  unfold pitchRange
  refine aims_here (fun position hposition => ?_) fun position => ⟨["pitch"], rfl⟩
  refine aims_pitch.bind fun low => (leads_ahead 0).bind fun t => ?_
  refine (leads_ahead 1).bind fun second => ?_
  extract_lets go
  have hgo (high : UInt8) : Aims text opens (go high) :=
    .ite (fun _ => leads_refuse _ hposition) fun _ => aims_pure _
  refine .ite (fun _ => ?_) fun _ => (aims_pure low).bind hgo
  exact aims_advance.bind fun _ => aims_pitch.bind hgo

lemma aims_quotient (numerator denominator : Float) (hposition : Inside text position) :
    Aims text opens (quotient numerator denominator position) := by
  unfold quotient
  exact .ite (fun _ => leads_refuse _ hposition) fun _ => aims_pure _

lemma aims_literal : Aims text opens literal := by
  unfold literal
  refine aims_here (fun position hposition => ?_) fun position => ⟨["number"], rfl⟩
  refine (leads_ahead 0).bind fun t => ?_
  split
  · refine aims_advance.bind fun _ => (leads_ahead 0).bind fun first => ?_
    refine (leads_ahead 1).bind fun second => (leads_ahead 2).bind fun third => ?_
    refine (leads_ahead 3).bind fun fourth => ?_
    split
    · exact aims_advance.bind fun _ => aims_advance.bind fun _ => aims_quotient _ _ hposition
    · refine aims_advance.bind fun _ => aims_advance.bind fun _ => aims_advance.bind fun _ => ?_
      exact aims_advance.bind fun _ => (aims_quotient _ _ hposition).bind fun _ => aims_pure _
    · exact aims_pure _
  · exact leads_expected _

lemma aims_place : Aims text opens place := by
  unfold place
  refine aims_here (fun position hposition => ?_) fun position => ⟨["bar number"], rfl⟩
  refine (leads_ahead 0).bind fun t => ?_
  split
  · refine .ite (fun _ => leads_refuse _ hposition) fun _ => ?_
    refine aims_advance.bind fun _ => (aims_require _ _).bind fun _ => ?_
    exact aims_literal.bind fun beat => aims_pure _
  · exact leads_expected _

lemma aims_timeRange : Aims text opens timeRange := by
  unfold timeRange
  refine aims_place.bind fun start => (aims_require _ _).bind fun _ => ?_
  exact aims_place.bind fun finish => aims_pure _

lemma aims_pitchLimit : Aims text opens pitchLimit := by
  unfold pitchLimit
  refine (leads_ahead 0).bind fun t => .ite (fun _ => ?_) fun _ => aims_pure none
  exact aims_pitchRange.bind fun range => aims_pure (some range)

lemma aims_stretchLimit : Aims text opens stretchLimit := by
  unfold stretchLimit
  refine (leads_ahead 0).bind fun first => (leads_ahead 1).bind fun second => ?_
  refine .ite (fun _ => ?_) fun _ => aims_pure none
  exact aims_timeRange.bind fun range => aims_pure (some range)

lemma aims_valued (position : Position) (pitches : Option PitchRange) (stretch : Option TimeRange)
    (parameter : Parameter) (assign : Assign) :
    Aims text opens (valued position pitches stretch parameter assign) :=
  aims_advance.bind fun _ => aims_expression.bind fun _ => aims_pure _

lemma aims_assigned (position : Position) (pitches : Option PitchRange)
    (stretch : Option TimeRange) : Aims text opens (assigned position pitches stretch) := by
  unfold assigned
  refine (leads_ahead 0).bind fun keyword => ?_
  split
  · exact leads_expected _
  · refine aims_advance.bind fun _ => (leads_ahead 0).bind fun sign => ?_
    split
    · exact aims_valued position pitches stretch _ .set
    · exact aims_valued position pitches stretch _ .add
    · exact leads_expected _

lemma aims_assignment : Aims text opens assignment := by
  unfold assignment
  refine Leads.bind (J := fun _ => Closing text) (fun ts h => h) fun position => ?_
  refine aims_pitchLimit.bind fun pitches => ?_
  exact aims_stretchLimit.bind fun stretch => aims_assigned position pitches stretch

theorem aims_assignments (rounds : ℕ) : Aims text opens (assignments rounds) := by
  induction rounds with
  | zero => exact aims_pure _
  | succ rounds ih =>
    unfold assignments
    refine (leads_ahead 0).bind fun t => .ite (fun _ => aims_pure _) fun _ => ?_
    exact aims_assignment.bind fun assignment => ih.bind fun program => aims_pure _

end

end Parse

/-- What an error in a modulation text says is true of the text and its tokens. -/
theorem parse_points {text : List Char} {e : Error} (h : Program.parse text = .error e) :
    e.Points text (OpensComment Lexer.nextToken text) (ShowsToken text) := by
  unfold Program.parse at h
  cases htokens : tokenize text with
  | error error =>
    rw [htokens] at h
    cases h
    exact points_of_tokenize htokens
  | ok ts =>
    rw [htokens] at h
    have haims : Parse.Aims text (OpensComment Lexer.nextToken text) _ :=
      Parse.aims_assignments (ts.length + 1)
    exact haims.error_of_map (closing_of_tokenize htokens) h

end Barline.Modulation

namespace Barline

/-- **Pointing errors.** What an error in a score or in a modulation text says is true of the text:
the character that was found is the one at the position, the token that was found starts there, the
end of the input was found behind the last character or where a comment opens that never closes,
and a value that was refused stands inside of the text. -/
theorem errors_point (text : List Char) :
    (∀ e, Score.parse text = .error e →
      e.Points text (Scan.OpensComment Score.Reader.nextWord text) fun _ _ => False) ∧
    ∀ e, Modulation.Program.parse text = .error e →
      e.Points text (Scan.OpensComment Modulation.Lexer.nextToken text)
        (Modulation.ShowsToken text) :=
  ⟨fun _ h => Score.parse_points h, fun _ h => Modulation.parse_points h⟩

/-- A word that no score begins with, and an operand that is missing on the second line. -/
theorem errors_point_operand :
    Score.parse "velocity = 1 +\n )".toList = .error (.grammar ["velocity"] (.char 'e') ⟨1, 2⟩) ∧
      Modulation.Program.parse "velocity = 1 +\n )".toList =
        .error (.grammar Modulation.Parse.operandStarts (.token ")") ⟨2, 2⟩) ∧
      (∀ c, CharAt "velocity = 1 +\n )".toList ⟨1, 2⟩ c ↔ c = 'e') ∧
      Modulation.ShowsToken "velocity = 1 +\n )".toList ⟨2, 2⟩ ")" := by
  have hscore : Score.parse "velocity = 1 +\n )".toList =
      .error (.grammar ["velocity"] (.char 'e') ⟨1, 2⟩) := by decide +kernel
  have hmodulation : Modulation.Program.parse "velocity = 1 +\n )".toList =
      .error (.grammar Modulation.Parse.operandStarts (.token ")") ⟨2, 2⟩) := by rfl
  obtain ⟨hscores, hmodulations⟩ := errors_point "velocity = 1 +\n )".toList
  exact ⟨hscore, hmodulation, hscores _ hscore, hmodulations _ hmodulation⟩

end Barline
