import Barline.Proofs.Modulation.Relating
import Barline.Proofs.Text.Carrying

/-!
# Reading without positions

No parser looks at where its tokens stand. It carries positions into assignments and errors, and
everything else that it reads hangs on the tokens alone.
-/

namespace Barline

/-- The error without its position. -/
def Error.unplaced (e : Error) : Error := e.moved fun _ => .start

namespace Modulation

/-- What a program is read as, or why it is refused, without positions. -/
def Program.unplaced : Except Error Program → Except Error Program
  | .ok program => .ok (program.map (·.unplaced))
  | .error e => .error e.unplaced

/-- The tokens are the same but for where they stand. -/
def SameTokens (ts us : Tokens) : Prop := ts.map (·.value) = us.map (·.value)

namespace SameTokens

open Parse

variable {ts us : Tokens}

lemma refl (ts : Tokens) : SameTokens ts ts := rfl

lemma length (h : SameTokens ts us) : ts.length = us.length := by
  simpa using congrArg List.length h

lemma tokenAt (h : SameTokens ts us) (k : ℕ) : tokenAt ts k = tokenAt us k := by
  have hvalue (ts : Tokens) :
      Parse.tokenAt ts k = ((ts.map (·.value))[k]?).getD .finish := by
    rw [Parse.tokenAt, List.getElem?_map]
    cases ts[k]? <;> rfl
  rw [hvalue, hvalue, h]

lemma past (h : SameTokens ts us) : SameTokens (past ts) (past us) := by
  unfold Parse.past
  rw [h.tokenAt 0]
  split_ifs
  · exact h
  · unfold SameTokens at *
    rw [List.map_tail, List.map_tail, h]

end SameTokens

namespace Parse

section

variable {α β γ δ : Type} {V : α → β → Prop} {W : γ → δ → Prop} {ts us : Tokens}

/-- What two readers come to is the same but for positions. -/
inductive Agree (V : α → β → Prop) :
    Except Error (α × Tokens) → Except Error (β × Tokens) → Prop
  | ok {a : α} {b : β} {ts us : Tokens} (hV : V a b) (h : SameTokens ts us) :
    Agree V (.ok (a, ts)) (.ok (b, us))
  | error {e e' : Error} (h : e.unplaced = e'.unplaced) : Agree V (.error e) (.error e')

/-- From tokens that are the same but for where they stand, the readers come to the same. -/
def ReadAlike (V : α → β → Prop) (x : Parse α) (y : Parse β) : Prop :=
  ∀ ⦃ts us : Tokens⦄, SameTokens ts us → Agree V (x ts) (y us)

lemma ReadAlike.bind {x : Parse α} {y : Parse β} {f : α → Parse γ} {g : β → Parse δ}
    (hx : ReadAlike V x y) (hf : ∀ a b, V a b → ReadAlike W (f a) (g b)) :
    ReadAlike W (x >>= f) (y >>= g) := by
  intro ts us hts
  have hagree := hx hts
  change Agree W (x ts >>= fun r => f r.1 r.2) (y us >>= fun r => g r.1 r.2)
  revert hagree
  generalize x ts = r, y us = r'
  rintro (⟨hV, hmid⟩ | he)
  · exact hf _ _ hV hmid
  · exact .error he

/-- What one reader gives is related to itself. -/
lemma ReadAlike.holds {V : α → α → Prop} {x : Parse α} {a : α} (hx : ReadAlike V x x)
    (h : x ts = .ok (a, us)) : V a a := by
  have hagree := hx (SameTokens.refl ts)
  rw [h] at hagree
  cases hagree with
  | ok hV _ => exact hV

/-- Positions are carried along, whatever they are. -/
lemma relates_readAlike : Relates (fun _ _ => True) ReadAlike where
  pure h _ _ hts := .ok h hts
  bind := .bind
  ahead k _ _ hts := .ok (hts.tokenAt k) hts
  here _ _ hts := .ok trivial hts
  advance _ _ hts := .ok rfl hts.past
  left _ _ hts := .ok hts.length hts
  expected words ts us hts := by
    refine .error ?_
    rw [hts.tokenAt 0]
    rfl
  refuse _ _ _ _ _ _ _ := .error rfl

/-- Programs are the same but for positions where their tokens are. -/
theorem unplaced_program (h : SameTokens ts us) :
    Program.unplaced (program ts) = Program.unplaced (program us) := by
  have hagree := relates_readAlike.assignments (ts.length + 1) h
  unfold program
  rw [← h.length]
  change Program.unplaced ((assignments _ ts).map (·.1)) =
    Program.unplaced ((assignments _ us).map (·.1))
  revert hagree
  generalize assignments (ts.length + 1) ts = r, assignments (ts.length + 1) us = r'
  rintro (⟨hsame, -⟩ | he)
  · have hunplaced := hsame.imp fun _ _ h => h.unplaced
    rw [← List.forall₂_map_right_iff, ← List.forall₂_map_left_iff, List.forall₂_eq_eq_eq]
      at hunplaced
    exact congrArg Except.ok hunplaced
  · exact congrArg Except.error he

end

end Parse

end Modulation

end Barline
