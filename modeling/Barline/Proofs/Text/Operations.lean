import Barline.Proofs.Text.Carrying
import Barline.Proofs.Text.Pointing

/-!
# Cursors that go back to marks

A text is read by a few operations on a cursor, some of which move it by many characters and one of
which moves it back to a mark. Whatever their order, the cursor stays in the text, and its position
counts the lines and the characters that lie in front of it.
-/

namespace Barline

/-- The cursor stands in the text, on the line and in the column that the text in front of it
gives. -/
def Cursor.Exact (text : List Char) (c : Cursor) : Prop :=
  ∃ n ≤ text.length, c.rest = text.drop n ∧ c.position.line = 1 + (text.take n).count '\n' ∧
    c.position.column = 1 + ((text.take n).rtakeWhile (· ≠ '\n')).length

lemma Cursor.Within.exact {text : List Char} {n : ℕ} {c : Cursor} (h : c.Within text n) :
    c.Exact text := by
  obtain ⟨before, htext, hposition⟩ := h.place
  refine ⟨before.length, ?_, ?_⟩
  · rw [htext, List.length_append]
    exact Nat.le_add_right _ _
  · rw [hposition, htext, List.drop_left, List.take_left]
    exact ⟨rfl, Nat.add_comm _ _, Nat.add_comm _ _⟩

/-- Skipping moves a cursor also where it comes upon a comment that is never closed. -/
lemma Region.exists_skip_cursor (region : Region) (t : List Char) (p : Position) :
    ∃ k, (region.skip t p).cursor = Cursor.advanceBy ⟨t, p⟩ k := by
  induction t generalizing region p with
  | nil => exact ⟨0, by cases region <;> rfl⟩
  | cons x t ih =>
    have step (next : Region) :
        ∃ k, (next.skip t (p.past x)).cursor = Cursor.advanceBy ⟨x :: t, p⟩ k := by
      obtain ⟨k, hk⟩ := ih next (p.past x)
      exact ⟨k + 1, hk⟩
    cases region <;> rw [Region.skip]
    case plain =>
      split_ifs
      · exact step _
      · exact step _
      · exact step _
      · exact ⟨0, rfl⟩
    case line => split_ifs <;> exact step _
    case opening began => exact step _
    case block began => split_ifs <;> exact step _
    case closing => exact step _

/-- A cursor and the marks that were taken, from the first one on. -/
structure Marked where
  cursor : Cursor
  marks : List Cursor
deriving DecidableEq

namespace Marked

def start (text : List Char) : Marked := ⟨.start text, []⟩

/-- What a scan reads at the cursor, unless it refuses. -/
def read {α : Type} (s : Marked) (x : Scan α) : Option (α × Marked) :=
  (x s.cursor).toOption.map fun r => (r.1, { s with cursor := r.2 })

/-- The cursor and the marks stand in a text. -/
structure Within (text : List Char) (s : Marked) : Prop where
  cursor : s.cursor.Within text text.length
  marks : ∀ m ∈ s.marks, m.Within text text.length

lemma within_start (text : List Char) : (Marked.start text).Within text :=
  ⟨.start text, List.forall_mem_nil _⟩

lemma read_eq_some_iff {α : Type} {s s' : Marked} {x : Scan α} {a : α} :
    s.read x = some (a, s') ↔ ∃ c, x s.cursor = .ok (a, c) ∧ s' = { s with cursor := c } := by
  unfold read
  cases x s.cursor with
  | error e => simp [Except.toOption]
  | ok r =>
    simp only [Except.toOption, Option.map_some, Option.some_inj, Except.ok.injEq, Prod.ext_iff]
    constructor
    · rintro ⟨rfl, rfl⟩
      exact ⟨r.2, ⟨rfl, rfl⟩, rfl⟩
    · rintro ⟨c, ⟨rfl, rfl⟩, rfl⟩
      exact ⟨rfl, rfl⟩

lemma Within.read {α : Type} {text : List Char} {s s' : Marked} {x : Scan α} {a : α}
    (h : s.Within text) (hx : Scan.Aims text (fun _ => False) (fun _ _ => False) text.length x)
    (hread : s.read x = some (a, s')) : s'.Within text := by
  obtain ⟨c, hc, rfl⟩ := read_eq_some_iff.mp hread
  have hcursor := hx s.cursor h.cursor
  rw [hc] at hcursor
  exact ⟨hcursor, h.marks⟩

end Marked

/-- What is done to a cursor while a text is read. -/
inductive Operation where
  | advance
  | eat (x : Char)
  | eatWord (word : List Char)
  | digits
  | skipTrivia
  | mark
  /-- Back to one of the marks that were taken. -/
  | reset (index : ℕ)

namespace Operation

open Scan

/-- Performs an operation, and tells whether it found what it looked for. Only a mark that was taken
can be gone back to. -/
def perform (s : Marked) : Operation → Option (Bool × Marked)
  | advance => s.read do
    let more ← look (!·.atEnd)
    move Cursor.advance
    return more
  | eat x => s.read (Scan.eat x)
  | eatWord word => s.read (Scan.eatWord word)
  | digits => s.read do return !(← Scan.digits).isEmpty
  | skipTrivia =>
    let skip := s.cursor.skipTrivia
    some (skip.unclosed.isNone, { s with cursor := skip.cursor })
  | mark => (s.read get).map fun r => (true, { r.2 with marks := r.2.marks ++ [r.1] })
  | reset index => s.marks[index]?.bind fun m => s.read do
    set m
    return true

/-- Performs operations one after another. -/
def performAll (s : Marked) : List Operation → Option Marked
  | [] => some s
  | op :: ops => (op.perform s).bind fun r => performAll r.2 ops

section

variable {text : List Char} {s s' : Marked} {found : Bool}

/-- Every operation leaves the cursor and the marks in the text. -/
theorem within_perform (h : s.Within text) {op : Operation}
    (hop : op.perform s = some (found, s')) : s'.Within text := by
  cases op with
  | advance =>
    refine h.read ((leads_look _).bind fun more => ?_) hop
    exact aims_advance.bind fun _ => aims_pure more
  | eat x => exact h.read (aims_eat x) hop
  | eatWord word => exact h.read (aims_eatWord word) hop
  | digits => exact h.read (aims_digits.bind fun ds => aims_pure _) hop
  | skipTrivia =>
    obtain ⟨-, rfl⟩ := Prod.mk.inj (Option.some.inj hop)
    obtain ⟨k, hk⟩ := Region.plain.exists_skip_cursor s.cursor.rest s.cursor.position
    have hskip : s.cursor.skipTrivia.cursor = s.cursor.advanceBy k := hk
    rw [hskip]
    exact ⟨h.cursor.advanceBy k, h.marks⟩
  | mark =>
    obtain ⟨-, rfl⟩ := Prod.mk.inj (Option.some.inj hop)
    exact ⟨h.cursor, List.forall_mem_append.mpr ⟨h.marks, List.forall_mem_singleton.mpr h.cursor⟩⟩
  | reset index =>
    obtain ⟨m, hm, hread⟩ := Option.bind_eq_some_iff.mp hop
    have hmark := h.marks m (List.mem_of_getElem? hm)
    exact h.read ((aims_set hmark).bind fun _ => aims_pure true) hread

theorem within_performAll {ops : List Operation} (h : s.Within text)
    (hops : performAll s ops = some s') : s'.Within text := by
  induction ops generalizing s with
  | nil =>
    obtain rfl := Option.some.inj hops
    exact h
  | cons op ops ih =>
    obtain ⟨⟨found, mid⟩, hop, hrest⟩ := Option.bind_eq_some_iff.mp hops
    exact ih (within_perform h hop) hrest

end

section

variable {s s' : Marked}

lemma eq_of_eat_failed {x : Char} (h : (eat x).perform s = some (false, s')) : s' = s := by
  obtain ⟨c, hc, rfl⟩ := Marked.read_eq_some_iff.mp h
  by_cases hpeek : s.cursor.peek = some x
  · rw [eat_of_peek hpeek] at hc
    cases hc
  · rw [eat_of_peek_ne hpeek] at hc
    cases hc
    rfl

lemma eq_of_eatWord_failed {word : List Char} (h : (eatWord word).perform s = some (false, s')) :
    s' = s := by
  obtain ⟨c, hc, rfl⟩ := Marked.read_eq_some_iff.mp h
  unfold Scan.eatWord Cursor.eatWord? at hc
  split_ifs at hc with hword
  · cases hc
  · cases hc
    rfl

/-- Nothing is refused but a mark that was not taken. -/
lemma isSome_perform {op : Operation} (h : ∀ index, op = .reset index → index < s.marks.length) :
    (op.perform s).isSome := by
  have hread {α : Type} {x : Scan α} {a : α} {c : Cursor} (hx : x s.cursor = .ok (a, c)) :
      (s.read x).isSome := by
    rw [Marked.read_eq_some_iff.mpr ⟨c, hx, rfl⟩]
    rfl
  cases op with
  | advance => exact hread rfl
  | eat x =>
    by_cases hpeek : s.cursor.peek = some x
    · exact hread (eat_of_peek hpeek)
    · exact hread (eat_of_peek_ne hpeek)
  | eatWord word =>
    obtain ⟨found, c, hc⟩ : ∃ found c, Scan.eatWord word s.cursor = .ok (found, c) := by
      unfold Scan.eatWord
      split
      · exact ⟨true, _, rfl⟩
      · exact ⟨false, _, rfl⟩
    exact hread hc
  | digits => exact hread rfl
  | skipTrivia => rfl
  | mark => rfl
  | reset index =>
    change (s.marks[index]?.bind _).isSome
    rw [List.getElem?_eq_getElem (h index rfl)]
    rfl

end

/-- **Exact positions.** Whatever is done to the cursor of a text, the cursor stays in the text, and
its line and its column are those of the text in front of it. So do the marks. To fail to find a
character or a word leaves all as it was, and nothing that is done next is refused but to go back to
a mark that was not taken. -/
theorem performAll_exact {text : List Char} {ops : List Operation} {s : Marked}
    (h : performAll (.start text) ops = some s) :
    s.cursor.Exact text ∧ (∀ m ∈ s.marks, m.Exact text) ∧
      (∀ x s', (eat x).perform s = some (false, s') → s' = s) ∧
      (∀ word s', (eatWord word).perform s = some (false, s') → s' = s) ∧
      ∀ op : Operation, (∀ index, op = .reset index → index < s.marks.length) →
        (op.perform s).isSome := by
  have hwithin := within_performAll (Marked.within_start text) h
  exact ⟨hwithin.cursor.exact, fun m hm => (hwithin.marks m hm).exact,
    fun _ _ => eq_of_eat_failed, fun _ _ => eq_of_eatWord_failed, fun _ => isSome_perform⟩

/-- Over a comment and a newline, back to a mark in the first line, and over a word from there. -/
theorem performAll_exact_back :
    let text := "12 /* */
34".toList
    let ops : List Operation := [.digits, .mark, .skipTrivia, .digits, .eat 'x', .reset 0,
      .eatWord " /".toList]
    ∃ s : Marked, performAll (.start text) ops = some s ∧
      s.cursor = ⟨"* */
34".toList, ⟨1, 5⟩⟩ ∧ s.cursor.Exact text := by
  intro text ops
  have hops : performAll (.start text) ops =
      some ⟨⟨"* */
34".toList, ⟨1, 5⟩⟩, [⟨" /* */
34".toList, ⟨1, 3⟩⟩]⟩ := by decide
  exact ⟨_, hops, rfl, (performAll_exact hops).1⟩

end Operation

end Barline
