import Barline.Proofs.Score.Spelling

/-!
# Words with blanks between them

A text of words with a blank between each two is read word by word.
-/

namespace Barline.Score

open Scan Reader

/-- A text is made of words with one blank between each two. -/
inductive Spaced : List (List Char) → List Char → Prop
  | nil : Spaced [] []
  | single (w : List Char) : Spaced [w] w
  | cons (w : List Char) {b : Char} (hb : isBlank b) {v : List Char} {ws : List (List Char)}
    {t : List Char} : Spaced (v :: ws) t → Spaced (w :: v :: ws) (w ++ b :: t)

/-- Trivia ends before this text. -/
def Stops (t : List Char) : Prop := ∀ c ∈ t.head?, isBlank c = false ∧ c ≠ '#' ∧ c ≠ '/'

lemma Begins.stops {w : List Char} (h : Begins w) (s : List Char) : Stops (w ++ s) := by
  obtain ⟨c, rest, rfl, hc⟩ := h
  intro d hd
  obtain rfl : c = d := by simpa using hd
  exact hc

lemma skip_blanks {pre t : List Char} (hpre : ∀ c ∈ pre, isBlank c) (ht : Stops t) (p : Position) :
    ∃ p', Region.plain.skip (pre ++ t) p = ⟨⟨t, p'⟩, none⟩ := by
  induction pre generalizing p with
  | nil =>
    refine ⟨p, ?_⟩
    cases t with
    | nil => rfl
    | cons c t =>
      obtain ⟨hblank, hhash, hslash⟩ := ht c (by simp)
      simp [Region.skip, hblank, hhash, hslash]
  | cons c pre ih =>
    obtain ⟨p', hp'⟩ := ih (fun d hd => hpre d (by simp [hd])) (p.past c)
    refine ⟨p', ?_⟩
    rw [List.cons_append, Region.skip, if_pos (hpre c (by simp)), hp']

lemma takes_skipTrivia {pre s : List Char} (hpre : ∀ c ∈ pre, isBlank c) (hs : Stops s) :
    Takes skipTrivia pre s fun _ => True := by
  intro p
  obtain ⟨p', hp'⟩ := skip_blanks hpre hs p
  refine ⟨(), p', ?_, trivial⟩
  have hskip : Cursor.skipTrivia ⟨pre ++ s, p⟩ = ⟨⟨s, p'⟩, none⟩ := hp'
  simp [skipTrivia, hskip]

section

variable {pre w s : List Char}

lemma takes_nextWord (hpre : ∀ c ∈ pre, isBlank c) {e : Element} (hw : Reads w e) (hs : Ends s) :
    Takes nextWord (pre ++ w) s fun o => ∃ es, o = some es ∧ es.map (·.value) = [e] := by
  unfold nextWord
  refine (takes_skipTrivia hpre (hw.begins.stops s)).bind fun _ _ => ?_
  have hend (p : Position) : Cursor.atEnd ⟨w ++ s, p⟩ = false := by
    obtain ⟨c, rest, rfl, -⟩ := hw.begins
    rfl
  refine (takes_look hend).bind_nil ?_
  rintro _ rfl
  refine Takes.mono (P := fun o => ∃ es, o = some es ∧ es.map (·.value) = [e]) ?_ fun _ h => h
  rw [← List.append_nil w]
  refine Takes.bind (hw.takes _ hs) fun es hes => ?_
  exact takes_pure ⟨es, rfl, hes⟩

lemma takes_nextWord_end (hpre : ∀ c ∈ pre, isBlank c) : Takes nextWord pre [] (· = none) := by
  unfold nextWord
  rw [← List.append_nil pre]
  refine Takes.bind (takes_skipTrivia hpre (by simp [Stops])) fun _ _ => ?_
  refine (takes_look (a := true) fun p => rfl).bind_nil ?_
  rintro _ rfl
  exact takes_pure rfl

lemma refuses_nextWord (hpre : ∀ c ∈ pre, isBlank c) (hw : Unreadable w) (hs : Ends s) :
    Refuses nextWord (pre ++ (w ++ s)) := by
  unfold nextWord
  refine (takes_skipTrivia hpre (hw.begins.stops s)).bind_refuses fun _ _ => ?_
  have hend (p : Position) : Cursor.atEnd ⟨w ++ s, p⟩ = false := by
    obtain ⟨c, rest, rfl, -⟩ := hw.begins
    rfl
  refine (takes_look hend).bind_nil_refuses ?_
  rintro _ rfl
  exact (hw.refuses s hs).bind _

end

section

variable {α : Type} {step : Scan (Option α)} {w v s t : List Char} {n : ℕ}

lemma takes_many_some {P : α → Prop} {Q : List α → Prop}
    (hstep : Takes step w (v ++ s) fun o => ∃ a, o = some a ∧ P a)
    (hrest : ∀ a, P a → Takes (many step n) v s fun r => Q (a :: r)) :
    Takes (many step (n + 1)) (w ++ v) s Q := by
  unfold many
  refine hstep.bind ?_
  rintro _ ⟨a, rfl, ha⟩
  rw [← List.append_nil v]
  exact Takes.bind (by simpa using hrest a ha) fun r hr => takes_pure hr

lemma takes_many_none {Q : List α → Prop} (hstep : Takes step w s (· = none)) (hQ : Q []) :
    Takes (many step (n + 1)) w s Q := by
  unfold many
  rw [← List.append_nil w]
  refine Takes.bind (by simpa using hstep) ?_
  rintro _ rfl
  exact takes_pure hQ

lemma refuses_many (hstep : Refuses step t) : Refuses (many step (n + 1)) t := by
  unfold many
  exact hstep.bind _

lemma refuses_many_some {P : α → Prop} (hstep : Takes step w t fun o => ∃ a, o = some a ∧ P a)
    (hrest : Refuses (many step n) t) : Refuses (many step (n + 1)) (w ++ t) := by
  unfold many
  refine hstep.bind_refuses ?_
  rintro _ ⟨a, rfl, -⟩
  exact hrest.bind _

end

/-- Words that can all be read are read in order. -/
theorem takes_many_nextWord {ws : List (List Char)} {t : List Char} (h : Spaced ws t)
    {es : List Element} (hes : List.Forall₂ Reads ws es) {n : ℕ} (hn : ws.length < n)
    {pre : List Char} (hpre : ∀ c ∈ pre, isBlank c) :
    Takes (many nextWord n) (pre ++ t) [] fun r => r.flatten.map (·.value) = es := by
  induction h generalizing es n pre with
  | nil =>
    cases hes
    obtain ⟨n, rfl⟩ : ∃ k, n = k + 1 := ⟨n - 1, by omega⟩
    rw [List.append_nil]
    exact takes_many_none (takes_nextWord_end hpre) rfl
  | single w =>
    rcases hes with _ | ⟨hw, ⟨⟩⟩
    obtain ⟨n, rfl⟩ : ∃ k, n = k + 2 := ⟨n - 2, by simp at hn; omega⟩
    rw [← List.append_nil w, ← List.append_assoc]
    refine takes_many_some (takes_nextWord hpre hw ends_nil) fun es hes => ?_
    exact takes_many_none (takes_nextWord_end (by simp)) (by simpa using hes)
  | @cons w b hb v ws t h ih =>
    rcases hes with _ | ⟨hw, hes⟩
    obtain ⟨n, rfl⟩ : ∃ k, n = k + 1 := ⟨n - 1, by omega⟩
    rw [← List.append_assoc]
    refine takes_many_some (takes_nextWord hpre hw (ends_cons hb _)) fun es hes' => ?_
    have hblank : ∀ c ∈ [b], isBlank c := by simpa using hb
    refine (ih hes (by simpa using hn) hblank).mono fun r hr => ?_
    rw [List.flatten_cons, List.map_append, hes', hr]
    rfl

/-- One word that cannot be read is enough to refuse a text. -/
theorem refuses_many_nextWord {ws : List (List Char)} {t : List Char} (h : Spaced ws t)
    (hws : ∀ w ∈ ws, Unreadable w ∨ ∃ e, Reads w e) (hbad : ∃ w ∈ ws, Unreadable w) {n : ℕ}
    (hn : ws.length < n) {pre : List Char} (hpre : ∀ c ∈ pre, isBlank c) :
    Refuses (many nextWord n) (pre ++ t) := by
  induction h generalizing n pre with
  | nil => simp at hbad
  | single w =>
    obtain ⟨n, rfl⟩ : ∃ k, n = k + 1 := ⟨n - 1, by omega⟩
    have hw : Unreadable w := by simpa using hbad
    rw [← List.append_nil w]
    exact refuses_many (refuses_nextWord hpre hw ends_nil)
  | @cons w b hb v ws t h ih =>
    obtain ⟨n, rfl⟩ : ∃ k, n = k + 1 := ⟨n - 1, by omega⟩
    rcases hws w (by simp) with hw | ⟨e, hw⟩
    · exact refuses_many (refuses_nextWord hpre hw (ends_cons hb _))
    · have hrest : ∃ u ∈ v :: ws, Unreadable u := by
        obtain ⟨u, hu, hbad⟩ := hbad
        rcases List.mem_cons.mp hu with rfl | hu
        · exact (hw.not_unreadable hbad).elim
        · exact ⟨u, hu, hbad⟩
      rw [← List.append_assoc]
      refine refuses_many_some (takes_nextWord hpre hw (ends_cons hb _)) ?_
      have hblank : ∀ c ∈ [b], isBlank c := by simpa using hb
      exact ih (fun u hu => hws u (by simp [List.mem_cons.mp hu])) hrest (by simpa using hn) hblank

lemma Spaced.length_le {ws : List (List Char)} {t : List Char} (h : Spaced ws t)
    (hne : ∀ w ∈ ws, w ≠ []) : ws.length ≤ t.length := by
  induction h with
  | nil => simp
  | single w =>
    have := List.length_pos_iff.mpr (hne w (by simp))
    simp only [List.length_singleton]
    omega
  | @cons w b hb v ws t h ih =>
    have := ih fun u hu => hne u (by simp [List.mem_cons.mp hu])
    simp only [List.length_cons, List.length_append] at this ⊢
    omega

lemma begins_of_reads {ws : List (List Char)} {es : List Element} (h : List.Forall₂ Reads ws es) :
    ∀ w ∈ ws, Begins w := by
  induction h with
  | nil => simp
  | cons hw _ ih => simpa using ⟨hw.begins, ih⟩

lemma elements_many (c : Cursor) : elements c =
    (many nextWord (c.rest.length + 1) c).map fun r => (r.1.flatten, r.2) := by
  have helements : elements c = (many nextWord (c.rest.length + 1) >>= fun r =>
      pure r.flatten : Scan Elements) c := rfl
  rw [helements, bind_apply]
  rcases many nextWord (c.rest.length + 1) c with e | ⟨r, c'⟩ <;> rfl

lemma elements_apply (text : List Char) :
    parse text = ((many nextWord (text.length + 1)) ⟨text ++ [], .start⟩).map (·.1.flatten) := by
  have hparse : parse text = (elements (.start text)).map (·.1) := rfl
  rw [hparse, elements_many, List.append_nil]
  unfold Cursor.start
  rcases many nextWord (text.length + 1) ⟨text, .start⟩ with e | ⟨r, c⟩ <;> rfl

/-- A text of readable words is read as their elements. -/
theorem parse_spaced {ws : List (List Char)} {t : List Char} (h : Spaced ws t) {es : List Element}
    (hes : List.Forall₂ Reads ws es) :
    ∃ elements, parse t = .ok elements ∧ elements.map (·.value) = es := by
  have hlen : ws.length < t.length + 1 :=
    Nat.lt_succ_of_le <| h.length_le fun w hw => (begins_of_reads hes w hw).ne_nil
  obtain ⟨r, p, hr, hvalue⟩ := takes_many_nextWord h hes hlen (List.forall_mem_nil _) .start
  refine ⟨r.flatten, ?_, hvalue⟩
  rw [List.nil_append] at hr
  rw [elements_apply, hr]
  rfl

/-- A text with a word that cannot be read is refused. -/
theorem parse_spaced_error {ws : List (List Char)} {t : List Char} (h : Spaced ws t)
    (hws : ∀ w ∈ ws, Unreadable w ∨ ∃ e, Reads w e) (hbad : ∃ w ∈ ws, Unreadable w) :
    ∃ e, parse t = .error e := by
  have hlen : ws.length < t.length + 1 := Nat.lt_succ_of_le <| h.length_le fun w hw => by
    rcases hws w hw with hw | ⟨e, hw⟩
    · exact hw.begins.ne_nil
    · exact hw.begins.ne_nil
  obtain ⟨e, he⟩ := refuses_many_nextWord h hws hbad hlen (List.forall_mem_nil _) .start
  refine ⟨e, ?_⟩
  rw [elements_apply, List.append_nil]
  rw [List.nil_append] at he
  rw [he]
  rfl

end Barline.Score
