import Barline.Proofs.Score.Lines
import Barline.Proofs.Score.Performing

/-!
# What a copy adds and takes away

A copy places notes again, deletions among them. A deletion that is placed again and finds no note
among those of the copy takes one that was there before.
-/

namespace Barline.Score

/-- The notes of one bar, moved to another. -/
def copied (perBar : Float) (h : History) (pair : UInt32 × UInt32) : List Note :=
  if pair.1 = pair.2 then []
  else (h.notes pair.1).map fun n =>
    { n with start := n.start + (Meter.barStart pair.2 perBar - Meter.barStart pair.1 perBar) }

/-- A history with more notes. -/
def recordAll (perBar : Float) (h : History) (notes : List Note) : History :=
  notes.foldl (fun h n => h.record (Meter.barBeat n.start perBar).1 n) h

/-- The notes that copies place, given the history before them. Each copy sees those before it. -/
def replayed (perBar : Float) (h : History) : List (UInt32 × UInt32) → List Note
  | [] => []
  | pair :: pairs => copied perBar h pair ++
      replayed perBar (recordAll perBar h (copied perBar h pair)) pairs

section

variable {perBar : Float} {position : Position}

lemma foldl_emit_history (s : State) (notes : List Note) :
    (notes.foldl (State.emit perBar) s).history = recordAll perBar s.history notes := by
  induction notes generalizing s with
  | nil => rfl
  | cons n notes ih => exact ih (State.emit perBar s n)

lemma copyBar_eq (perBar : Float) (position : Position) (s : State) (pair : UInt32 × UInt32) :
    (s.copyBar perBar position pair).events.toList =
        s.events.toList ++ copied perBar s.history pair ∧
      (s.copyBar perBar position pair).history =
        recordAll perBar s.history (copied perBar s.history pair) := by
  obtain ⟨source, destination⟩ := pair
  unfold State.copyBar copied
  dsimp only
  split_ifs with hself hempty
  · exact ⟨by simp, rfl⟩
  · rw [List.isEmpty_iff] at hempty
    rw [hempty]
    exact ⟨by simp, rfl⟩
  · exact ⟨(State.foldl_emit _ perBar _).2.2.2, foldl_emit_history _ _⟩

lemma foldl_copyBar_events (s : State) (pairs : List (UInt32 × UInt32)) :
    (pairs.foldl (State.copyBar perBar position) s).events.toList =
      s.events.toList ++ replayed perBar s.history pairs := by
  induction pairs generalizing s with
  | nil => simp [replayed]
  | cons pair pairs ih =>
    obtain ⟨hevents, hhistory⟩ := copyBar_eq perBar position s pair
    rw [List.foldl_cons, ih, hevents, hhistory, replayed, List.append_assoc]

lemma dropPitches_eq (s : State) (position : Position) :
    (s.dropPitches position).events = s.events ∧ (s.dropPitches position).history = s.history := by
  unfold State.dropPitches
  split <;> exact ⟨rfl, rfl⟩

lemma copyPairs_position {destination : Bars} {source : Source} {pairs : List (UInt32 × UInt32)}
    (h : copyPairs destination source position = .ok pairs) (position' : Position) :
    copyPairs destination source position' = .ok pairs := by
  unfold copyPairs at h ⊢
  split at h
  · split_ifs at h ⊢
    exact h
  · exact h
  · split_ifs at h ⊢
    exact h
  · exact h

lemma copy_eq_ok {s s' : State} {destination : Bars} {source : Source}
    (h : s.copy perBar destination source position = .ok s') :
    ∃ pairs, copyPairs destination source position = .ok pairs ∧
      s'.events.toList = s.events.toList ++ replayed perBar s.history pairs := by
  unfold State.copy at h
  cases hpairs : copyPairs destination source position with
  | error e =>
    rw [hpairs] at h
    cases h
  | ok pairs =>
    rw [hpairs] at h
    refine ⟨pairs, rfl, ?_⟩
    obtain ⟨hevents, hhistory⟩ := dropPitches_eq s position
    rw [← Except.ok.inj h, foldl_copyBar_events, hevents, hhistory]

end

section

variable {window : Float}

/-- Lets a deletion take the latest note that it finds. -/
def strike (window : Float) (kept : List Note) (v : Note) : List Note :=
  kept.eraseP (deletes window v)

/-- A further note, if it is a deletion that finds nothing to delete in the fresh ones. -/
def stray (window : Float) (fresh : List Note) (e : Note) : List Note :=
  if e.velocity == 0.0 && !fresh.any (deletes window e) then [e] else []

/-- The deletions among further notes that find nothing to delete in the fresh ones. -/
def strays (window : Float) : List Note → List Note → List Note
  | _, [] => []
  | fresh, e :: es => stray window fresh e ++ strays window (keep window fresh e) es

/-- The notes that deletions take. -/
def struck (window : Float) : List Note → List Note → List Note
  | _, [] => []
  | kept, v :: vs =>
    (kept.find? (deletes window v)).toList ++ struck window (strike window kept v) vs

lemma keep_append (fresh kept : List Note) (e : Note) :
    keep window (fresh ++ kept) e =
      keep window fresh e ++ (stray window fresh e).foldl (strike window) kept := by
  unfold keep stray
  cases hzero : e.velocity == 0.0 with
  | false => simp
  | true =>
    rw [if_pos rfl, if_pos rfl, List.eraseP_append]
    cases hfresh : fresh.any (deletes window e) with
    | true => simp
    | false =>
      have hself : fresh.eraseP (deletes window e) = fresh := by
        rw [List.any_eq_false] at hfresh
        exact List.eraseP_of_forall_not hfresh
      simp [hself, strike]

/-- Further notes leave those kept before alone, but for their stray deletions. -/
theorem foldl_keep_append (fresh kept es : List Note) :
    es.foldl (keep window) (fresh ++ kept) = es.foldl (keep window) fresh ++
      (strays window fresh es).foldl (strike window) kept := by
  induction es generalizing fresh kept with
  | nil => simp [strays]
  | cons e es ih =>
    rw [List.foldl_cons, List.foldl_cons, keep_append, ih, strays, List.foldl_append]

lemma perm_find_eraseP {α : Type} (p : α → Bool) (l : List α) :
    l.Perm ((l.find? p).toList ++ l.eraseP p) := by
  induction l with
  | nil => exact .nil
  | cons a l ih =>
    cases ha : p a with
    | true => simp [ha]
    | false =>
      rw [List.find?_cons_of_neg (by simp [ha]), List.eraseP_cons_of_neg (by simp [ha])]
      exact (ih.cons a).trans List.perm_middle.symm

lemma perm_struck (window : Float) (kept vs : List Note) :
    kept.Perm (struck window kept vs ++ vs.foldl (strike window) kept) := by
  induction vs generalizing kept with
  | nil => simp [struck]
  | cons v vs ih =>
    rw [struck, List.foldl_cons, List.append_assoc]
    exact (perm_find_eraseP _ kept).trans ((ih _).append_left _)

/-- Further notes take nothing away exactly if what their stray deletions take comes back among
them. -/
theorem count_applyDeletions_iff (events further : List Note) :
    (∀ e, (applyDeletions window events).count e ≤
        (applyDeletions window (events ++ further)).count e) ↔
      ∀ e, (struck window (events.foldl (keep window) []) (strays window [] further)).count e ≤
        (applyDeletions window further).count e := by
  refine forall_congr' fun e => ?_
  have hbefore := (perm_struck window (events.foldl (keep window) [])
    (strays window [] further)).count_eq e
  unfold applyDeletions
  rw [List.foldl_append, ← List.nil_append (events.foldl (keep window) []), foldl_keep_append,
    List.nil_append]
  rw [List.count_append] at hbefore
  rw [List.count_reverse, List.count_reverse, List.count_reverse, List.count_append]
  omega

lemma strays_eq_nil {fresh es : List Note} (h : ∀ e ∈ es, (e.velocity == 0.0) = false) :
    strays window fresh es = [] := by
  induction es generalizing fresh with
  | nil => rfl
  | cons e es ih =>
    rw [strays, stray, h e (by simp), ih fun d hd => h d (by simp [hd])]
    simp

/-- Further notes without a deletion take nothing away. -/
lemma count_applyDeletions_le {events further : List Note}
    (h : ∀ e ∈ further, (e.velocity == 0.0) = false) (e : Note) :
    (applyDeletions window events).count e ≤
      (applyDeletions window (events ++ further)).count e := by
  refine (count_applyDeletions_iff events further).mpr (fun e => ?_) e
  rw [strays_eq_nil h]
  exact Nat.zero_le _

end

/-- The state that a text is performed to. -/
def Performer.reach (p : Performer) (text : List Char) : Except Error State := do
  (← parse text).foldlM p.step .initial

/-- The notes of a state that are left after the deletions, in quarter notes, the latest first. -/
def Performer.kept (p : Performer) (s : State) : List Note :=
  (s.events.toList.map p.inQuarters).foldl (keep p.settings.deletionWindow) []

/-- The notes that a copy places from a state, in quarter notes. -/
def Performer.replay (p : Performer) (s : State) (pairs : List (UInt32 × UInt32)) : List Note :=
  (replayed p.signature.beatsPerBar s.history pairs).map p.inQuarters

lemma count_arrange (p : Performer) (events : List Note) (e : Note) :
    (p.arrange events).count e =
      (applyDeletions p.settings.deletionWindow (events.map p.inQuarters)).count e :=
  (List.mergeSort_perm _ _).count_eq e

/-- With one more line that is a copy, what the copy places comes after the notes of the text. -/
lemma run_line {p : Performer} {text line : List Char} {destination : Bars} {source : Source}
    {position : Position} {elements : Elements} {s : State} {after : Performance}
    (hline : parse line = .ok [⟨.copy destination source, position⟩])
    (hparse : parse text = .ok elements) (hs : elements.foldlM p.step .initial = .ok s)
    (hafter : p.run (text ++ '\n' :: line) = .ok after) :
    ∃ pairs, copyPairs destination source position = .ok pairs ∧
      after.events =
        p.arrange (s.events.toList ++ replayed p.signature.beatsPerBar s.history pairs) := by
  obtain ⟨elements', s', hparse', hs', hevents'⟩ := run_eq_ok hafter
  obtain ⟨lines, hlines⟩ := parse_line hparse
  have hsplit := hlines line
  rw [hline, hparse'] at hsplit
  obtain rfl := Except.ok.inj hsplit
  rw [List.foldlM_append, hs] at hs'
  have hcopy :
      s.copy p.signature.beatsPerBar destination source (down lines position) = .ok s' := by
    change (s.copy p.signature.beatsPerBar destination source (down lines position) >>= pure) = _
      at hs'
    rwa [bind_pure] at hs'
  obtain ⟨pairs, hpairs, hadded⟩ := copy_eq_ok hcopy
  exact ⟨pairs, copyPairs_position hpairs position, by rw [hevents', hadded]⟩

/-- **What a copy takes away.** With one more line that is a copy, no note of a score gets lost
exactly if the notes that stray deletions of the copy take come back among its own notes, and in
particular if the copy places no deletion. -/
theorem compile_copy_iff {timing : Timing} {settings : Settings} {text line : List Char}
    {destination : Bars} {source : Source} {position : Position} {before after : Performance}
    (hline : parse line = .ok [⟨.copy destination source, position⟩])
    (hbefore : compile timing settings text = .ok before)
    (hafter : compile timing settings (text ++ '\n' :: line) = .ok after) :
    ∃ p s pairs, Performer.make timing settings = .ok p ∧ p.reach text = .ok s ∧
      copyPairs destination source position = .ok pairs ∧
      ((∀ e, before.events.count e ≤ after.events.count e) ↔
        ∀ e, (struck settings.deletionWindow (p.kept s)
            (strays settings.deletionWindow [] (p.replay s pairs))).count e ≤
          (applyDeletions settings.deletionWindow (p.replay s pairs)).count e) ∧
      ((∀ e ∈ p.replay s pairs, (e.velocity == 0.0) = false) →
        ∀ e, before.events.count e ≤ after.events.count e) := by
  obtain ⟨signature, hsignature, hrun⟩ := compile_eq_ok hbefore
  rw [compile_of_resolve hsignature] at hafter
  obtain ⟨elements, s, hparse, hs, hevents⟩ := run_eq_ok hrun
  obtain ⟨pairs, hpairs, hevents'⟩ := run_line hline hparse hs hafter
  refine ⟨⟨signature, settings⟩, s, pairs, ?_, ?_, hpairs, ?_, fun hnone e => ?_⟩
  · unfold Performer.make
    rw [hsignature]
    rfl
  · unfold Performer.reach
    rw [hparse]
    exact hs
  · simp only [hevents, hevents', count_arrange, List.map_append]
    exact count_applyDeletions_iff _ _
  · rw [hevents, hevents', count_arrange, count_arrange, List.map_append]
    exact count_applyDeletions_le hnone e

/-- A copy onto a bar that already holds a note. -/
theorem compile_copy_iff_merge :
    let text := "C1 1|1 D1 2|1".toList
    let line := "@2=1".toList
    ∃ before after, parse line = .ok [⟨.copy (.single 2) (.bars (.single 1)), .start⟩] ∧
      compile .unstated .usual text = .ok before ∧
      compile .unstated .usual (text ++ '\n' :: line) = .ok after ∧
      ∃ p s pairs, Performer.make .unstated .usual = .ok p ∧ p.reach text = .ok s ∧
        copyPairs (.single 2) (.bars (.single 1)) .start = .ok pairs ∧
        ((∀ e, before.events.count e ≤ after.events.count e) ↔
          ∀ e, (struck Settings.usual.deletionWindow (p.kept s)
              (strays Settings.usual.deletionWindow [] (p.replay s pairs))).count e ≤
            (applyDeletions Settings.usual.deletionWindow (p.replay s pairs)).count e) ∧
        ((∀ e ∈ p.replay s pairs, (e.velocity == 0.0) = false) →
          ∀ e, before.events.count e ≤ after.events.count e) := by
  intro text line
  have hline : parse line = .ok [⟨.copy (.single 2) (.bars (.single 1)), .start⟩] := by
    decide +kernel
  have hbefore : (compile .unstated .usual text).isOk := by decide +kernel
  have hafter : (compile .unstated .usual (text ++ '\n' :: line)).isOk := by decide +kernel
  cases h : compile .unstated .usual text with
  | error e =>
    rw [h] at hbefore
    cases hbefore
  | ok before =>
    cases h' : compile .unstated .usual (text ++ '\n' :: line) with
    | error e =>
      rw [h'] at hafter
      cases hafter
    | ok after => exact ⟨before, after, hline, rfl, rfl, compile_copy_iff hline h h'⟩

/-- A copy of a deletion that took nothing where it stood takes a note where it is copied to. -/
theorem compile_copy_loses :
    let text := "v0 C3 1|1 v100 C3 2|1".toList
    let line := "@2=1".toList
    parse line = .ok [⟨.copy (.single 2) (.bars (.single 1)), .start⟩] ∧
      (compile .unstated .usual text).map (·.events) = .ok [⟨60, 4.0, 1.0, 100.0, 1.0, 0.0⟩] ∧
      (compile .unstated .usual (text ++ '\n' :: line)).map (·.events) = .ok [] := by
  decide +kernel

end Barline.Score
