import Barline.Proofs.Score.Changes
import Barline.Proofs.Score.Elements

/-!
# Remarks on changes that are not heard

A change that is not heard may be remarked on at two moments: when the same parameter changes again,
and at the end of the score. Every such remark is right. The first moment misses none, but at the
end no more is known than the one change that the buffer remembers.
-/

namespace Barline.Score

/-- The pitches of a buffer are at hand, and wait, as the elements before say. -/
inductive Buffer.Fits : Bool → Bool → Buffer → Prop
  | idle (unused : Option Position) : Fits false false (.idle unused)
  | collecting {pitches : List Pending} (h : pitches ≠ []) (began : Position) :
    Fits true true (.collecting pitches began)
  | placed {pitches : List Pending} (h : pitches ≠ []) (changed : Option Position) :
    Fits true false (.placed pitches changed)

/-- Where the changes stand that advisories call unused. -/
def unusedChanges (advisories : List Advisory) : List Position :=
  (advisories.filter (·.value = .unusedChange)).map (·.position)

/-- A state recalls the changes of the elements before it. Those that were superseded are remarked
on, and of the others each parameter knows its last one and the buffer the one that trails. -/
structure State.Recalls (elements : Elements) (s : State) : Prop where
  buffer : s.buffer.Fits (atHand elements) (waiting elements)
  unplaced : ∀ q position,
    s.unplaced.get q = some position ↔ HoldsAt (Standing q) elements position
  changed : ∀ position, s.buffer.changed = some position ↔ HoldsAt Trailing elements position
  remarks : ∀ position, position ∈ unusedChanges s.advisories.toList ↔
    ∃ q, HoldsAt (Superseded q) elements position
  nodup : (elements.map (·.position)).Nodup → (unusedChanges s.advisories.toList).Nodup

lemma Unplaced.get_set (u : Unplaced) (position : Position) (q q' : Parameter) :
    (u.set position q).get q' = if q = q' then some position else u.get q' := by
  cases q <;> cases q' <;> rfl

lemma unusedChanges_append (as bs : List Advisory) :
    unusedChanges (as ++ bs) = unusedChanges as ++ unusedChanges bs := by
  unfold unusedChanges
  rw [List.filter_append, List.map_append]

lemma mem_unusedChanges {advisories : List Advisory} {position : Position} :
    position ∈ unusedChanges advisories ↔ ⟨.unusedChange, position⟩ ∈ advisories := by
  unfold unusedChanges
  rw [List.mem_map]
  constructor
  · rintro ⟨⟨remark, position⟩, hmem, rfl⟩
    obtain ⟨hmem, hremark⟩ := List.mem_filter.mp hmem
    obtain rfl : remark = .unusedChange := by simpa using hremark
    exact hmem
  · intro h
    exact ⟨_, List.mem_filter.mpr ⟨h, rfl⟩, rfl⟩

lemma unusedChanges_unused (positions : List Position) :
    unusedChanges (positions.map fun position => ⟨.unusedChange, position⟩) = positions := by
  unfold unusedChanges
  induction positions with
  | nil => rfl
  | cons position positions ih => simpa using ih

lemma nodup_append_toList {α : Type} {xs : List α} {x : Option α} (h : xs.Nodup)
    (hx : ∀ y, x = some y → y ∉ xs) : (xs ++ x.toList).Nodup := by
  cases x with
  | none => rwa [Option.toList_none, List.append_nil]
  | some y =>
    rw [Option.toList_some, ← List.concat_eq_append]
    exact h.concat (hx y rfl)

section

variable {s s' : State} {elements : Elements} {e : Located Element}

lemma State.Keeps.unusedChanges_eq (h : s.Keeps s') :
    unusedChanges s'.advisories.toList = unusedChanges s.advisories.toList := by
  refine congrArg (List.map (·.position)) (h.filter_eq (fun remark => remark = .unusedChange) ?_)
  intro remark hunused
  rw [of_decide_eq_true hunused]
  rfl

lemma State.dropPitches_unusedChanges (s : State) (position : Position) :
    unusedChanges (s.dropPitches position).advisories.toList =
      unusedChanges s.advisories.toList := by
  rw [State.dropPitches_advisories, unusedChanges_append]
  cases s.buffer <;> simp [unusedChanges]

lemma State.change_unusedChanges (s : State) (c : Change) (position : Position) :
    unusedChanges (s.change c position).advisories.toList =
      unusedChanges s.advisories.toList ++ (s.unplaced.get c.parameter).toList := by
  rw [State.change_advisories, unusedChanges_append, unusedChanges_unused]

lemma State.finish_unusedChanges (s : State) :
    unusedChanges s.finish.advisories.toList =
      unusedChanges s.advisories.toList ++ s.buffer.changed.toList := by
  rw [State.finish_advisories, unusedChanges_append]
  congr 1
  cases s.buffer with
  | idle unused => exact unusedChanges_unused _
  | collecting pitches began => rfl
  | placed pitches changed => exact unusedChanges_unused _

lemma recalls_initial : State.initial.Recalls [] where
  buffer := .idle none
  unplaced q position := iff_of_false (by cases q <;> exact Option.some_ne_none position ∘ Eq.symm)
    holdsAt_nil
  changed position := iff_of_false (Option.some_ne_none position ∘ Eq.symm) holdsAt_nil
  remarks position := iff_of_false List.not_mem_nil fun ⟨_, h⟩ => holdsAt_nil h
  nodup _ := List.nodup_nil

/-- A step that makes no remark on changes and changes no parameter. -/
lemma State.Recalls.quiet (hs : s.Recalls elements) (s' : State)
    (hparameter : e.value.parameter? = none)
    (hremarks : unusedChanges s'.advisories.toList = unusedChanges s.advisories.toList) :
    (∀ position, position ∈ unusedChanges s'.advisories.toList ↔
      ∃ q, HoldsAt (Superseded q) (elements ++ [e]) position) ∧
    (((elements ++ [e]).map (·.position)).Nodup →
      (unusedChanges s'.advisories.toList).Nodup) := by
  rw [hremarks]
  constructor
  · intro position
    rw [hs.remarks]
    simp only [holdsAt_superseded_concat, hparameter, reduceCtorEq, false_and, or_false]
  · intro hnodup
    rw [List.map_append] at hnodup
    exact hs.nodup hnodup.of_append_left

lemma State.Recalls.pitch (hs : s.Recalls elements) {pitch : UInt8}
    (hvalue : e.value = .pitch pitch) :
    (s.addPitch pitch e.position).Recalls (elements ++ [e]) := by
  obtain ⟨pitches, began, hne, heq⟩ := s.addPitch_eq pitch e.position
  have hparameter : e.value.parameter? = none := by rw [hvalue]; rfl
  obtain ⟨hremarks, hnodup⟩ := hs.quiet (s.addPitch pitch e.position) hparameter
    (by rw [heq])
  refine ⟨?_, ?_, ?_, hremarks, hnodup⟩
  · rw [heq, atHand_concat, waiting_concat, hvalue]
    exact .collecting hne began
  · intro q position
    rw [heq, hs.unplaced, holdsAt_standing_concat]
    simp [hvalue, Element.parameter?, places, Element.isPosition]
  · intro position
    rw [heq, holdsAt_trailing_concat]
    simp [hvalue, Element.parameter?, Element.pitch?, Buffer.changed]

lemma State.Recalls.change (hs : s.Recalls elements) {perBar : Float} {c : Change}
    (hvalue : e.value.change? perBar = some c) :
    (s.change c e.position).Recalls (elements ++ [e]) := by
  have hparameter : e.value.parameter? = some c.parameter := Element.parameter?_of_change? hvalue
  obtain ⟨hpitch, hposition, hsettles⟩ := Element.of_parameter? hparameter
  have hdrops : e.value.drops = false := (Bool.or_eq_false_iff.mp hsettles).2
  refine ⟨?_, ?_, ?_, ?_, ?_⟩
  · have hfits := hs.buffer
    rw [State.change_buffer, atHand_concat, waiting_concat, hdrops, hsettles, hpitch]
    generalize s.buffer = buffer, atHand elements = a, waiting elements = w at hfits ⊢
    cases hfits with
    | idle unused => exact .idle _
    | collecting hne began => exact .collecting (by simpa using hne) began
    | placed hne changed => exact .placed (by simpa using hne) _
  · intro q position
    rw [State.change_unplaced, Unplaced.get_set, holdsAt_standing_concat, hparameter]
    split_ifs with hq
    · simp [hq]
    · simp [hq, hs.unplaced, places, hposition]
  · intro position
    rw [State.change_buffer, holdsAt_trailing_concat, hparameter]
    have hfits := hs.buffer
    generalize s.buffer = buffer, atHand elements = a, waiting elements = w at hfits ⊢
    cases hfits <;> simp [Buffer.changed]
  · intro position
    rw [State.change_unusedChanges, List.mem_append, hs.remarks, Option.mem_toList, hs.unplaced]
    simp [holdsAt_superseded_concat, hparameter, exists_or]
  · intro hnodup
    rw [List.map_append] at hnodup
    have hbefore := hnodup.of_append_left
    rw [State.change_unusedChanges]
    refine nodup_append_toList (hs.nodup hbefore) ?_
    intro position hlast
    rw [hs.remarks]
    exact not_superseded_of_standing hbefore ((hs.unplaced _ _).mp hlast)

lemma State.settle_eq (s₁ : State) {a w : Bool} (h : s.buffer.Fits a w) :
    a = false ∧ w = false ∧ s.settle s₁ = s₁ ∨ a = true ∧ ∃ pitches, pitches ≠ [] ∧
      s.settle s₁ = { s₁ with buffer := .placed pitches none, unplaced := .settled } := by
  unfold State.settle
  generalize s.buffer = buffer at h ⊢
  cases h with
  | idle unused => exact .inl ⟨rfl, rfl, rfl⟩
  | @collecting pitches hne began => exact .inr ⟨rfl, pitches, hne, rfl⟩
  | @placed pitches hne changed => exact .inr ⟨rfl, pitches, hne, rfl⟩

lemma State.Recalls.settle {s₁ : State} (hs : s.Recalls elements) (hs₁ : s.Keeps s₁)
    (hvalue : e.value.isPosition) : (s.settle s₁).Recalls (elements ++ [e]) := by
  obtain ⟨hpitch, hdrops, hsettles⟩ := Element.of_isPosition hvalue
  have hparameter : e.value.parameter? = none := Element.parameter?_of_settles hsettles
  have hadvisories : (s.settle s₁).advisories = s₁.advisories := by
    unfold State.settle
    split <;> rfl
  obtain ⟨hremarks, hnodup⟩ := hs.quiet (s.settle s₁) hparameter
    (by rw [hadvisories, hs₁.unusedChanges_eq])
  have hplaces : places elements e = atHand elements := by
    unfold places
    rw [hvalue, Bool.true_and]
  rcases State.settle_eq s₁ hs.buffer with ⟨hnone, hrests, heq⟩ | ⟨hsome, pitches, hne, heq⟩
  -- nothing is placed, and the state stays as it is
  · refine ⟨?_, ?_, ?_, hremarks, hnodup⟩
    · have hfits := hs.buffer
      rw [hnone, hrests] at hfits
      rw [heq, hs₁.buffer, atHand_concat, waiting_concat, hdrops, hsettles, hpitch, hnone]
      exact hfits
    · intro q position
      rw [heq, hs₁.unplaced, hs.unplaced, holdsAt_standing_concat]
      simp [hparameter, hplaces, hnone]
    · intro position
      rw [heq, hs₁.buffer, hs.changed, holdsAt_trailing_concat]
      simp [hpitch, hparameter, hplaces, hnone]
  -- the pitches are placed, so every change so far is heard
  · refine ⟨?_, ?_, ?_, hremarks, hnodup⟩
    · rw [heq, atHand_concat, waiting_concat, hdrops, hsettles, hpitch, hsome]
      exact .placed hne none
    · intro q position
      rw [heq, holdsAt_standing_concat]
      cases q <;> simp [hparameter, hplaces, hsome, Unplaced.settled, Unplaced.get]
    · intro position
      rw [heq, holdsAt_trailing_concat]
      simp [hparameter, hplaces, hsome, Buffer.changed]

/-- A copy or a clear keeps what is known of changes, whatever becomes of the pitches. -/
lemma State.Recalls.drop (hs : s.Recalls elements) (hvalue : e.value.drops)
    (hbuffer : s'.buffer = .idle s.buffer.changed) (hunplaced : s'.unplaced = s.unplaced)
    (hunused : unusedChanges s'.advisories.toList = unusedChanges s.advisories.toList) :
    s'.Recalls (elements ++ [e]) := by
  obtain ⟨hpitch, hposition, hsettles⟩ := Element.of_drops hvalue
  have hparameter : e.value.parameter? = none := Element.parameter?_of_settles hsettles
  obtain ⟨hremarks, hnodup⟩ := hs.quiet s' hparameter hunused
  have hplaces : places elements e = false := by
    unfold places
    rw [hposition, Bool.false_and]
  refine ⟨?_, ?_, ?_, hremarks, hnodup⟩
  · rw [hbuffer, atHand_concat, waiting_concat, hvalue, hsettles]
    exact .idle _
  · intro q position
    rw [hunplaced, hs.unplaced, holdsAt_standing_concat]
    simp [hparameter, hplaces]
  · intro position
    have hsame : (Buffer.idle s.buffer.changed).changed = s.buffer.changed := rfl
    rw [hbuffer, hsame, hs.changed, holdsAt_trailing_concat]
    simp [hpitch, hparameter, hplaces]

end

/-- Every step keeps account of the changes. -/
theorem step_recalls {p : Performer} {s s' : State} {elements : Elements} {e : Located Element}
    (hs : s.Recalls elements) (h : p.step s e = .ok s') : s'.Recalls (elements ++ [e]) := by
  cases steps_of_step h with
  | pitch hvalue => exact hs.pitch hvalue
  | change hvalue => exact hs.change hvalue
  | position hvalue hplace =>
    obtain ⟨s₁, hs₁, rfl⟩ := State.place_eq_settle hplace
    exact hs.settle hs₁ (by rw [hvalue]; rfl)
  | @copy _ _ pairs hvalue _ =>
    have hkeeps := State.keeps_copyBars p.signature.beatsPerBar e.position
      (s.dropPitches e.position) pairs
    refine hs.drop (by rw [hvalue]; rfl) ?_ ?_ ?_
    · rw [hkeeps.buffer, State.dropPitches_buffer]
    · rw [hkeeps.unplaced, State.dropPitches_unplaced]
    · rw [hkeeps.unusedChanges_eq, State.dropPitches_unusedChanges]
  | clear hvalue =>
    exact hs.drop (by rw [hvalue]; rfl) (s.dropPitches_buffer e.position)
      (s.dropPitches_unplaced e.position) (s.dropPitches_unusedChanges e.position)

/-- After every run the state recalls the changes of all elements. -/
theorem run_recalls {p : Performer} {elements : Elements} {s : State}
    (h : elements.foldlM p.step .initial = .ok s) : s.Recalls elements :=
  run_induction (motive := fun elements s => s.Recalls elements) recalls_initial
    (fun _ _ _ _ hs hstep => step_recalls hs hstep) h

/-- At the end the change that trails is remarked on as well. -/
lemma State.Recalls.finish {elements : Elements} {s : State} (hs : s.Recalls elements)
    (position : Position) :
    ⟨.unusedChange, position⟩ ∈ s.finish.advisories.toList ↔
      (∃ q, HoldsAt (Superseded q) elements position) ∨ HoldsAt Trailing elements position := by
  rw [← mem_unusedChanges, State.finish_unusedChanges, List.mem_append, hs.remarks,
    Option.mem_toList, hs.changed]

/-- **Which changes are remarked on.** A change is called unused if it is not heard before the same
parameter changes again, and otherwise only if it is the last element of the score, copies, clears
and idle time positions aside, and no pitches wait for it. -/
theorem unused_remark_iff {timing : Timing} {settings : Settings} {text : List Char}
    {performance : Performance} (h : compile timing settings text = .ok performance) :
    ∃ elements, parse text = .ok elements ∧
      ∀ before e after q, elements = before ++ e :: after → e.value.parameter? = some q →
        (⟨.unusedChange, e.position⟩ ∈ performance.advisories ↔
          heard q (before ++ [e]) after = false ∧
            ((∃ f ∈ after, f.value.parameter? = some q) ∨ waiting before = false ∧
              ∀ f ∈ after, f.value.pitch? = none ∧ f.value.parameter? = none)) := by
  obtain ⟨p, elements, s, -, hparse, hs, rfl⟩ := compile_eq_finish h
  refine ⟨elements, hparse, ?_⟩
  intro before e after q hsplit hq
  have hat {P : Elements → Located Element → Elements → Prop} :
      HoldsAt P elements e.position ↔ P before e after :=
    holdsAt_iff (positions_nodup hparse) hsplit
  rw [(run_recalls hs).finish, hat]
  simp only [hat]
  constructor
  · rintro (⟨q', h⟩ | h)
    · obtain rfl := Option.some.inj (hq.symm.trans h.changes)
      exact ⟨h.unheard, .inl h.again⟩
    · obtain ⟨q', hq', hunheard⟩ := h.unheard
      obtain rfl := Option.some.inj (hq.symm.trans hq')
      exact ⟨hunheard, .inr ⟨h.rests, h.last⟩⟩
  · rintro ⟨hunheard, hagain | ⟨hrests, hlast⟩⟩
    · exact .inl ⟨q, hq, hunheard, hagain⟩
    · exact .inr ⟨⟨q, hq, hunheard⟩, hrests, hlast⟩

/-- A velocity that is said twice, and a probability at the end. -/
theorem unused_remark_iff_twice :
    ∃ performance, compile .unstated .usual "v80 v90 t2 C3 1|1 p0.5".toList = .ok performance ∧
      performance.advisories = [⟨.unusedChange, ⟨1, 1⟩⟩, ⟨.unusedChange, ⟨1, 19⟩⟩] ∧
      ∃ elements, parse "v80 v90 t2 C3 1|1 p0.5".toList = .ok elements ∧
        ∀ before e after q, elements = before ++ e :: after → e.value.parameter? = some q →
          (⟨.unusedChange, e.position⟩ ∈ performance.advisories ↔
            heard q (before ++ [e]) after = false ∧
              ((∃ f ∈ after, f.value.parameter? = some q) ∨ waiting before = false ∧
                ∀ f ∈ after, f.value.pitch? = none ∧ f.value.parameter? = none)) := by
  have hadvisories : (compile .unstated .usual
      "v80 v90 t2 C3 1|1 p0.5".toList).toOption.map (·.advisories) =
        some [⟨.unusedChange, ⟨1, 1⟩⟩, ⟨.unusedChange, ⟨1, 19⟩⟩] := by decide +kernel
  obtain ⟨performance, h, hremarks⟩ := exists_performance hadvisories
  exact ⟨performance, h, hremarks, unused_remark_iff h⟩

/-- Of a velocity and a duration that nothing follows, only the duration is remarked on. -/
theorem unused_remark_missing :
    let e : Located Element := ⟨.velocity 90, ⟨1, 1⟩⟩
    let f : Located Element := ⟨.duration (.beats 2.0), ⟨1, 5⟩⟩
    (parse "v90 t2".toList).toOption = some ([] ++ e :: [f]) ∧
      e.value.parameter? = some .velocity ∧ heard .velocity ([] ++ [e]) [f] = false ∧
      (compile .unstated .usual "v90 t2".toList).toOption.map (·.advisories) =
        some [⟨.unusedChange, f.position⟩] ∧
      (⟨.unusedChange, e.position⟩ : Advisory) ∉ [⟨.unusedChange, f.position⟩] := by
  decide +kernel

/-- **No false alarms.** Every advisory that calls a change unused stands at a change that no time
position carries, before the same parameter changes again or the score ends. No two of them stand
at one change. -/
theorem unused_remarks_true {timing : Timing} {settings : Settings} {text : List Char}
    {performance : Performance} (h : compile timing settings text = .ok performance) :
    ∃ elements, parse text = .ok elements ∧ (elements.map (·.position)).Nodup ∧
      (∀ position, ⟨.unusedChange, position⟩ ∈ performance.advisories →
        ∃ before e after q, elements = before ++ e :: after ∧ e.position = position ∧
          e.value.parameter? = some q ∧ heard q (before ++ [e]) after = false) ∧
      (unusedChanges performance.advisories).Nodup := by
  obtain ⟨p, elements, s, -, hparse, hs, rfl⟩ := compile_eq_finish h
  have hrecalls := run_recalls hs
  have hnodup := positions_nodup hparse
  refine ⟨elements, hparse, hnodup, ?_, ?_⟩
  · intro position hposition
    rcases (hrecalls.finish position).mp hposition with
      ⟨q, before, e, after, hsplit, hplace, h⟩ | ⟨before, e, after, hsplit, hplace, h⟩
    · exact ⟨before, e, after, q, hsplit, hplace, h.changes, h.unheard⟩
    · obtain ⟨q, hq, hunheard⟩ := h.unheard
      exact ⟨before, e, after, q, hsplit, hplace, hq, hunheard⟩
  · change (unusedChanges s.finish.advisories.toList).Nodup
    rw [State.finish_unusedChanges]
    refine nodup_append_toList (hrecalls.nodup hnodup) ?_
    intro position hchanged
    obtain ⟨before, e, after, hsplit, hplace, h⟩ := (hrecalls.changed position).mp hchanged
    obtain ⟨q, hstanding⟩ := h.standing
    rw [hrecalls.remarks]
    exact not_superseded_of_standing hnodup ⟨before, e, after, hsplit, hplace, hstanding⟩

/-- A velocity that is said twice, and a probability that is remembered across a copy. -/
theorem unused_remarks_true_across_copy :
    ∃ performance,
      compile .unstated .usual "t2 @clear v90 v80 C3 1|1 |2 p0.5 @3=1".toList = .ok performance ∧
      performance.advisories = [⟨.unusedChange, ⟨1, 11⟩⟩, ⟨.unusedChange, ⟨1, 29⟩⟩] ∧
      ∃ elements, parse "t2 @clear v90 v80 C3 1|1 |2 p0.5 @3=1".toList = .ok elements ∧
        (elements.map (·.position)).Nodup ∧
        (∀ position, ⟨.unusedChange, position⟩ ∈ performance.advisories →
          ∃ before e after q, elements = before ++ e :: after ∧ e.position = position ∧
            e.value.parameter? = some q ∧ heard q (before ++ [e]) after = false) ∧
        (unusedChanges performance.advisories).Nodup := by
  have hadvisories : (compile .unstated .usual
      "t2 @clear v90 v80 C3 1|1 |2 p0.5 @3=1".toList).toOption.map (·.advisories) =
        some [⟨.unusedChange, ⟨1, 11⟩⟩, ⟨.unusedChange, ⟨1, 29⟩⟩] := by decide +kernel
  obtain ⟨performance, h, hremarks⟩ := exists_performance hadvisories
  exact ⟨performance, h, hremarks, unused_remarks_true h⟩

end Barline.Score
