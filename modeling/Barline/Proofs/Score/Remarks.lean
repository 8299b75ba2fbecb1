import Barline.Proofs.Score.Binding
import Barline.Proofs.Score.Index

/-!
# What elements remark on

Most remarks are about places and copies. Those about pitches that nothing places and about changes
that nothing carries come from the buffer and from the changes of each parameter, so this module
says what every element does to these two and which remarks it makes.
-/

namespace Barline.Score

/-- A remark about a place or a copy, not about pitches or changes that come to nothing. -/
def Remark.aboutPlaces : Remark → Bool
  | .emptySource _ | .selfCopy _ | .nothingToPlace | .excessiveRepeat .. => true
  | .unflushedPitches _ | .unusedChange | .neverPlaced _ => false

/-- The last change that a buffer remembers. -/
def Buffer.changed : Buffer → Option Position
  | .idle unused => unused
  | .collecting .. => none
  | .placed _ changed => changed

/-- The pitches and the changes at hand stay, and what is remarked on is about places. -/
structure State.Keeps (s s' : State) : Prop where
  buffer : s'.buffer = s.buffer
  unplaced : s'.unplaced = s.unplaced
  advisories : ∃ more, s'.advisories.toList = s.advisories.toList ++ more ∧
    ∀ a ∈ more, a.value.aboutPlaces

namespace State

variable {s s' s'' : State} {perBar : Float}

lemma Keeps.refl (s : State) : s.Keeps s := by
  refine ⟨rfl, rfl, [], ?_, List.forall_mem_nil _⟩
  rw [List.append_nil]

lemma Keeps.trans (h : s.Keeps s') (h' : s'.Keeps s'') : s.Keeps s'' := by
  obtain ⟨more, hmore, hplaces⟩ := h.advisories
  obtain ⟨more', hmore', hplaces'⟩ := h'.advisories
  refine ⟨h'.buffer.trans h.buffer, h'.unplaced.trans h.unplaced, more ++ more', ?_, ?_⟩
  · rw [hmore', hmore, List.append_assoc]
  · exact List.forall_mem_append.mpr ⟨hplaces, hplaces'⟩

lemma Keeps.filter_eq (h : s.Keeps s') (tells : Remark → Bool)
    (htells : ∀ remark, tells remark → remark.aboutPlaces = false) :
    s'.advisories.toList.filter (tells ·.value) = s.advisories.toList.filter (tells ·.value) := by
  obtain ⟨more, hmore, hplaces⟩ := h.advisories
  have hnone : more.filter (tells ·.value) = [] := by
    rw [List.filter_eq_nil_iff]
    intro a ha htold
    have hplace := hplaces a ha
    rw [htells a.value htold] at hplace
    cases hplace
  rw [hmore, List.filter_append, hnone, List.append_nil]

lemma keeps_advise (s : State) {remark : Remark} (h : remark.aboutPlaces) (position : Position) :
    s.Keeps (s.advise remark position) := by
  refine ⟨rfl, rfl, [⟨remark, position⟩], Array.toList_push .., ?_⟩
  intro a ha
  rw [List.mem_singleton.mp ha]
  exact h

lemma keeps_emit (perBar : Float) (s : State) (notes : List Note) :
    s.Keeps (notes.foldl (emit perBar) s) := by
  induction notes generalizing s with
  | nil => exact .refl s
  | cons note notes ih =>
    have hone : s.Keeps (emit perBar s note) := ⟨rfl, rfl, (Keeps.refl s).advisories⟩
    exact hone.trans (ih _)

lemma keeps_copyBar (perBar : Float) (position : Position) (s : State) (pair : UInt32 × UInt32) :
    s.Keeps (s.copyBar perBar position pair) := by
  unfold copyBar
  dsimp only
  split_ifs
  · exact s.keeps_advise rfl position
  · exact s.keeps_advise rfl position
  · exact keeps_emit perBar s _

lemma keeps_copyBars (perBar : Float) (position : Position) (s : State)
    (pairs : List (UInt32 × UInt32)) :
    s.Keeps (pairs.foldl (copyBar perBar position) s) := by
  induction pairs generalizing s with
  | nil => exact .refl s
  | cons pair pairs ih => exact (keeps_copyBar perBar position s pair).trans (ih _)

lemma keeps_placeAt {pitches : List Pending} {bar : UInt32} {position : Position}
    {beats : List Float}
    (h : beats.foldlM (placeAt perBar pitches bar position) s = .ok s') : s.Keeps s' := by
  induction beats generalizing s with
  | nil => exact Except.ok.inj h ▸ .refl s
  | cons beat beats ih =>
    rw [List.foldlM_cons] at h
    unfold placeAt at h
    dsimp only at h
    split_ifs at h with hrange
    · exact (keeps_emit perBar s _).trans (ih h)
    · cases h

/-- What a time position leaves behind where it goes on from a state that keeps the buffer. -/
def settle (s s₁ : State) : State :=
  match s.buffer with
  | .idle _ => s₁
  | .collecting pitches _ | .placed pitches _ =>
    { s₁ with buffer := .placed pitches none, unplaced := .settled }

lemma placeAll_eq_settle {beats : List Float} {position : Position}
    (h : s.placeAll perBar beats position = .ok s') : ∃ s₁, s.Keeps s₁ ∧ s' = s.settle s₁ := by
  obtain ⟨unused, hbuffer, rfl⟩ | ⟨s₁, hs₁, hbuffer, rfl⟩ := placeAll_cases h
  · refine ⟨_, s.keeps_advise (rfl : Remark.nothingToPlace.aboutPlaces = true) position, ?_⟩
    unfold settle
    rw [hbuffer]
  · refine ⟨s₁, keeps_placeAt hs₁, ?_⟩
    unfold settle
    cases h : s.buffer with
    | idle unused => exact absurd h (hbuffer unused)
    | collecting pitches began => rfl
    | placed pitches changed => rfl

/-- A time position without pitches changes nothing but the bar. One with pitches has all changes
carried. -/
theorem place_eq_settle {repeatLimit : ℕ} {bar : Option UInt32} {beat : Beat} {position : Position}
    (h : s.place perBar repeatLimit bar beat position = .ok s') :
    ∃ s₁, s.Keeps s₁ ∧ s' = s.settle s₁ := by
  have hbar : s.Keeps { s with bar := bar <|> s.bar } := ⟨rfl, rfl, (Keeps.refl s).advisories⟩
  have hfrom {s₀ : State} {beats : List Float} (hs₀ : s.Keeps s₀)
      (h : s₀.placeAll perBar beats position = .ok s') : ∃ s₁, s.Keeps s₁ ∧ s' = s.settle s₁ := by
    obtain ⟨s₁, hs₁, rfl⟩ := placeAll_eq_settle h
    refine ⟨s₁, hs₀.trans hs₁, ?_⟩
    unfold settle
    rw [hs₀.buffer]
  unfold place at h
  cases beat with
  | single beat => exact hfrom hbar h
  | series first times step =>
    dsimp only at h
    split_ifs at h with hzero hlimit
    · exact hfrom (hbar.trans (keeps_advise _ rfl position)) h
    · exact hfrom hbar h

lemma addPitch_eq (s : State) (pitch : UInt8) (position : Position) :
    ∃ pitches began, pitches ≠ [] ∧
      s.addPitch pitch position = { s with buffer := .collecting pitches began } := by
  unfold addPitch
  dsimp only
  split
  · exact ⟨_, _, List.concat_ne_nil _ _, rfl⟩
  · exact ⟨_, _, List.cons_ne_nil _ _, rfl⟩

lemma change_unplaced (s : State) (c : Change) (position : Position) :
    (s.change c position).unplaced = s.unplaced.set position c.parameter := by
  have hsupersede (s : State) (q : Parameter) :
      (s.supersede q position).unplaced = s.unplaced.set position q := by
    unfold supersede
    cases s.unplaced.get q <;> rfl
  unfold change
  dsimp only
  split <;> exact hsupersede _ _

lemma change_advisories (s : State) (c : Change) (position : Position) :
    (s.change c position).advisories.toList = s.advisories.toList ++
      (s.unplaced.get c.parameter).toList.map fun superseded => ⟨.unusedChange, superseded⟩ := by
  have hsupersede (s : State) (q : Parameter) :
      (s.supersede q position).advisories.toList = s.advisories.toList ++
        (s.unplaced.get q).toList.map fun superseded => ⟨.unusedChange, superseded⟩ := by
    unfold supersede
    cases s.unplaced.get q <;> simp [advise]
  unfold change
  dsimp only
  split <;> exact hsupersede _ _

/-- A change is remembered by the buffer, unless pitches wait in it. -/
lemma change_buffer (s : State) (c : Change) (position : Position) :
    (s.change c position).buffer = match s.buffer with
      | .idle _ => .idle (some position)
      | .collecting pitches began => .collecting (pitches.map (·.apply c)) began
      | .placed pitches _ => .placed (pitches.map (·.apply c)) (some position) := by
  unfold change
  dsimp only
  rw [supersede_buffer]
  cases s.buffer <;> rfl

lemma dropPitches_buffer (s : State) (position : Position) :
    (s.dropPitches position).buffer = .idle s.buffer.changed := by
  unfold dropPitches
  cases hbuffer : s.buffer <;> simp [Buffer.changed, hbuffer]

lemma dropPitches_unplaced (s : State) (position : Position) :
    (s.dropPitches position).unplaced = s.unplaced := by
  unfold dropPitches
  split <;> rfl

lemma dropPitches_advisories (s : State) (position : Position) :
    (s.dropPitches position).advisories.toList = s.advisories.toList ++ match s.buffer with
      | .collecting pitches _ => [⟨.unflushedPitches pitches.length, position⟩]
      | _ => [] := by
  unfold dropPitches
  cases hbuffer : s.buffer <;> simp [advise]

lemma finish_advisories (s : State) :
    s.finish.advisories.toList = s.advisories.toList ++ match s.buffer with
      | .collecting pitches began => [⟨.neverPlaced pitches.length, began⟩]
      | buffer => buffer.changed.toList.map fun position => ⟨.unusedChange, position⟩ := by
  unfold finish
  rcases s.buffer with (_ | unused) | ⟨pitches, began⟩ | ⟨pitches, _ | changed⟩ <;>
    simp [advise, Buffer.changed]

end State

lemma compile_eq_finish {timing : Timing} {settings : Settings} {text : List Char}
    {performance : Performance} (h : compile timing settings text = .ok performance) :
    ∃ p elements s, Performer.make timing settings = .ok p ∧ parse text = .ok elements ∧
      elements.foldlM p.step .initial = .ok s ∧
      performance = ⟨p.arrange s.events.toList, s.finish.advisories.toList⟩ := by
  obtain ⟨signature, hsignature, hrun⟩ := compile_eq_ok h
  obtain ⟨elements, s, hparse, hs, -⟩ := run_eq_ok hrun
  refine ⟨⟨signature, settings⟩, elements, s, ?_, hparse, hs, ?_⟩
  · unfold Performer.make
    rw [hsignature]
    rfl
  · rw [run_of_parse hparse] at hrun
    unfold Performer.perform at hrun
    rw [hs] at hrun
    rw [← finish_events s]
    exact (Except.ok.inj hrun).symm

end Barline.Score
