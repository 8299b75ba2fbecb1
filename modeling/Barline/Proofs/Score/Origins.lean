import Barline.Proofs.Meter.Moving
import Barline.Proofs.Score.Binding
import Barline.Proofs.Score.Elements
import Barline.Proofs.Score.Index

/-!
# Where notes come from

Each note of a run was placed by a time position, and may have been copied from bar to bar since,
any number of times. What is proved of notes by their origins is proved along these copies.
-/

namespace Barline.Score

section

variable {p : Performer} {elements : Elements} {e : Located Element} {perBar : Float}
  {s s' : State}

/-- Placing keeps the current bar, and every beat lies in a bar that has a number. -/
lemma foldlM_placeAt_inRange {pitches : List Pending} {bar : UInt32} {position : Position}
    {beats : List Float}
    (h : beats.foldlM (State.placeAt perBar pitches bar position) s = .ok s') :
    s'.bar = s.bar ∧ ∀ b ∈ beats, Meter.inRange (Meter.beatsAt bar b perBar) perBar := by
  induction beats generalizing s with
  | nil => exact Except.ok.inj h ▸ ⟨rfl, List.forall_mem_nil _⟩
  | cons beat beats ih =>
    rw [List.foldlM_cons] at h
    unfold State.placeAt at h
    dsimp only at h
    split_ifs at h with hrange
    · obtain ⟨hbar, hbeats⟩ := ih h
      exact ⟨hbar.trans (State.foldl_emit s perBar _).2.1,
        List.forall_mem_cons.mpr ⟨hrange, hbeats⟩⟩
    · cases h

lemma placeAll_inRange {beats : List Float} {position : Position}
    (h : s.placeAll perBar beats position = .ok s') :
    s'.bar = s.bar ∧ (s.buffer.pitches ≠ [] →
      ∀ b ∈ beats, Meter.inRange (Meter.beatsAt (s.bar.getD 1) b perBar) perBar) := by
  obtain ⟨unused, hbuffer, rfl⟩ | ⟨s₁, hs₁, -, rfl⟩ := placeAll_cases h
  · refine ⟨rfl, fun hne => absurd ?_ hne⟩
    rw [hbuffer]
    rfl
  · obtain ⟨hbar, hbeats⟩ := foldlM_placeAt_inRange hs₁
    exact ⟨hbar, fun _ => hbeats⟩

/-- A time position makes its bar the current one, and if there are pitches at hand, then all of
its beats lie in bars that have numbers. -/
lemma place_inRange {repeatLimit : ℕ} {bar : Option UInt32} {beat : Beat} {position : Position}
    (h : s.place perBar repeatLimit bar beat position = .ok s') :
    s'.bar = (bar <|> s.bar) ∧ (s.buffer.pitches ≠ [] → ∀ b ∈ s.beats beat,
      Meter.inRange (Meter.beatsAt ((bar <|> s.bar).getD 1) b perBar) perBar) := by
  unfold State.place at h
  cases beat with
  | single beat => exact placeAll_inRange h
  | series first times step =>
    dsimp only at h
    split_ifs at h with hzero hlimit
    · exact placeAll_inRange h
    · exact placeAll_inRange h

lemma bar_copyBars (perBar : Float) (position : Position) (s : State)
    (pairs : List (UInt32 × UInt32)) :
    (pairs.foldl (State.copyBar perBar position) s).bar = s.bar := by
  induction pairs generalizing s with
  | nil => rfl
  | cons pair pairs ih =>
    refine (ih _).trans ?_
    unfold State.copyBar
    dsimp only
    split_ifs
    · rfl
    · rfl
    · exact (State.foldl_emit s perBar _).2.1

lemma bar_dropPitches (s : State) (position : Position) : (s.dropPitches position).bar = s.bar := by
  unfold State.dropPitches
  split <;> rfl

lemma step_bar (h : p.step s e = .ok s') :
    s'.bar = s.bar ∨ ∃ bar beat, e.value = .position bar beat ∧ s'.bar = (bar <|> s.bar) := by
  cases steps_of_step h with
  | pitch hvalue =>
    left
    unfold State.addPitch
    dsimp only
    split <;> rfl
  | change hvalue => exact .inl (s.change_eq _ _).2.1
  | position hvalue hplace => exact .inr ⟨_, _, hvalue, (place_inRange hplace).1⟩
  | copy hvalue hpairs => exact .inl ((bar_copyBars _ _ _ _).trans (bar_dropPitches s _))
  | clear hvalue => exact .inl (bar_dropPitches s _)

lemma run_bar (h : elements.foldlM p.step .initial = .ok s)
    (hproper : ∀ e ∈ elements, e.value.Proper) : ∀ bar ∈ s.bar, bar ≠ 0 := by
  revert hproper
  refine run_induction (motive := fun elements s =>
    (∀ e ∈ elements, e.value.Proper) → ∀ bar ∈ s.bar, bar ≠ 0) (by simp [State.initial]) ?_ h
  intro elements s e s' ih hstep hproper
  obtain ⟨hbefore, he⟩ := List.forall_mem_append.mp hproper
  obtain hbar | ⟨bar, beat, hvalue, hbar⟩ := step_bar hstep
  · rw [hbar]
    exact ih hbefore
  · have hwritten := he e (List.mem_singleton_self e)
    rw [hvalue] at hwritten
    rw [hbar]
    cases bar with
    | none => exact ih hbefore
    | some bar => exact hwritten.1

lemma mem_barsFrom {first last d : UInt32} (h : d ∈ barsFrom first last) :
    first ≤ d ∧ d ≤ last := by
  obtain ⟨i, hi, rfl⟩ := List.mem_map.mp h
  rw [List.mem_range] at hi
  have hlast := last.toNat_lt
  have hsum : (first + UInt32.ofNat i).toNat = first.toNat + i := by
    rw [UInt32.toNat_add, UInt32.toNat_ofNat']
    omega
  rw [UInt32.le_iff_toNat_le, UInt32.le_iff_toNat_le, hsum]
  omega

lemma Bars.Proper.ne_zero {b : Bars} (h : b.Proper) : ∀ d ∈ b.toList, d ≠ 0 := by
  cases b with
  | single bar => simpa [Bars.toList, Bars.Proper] using h
  | range first last =>
    rintro d hd rfl
    have hle := UInt32.le_iff_toNat_le.mp (mem_barsFrom hd).1
    exact h.1 (UInt32.toNat_inj.mp (Nat.le_zero.mp hle))

lemma copyPairs_ne_zero {destination : Bars} {source : Source} {position : Position}
    {pairs : List (UInt32 × UInt32)} (hproper : destination.Proper)
    (h : copyPairs destination source position = .ok pairs) : ∀ pair ∈ pairs, pair.2 ≠ 0 := by
  have hmem := hproper.ne_zero
  unfold copyPairs at h
  split at h
  · split_ifs at h
    obtain rfl := Except.ok.inj h
    intro pair hpair
    obtain ⟨d, hd, rfl⟩ := List.mem_map.mp hpair
    exact hmem d hd
  · obtain rfl := Except.ok.inj h
    intro pair hpair
    obtain ⟨d, hd, rfl⟩ := List.mem_map.mp hpair
    exact hmem d hd
  · rename_i first last d
    split_ifs at h with hlast
    obtain rfl := Except.ok.inj h
    intro pair hpair
    obtain ⟨a, ha, rfl⟩ := List.mem_map.mp hpair
    obtain ⟨hle, hle'⟩ := mem_barsFrom ha
    have hd : d.toNat ≠ 0 := fun h0 => hproper (UInt32.toNat_inj.mp h0)
    intro hzero
    have hnat := congrArg UInt32.toNat hzero
    rw [UInt32.le_iff_toNat_le] at hle hle'
    unfold Number.bound32 at hlast
    rw [UInt32.toNat_add, UInt32.toNat_sub_of_le _ _ (UInt32.le_iff_toNat_le.mpr hle),
      Nat.mod_eq_of_lt (by omega)] at hnat
    change d.toNat + (a.toNat - first.toNat) = 0 at hnat
    omega
  · obtain rfl := Except.ok.inj h
    intro pair hpair
    obtain ⟨d, hd, rfl⟩ := List.mem_map.mp hpair
    exact hmem d hd

end

/-- How a note comes about: a pitch is placed at a beat of a bar, or a note is copied from one bar
onto another. -/
inductive Origin where
  | placed (bar : UInt32) (beat : Float) (pending : Pending)
  | copied (original : Origin) (source destination : UInt32)

namespace Origin

/-- The note that comes about, in beats. -/
def note (perBar : Float) : Origin → Note
  | placed bar beat pending => pending.note (Meter.beatsAt bar beat perBar)
  | copied original source destination =>
    { original.note perBar with
      start := (original.note perBar).start + Meter.shift source destination perBar }

/-- The beat at which the note, or the one it was copied from, was placed. -/
def beat : Origin → Float
  | placed _ beat _ => beat
  | copied original _ _ => original.beat

/-- The notes that come about in a run. A pitch at hand is placed at a beat of a time position. A
note that stands in the history under the source of a single copy, when that copy is made, is
copied. -/
inductive Arises (p : Performer) : Elements → Origin → Prop
  | placed {before : Elements} {bar : Option UInt32} {beat : Beat} {position : Position}
    {s s' : State} {b : Float} {pending : Pending} (hs : before.foldlM p.step .initial = .ok s)
    (hstep : p.step s ⟨.position bar beat, position⟩ = .ok s') (hb : b ∈ s.beats beat)
    (hpending : pending ∈ s.buffer.pitches) :
    Arises p (before ++ [⟨.position bar beat, position⟩])
      (.placed ((bar <|> s.bar).getD 1) b pending)
  | copied {before : Elements} {destination : Bars} {source : Source} {position : Position}
    {s : State} {done rest : List (UInt32 × UInt32)} {a b : UInt32} {o : Origin}
    (hs : before.foldlM p.step .initial = .ok s)
    (hpairs : copyPairs destination source position = .ok (done ++ (a, b) :: rest)) (hne : a ≠ b)
    (ho : Arises p (before ++ [⟨.copy destination source, position⟩]) o)
    (hmem : o.note p.signature.beatsPerBar ∈ (done.foldl
      (State.copyBar p.signature.beatsPerBar position) (s.dropPitches position)).history.notes a) :
    Arises p (before ++ [⟨.copy destination source, position⟩]) (.copied o a b)
  | later {elements : Elements} {e : Located Element} {o : Origin} (h : Arises p elements o) :
    Arises p (elements ++ [e]) o

end Origin

section

variable {p : Performer} {elements : Elements} {s : State}

/-- What the history holds while a copy is made are notes that were placed, under the bars that
they start in. -/
lemma mem_history_copying (h : elements.foldlM p.step .initial = .ok s) (position : Position)
    (done : List (UInt32 × UInt32)) {bar : UInt32} {n : Note}
    (hn : n ∈ (done.foldl (State.copyBar p.signature.beatsPerBar position)
      (s.dropPitches position)).history.notes bar) :
    n ∈ (done.foldl (State.copyBar p.signature.beatsPerBar position)
      (s.dropPitches position)).events.toList ∧
      (Meter.barBeat n.start p.signature.beatsPerBar).1 = bar := by
  obtain ⟨s₀, since, -, htracks⟩ := run_tracks h
  obtain ⟨more, hmore⟩ := State.extends_copyBars p.signature.beatsPerBar position
    (s.dropPitches position) done
  obtain ⟨hevents, hindexes⟩ := htracks.extends ((s.extends_dropPitches _ position).trans hmore)
  rw [hindexes.notes_eq] at hn
  obtain ⟨hsince, hbar⟩ := List.mem_filter.mp hn
  rw [hevents]
  exact ⟨List.mem_append_right _ hsince, of_decide_eq_true hbar⟩

/-- The notes that stand after the first of the single copies of an element. -/
lemma origins_copying (h : elements.foldlM p.step .initial = .ok s)
    (ih : ∀ n ∈ s.events.toList, ∃ o : Origin, o.Arises p elements ∧
      n = o.note p.signature.beatsPerBar)
    {destination : Bars} {source : Source} {position : Position}
    {done rest : List (UInt32 × UInt32)}
    (hpairs : copyPairs destination source position = .ok (done ++ rest)) :
    ∀ n ∈ (done.foldl (State.copyBar p.signature.beatsPerBar position)
      (s.dropPitches position)).events.toList,
      ∃ o : Origin, o.Arises p (elements ++ [⟨.copy destination source, position⟩]) ∧
        n = o.note p.signature.beatsPerBar := by
  induction done using List.reverseRecOn generalizing rest with
  | nil =>
    intro n hn
    rw [List.foldl_nil, (dropPitches_eq s position).1] at hn
    obtain ⟨o, ho, rfl⟩ := ih n hn
    exact ⟨o, ho.later, rfl⟩
  | append_singleton done pair ihdone =>
    obtain ⟨a, b⟩ := pair
    rw [List.append_assoc] at hpairs
    have hdone := ihdone hpairs
    intro n hn
    rw [List.foldl_append, List.foldl_cons, List.foldl_nil,
      (State.extends_copyBar p.signature.beatsPerBar position _ (a, b)).events] at hn
    rcases List.mem_append.mp hn with hold | hnew
    · exact hdone n hold
    · unfold copied at hnew
      split_ifs at hnew with hne
      · cases hnew
      · obtain ⟨m, hm, rfl⟩ := List.mem_map.mp hnew
        obtain ⟨o, ho, rfl⟩ := hdone m (mem_history_copying h position done hm).1
        exact ⟨.copied o a b, .copied h hpairs hne ho hm, rfl⟩

/-- Every note of a run has an origin. -/
theorem exists_origin (h : elements.foldlM p.step .initial = .ok s) :
    ∀ n ∈ s.events.toList, ∃ o : Origin, o.Arises p elements ∧
      n = o.note p.signature.beatsPerBar := by
  induction elements using List.reverseRecOn generalizing s with
  | nil =>
    obtain rfl := Except.ok.inj h
    exact List.forall_mem_nil _
  | append_singleton elements e ih =>
    obtain ⟨s₁, s₂, h₁, h₂, h₃⟩ := run_split h
    obtain rfl := Except.ok.inj h₃
    have hbefore := ih h₁
    have hkept (hevents : s₂.events.toList = s₁.events.toList) : ∀ n ∈ s₂.events.toList,
        ∃ o : Origin, o.Arises p (elements ++ [e]) ∧ n = o.note p.signature.beatsPerBar := by
      intro n hn
      obtain ⟨o, ho, rfl⟩ := hbefore n (hevents ▸ hn)
      exact ⟨o, ho.later, rfl⟩
    obtain ⟨value, position⟩ := e
    cases steps_of_step h₂ with
    | pitch hvalue => exact hkept (by simpa using (s₁.extends_addPitch 0.0 _ position).events)
    | change hvalue => exact hkept (by simpa using (s₁.extends_change 0.0 _ position).events)
    | clear hvalue => exact hkept (congrArg Array.toList (dropPitches_eq s₁ position).1)
    | @position bar beat _ hvalue hplace =>
      obtain rfl : value = .position bar beat := hvalue
      intro n hn
      rw [(place_eq_ok hplace).2.2.events] at hn
      rcases List.mem_append.mp hn with hold | hnew
      · obtain ⟨o, ho, rfl⟩ := hbefore n hold
        exact ⟨o, ho.later, rfl⟩
      · obtain ⟨start, hstart, hpitch⟩ := List.mem_flatMap.mp hnew
        obtain ⟨b, hb, rfl⟩ := List.mem_map.mp hstart
        obtain ⟨pending, hpending, rfl⟩ := List.mem_map.mp hpitch
        exact ⟨.placed ((bar <|> s₁.bar).getD 1) b pending, .placed h₁ h₂ hb hpending, rfl⟩
    | @copy destination source pairs hvalue hpairs =>
      obtain rfl : value = .copy destination source := hvalue
      rw [← List.append_nil pairs] at hpairs
      exact origins_copying h₁ hbefore hpairs

end

end Barline.Score
