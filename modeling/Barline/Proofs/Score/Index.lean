import Barline.Proofs.Score.Steps

/-!
# The history as an index

The history holds the notes placed since the last clear, sorted into the bars that they start in. It
agrees with the list of all notes after every element, and inside a copy after every bar, so a copy
places again exactly what starts in its source.
-/

namespace Barline.Score

/-- The notes of a list that start in a bar. -/
def startingIn (perBar : Float) (bar : UInt32) (notes : List Note) : List Note :=
  notes.filter fun n => (Meter.barBeat n.start perBar).1 = bar

/-- A history that has an entry for each bar in which one of the notes starts, and for no other,
and whose entries are the notes of the bars in order. -/
structure History.Indexes (perBar : Float) (h : History) (notes : List Note) : Prop where
  notes_eq : ∀ bar, h.notes bar = startingIn perBar bar notes
  mem_iff : ∀ bar, bar ∈ h.bars ↔ startingIn perBar bar notes ≠ []

section

variable {perBar : Float} {h : History} {notes more : List Note}

lemma startingIn_append (perBar : Float) (bar : UInt32) (notes more : List Note) :
    startingIn perBar bar (notes ++ more) =
      startingIn perBar bar notes ++ startingIn perBar bar more := List.filter_append ..

lemma History.indexes_empty (perBar : Float) : History.empty.Indexes perBar [] where
  notes_eq _ := by simp [History.notes, History.empty, startingIn]
  mem_iff _ := by simp [History.empty, startingIn]

lemma History.notes_record (h : History) (bar bar' : UInt32) (note : Note) :
    (h.record bar note).notes bar' =
      if bar = bar' then h.notes bar' ++ [note] else h.notes bar' := by
  unfold History.record History.notes
  dsimp only
  rw [Std.TreeMap.getD_insert]
  by_cases hbar : bar = bar'
  · subst hbar
    simp
  · simp [hbar]

lemma History.mem_record (h : History) (bar bar' : UInt32) (note : Note) :
    bar' ∈ (h.record bar note).bars ↔ bar = bar' ∨ bar' ∈ h.bars := by
  unfold History.record
  dsimp only
  rw [Std.TreeMap.mem_insert, Std.LawfulEqCmp.compare_eq_iff_eq]

lemma History.Indexes.record (hi : h.Indexes perBar notes) (note : Note) :
    (h.record (Meter.barBeat note.start perBar).1 note).Indexes perBar (notes ++ [note]) where
  notes_eq bar := by
    rw [History.notes_record, hi.notes_eq, startingIn_append]
    by_cases hbar : (Meter.barBeat note.start perBar).1 = bar <;> simp [startingIn, hbar]
  mem_iff bar := by
    rw [History.mem_record, hi.mem_iff, startingIn_append]
    by_cases hbar : (Meter.barBeat note.start perBar).1 = bar <;> simp [startingIn, hbar]

lemma History.Indexes.recordAll (hi : h.Indexes perBar notes) (more : List Note) :
    (recordAll perBar h more).Indexes perBar (notes ++ more) := by
  induction more generalizing h notes with
  | nil => rwa [List.append_nil]
  | cons note more ih =>
    rw [← List.singleton_append, ← List.append_assoc]
    exact ih (hi.record note)

end

/-- A state whose history indexes the notes that came after those of the past. -/
def State.Tracks (perBar : Float) (past since : List Note) (s : State) : Prop :=
  s.events.toList = past ++ since ∧ s.history.Indexes perBar since

lemma State.Tracks.extends {perBar : Float} {past since more : List Note} {s s' : State}
    (h : s.Tracks perBar past since) (hs : s.Extends perBar more s') :
    s'.Tracks perBar past (since ++ more) := by
  refine ⟨by rw [hs.events, h.1, List.append_assoc], ?_⟩
  rw [hs.history]
  exact h.2.recordAll more

/-- The elements up to the last clear, and none if there is no clear. -/
def uptoClear (elements : Elements) : Elements := elements.rdropWhile (·.value ≠ .clear)

lemma extends_of_step {p : Performer} {s s' : State} {e : Located Element}
    (hclear : e.value ≠ .clear) (h : p.step s e = .ok s') :
    ∃ notes, s.Extends p.signature.beatsPerBar notes s' := by
  cases steps_of_step h with
  | pitch => exact ⟨[], s.extends_addPitch _ _ _⟩
  | change => exact ⟨[], s.extends_change _ _ _⟩
  | position _ hs => exact ⟨_, (place_eq_ok hs).2.2⟩
  | @copy _ _ pairs =>
    obtain ⟨notes, hnotes⟩ := State.extends_copyBars p.signature.beatsPerBar e.position
      (s.dropPitches e.position) pairs
    exact ⟨_, (s.extends_dropPitches _ _).trans hnotes⟩
  | clear hvalue => exact absurd hvalue hclear

/-- After every run the history indexes the notes since the last clear. -/
theorem run_tracks {p : Performer} {elements : Elements} {s : State}
    (h : elements.foldlM p.step .initial = .ok s) :
    ∃ s₀ since, (uptoClear elements).foldlM p.step .initial = .ok s₀ ∧
      s.Tracks p.signature.beatsPerBar s₀.events.toList since := by
  induction elements using List.reverseRecOn generalizing s with
  | nil =>
    obtain rfl := Except.ok.inj h
    exact ⟨.initial, [], rfl, rfl, History.indexes_empty _⟩
  | append_singleton elements e ih =>
    obtain ⟨s₁, s₂, h₁, h₂, h₃⟩ := run_split h
    obtain rfl := Except.ok.inj h₃
    unfold uptoClear
    by_cases hclear : e.value = .clear
    · rw [List.rdropWhile_concat_neg _ _ _ (by simpa using hclear)]
      refine ⟨s₂, [], h, (List.append_nil _).symm, ?_⟩
      cases steps_of_step h₂ with
      | clear => exact History.indexes_empty _
      | pitch hvalue => exact absurd (hvalue.symm.trans hclear) nofun
      | position hvalue => exact absurd (hvalue.symm.trans hclear) nofun
      | copy hvalue => exact absurd (hvalue.symm.trans hclear) nofun
      | change hvalue =>
        rw [hclear] at hvalue
        cases hvalue
    · rw [List.rdropWhile_concat_pos _ _ _ (by simpa using hclear)]
      obtain ⟨s₀, since, h₀, htracks⟩ := ih h₁
      obtain ⟨notes, hnotes⟩ := extends_of_step hclear h₂
      exact ⟨s₀, since ++ notes, h₀, htracks.extends hnotes⟩

/-- A copy of one bar onto another, from one state to the next: the notes of the source are placed
once more, moved from bar line to bar line, and a remark is made if there are none. -/
structure Replays (perBar : Float) (position : Position) (notes : List Note)
    (source destination : UInt32) (s s' : State) : Prop where
  events : s'.events.toList = s.events.toList ++ (startingIn perBar source notes).map fun n =>
    { n with start := n.start + (Meter.barStart destination perBar - Meter.barStart source perBar) }
  advisories : s'.advisories.toList = s.advisories.toList ++
    if startingIn perBar source notes = [] then [⟨.emptySource source, position⟩] else []

lemma foldl_emit_advisories (perBar : Float) (s : State) (notes : List Note) :
    (notes.foldl (State.emit perBar) s).advisories = s.advisories := by
  induction notes generalizing s with
  | nil => rfl
  | cons note notes ih => exact ih (State.emit perBar s note)

lemma replays_copyBar {perBar : Float} {past notes : List Note} {s : State}
    (h : s.Tracks perBar past notes) (position : Position) {source destination : UInt32}
    (hne : source ≠ destination) :
    Replays perBar position notes source destination s
      (s.copyBar perBar position (source, destination)) := by
  have hnotes := h.2.notes_eq source
  have hevents := (copyBar_eq perBar position s (source, destination)).1
  unfold copied at hevents
  rw [if_neg hne, hnotes] at hevents
  refine ⟨hevents, ?_⟩
  unfold State.copyBar
  dsimp only
  rw [if_neg hne, hnotes]
  by_cases hnil : startingIn perBar source notes = []
  · simp [hnil, State.advise]
  · rw [if_neg (by simpa using hnil), if_neg hnil, foldl_emit_advisories, List.append_nil]

/-- **The history is an index.** After every run the history holds, bar by bar and in order, the
notes placed since the last clear. It still does inside of a copy element, after any number of its
single copies, so each of them places the notes that start in its source once more and makes a
remark exactly if there are none. -/
theorem history_indexes {p : Performer} {elements : Elements} {s : State}
    (h : elements.foldlM p.step .initial = .ok s) :
    ∃ s₀ since, (uptoClear elements).foldlM p.step .initial = .ok s₀ ∧
      s.events.toList = s₀.events.toList ++ since ∧
      s.history.Indexes p.signature.beatsPerBar since ∧
      ∀ destination source position pairs,
        copyPairs destination source position = .ok pairs →
        let copies (pairs : List (UInt32 × UInt32)) : State :=
          pairs.foldl (State.copyBar p.signature.beatsPerBar position) (s.dropPitches position)
        p.step s ⟨.copy destination source, position⟩ = .ok (copies pairs) ∧
          ∀ done a b rest, pairs = done ++ (a, b) :: rest → a ≠ b →
            ∃ more, (copies done).events.toList = s₀.events.toList ++ (since ++ more) ∧
              (copies done).history.Indexes p.signature.beatsPerBar (since ++ more) ∧
              Replays p.signature.beatsPerBar position (since ++ more) a b (copies done)
                (copies (done ++ [(a, b)])) := by
  obtain ⟨s₀, since, h₀, htracks⟩ := run_tracks h
  refine ⟨s₀, since, h₀, htracks.1, htracks.2, ?_⟩
  intro destination source position pairs hpairs copies
  refine ⟨step_copy p s hpairs, ?_⟩
  rintro done a b rest rfl hne
  obtain ⟨more, hmore⟩ := State.extends_copyBars p.signature.beatsPerBar position
    (s.dropPitches position) done
  have hdone : (copies done).Tracks p.signature.beatsPerBar s₀.events.toList (since ++ more) :=
    htracks.extends ((s.extends_dropPitches _ position).trans hmore)
  refine ⟨more, hdone.1, hdone.2, ?_⟩
  have hnext : copies (done ++ [(a, b)]) =
      (copies done).copyBar p.signature.beatsPerBar position (a, b) := List.foldl_concat ..
  rw [hnext]
  exact replays_copyBar hdone position hne

/-- A note before the clear, a series that runs past the bar line after it, and a copy of two bars
onto two others, at the second of its single copies. -/
theorem history_indexes_past_bar_line :
    let elements : Elements := [⟨.pitch 60, ⟨1, 1⟩⟩, ⟨.position (some 1) (.single 1.0), ⟨1, 6⟩⟩,
      ⟨.clear, ⟨1, 8⟩⟩, ⟨.pitch 62, ⟨1, 15⟩⟩, ⟨.position (some 1) (.series 1.0 5 none), ⟨1, 20⟩⟩]
    let position : Position := ⟨2, 1⟩
    let p : Performer := ⟨.common, .usual⟩
    let copies (s : State) (pairs : List (UInt32 × UInt32)) : State :=
      pairs.foldl (State.copyBar p.signature.beatsPerBar position) (s.dropPitches position)
    ∃ s, elements.foldlM p.step .initial = .ok s ∧
      ∃ s₀ since, (uptoClear elements).foldlM p.step .initial = .ok s₀ ∧
        s.events.toList = s₀.events.toList ++ since ∧
        s.history.Indexes p.signature.beatsPerBar since ∧
        copyPairs (.range 4 5) (.bars (.range 1 2)) position = .ok [(1, 4), (2, 5)] ∧
        p.step s ⟨.copy (.range 4 5) (.bars (.range 1 2)), position⟩ =
          .ok (copies s [(1, 4), (2, 5)]) ∧
        ∃ more, (copies s [(1, 4)]).events.toList = s₀.events.toList ++ (since ++ more) ∧
          (copies s [(1, 4)]).history.Indexes p.signature.beatsPerBar (since ++ more) ∧
          Replays p.signature.beatsPerBar position (since ++ more) 2 5 (copies s [(1, 4)])
            (copies s [(1, 4), (2, 5)]) := by
  intro elements position p copies
  have hok : (elements.foldlM p.step .initial).isOk := by decide +kernel
  have hpairs : copyPairs (.range 4 5) (.bars (.range 1 2)) position = .ok [(1, 4), (2, 5)] := by
    decide +kernel
  cases h : elements.foldlM p.step .initial with
  | error e =>
    rw [h] at hok
    cases hok
  | ok s =>
    obtain ⟨s₀, since, h₀, hevents, hindexes, hcopy⟩ := history_indexes h
    obtain ⟨hstep, hbars⟩ := hcopy _ _ position _ hpairs
    exact ⟨s, rfl, s₀, since, h₀, hevents, hindexes, hpairs, hstep,
      hbars [(1, 4)] 2 5 [] rfl (by decide)⟩

end Barline.Score
