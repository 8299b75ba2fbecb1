import Barline.Proofs.Score.Matching
import Barline.Proofs.Score.Remarks

/-!
# Groups of pitches

Pitches that are gathered together share one fate. A time position places them, a copy or a clear
lets go of them, or the score ends. Every pitch of a text belongs to one group, and every group is
either placed in full or counted by one remark, so no pitch is lost without a word.
-/

namespace Barline.Score

/-- The pitch that an element gathers. -/
def Element.pitch? : Element → Option UInt8
  | .pitch n => some n
  | _ => none

def Element.isPosition : Element → Bool
  | .position .. => true
  | _ => false

/-- Whether no pitches are at hand behind an element, whatever came before. -/
def Element.drops : Element → Bool
  | .copy .. | .clear => true
  | _ => false

/-- Whether an element settles what becomes of the pitches gathered before it. -/
def Element.settles (e : Element) : Bool := e.isPosition || e.drops

lemma Element.of_isPosition {e : Element} (h : e.isPosition) :
    e.pitch? = none ∧ e.drops = false ∧ e.settles = true := by
  cases e <;> first | exact ⟨rfl, rfl, rfl⟩ | cases h

lemma Element.of_drops {e : Element} (h : e.drops) :
    e.pitch? = none ∧ e.isPosition = false ∧ e.settles = true := by
  cases e <;> first | exact ⟨rfl, rfl, rfl⟩ | cases h

/-- The pitch that an element gathers, and where. -/
def pitchAt? (e : Located Element) : Option (Located UInt8) :=
  e.value.pitch?.map fun pitch => ⟨pitch, e.position⟩

/-- Pitches that are gathered together, and the element that settles what becomes of them. There is
none if the score ends first. -/
structure Group where
  pitches : List (Located UInt8)
  settler : Option (Located Element)

namespace Group

/-- The group of some pitches, if there are any. -/
def of (pitches : List (Located UInt8)) (settler : Option (Located Element)) : List Group :=
  if pitches.isEmpty then [] else [⟨pitches, settler⟩]

def isPlaced (g : Group) : Bool := g.settler.any (·.value.isPosition)

/-- The remark that counts the pitches of a group, unless a time position places them. -/
def remark? (g : Group) : Option Advisory :=
  match g.settler with
  | none => g.pitches.head?.map fun first => ⟨.neverPlaced g.pitches.length, first.position⟩
  | some e =>
    if e.value.isPosition then none else some ⟨.unflushedPitches g.pitches.length, e.position⟩

end Group

/-- The groups of a score, the first of which begins with pitches gathered already. -/
def groupsFrom (gathered : List (Located UInt8)) : Elements → List Group
  | [] => Group.of gathered none
  | e :: elements =>
    if e.value.settles then Group.of gathered (some e) ++ groupsFrom [] elements
    else groupsFrom (gathered ++ (pitchAt? e).toList) elements

def groups (elements : Elements) : List Group := groupsFrom [] elements

/-- How many pitches a remark counts, if it is about pitches that are not placed. -/
def Remark.count? : Remark → Option ℕ
  | .unflushedPitches n | .neverPlaced n => some n
  | _ => none

def counting (advisories : List Advisory) : List Advisory :=
  advisories.filter (·.value.count?.isSome)

section

variable {gathered : List (Located UInt8)} {settler : Option (Located Element)} {g : Group}

lemma Group.of_ne_nil (h : gathered ≠ []) : Group.of gathered settler = [⟨gathered, settler⟩] := by
  unfold Group.of
  rw [if_neg (by simpa using h)]

lemma Group.mem_of (h : g ∈ Group.of gathered settler) :
    g = ⟨gathered, settler⟩ ∧ gathered ≠ [] := by
  unfold Group.of at h
  split_ifs at h with hempty
  · cases h
  · exact ⟨List.mem_singleton.mp h, by simpa using hempty⟩

lemma Group.of_flatMap_pitches : (Group.of gathered settler).flatMap (·.pitches) = gathered := by
  by_cases h : gathered = []
  · subst h
    rfl
  · rw [Group.of_ne_nil h, List.flatMap_singleton]

lemma pitchAt?_of_settles {e : Located Element} (h : e.value.settles) : pitchAt? e = none := by
  obtain ⟨value, position⟩ := e
  cases value <;> first | rfl | cases h

lemma groupsFrom_flatMap_pitches (gathered : List (Located UInt8)) (elements : Elements) :
    (groupsFrom gathered elements).flatMap (·.pitches) =
      gathered ++ elements.filterMap pitchAt? := by
  induction elements generalizing gathered with
  | nil => rw [groupsFrom, Group.of_flatMap_pitches, List.filterMap_nil, List.append_nil]
  | cons e elements ih =>
    rw [groupsFrom]
    split_ifs with hsettles
    · rw [List.flatMap_append, Group.of_flatMap_pitches, ih,
        List.filterMap_cons_none (pitchAt?_of_settles hsettles), List.nil_append]
    · rw [ih, List.append_assoc]
      cases hpitch : pitchAt? e with
      | none => rw [List.filterMap_cons_none hpitch, Option.toList_none, List.nil_append]
      | some pitch =>
        rw [List.filterMap_cons_some hpitch, Option.toList_some, List.singleton_append]

lemma pitches_ne_nil_of_mem {elements : Elements} (h : g ∈ groupsFrom gathered elements) :
    g.pitches ≠ [] := by
  induction elements generalizing gathered with
  | nil =>
    obtain ⟨rfl, hne⟩ := Group.mem_of h
    exact hne
  | cons e elements ih =>
    rw [groupsFrom] at h
    split_ifs at h
    · rcases List.mem_append.mp h with h | h
      · obtain ⟨rfl, hne⟩ := Group.mem_of h
        exact hne
      · exact ih h
    · exact ih h

lemma Group.length_eq (h : g.pitches ≠ []) :
    g.pitches.length = (if g.isPlaced then g.pitches.length else 0) +
      ((g.remark?.bind (·.value.count?)).getD 0) := by
  obtain ⟨pitches, settler⟩ := g
  obtain ⟨first, rest, rfl⟩ := List.exists_cons_of_ne_nil h
  cases settler with
  | none => simp [Group.isPlaced, Group.remark?, Remark.count?]
  | some e => cases hposition : e.value.isPosition <;>
    simp [Group.isPlaced, Group.remark?, Remark.count?, hposition]

/-- The pitches of all groups, those that are placed and those that are counted. -/
lemma sum_length {gs : List Group} (h : ∀ g ∈ gs, g.pitches ≠ []) :
    (gs.flatMap (·.pitches)).length = ((gs.filter (·.isPlaced)).map (·.pitches.length)).sum +
      ((gs.filterMap Group.remark?).filterMap (·.value.count?)).sum := by
  induction gs with
  | nil => rfl
  | cons g gs ih =>
    have hg := Group.length_eq (h g List.mem_cons_self)
    have hgs := ih fun g' hg' => h g' (List.mem_cons_of_mem _ hg')
    rw [List.flatMap_cons, List.length_append, hgs]
    have hplaced : (((g :: gs).filter (·.isPlaced)).map (·.pitches.length)).sum =
        (if g.isPlaced then g.pitches.length else 0) +
          ((gs.filter (·.isPlaced)).map (·.pitches.length)).sum := by
      cases h : g.isPlaced <;> simp [h]
    have hcounted : (((g :: gs).filterMap Group.remark?).filterMap (·.value.count?)).sum =
        (g.remark?.bind (·.value.count?)).getD 0 +
          ((gs.filterMap Group.remark?).filterMap (·.value.count?)).sum := by
      cases h : g.remark? with
      | none => simp [h]
      | some a => cases h' : a.value.count? <;> simp [h, h']
    omega

end

/-- The pitches that wait in a buffer are those gathered, in order, from where the first stands. -/
inductive Buffer.Holds : List (Located UInt8) → Buffer → Prop
  | idle (unused : Option Position) : Holds [] (.idle unused)
  | placed (pitches : List Pending) (changed : Option Position) : Holds [] (.placed pitches changed)
  | collecting {first : Located UInt8} {rest : List (Located UInt8)} {pitches : List Pending}
    (h : pitches.map (·.pitch) = (first :: rest).map (·.value)) :
    Holds (first :: rest) (.collecting pitches first.position)

section

variable {p : Performer} {s s' : State} {e : Located Element} {gathered : List (Located UInt8)}

lemma counting_append (as bs : List Advisory) : counting (as ++ bs) = counting as ++ counting bs :=
  List.filter_append ..

lemma State.Keeps.counting_eq (h : s.Keeps s') :
    counting s'.advisories.toList = counting s.advisories.toList := by
  refine h.filter_eq (fun remark => remark.count?.isSome) ?_
  intro remark hcount
  cases remark <;> first | rfl | cases hcount

lemma length_of_pitches_eq {first : Located UInt8} {rest : List (Located UInt8)}
    {pitches : List Pending} (h : pitches.map (·.pitch) = (first :: rest).map (·.value)) :
    pitches.length = (first :: rest).length := by
  simpa using congrArg List.length h

lemma State.dropPitches_counting (hs : s.buffer.Holds gathered) (h : e.value.drops) :
    counting (s.dropPitches e.position).advisories.toList =
      counting s.advisories.toList ++ (Group.of gathered (some e)).filterMap Group.remark? := by
  have hposition : e.value.isPosition = false := (Element.of_drops h).2.1
  rw [State.dropPitches_advisories, counting_append]
  congr 1
  generalize s.buffer = buffer at hs ⊢
  cases hs with
  | idle unused => rfl
  | placed pitches changed => rfl
  | collecting hvalues =>
    rw [Group.of_ne_nil (List.cons_ne_nil _ _)]
    simp [counting, Remark.count?, Group.remark?, hposition, length_of_pitches_eq hvalues]

lemma State.finish_counting (hs : s.buffer.Holds gathered) :
    counting s.finish.advisories.toList =
      counting s.advisories.toList ++ (Group.of gathered none).filterMap Group.remark? := by
  rw [State.finish_advisories, counting_append]
  congr 1
  generalize s.buffer = buffer at hs ⊢
  cases hs with
  | idle unused => cases unused <;> rfl
  | placed pitches changed => cases changed <;> rfl
  | collecting hvalues =>
    rw [Group.of_ne_nil (List.cons_ne_nil _ _)]
    simp [counting, Remark.count?, Group.remark?, length_of_pitches_eq hvalues]

lemma State.addPitch_holds (hs : s.buffer.Holds gathered) (pitch : UInt8) (position : Position) :
    (s.addPitch pitch position).buffer.Holds (gathered ++ [⟨pitch, position⟩]) := by
  unfold State.addPitch
  dsimp only
  generalize s.buffer = buffer at hs ⊢
  cases hs with
  | idle unused => exact @Buffer.Holds.collecting ⟨pitch, position⟩ [] _ rfl
  | placed pitches changed => exact @Buffer.Holds.collecting ⟨pitch, position⟩ [] _ rfl
  | collecting hvalues =>
    refine .collecting ?_
    rw [List.map_append, hvalues]
    simp

lemma State.change_holds (hs : s.buffer.Holds gathered) (c : Change) (position : Position) :
    (s.change c position).buffer.Holds gathered := by
  rw [State.change_buffer]
  generalize s.buffer = buffer at hs ⊢
  cases hs with
  | idle unused => exact .idle _
  | placed pitches changed => exact .placed _ _
  | collecting hvalues =>
    refine .collecting ?_
    rw [List.map_map, ← hvalues]
    rfl

lemma State.settle_holds {s₁ : State} (hs : s.buffer.Holds gathered) (hs₁ : s.Keeps s₁) :
    (s.settle s₁).buffer.Holds [] ∧
      counting (s.settle s₁).advisories.toList = counting s.advisories.toList := by
  rw [← hs₁.counting_eq]
  have hbuffer := hs₁.buffer
  unfold State.settle
  generalize s.buffer = buffer at hs hbuffer ⊢
  cases hs with
  | idle unused =>
    dsimp only
    rw [hbuffer]
    exact ⟨.idle unused, rfl⟩
  | placed pitches changed => exact ⟨.placed _ _, rfl⟩
  | collecting hvalues => exact ⟨.placed _ _, rfl⟩

lemma remark?_of_position (gathered : List (Located UInt8)) {e : Located Element}
    (h : e.value.isPosition) : (Group.of gathered (some e)).filterMap Group.remark? = [] := by
  unfold Group.of
  split_ifs
  · rfl
  · simp [Group.remark?, h]

/-- Every step gathers, settles or leaves alone what waits, and counts what it lets go of. -/
theorem step_holds (hs : s.buffer.Holds gathered) (h : p.step s e = .ok s') :
    s'.buffer.Holds (if e.value.settles then [] else gathered ++ (pitchAt? e).toList) ∧
      counting s'.advisories.toList = counting s.advisories.toList ++
        if e.value.settles then (Group.of gathered (some e)).filterMap Group.remark? else [] := by
  obtain ⟨value, position⟩ := e
  cases steps_of_step h with
  | @pitch pitch hvalue =>
    obtain rfl : value = .pitch pitch := hvalue
    refine ⟨s.addPitch_holds hs pitch position, ?_⟩
    obtain ⟨pitches, began, -, heq⟩ := s.addPitch_eq pitch position
    change counting (s.addPitch pitch position).advisories.toList = _ ++ []
    rw [heq, List.append_nil]
  | @change c hvalue =>
    have hsettles : value.settles = false := by
      cases value <;> first | rfl | cases hvalue
    have hpitch : pitchAt? ⟨value, position⟩ = none := by
      cases value <;> first | rfl | cases hvalue
    -- a change may remark on another change, but that counts no pitches
    have hnone : counting ((s.unplaced.get c.parameter).toList.map
        fun superseded => ⟨.unusedChange, superseded⟩) = [] := by
      cases s.unplaced.get c.parameter <;> rfl
    rw [hsettles, hpitch, State.change_advisories, counting_append, hnone]
    exact ⟨(List.append_nil gathered).symm ▸ s.change_holds hs c position, rfl⟩
  | @position bar beat _ hvalue hplace =>
    obtain rfl : value = .position bar beat := hvalue
    obtain ⟨s₁, hs₁, rfl⟩ := State.place_eq_settle hplace
    obtain ⟨hholds, hcounting⟩ := State.settle_holds hs hs₁
    have hnone := remark?_of_position gathered (e := ⟨.position bar beat, position⟩) rfl
    refine ⟨hholds, ?_⟩
    rw [hcounting, hnone, ite_self, List.append_nil]
  | @copy destination source pairs hvalue =>
    obtain rfl : value = .copy destination source := hvalue
    have hkeeps := State.keeps_copyBars p.signature.beatsPerBar position
      (s.dropPitches position) pairs
    have hcounting := State.dropPitches_counting (e := ⟨.copy destination source, position⟩) hs rfl
    refine ⟨?_, hkeeps.counting_eq.trans hcounting⟩
    rw [hkeeps.buffer, State.dropPitches_buffer]
    exact .idle _
  | clear hvalue =>
    obtain rfl : value = .clear := hvalue
    refine ⟨?_, State.dropPitches_counting (e := ⟨.clear, position⟩) hs rfl⟩
    change (s.dropPitches position).buffer.Holds []
    rw [State.dropPitches_buffer]
    exact .idle _

end

section

variable {p : Performer} {s s' : State} {elements : Elements} {gathered : List (Located UInt8)}

lemma foldlM_cons_eq_ok {e : Located Element}
    (h : (e :: elements).foldlM p.step s = .ok s') :
    ∃ s₁, p.step s e = .ok s₁ ∧ elements.foldlM p.step s₁ = .ok s' := by
  have hsplit : ([] ++ e :: elements).foldlM p.step s = .ok s' := h
  obtain ⟨s₀, s₁, h₀, h₁, h₂⟩ := run_split hsplit
  obtain rfl := Except.ok.inj h₀
  exact ⟨s₁, h₁, h₂⟩

/-- A run counts the groups that it does not place, one by one. -/
theorem run_counting (hs : s.buffer.Holds gathered)
    (h : elements.foldlM p.step s = .ok s') :
    counting s'.finish.advisories.toList =
      counting s.advisories.toList ++ (groupsFrom gathered elements).filterMap Group.remark? := by
  -- the buffer holds what is gathered, and that carries through the run
  induction elements generalizing s gathered with
  | nil => exact Except.ok.inj h ▸ State.finish_counting hs
  | cons e elements ih =>
    obtain ⟨s₁, h₁, h⟩ := foldlM_cons_eq_ok h
    obtain ⟨hholds, hcounting⟩ := step_holds hs h₁
    rw [ih hholds h, hcounting, groupsFrom, List.append_assoc]
    split_ifs
    · rw [List.filterMap_append]
    · rw [List.nil_append]

/-- The pitches of a group wait in the buffer when the element that settles them comes. -/
theorem run_settles (hs : s.buffer.Holds gathered) (h : elements.foldlM p.step s = .ok s')
    {g : Group} (hg : g ∈ groupsFrom gathered elements) {e : Located Element}
    (hsettler : g.settler = some e) :
    ∃ before after s₁ s₂, elements = before ++ e :: after ∧ before.foldlM p.step s = .ok s₁ ∧
      p.step s₁ e = .ok s₂ ∧ after.foldlM p.step s₂ = .ok s' ∧ s₁.buffer.Holds g.pitches := by
  induction elements generalizing s gathered with
  | nil =>
    obtain ⟨rfl, -⟩ := Group.mem_of hg
    cases hsettler
  | cons f elements ih =>
    obtain ⟨s₁, h₁, h₂⟩ := foldlM_cons_eq_ok h
    have hholds := (step_holds hs h₁).1
    -- the group is settled by the first element or by a later one
    have hlater {gathered' : List (Located UInt8)} (hs₁ : s₁.buffer.Holds gathered')
        (hg : g ∈ groupsFrom gathered' elements) :
        ∃ before after t₁ t₂, f :: elements = before ++ e :: after ∧
          before.foldlM p.step s = .ok t₁ ∧ p.step t₁ e = .ok t₂ ∧
          after.foldlM p.step t₂ = .ok s' ∧ t₁.buffer.Holds g.pitches := by
      obtain ⟨before, after, t₁, t₂, rfl, ht₁, ht₂, hafter, hwaits⟩ := ih hs₁ h₂ hg
      refine ⟨f :: before, after, t₁, t₂, rfl, ?_, ht₂, hafter, hwaits⟩
      rw [List.foldlM_cons, h₁]
      exact ht₁
    rw [groupsFrom] at hg
    split_ifs at hg with hsettles
    · rw [if_pos hsettles] at hholds
      rcases List.mem_append.mp hg with hg | hg
      · obtain ⟨rfl, -⟩ := Group.mem_of hg
        obtain rfl := Option.some.inj hsettler
        exact ⟨[], elements, s, s₁, rfl, rfl, h₁, h₂, hs⟩
      · exact hlater hholds hg
    · rw [if_neg hsettles] at hholds
      exact hlater hholds hg

/-- A time position places the group that waits for it: at each of its beats one note for each
pitch, with the parameters that were said last. -/
theorem run_places (h : elements.foldlM p.step .initial = .ok s') {g : Group}
    (hg : g ∈ groups elements) {bar : Option UInt32} {beat : Beat} {position : Position}
    (hsettler : g.settler = some ⟨.position bar beat, position⟩) :
    ∃ before after s₁ s₂, elements = before ++ ⟨.position bar beat, position⟩ :: after ∧
      before.foldlM p.step .initial = .ok s₁ ∧
      p.step s₁ ⟨.position bar beat, position⟩ = .ok s₂ ∧ after.foldlM p.step s₂ = .ok s' ∧
      s₂.events.toList = s₁.events.toList ++
        (s₁.starts p.signature.beatsPerBar bar beat).flatMap fun start =>
          chordNotes (said p.signature.beatsPerBar before) start (g.pitches.map (·.value)) := by
  obtain ⟨before, after, s₁, s₂, hsplit, h₁, h₂, h₃, hholds⟩ :=
    run_settles (s := .initial) (.idle none) h hg hsettler
  refine ⟨before, after, s₁, s₂, hsplit, h₁, h₂, h₃, ?_⟩
  obtain ⟨hbound, hsaid⟩ := run_bound h₁
  have hne : g.pitches ≠ [] := pitches_ne_nil_of_mem hg
  have hpitches : s₁.buffer.pitches.map (·.pitch) = g.pitches.map (·.value) := by
    generalize s₁.buffer = buffer at hholds ⊢
    generalize g.pitches = gathered at hholds hne ⊢
    cases hholds with
    | idle unused => exact absurd rfl hne
    | placed pitches changed => exact absurd rfl hne
    | collecting hvalues => exact hvalues
  have hplace : s₁.place p.signature.beatsPerBar p.settings.repeatLimit bar beat position =
      .ok s₂ := h₂
  obtain ⟨-, -, hextends⟩ := place_eq_ok hplace
  rw [hextends.events, hbound.placed_eq, hsaid, hpitches]

end

/-- What becomes of the pitches of a run, and of the performance that it makes. -/
structure Accounted (p : Performer) (elements : Elements) (s : State)
    (performance : Performance) : Prop where
  /-- The groups have each of the pitches once. -/
  pitches : (groups elements).flatMap (·.pitches) = elements.filterMap pitchAt?
  /-- A time position places the group that it settles in full. -/
  placed : ∀ g ∈ groups elements, ∀ bar beat position,
    g.settler = some ⟨.position bar beat, position⟩ →
    ∃ before after s₁ s₂, elements = before ++ ⟨.position bar beat, position⟩ :: after ∧
      before.foldlM p.step .initial = .ok s₁ ∧
      p.step s₁ ⟨.position bar beat, position⟩ = .ok s₂ ∧ after.foldlM p.step s₂ = .ok s ∧
      s₂.events.toList = s₁.events.toList ++
        (s₁.starts p.signature.beatsPerBar bar beat).flatMap fun start =>
          chordNotes (said p.signature.beatsPerBar before) start (g.pitches.map (·.value))
  /-- The performance has the notes of the run, in quarter notes, that no deletion takes. -/
  spared : ∃ taken,
    Matched p.settings.deletionWindow (s.events.toList.map p.inQuarters) taken ∧
      SortedByStart ((Score.spared (s.events.toList.map p.inQuarters) taken).map (·.1))
        performance.events
  events : performance.events = p.arrange s.events.toList
  /-- Each of the other groups is counted by one remark, and no remark counts anything else. -/
  counted : performance.advisories.filter (·.value.count?.isSome) =
    (groups elements).filterMap Group.remark?
  /-- The pitches are as many as those of the placed groups and those that are counted. -/
  total : (elements.filterMap pitchAt?).length =
    (((groups elements).filter (·.isPlaced)).map (·.pitches.length)).sum +
      (performance.advisories.filterMap (·.value.count?)).sum

/-- **No pitch is lost.** Whatever text compiles, each of its pitches is in one group, and each
group is either placed in full or counted by one remark. -/
theorem compile_groups {timing : Timing} {settings : Settings} {text : List Char}
    {performance : Performance} (h : compile timing settings text = .ok performance) :
    ∃ p elements s, Performer.make timing settings = .ok p ∧ parse text = .ok elements ∧
      elements.foldlM p.step .initial = .ok s ∧ Accounted p elements s performance := by
  obtain ⟨p, elements, s, hp, hparse, hs, rfl⟩ := compile_eq_finish h
  have hpitches : (groups elements).flatMap (·.pitches) = elements.filterMap pitchAt? :=
    groupsFrom_flatMap_pitches [] elements
  have hcounting : counting s.finish.advisories.toList =
      (groups elements).filterMap Group.remark? := run_counting (s := .initial) (.idle none) hs
  have hcounts : s.finish.advisories.toList.filterMap (·.value.count?) =
      (counting s.finish.advisories.toList).filterMap (·.value.count?) := by
    unfold counting
    rw [List.filterMap_filter]
    refine List.filterMap_congr fun a _ => ?_
    cases a.value.count? <;> rfl
  refine ⟨p, elements, s, hp, hparse, hs, hpitches, ?_, ?_, rfl, hcounting, ?_⟩
  · intro g hg bar beat position hsettler
    exact run_places hs hg hsettler
  · -- the matching that is carried out is the only one
    refine ⟨_, matched_takenBy _, ?_⟩
    rw [← applyDeletions_eq]
    exact sortedByStart_mergeSort _
  · rw [hcounts, hcounting, ← hpitches]
    exact sum_length fun g hg => pitches_ne_nil_of_mem hg

/-- Two pitches that are placed twice and then copied, one that the copy drops and one at the
end. -/
theorem compile_groups_three :
    let note (pitch : UInt8) (start : Float) : Note := ⟨pitch, start, 1.0, 100.0, 1.0, 0.0⟩
    ∃ performance, compile .unstated .usual "C3 E3 1|1x2 D3 @2 v90 F3".toList = .ok performance ∧
      performance.events = [note 60 0.0, note 64 0.0, note 60 1.0, note 64 1.0, note 60 4.0,
        note 64 4.0, note 60 5.0, note 64 5.0] ∧
      performance.advisories = [⟨.unflushedPitches 1, ⟨1, 16⟩⟩, ⟨.neverPlaced 1, ⟨1, 23⟩⟩] ∧
      ∃ p elements s, Performer.make .unstated .usual = .ok p ∧
        parse "C3 E3 1|1x2 D3 @2 v90 F3".toList = .ok elements ∧
        elements.foldlM p.step .initial = .ok s ∧ Accounted p elements s performance := by
  intro note
  have hadvisories : (compile .unstated .usual
      "C3 E3 1|1x2 D3 @2 v90 F3".toList).toOption.map (·.advisories) =
        some [⟨.unflushedPitches 1, ⟨1, 16⟩⟩, ⟨.neverPlaced 1, ⟨1, 23⟩⟩] := by decide +kernel
  obtain ⟨performance, h, hremarks⟩ := exists_performance hadvisories
  obtain ⟨p, elements, s, hp, hparse, hs, haccounted⟩ := compile_groups h
  have hleft : ((Performer.make .unstated .usual).toOption.bind fun p =>
      (parse "C3 E3 1|1x2 D3 @2 v90 F3".toList).toOption.bind fun elements =>
      (elements.foldlM p.step .initial).toOption.map fun s =>
        applyDeletions p.settings.deletionWindow (s.events.toList.map p.inQuarters)) =
      some [note 60 0.0, note 64 0.0, note 60 1.0, note 64 1.0, note 60 4.0, note 64 4.0,
        note 60 5.0, note 64 5.0] := by decide +kernel
  simp only [hp, hparse, hs, Except.toOption, Option.bind_some, Option.map_some,
    Option.some_inj] at hleft
  refine ⟨performance, h, ?_, hremarks, p, elements, s, hp, hparse, hs, haccounted⟩
  rw [haccounted.events, Performer.arrange, hleft]
  exact List.mergeSort_of_pairwise (by decide +kernel)

end Barline.Score
