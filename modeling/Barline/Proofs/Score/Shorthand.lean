import Barline.Proofs.Score.Origins
import Barline.Proofs.Score.Remarks

/-!
# Shorthand

A copy of several bars is short for copies of one bar each, and a series of beats is short for
single beats. Written out they leave the same state behind, apart from the remark on a long series.
-/

namespace Barline.Score

/-- Copies of one bar each, all at one position. -/
def singleCopies (position : Position) (count : ℕ) (destination : ℕ → UInt32)
    (source : ℕ → Source) : Elements :=
  (List.range count).map fun i => ⟨.copy (.single (destination i)) (source i), position⟩

/-- One element leaves the same state behind as others, performed one after another. -/
def Performer.Abbreviates (p : Performer) (s : State) (e : Located Element) (es : Elements) :
    Prop :=
  ∃ s', p.step s e = .ok s' ∧ es.foldlM p.step s = .ok s'

section

variable {p : Performer} {s : State} {position : Position} {destination : ℕ → UInt32}
  {source : ℕ → Source} {pair : ℕ → UInt32 × UInt32} {a b f l : UInt32} {i count : ℕ}

lemma State.dropPitches_of_idle {unused : Option Position} (h : s.buffer = .idle unused) :
    s.dropPitches position = s := by
  unfold dropPitches
  rw [h]

/-- Single copies from a state without pitches do what a copy of all their bars does. -/
lemma run_copies_of_idle {is : List ℕ} {unused : Option Position} (h : s.buffer = .idle unused)
    (hpair : ∀ i ∈ is, copyPairs (.single (destination i)) (source i) position = .ok [pair i]) :
    (is.map fun i => ⟨.copy (.single (destination i)) (source i), position⟩).foldlM p.step s =
      .ok ((is.map pair).foldl (State.copyBar p.signature.beatsPerBar position) s) := by
  induction is generalizing s with
  | nil => rfl
  | cons i is ih =>
    obtain ⟨hi, his⟩ := List.forall_mem_cons.mp hpair
    have hstep := step_copy p s hi
    rw [State.dropPitches_of_idle h] at hstep
    have hbuffer := (copyBars_eq p.signature.beatsPerBar position s [pair i]).2
    rw [List.map_cons, List.foldlM_cons, hstep]
    exact ih (hbuffer.trans h) his

/-- The pitches at hand are let go of once, by the first of the copies. -/
theorem abbreviates_copies {bars : Bars} {origin : Source} (hcount : count ≠ 0)
    (hpair : ∀ i < count, copyPairs (.single (destination i)) (source i) position = .ok [pair i])
    (hpairs : copyPairs bars origin position = .ok ((List.range count).map pair)) :
    p.Abbreviates s ⟨.copy bars origin, position⟩
      (singleCopies position count destination source) := by
  have hbuffer := s.dropPitches_buffer position
  have hidle := run_copies_of_idle (p := p) hbuffer fun i hi => hpair i (List.mem_range.mp hi)
  refine ⟨_, step_copy p s hpairs, ?_⟩
  rw [← hidle]
  unfold singleCopies
  obtain ⟨n, rfl⟩ := Nat.exists_eq_add_one_of_ne_zero hcount
  rw [List.range_succ_eq_map, List.map_cons, List.foldlM_cons, List.foldlM_cons,
    step_copy p s (hpair 0 hcount.bot_lt), step_copy p _ (hpair 0 hcount.bot_lt),
    State.dropPitches_of_idle hbuffer]

lemma add_ofNat (n : UInt32) (i : ℕ) : n + .ofNat i = .ofNat (n.toNat + i) := by
  rw [UInt32.ofNat_add, UInt32.ofNat_toNat]

lemma ofNat_sub (n : UInt32) (i : ℕ) : UInt32.ofNat (n.toNat + i) - n = .ofNat i := by
  rw [← add_ofNat, add_comm, add_sub_cancel_right]

lemma map_barsFrom {g : UInt32 → UInt32 × UInt32} (hab : a ≤ b)
    (h : ∀ i < b.toNat - a.toNat + 1, g (.ofNat (a.toNat + i)) = pair i) :
    (barsFrom a b).map g = (List.range (b.toNat - a.toNat + 1)).map pair := by
  rw [UInt32.le_iff_toNat_le] at hab
  have hcount : b.toNat + 1 - a.toNat = b.toNat - a.toNat + 1 := by omega
  unfold barsFrom
  rw [hcount, List.map_map]
  apply List.map_congr_left
  intro i hi
  rw [Function.comp_apply, add_ofNat]
  exact h i (List.mem_range.mp hi)

lemma bar_ne_one (ha : 1 ≤ a) (hne : a ≠ 1) (hab : a ≤ b) (hi : i < b.toNat - a.toNat + 1) :
    UInt32.ofNat (a.toNat + i) ≠ 1 := by
  have h1 : (1 : UInt32).toNat = 1 := rfl
  have hb := b.toNat_lt
  rw [UInt32.le_iff_toNat_le] at ha hab
  rw [← UInt32.toNat_inj.ne] at hne
  intro h
  have hbar : (UInt32.ofNat (a.toNat + i)).toNat = a.toNat + i :=
    UInt32.toNat_ofNat_of_lt' (by change _ < 2 ^ 32; omega)
  rw [h, h1] at hbar
  omega

/-- The number of sources does not wrap around, as bars count from one. -/
lemma toNat_turns (hf : 1 ≤ f) (hfl : f ≤ l) :
    (l - f + 1).toNat = l.toNat - f.toNat + 1 := by
  have h1 : (1 : UInt32).toNat = 1 := rfl
  have hl := l.toNat_lt
  rw [UInt32.toNat_add, UInt32.toNat_sub_of_le _ _ hfl, h1]
  rw [UInt32.le_iff_toNat_le, h1] at hf
  rw [UInt32.le_iff_toNat_le] at hfl
  exact Nat.mod_eq_of_lt (by omega)

lemma source_bar (hf : 1 ≤ f) (hfl : f ≤ l) (hi : i < b.toNat - a.toNat + 1) :
    f + (UInt32.ofNat (a.toNat + i) - a) % (l - f + 1) =
      .ofNat (f.toNat + i % (l.toNat - f.toNat + 1)) := by
  have hsmall : i < 2 ^ 32 := by
    have hb := b.toNat_lt
    omega
  rw [ofNat_sub, ← add_ofNat]
  congr 1
  apply UInt32.toNat_inj.mp
  rw [UInt32.toNat_mod, toNat_turns hf hfl, UInt32.toNat_ofNat_of_lt' hsmall,
    UInt32.toNat_ofNat_of_lt']
  exact (Nat.mod_le _ _).trans_lt hsmall

lemma step_copy_error (p : Performer) (s : State) {bars : Bars} {origin : Source} {e : Error}
    (h : copyPairs bars origin position = .error e) :
    p.step s ⟨.copy bars origin, position⟩ = .error e := by
  change s.copy _ bars origin position = _
  unfold State.copy
  rw [h]
  rfl

lemma abbreviates_onto (p : Performer) (s : State) (bar : UInt32) (hab : a ≤ b) :
    p.Abbreviates s ⟨.copy (.range a b) (.bars (.single bar)), position⟩
      (singleCopies position (b.toNat - a.toNat + 1) (fun i => .ofNat (a.toNat + i))
        fun _ => .bars (.single bar)) := by
  refine abbreviates_copies (Nat.succ_ne_zero _) (fun i _ => rfl) ?_
  exact congrArg Except.ok (map_barsFrom hab fun i _ => rfl)

lemma abbreviates_previous (p : Performer) (s : State) (ha : 1 ≤ a) (hne : a ≠ 1) (hab : a ≤ b) :
    p.Abbreviates s ⟨.copy (.range a b) .previous, position⟩
      (singleCopies position (b.toNat - a.toNat + 1) (fun i => .ofNat (a.toNat + i))
        fun _ => .previous) := by
  have hpairs : copyPairs (.range a b) .previous position =
      .ok ((barsFrom a b).map fun d => (d - 1, d)) := if_neg hne
  refine abbreviates_copies (Nat.succ_ne_zero _)
    (fun i hi => if_neg (bar_ne_one ha hne hab hi)) ?_
  rw [hpairs]
  exact congrArg Except.ok (map_barsFrom hab fun i _ => rfl)

lemma abbreviates_from (p : Performer) (s : State) (d : UInt32) (hfl : f ≤ l)
    (hroom : d.toNat + (l.toNat - f.toNat) < 2 ^ 32) :
    p.Abbreviates s ⟨.copy (.single d) (.bars (.range f l)), position⟩
      (singleCopies position (l.toNat - f.toNat + 1) (fun i => .ofNat (d.toNat + i))
        fun i => .bars (.single (.ofNat (f.toNat + i)))) := by
  have hpairs : copyPairs (.single d) (.bars (.range f l)) position =
      .ok ((barsFrom f l).map fun source => (source, d + (source - f))) := if_pos hroom
  refine abbreviates_copies (Nat.succ_ne_zero _) (fun i _ => rfl) ?_
  rw [hpairs]
  refine congrArg Except.ok (map_barsFrom hfl fun i _ => ?_)
  rw [ofNat_sub, add_ofNat]

lemma abbreviates_turns (p : Performer) (s : State) (hab : a ≤ b) (hf : 1 ≤ f) (hfl : f ≤ l) :
    p.Abbreviates s ⟨.copy (.range a b) (.bars (.range f l)), position⟩
      (singleCopies position (b.toNat - a.toNat + 1) (fun i => .ofNat (a.toNat + i))
        fun i => .bars (.single (.ofNat (f.toNat + i % (l.toNat - f.toNat + 1))))) := by
  refine abbreviates_copies (Nat.succ_ne_zero _) (fun i _ => rfl) ?_
  refine congrArg Except.ok (map_barsFrom hab fun i hi => ?_)
  rw [source_bar hf hfl hi]

end

/-- **Ranges of bars.** From every state, a copy of several bars leaves behind what copies of one
bar each leave behind, performed in order: onto a range from one bar, from the bars before it, onto
the bars from one on, and onto a range from another range, whose bars take turns. It is refused
exactly if a bar would be read before the first or written past the last. -/
theorem copy_ranges (p : Performer) (s : State) (position : Position) (bar d : UInt32)
    {a b f l : UInt32} (ha : 1 ≤ a) (hab : a ≤ b) (hf : 1 ≤ f) (hfl : f ≤ l) :
    p.Abbreviates s ⟨.copy (.range a b) (.bars (.single bar)), position⟩
        (singleCopies position (b.toNat - a.toNat + 1) (fun i => .ofNat (a.toNat + i))
          fun _ => .bars (.single bar)) ∧
      (if a = 1 then
        p.step s ⟨.copy (.range a b) .previous, position⟩ =
          .error (.domain .nothingBeforeFirstBar (some position))
      else
        p.Abbreviates s ⟨.copy (.range a b) .previous, position⟩
          (singleCopies position (b.toNat - a.toNat + 1) (fun i => .ofNat (a.toNat + i))
            fun _ => .previous)) ∧
      (if d.toNat + (l.toNat - f.toNat) < 2 ^ 32 then
        p.Abbreviates s ⟨.copy (.single d) (.bars (.range f l)), position⟩
          (singleCopies position (l.toNat - f.toNat + 1) (fun i => .ofNat (d.toNat + i))
            fun i => .bars (.single (.ofNat (f.toNat + i))))
      else
        p.step s ⟨.copy (.single d) (.bars (.range f l)), position⟩ =
          .error (.domain (.copyPastLastBar f l d) (some position))) ∧
      p.Abbreviates s ⟨.copy (.range a b) (.bars (.range f l)), position⟩
        (singleCopies position (b.toNat - a.toNat + 1) (fun i => .ofNat (a.toNat + i))
          fun i => .bars (.single (.ofNat (f.toNat + i % (l.toNat - f.toNat + 1))))) := by
  refine ⟨abbreviates_onto p s bar hab, ?_, ?_, abbreviates_turns p s hab hf hfl⟩
  · split_ifs with hfirst
    · exact step_copy_error p s (if_pos hfirst)
    · exact abbreviates_previous p s ha hfirst hab
  · split_ifs with hroom
    · exact abbreviates_from p s d hfl hroom
    · exact step_copy_error p s (if_neg hroom)

/-- Three bars that copies fill while a pitch is at hand, and a range that runs past the last
bar. -/
theorem copy_ranges_three :
    let elements : Elements := [⟨.pitch 60, ⟨1, 1⟩⟩, ⟨.position (some 1) (.single 1.0), ⟨1, 6⟩⟩,
      ⟨.pitch 62, ⟨1, 8⟩⟩]
    let position : Position := ⟨2, 1⟩
    let p : Performer := ⟨.common, .usual⟩
    let copies (sources : List Source) : Elements :=
      (sources.zip [2, 3, 4]).map fun x => ⟨.copy (.single x.2) x.1, position⟩
    ∃ s, elements.foldlM p.step .initial = .ok s ∧
      p.Abbreviates s ⟨.copy (.range 2 4) (.bars (.single 3)), position⟩
        (copies [.bars (.single 3), .bars (.single 3), .bars (.single 3)]) ∧
      p.Abbreviates s ⟨.copy (.range 2 4) .previous, position⟩
        (copies [.previous, .previous, .previous]) ∧
      p.step s ⟨.copy (.single 4294967295) (.bars (.range 1 2)), position⟩ =
        .error (.domain (.copyPastLastBar 1 2 4294967295) (some position)) ∧
      p.Abbreviates s ⟨.copy (.range 2 4) (.bars (.range 1 2)), position⟩
        (copies [.bars (.single 1), .bars (.single 2), .bars (.single 1)]) := by
  intro elements position p copies
  have hok : (elements.foldlM p.step .initial).isOk := by decide +kernel
  cases h : elements.foldlM p.step .initial with
  | error e =>
    rw [h] at hok
    cases hok
  | ok s =>
    have h12 : (1 : UInt32) ≤ 2 := by decide
    have h24 : (2 : UInt32) ≤ 4 := by decide
    have h11 : (1 : UInt32) ≤ 1 := by decide
    obtain ⟨honto, hprevious, hfrom, hturns⟩ :=
      copy_ranges p s position 3 4294967295 h12 h24 h11 h12
    rw [if_neg (by decide)] at hprevious hfrom
    exact ⟨s, rfl, honto, hprevious, hfrom, hturns⟩

/-- Single beats, all at one position. -/
def singleBeats (position : Position) (bar : Option UInt32) (beats : List Float) : Elements :=
  beats.map fun beat => ⟨.position bar (.single beat), position⟩

/-- Placed notes carry all of the changes. -/
def State.carried (pitches : List Pending) (s : State) : State :=
  { s with buffer := .placed pitches none, unplaced := .settled }

section

variable {p : Performer} {s : State} {position : Position} {perBar : Float} {bar : Option UInt32}
  {beats : List Float}

lemma foldl_emit_map {f : State → State}
    (hf : ∀ s note, State.emit perBar (f s) note = f (State.emit perBar s note)) (s : State)
    (notes : List Note) :
    notes.foldl (State.emit perBar) (f s) = f (notes.foldl (State.emit perBar) s) := by
  induction notes generalizing s with
  | nil => rfl
  | cons note notes ih => rw [List.foldl_cons, hf, ih, List.foldl_cons]

lemma foldlM_placeAt_map {f : State → State} {pitches : List Pending} {n : UInt32}
    (hf : ∀ s note, State.emit perBar (f s) note = f (State.emit perBar s note)) (s : State) :
    beats.foldlM (State.placeAt perBar pitches n position) (f s) =
      (beats.foldlM (State.placeAt perBar pitches n position) s).map f := by
  induction beats generalizing s with
  | nil => rfl
  | cons beat beats ih =>
    rw [List.foldlM_cons, List.foldlM_cons]
    unfold State.placeAt
    dsimp only
    rw [foldl_emit_map hf]
    split_ifs
    · exact ih _
    · rfl

lemma Buffer.ne_idle {buffer : Buffer} (h : buffer.pitches ≠ []) :
    ∀ unused, buffer ≠ .idle unused := by
  rintro unused rfl
  exact h rfl

lemma placeAll_of_ne_idle (h : ∀ unused, s.buffer ≠ .idle unused) :
    s.placeAll perBar beats position =
      (beats.foldlM (State.placeAt perBar s.buffer.pitches (s.bar.getD 1) position) s).map
        (State.carried s.buffer.pitches) := by
  unfold State.placeAll
  cases hbuffer : s.buffer with
  | idle unused => exact absurd hbuffer (h unused)
  | collecting pitches began => rfl
  | placed pitches changed => rfl

lemma placeAll_map {f : State → State}
    (hemit : ∀ s note, State.emit perBar (f s) note = f (State.emit perBar s note))
    (hcarried : ∀ s pitches, (f s).carried pitches = f (s.carried pitches))
    (hbar : (f s).bar = s.bar) (hbuffer : (f s).buffer = s.buffer)
    (h : ∀ unused, s.buffer ≠ .idle unused) :
    (f s).placeAll perBar beats position = (s.placeAll perBar beats position).map f := by
  have hf : ∀ unused, (f s).buffer ≠ .idle unused := by rwa [hbuffer]
  rw [placeAll_of_ne_idle h, placeAll_of_ne_idle hf, hbar, hbuffer, foldlM_placeAt_map hemit]
  cases beats.foldlM (State.placeAt perBar s.buffer.pitches (s.bar.getD 1) position) s with
  | error e => rfl
  | ok s₁ => exact congrArg Except.ok (hcarried s₁ _)

lemma placeAll_cons (h : ∀ unused, s.buffer ≠ .idle unused) (beat : Float) :
    s.placeAll perBar (beat :: beats) position =
      s.placeAll perBar [beat] position >>= fun s' => s'.placeAll perBar beats position := by
  rw [placeAll_of_ne_idle h, placeAll_of_ne_idle h, List.foldlM_cons, List.foldlM_cons]
  cases hbeat : State.placeAt perBar s.buffer.pitches (s.bar.getD 1) position s beat with
  | error e => rfl
  | ok s₁ =>
    have hbar : s₁.bar = s.bar := by
      unfold State.placeAt at hbeat
      dsimp only at hbeat
      split_ifs at hbeat
      cases hbeat
      exact (s.foldl_emit perBar _).2.1
    -- the first beat has set the pitches down, where the other beats find them again
    have hrest : (s₁.carried s.buffer.pitches).placeAll perBar beats position = _ :=
      placeAll_of_ne_idle nofun
    rw [foldlM_placeAt_map fun s note => rfl] at hrest
    change (beats.foldlM (State.placeAt perBar s.buffer.pitches (s.bar.getD 1) position) s₁).map
      _ = (s₁.carried s.buffer.pitches).placeAll perBar beats position
    rw [hrest, ← hbar]
    change _ = ((beats.foldlM (State.placeAt perBar s.buffer.pitches (s₁.bar.getD 1) position)
      s₁).map _).map _
    cases beats.foldlM (State.placeAt perBar s.buffer.pitches (s₁.bar.getD 1) position) s₁ <;> rfl

lemma run_singleBeats (h : s.buffer.pitches ≠ []) (hbeats : beats ≠ []) :
    (singleBeats position bar beats).foldlM p.step s =
      ({ s with bar := bar <|> s.bar } : State).placeAll p.signature.beatsPerBar beats
        position := by
  induction beats generalizing s with
  | nil => exact absurd rfl hbeats
  | cons beat beats ih =>
    let t : State := { s with bar := bar <|> s.bar }
    have ht : t.buffer.pitches ≠ [] := h
    have hcons : t.placeAll p.signature.beatsPerBar (beat :: beats) position = _ :=
      placeAll_cons (Buffer.ne_idle ht) beat
    change t.placeAll _ [beat] position >>= (singleBeats position bar beats).foldlM p.step = _
    by_cases hlast : beats = []
    · rw [hlast]
      exact bind_pure _
    rw [hcons]
    cases hstep : t.placeAll p.signature.beatsPerBar [beat] position with
    | error e => rfl
    | ok s' =>
      -- each single beat names the bar anew, which changes nothing from the second on
      have hbar : (bar <|> s'.bar) = s'.bar := by
        rw [(placeAll_inRange hstep).1]
        cases bar <;> rfl
      have hpitches : s'.buffer.pitches ≠ [] := by
        rw [(placeAll_eq_ok hstep).2.1]
        exact ht
      have hrest := ih hpitches hlast
      rw [hbar] at hrest
      exact hrest

end

/-- **Series.** From every state with pitches at hand, a series of beats does what its beats do one
after another at the same position, with the same error. Only a remark on a series that is longer
than the user's limit comes on top. -/
theorem series_beats (p : Performer) (s : State) (position : Position) (bar : Option UInt32)
    (first : Float) {times : UInt32} {step : Option Float} (hpitches : s.buffer.pitches ≠ [])
    (htimes : 1 ≤ times) (hstep : (step.getD s.parameters.duration == 0.0) = false) :
    p.step s ⟨.position bar (.series first times step), position⟩ =
      ((singleBeats position bar ((List.range times.toNat).map fun i =>
        first + (UInt32.ofNat i).toFloat * step.getD s.parameters.duration)).foldlM p.step s).map
        fun s' => if p.settings.repeatLimit < times.toNat then
            s'.advise (.excessiveRepeat times p.settings.repeatLimit) position
          else s' := by
  let t : State := { s with bar := bar <|> s.bar }
  have ht : t.buffer.pitches ≠ [] := hpitches
  have hbeats : State.seriesBeats first (step.getD s.parameters.duration) times ≠ [] := by
    have hone : 1 ≤ times.toNat := UInt32.le_iff_toNat_le.mp htimes
    unfold State.seriesBeats
    intro hnone
    rw [List.map_eq_nil_iff, List.range_eq_nil] at hnone
    omega
  change s.place _ _ bar (.series first times step) position =
    ((singleBeats position bar (State.seriesBeats first _ times)).foldlM p.step s).map _
  rw [run_singleBeats hpitches hbeats]
  unfold State.place
  dsimp only
  rw [if_neg (Bool.not_eq_true _ ▸ hstep)]
  split_ifs
  · exact placeAll_map (f := fun s => s.advise _ position) (fun _ _ => rfl) (fun _ _ => rfl) rfl
      rfl (Buffer.ne_idle ht)
  · cases t.placeAll p.signature.beatsPerBar _ position <;> rfl

/-- A chord at three beats a quarter apart, where the user's limit is two. -/
theorem series_beats_chord :
    let elements : Elements := [⟨.pitch 60, ⟨1, 1⟩⟩, ⟨.pitch 64, ⟨1, 4⟩⟩]
    let position : Position := ⟨1, 7⟩
    let p : Performer := ⟨.common, ⟨2, 0.0⟩⟩
    ∃ s, elements.foldlM p.step .initial = .ok s ∧
      p.step s ⟨.position (some 1) (.series 1.0 3 (some 0.25)), position⟩ =
        ((singleBeats position (some 1) ((List.range 3).map fun i =>
          1.0 + (UInt32.ofNat i).toFloat * 0.25)).foldlM p.step s).map
          (·.advise (.excessiveRepeat 3 2) position) := by
  intro elements position p
  exact ⟨_, rfl, series_beats p _ position (some 1) 1.0 (List.cons_ne_nil _ _)
    (by decide) (by decide +kernel)⟩

end Barline.Score
