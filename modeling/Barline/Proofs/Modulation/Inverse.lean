import Barline.Proofs.Modulation.Expressions

/-!
# The parser inverts printing

The parser gives back every program that is written as `Program.tokens` says, wherever its tokens
stand. Nothing separates assignments: none of them begins with a token that could go on with the
expression in front of it.
-/

namespace Barline.Modulation

open Binary64 Number

namespace Parse

variable {α : Type} {sp : Spelling}

lemma pitch_cons {name : String} {p : UInt8} {t : Located Token} (hp : p ≤ 127)
    (ht : t.value = .pitch name p.toNat) (ts : Tokens) : pitch (t :: ts) = .ok (p, ts) := by
  have hmidi : Pitch.ofMidi? p.toNat = some p := Pitch.ofMidi?_eq_some_iff.mpr ⟨rfl, hp⟩
  simp [pitch, ht, hmidi, past_cons (t := t) (by simp [ht])]

lemma pitchRange_read {r : PitchRange} {ts rest : Tokens} (hr : r.wellFormed)
    (hts : ts.map (·.value) = r.tokens sp) (hrest : tokenAt rest 0 ≠ .minus) :
    pitchRange (ts ++ rest) = .ok (r, rest) := by
  simp only [PitchRange.wellFormed, Bool.and_eq_true, decide_eq_true_iff] at hr
  have hlow : r.low ≤ 127 := UInt8.le_trans hr.1 hr.2
  have horder : ¬ r.high < r.low := UInt8.not_lt.mpr hr.1
  rw [PitchRange.tokens] at hts
  split at hts
  · rename_i hone
    obtain ⟨t, rfl, ht⟩ := List.map_eq_singleton_iff.mp hts
    rw [pitchRange, here_bind, List.singleton_append, bind_of_ok (pitch_cons hlow ht rest)]
    have hsame : (⟨r.low, r.low⟩ : PitchRange) = r :=
      congrArg (PitchRange.mk r.low) hone.1
    simp [hrest, hsame]
  · obtain ⟨l, us, rfl, hl, hus⟩ := List.map_eq_cons_iff.mp hts
    obtain ⟨m, us, rfl, hm, hus⟩ := List.map_eq_cons_iff.mp hus
    obtain ⟨h, rfl, hh⟩ := List.map_eq_singleton_iff.mp hus
    have hsecond : isPitch h.value = true := by rw [hh]; rfl
    have hpast : past (m :: h :: rest) = h :: rest := past_cons (by simp [hm]) _
    simp only [List.cons_append, List.nil_append]
    rw [pitchRange, here_bind, bind_of_ok (pitch_cons hlow hl _)]
    simp only [next_bind, ahead_bind, tokenAt_zero, tokenAt_succ, hm, hsecond, decide_true,
      Bool.and_true, if_true, advance_bind, hpast]
    rw [bind_of_ok (pitch_cons hr.2 hh rest), if_neg horder, pure_apply]

lemma literal_cons {x : Float} {t : Located Token} {rest : Tokens} (ht : t.value = .number x)
    (hslash : tokenAt rest 0 ≠ .slash) (hplus : tokenAt rest 0 ≠ .plus) :
    literal (t :: rest) = .ok (x, rest) := by
  have hpast : past (t :: rest) = rest := past_cons (by simp [ht]) rest
  simp only [literal, here_bind, next_bind, tokenAt_zero, ht, advance_bind, hpast, ahead_bind]
  cases hnext : tokenAt rest 0 with
  | slash => exact absurd hnext hslash
  | plus => exact absurd hnext hplus
  | _ => simp

lemma not_toFloat_lt_one {n : UInt32} (h : 1 ≤ n) : ¬ n.toFloat < 1.0 := by
  have hle : 1 ≤ n.toNat := UInt32.le_iff_toNat_le.mp h
  rw [lt_iff (isNaN_toFloat32 n) rfl, value_toFloat32, value_one, not_lt]
  exact_mod_cast hle

lemma place_read {bar : UInt32} {beat : Float} {n p b : Located Token} {rest : Tokens}
    (hbar : 1 ≤ bar) (hn : n.value = .number bar.toFloat) (hp : p.value = .pipe)
    (hb : b.value = .number beat) (hslash : tokenAt rest 0 ≠ .slash)
    (hplus : tokenAt rest 0 ≠ .plus) :
    place (n :: p :: b :: rest) = .ok ((bar, beat), rest) := by
  have hpast : past (n :: p :: b :: rest) = p :: b :: rest := past_cons (by simp [hn]) _
  have hpipe := require_cons hp nofun ["'|'"] (b :: rest)
  simp only [place, here_bind, next_bind, tokenAt_zero, hn, isBarCount_toFloat,
    not_toFloat_lt_one hbar, decide_false, Bool.not_true, Bool.or_false, Bool.false_eq_true,
    if_false, advance_bind, hpast]
  rw [bind_of_ok hpipe, bind_of_ok (literal_cons hb hslash hplus), toUInt32_toFloat, pure_apply]

lemma timeRange_read {r : TimeRange} {ts rest : Tokens} (hr : r.wellFormed)
    (hts : ts.map (·.value) = r.tokens) (hslash : tokenAt rest 0 ≠ .slash)
    (hplus : tokenAt rest 0 ≠ .plus) : timeRange (ts ++ rest) = .ok (r, rest) := by
  simp only [TimeRange.wellFormed, Bool.and_eq_true, decide_eq_true_iff] at hr
  simp only [TimeRange.tokens, List.map_eq_cons_iff, List.map_eq_nil_iff] at hts
  obtain ⟨n, _, rfl, hn, p, _, rfl, hp, b, _, rfl, hb, m, _, rfl, hm, n', _, rfl, hn', p', _, rfl,
    hp', b', _, rfl, hb', rfl⟩ := hts
  simp only [List.cons_append, List.nil_append]
  have hfirst : place (n :: p :: b :: m :: n' :: p' :: b' :: rest) =
      .ok ((r.startBar, r.startBeat), m :: n' :: p' :: b' :: rest) :=
    place_read hr.1 hn hp hb (by simp [hm]) (by simp [hm])
  have hlast := place_read hr.2 hn' hp' hb' hslash hplus
  rw [timeRange, bind_of_ok hfirst]
  refine (bind_of_ok (require_cons hm (by simp) _ _)).trans ?_
  exact bind_of_ok hlast

lemma pitchLimit_read {pitches : Option PitchRange} {ts rest : Tokens}
    (hp : pitches.all (·.wellFormed)) (hts : ts.map (·.value) = pitches.elim [] (·.tokens sp))
    (hpitch : isPitch (tokenAt rest 0) = false) (hminus : tokenAt rest 0 ≠ .minus) :
    pitchLimit (ts ++ rest) = .ok (pitches, rest) := by
  rw [pitchLimit, next_bind]
  cases pitches with
  | none =>
    rw [List.map_eq_nil_iff.mp hts, List.nil_append, if_neg (by simp [hpitch])]
    rfl
  | some r =>
    have hfirst : isPitch (tokenAt (ts ++ rest) 0) = true := by
      have hhead : r.tokens sp = .pitch (sp.pitchName r.low) r.low.toNat :: (r.tokens sp).tail := by
        rw [PitchRange.tokens]
        split <;> rfl
      rw [Option.elim_some, hhead] at hts
      obtain ⟨t, us, rfl, ht, -⟩ := List.map_eq_cons_iff.mp hts
      rw [List.cons_append, tokenAt_zero, ht, isPitch]
    have hread : (some <$> pitchRange) (ts ++ rest) = .ok (some r, rest) := by
      rw [map_eq_pure_bind, bind_of_ok (pitchRange_read hp hts hminus), pure_apply]
    rw [if_pos hfirst, hread]

lemma stretchLimit_read {stretch : Option TimeRange} {ts rest : Tokens} {word : String}
    (hs : stretch.all (·.wellFormed)) (hts : ts.map (·.value) = stretch.elim [] (·.tokens))
    (hword : tokenAt rest 0 = .word word) :
    stretchLimit (ts ++ rest) = .ok (stretch, rest) := by
  rw [stretchLimit, next_bind, ahead_bind]
  cases stretch with
  | none =>
    rw [List.map_eq_nil_iff.mp hts, List.nil_append, if_neg (by simp [hword, isNumber])]
    rfl
  | some r =>
    have hfirst : (isNumber (tokenAt (ts ++ rest) 0) &&
        decide (tokenAt (ts ++ rest) 1 = .pipe)) = true := by
      rw [Option.elim_some, TimeRange.tokens] at hts
      obtain ⟨n, us, rfl, hn, hus⟩ := List.map_eq_cons_iff.mp hts
      obtain ⟨p, ps, rfl, hp, -⟩ := List.map_eq_cons_iff.mp hus
      simp [hn, hp, isNumber]
    have hread : (some <$> timeRange) (ts ++ rest) = .ok (some r, rest) := by
      rw [map_eq_pure_bind,
        bind_of_ok (timeRange_read hs hts (by simp [hword]) (by simp [hword])), pure_apply]
    rw [if_pos hfirst, hread]

/-- What follows a range of pitches does not go on with it. -/
lemma stretch_first {stretch : Option TimeRange} {ts rest : Tokens} {word : String}
    (hts : ts.map (·.value) = stretch.elim [] (·.tokens)) (hword : tokenAt rest 0 = .word word) :
    isPitch (tokenAt (ts ++ rest) 0) = false ∧ tokenAt (ts ++ rest) 0 ≠ .minus := by
  cases stretch with
  | none =>
    rw [List.map_eq_nil_iff.mp hts, List.nil_append, hword]
    exact ⟨rfl, nofun⟩
  | some r =>
    rw [Option.elim_some, TimeRange.tokens] at hts
    obtain ⟨n, us, rfl, hn, -⟩ := List.map_eq_cons_iff.mp hts
    rw [List.cons_append, tokenAt_zero, hn]
    exact ⟨rfl, nofun⟩

lemma ofKeyword?_keyword (p : Parameter) : Parameter.ofKeyword? p.keyword = some p := by
  cases p <;> decide

lemma expression_read {e : Expr} {ts rest : Tokens} (he : e.wellFormed) (hts : Spells sp e 0 ts)
    (hrest : EndsSum rest) : expression (ts ++ rest) = .ok (e, rest) := by
  rw [expression_apply]
  refine (readable sp e he).sum.to_end hts ?_ hrest
  rw [depthFor, List.length_append]
  omega

theorem assignment_read {a : Assignment} {ts rest : Tokens} (ha : a.wellFormed)
    (hts : ts.map (·.value) = a.tokens sp) (hrest : EndsSum rest) :
    assignment (ts ++ rest) = .ok ({ a with position := positionOf (ts ++ rest) }, rest) := by
  simp only [Assignment.wellFormed, Bool.and_eq_true] at ha
  obtain ⟨ps, us, rfl, hps, hus⟩ := List.map_eq_append_iff.mp hts
  obtain ⟨ss, us, rfl, hss, hks⟩ := List.map_eq_append_iff.mp hus
  obtain ⟨k, os, rfl, hk, hos⟩ := List.map_eq_cons_iff.mp hks
  obtain ⟨o, es, rfl, ho, hes⟩ := List.map_eq_cons_iff.mp hos
  have hword : tokenAt (k :: o :: (es ++ rest)) 0 = .word a.parameter.keyword := hk
  obtain ⟨hpitch, hminus⟩ := stretch_first hss hword
  have hkeyword : past (k :: o :: (es ++ rest)) = o :: (es ++ rest) := past_cons (by simp [hk]) _
  have hassign : past (o :: (es ++ rest)) = es ++ rest :=
    past_cons (by rw [ho]; cases a.assign <;> nofun) _
  have hvalue := expression_read ha.2 hes hrest
  rw [List.append_assoc, List.append_assoc, List.cons_append, List.cons_append, assignment,
    here_bind, bind_of_ok (pitchLimit_read ha.1.1 hps hpitch hminus),
    bind_of_ok (stretchLimit_read ha.1.2 hss hword), assigned, next_bind, hword, parameter?,
    ofKeyword?_keyword]
  dsimp only
  rw [advance_bind, hkeyword, next_bind, tokenAt_zero, ho]
  cases a.assign <;> rw [Assign.token] <;> dsimp only <;>
    rw [valued, advance_bind, hassign, bind_of_ok hvalue, pure_apply]

/-- What an assignment may begin with. -/
inductive BeginsAssignment : Token → Prop
  | pitch (name : String) (midi : Int) : BeginsAssignment (.pitch name midi)
  | number (x : Float) : BeginsAssignment (.number x)
  | word (name : String) : BeginsAssignment (.word name)

lemma beginsAssignment_head (sp : Spelling) (a : Assignment) :
    ∃ t ts, a.tokens sp = t :: ts ∧ BeginsAssignment t := by
  rw [Assignment.tokens]
  cases a.pitches with
  | some r =>
    rw [Option.elim_some, PitchRange.tokens]
    split <;> exact ⟨_, _, rfl, .pitch _ _⟩
  | none =>
    cases a.stretch with
    | some r => exact ⟨_, _, rfl, .number _⟩
    | none => exact ⟨_, _, rfl, .word _⟩

lemma tokenAt_assignment {a : Assignment} {ts : Tokens} (h : ts.map (·.value) = a.tokens sp)
    (rest : Tokens) : BeginsAssignment (tokenAt (ts ++ rest) 0) := by
  obtain ⟨t, w, hw, ht⟩ := beginsAssignment_head sp a
  obtain ⟨l, us, rfl, hl, -⟩ := List.map_eq_cons_iff.mp (h.trans hw)
  rwa [List.cons_append, tokenAt_zero, hl]

lemma BeginsAssignment.ne_finish {t : Token} (h : BeginsAssignment t) : t ≠ .finish := by
  cases h <;> nofun

/-- No assignment goes on with the expression in front of it. -/
lemma BeginsAssignment.endsSum {ts : Tokens} (h : BeginsAssignment (tokenAt ts 0)) :
    EndsSum ts := by
  cases hfirst : tokenAt ts 0 <;> rw [hfirst] at h <;> cases h <;>
    exact ⟨⟨by simp [hfirst], by simp [hfirst, productOperator?]⟩, by simp [hfirst, sumOperator?]⟩

lemma endsSum_program {program : Program} {ts : Tokens}
    (hts : ts.map (·.value) = program.tokens sp) : EndsSum ts := by
  cases program with
  | nil =>
    obtain ⟨t, rfl, ht⟩ := List.map_eq_singleton_iff.mp hts
    exact ⟨⟨by simp [ht], by simp [ht, productOperator?]⟩, by simp [ht, sumOperator?]⟩
  | cons a program =>
    rw [Program.tokens, List.flatMap_cons, List.append_assoc] at hts
    obtain ⟨as, rest, rfl, has, -⟩ := List.map_eq_append_iff.mp hts
    exact (tokenAt_assignment has rest).endsSum

/-- A program is read whole, each assignment with the place where it begins. -/
theorem assignments_read {program : Program} {ts : Tokens} {rounds : ℕ}
    (hprogram : ∀ a ∈ program, a.wellFormed) (hts : ts.map (·.value) = program.tokens sp)
    (hrounds : program.length < rounds) :
    ∃ read us, assignments rounds ts = .ok (read, us) ∧
      read.map (·.unplaced) = program.map (·.unplaced) := by
  induction program generalizing ts rounds with
  | nil =>
    obtain ⟨rounds, rfl⟩ : ∃ r, rounds = r + 1 := ⟨rounds - 1, by omega⟩
    obtain ⟨t, rfl, ht⟩ := List.map_eq_singleton_iff.mp hts
    exact ⟨[], [t], by simp [assignments, ht], rfl⟩
  | cons a program ih =>
    obtain ⟨rounds, rfl⟩ : ∃ r, rounds = r + 1 := ⟨rounds - 1, by omega⟩
    rw [Program.tokens, List.flatMap_cons, List.append_assoc] at hts
    obtain ⟨as, rest, rfl, has, hrest⟩ := List.map_eq_append_iff.mp hts
    obtain ⟨read, us, hus, hmap⟩ := ih (fun a h => hprogram a (List.mem_cons_of_mem _ h)) hrest
      (by simpa using hrounds)
    have hread := assignment_read (hprogram a List.mem_cons_self) has (endsSum_program hrest)
    have hnotEnd := (tokenAt_assignment has rest).ne_finish
    have hrun : assignments (rounds + 1) (as ++ rest) =
        .ok ({ a with position := positionOf (as ++ rest) } :: read, us) := by
      rw [assignments, next_bind, if_neg hnotEnd, bind_of_ok hread, bind_of_ok hus, pure_apply]
    refine ⟨_, us, hrun, ?_⟩
    rw [List.map_cons, List.map_cons, hmap]
    rfl

lemma length_lt_tokens (sp : Spelling) (program : Program) :
    program.length < (program.tokens sp).length := by
  have hsum := List.length_le_sum_of_one_le (program.map fun a => (a.tokens sp).length) (by
    simp only [List.mem_map, forall_exists_index, and_imp, forall_apply_eq_imp_iff₂]
    intro a _
    obtain ⟨t, ts, hts, -⟩ := beginsAssignment_head sp a
    simp [hts])
  rw [List.length_map] at hsum
  rw [Program.tokens, List.length_append, List.length_flatMap, List.length_singleton]
  omega

end Parse

/-- **The parser inverts printing.** It gives back every well-formed program from the tokens that
the program is written with, wherever they stand and whatever the writer was free to choose. -/
theorem Program.parse_tokens (sp : Spelling) {program : Program} {ts : Tokens}
    (hprogram : ∀ a ∈ program, a.wellFormed) (hts : ts.map (·.value) = program.tokens sp) :
    (Parse.program ts).map (List.map (·.unplaced)) = .ok (program.map (·.unplaced)) := by
  have hrounds : program.length < ts.length + 1 := by
    have hlength : ts.length = (program.tokens sp).length := by rw [← hts, List.length_map]
    have hlt := Parse.length_lt_tokens sp program
    omega
  obtain ⟨read, us, hread, hmap⟩ := Parse.assignments_read hprogram hts hrounds
  have hparse : Parse.program ts = .ok read := by
    change (Parse.assignments (ts.length + 1) ts).map (·.1) = _
    rw [hread]
    rfl
  rw [hparse]
  exact congrArg Except.ok hmap

/-- A difference to the right of another and a sum in a product keep their parentheses; a product
in a sum needs none. A bar number follows one expression and a keyword another. -/
theorem Program.parse_tokens_nested :
    let sp : Spelling := ⟨fun p => String.ofList (Pitch.name p), fun _ => false, fun _ => false⟩
    let fading : Expr := .binary .subtract (.number 80.0)
      (.binary .subtract (.property "velocity") (.binary .multiply (.number 2.0) (.number 3.0)))
    let swinging : Expr := .binary .multiply (.binary .add (.number 1.0) (.period 0 0.5))
      (.call .cos [.period 2 1.0])
    let program : Program :=
      [⟨some ⟨60, 72⟩, none, .velocity, .set, fading, .start⟩,
        ⟨none, some ⟨1, 1.0, 2, 4.5⟩, .timing, .add, swinging, .start⟩,
        ⟨none, none, .probability, .set, .call .ramp [.number 0.0, .number 1.0], .start⟩]
    let tokens : List Token :=
      [.pitch "C3" 60, .minus, .pitch "C4" 72, .word "velocity", .equals,
        .number 80.0, .minus, .opening, .word "note", .dot, .word "velocity", .minus,
          .number 2.0, .star, .number 3.0, .closing,
        .number 1.0, .pipe, .number 1.0, .minus, .number 2.0, .pipe, .number 4.5,
          .word "timing", .plusEquals,
        .opening, .number 1.0, .plus, .period 0.5, .closing, .star,
          .word "cos", .opening, .number 2.0, .colon, .period 1.0, .closing,
        .word "probability", .equals,
        .word "ramp", .opening, .number 0.0, .comma, .number 1.0, .closing, .finish]
    (∀ a ∈ program, a.wellFormed) ∧ program.tokens sp = tokens ∧
      (Parse.program (tokens.map (⟨·, .start⟩))).map (List.map (·.unplaced)) =
        .ok (program.map (·.unplaced)) := by
  intro sp fading swinging program tokens
  have hprogram : ∀ a ∈ program, a.wellFormed := by decide
  have htokens : program.tokens sp = tokens := by rfl
  refine ⟨hprogram, htokens, Program.parse_tokens sp hprogram ?_⟩
  rw [htokens, List.map_map]
  exact List.map_id tokens

end Barline.Modulation
