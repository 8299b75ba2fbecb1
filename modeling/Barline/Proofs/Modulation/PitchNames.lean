import Barline.Proofs.Modulation.Elsewhere
import Barline.Proofs.Modulation.Inverse
import Barline.Proofs.Score.Readers
import Barline.Proofs.Score.Spelling

/-!
# Pitch names in three readers

A pitch has a name of its own, it is an element of a score, and it limits an assignment. Each of the
three is read in its own way, and an octave beyond reckoning is no number in the first, a refusal in
the second and a number far out of range in the third. They agree on what a name is read as.
-/

namespace Barline

open Number Scan
open Score (Named ReadAs)

variable {n : PitchName} {key : UInt8}

namespace Pitch

lemma midi_of_near {semitones octave : ℤ} (hlow : -1 ≤ semitones) (hhigh : semitones ≤ 12)
    (hleast : -178956960 < octave) (hmost : octave < 178956960) :
    midi semitones octave = (octave + 2) * 12 + semitones := by
  rw [midi_eq_bmod, Int.bmod_eq_of_le] <;> omega

lemma class?_eq (hn : Named n) : class? n.letter n.accidental = some n.semitones := by
  obtain ⟨letter, accidental, negative, digits⟩ := n
  have hletter := hn.letter
  have haccidental := hn.accidental
  fin_cases hletter <;> fin_cases haccidental <;> rfl

lemma unsigned_digits (hne : n.digits ≠ []) (hdigits : ∀ c ∈ n.digits, c.isDigit) :
    unsigned n.digits = (false, n.digits) := by
  obtain ⟨c, ds, hds⟩ := List.exists_cons_of_ne_nil hne
  have hc : c.isDigit := hdigits c (by simp [hds])
  rw [hds]
  unfold unsigned
  split
  · rename_i hminus
    obtain rfl := (List.cons.inj hminus).1
    cases hc
  · rename_i hplus
    obtain rfl := (List.cons.inj hplus).1
    cases hc
  · rfl

lemma integer?_octave (hn : Named n) :
    integer? ((if n.negative then ['-'] else []) ++ n.digits) =
      some (n.signed (valueOf n.digits)) := by
  have hnatural : natural? n.digits = some (valueOf n.digits) := by
    rw [natural?, if_neg]
    simpa using ⟨hn.digits_ne_nil, hn.digits⟩
  unfold integer? PitchName.signed
  cases n.negative with
  | true => simp [unsigned, hnatural]
  | false => simp [unsigned_digits hn.digits_ne_nil hn.digits, hnatural]

lemma ofName?_eq (hn : Named n) : ofName? n.chars =
    (octave? ((if n.negative then ['-'] else []) ++ n.digits)).bind fun octave =>
      ofMidi? (midi n.semitones octave) := by
  have hclass := class?_eq hn
  have hsharp := hn.head?_octave_ne (by decide : '#'.isDigit = false) (fun _ => by decide) []
  have hflat := hn.head?_octave_ne (by decide : 'b'.isDigit = false) (fun _ => by decide) []
  rw [List.append_nil] at hsharp hflat
  obtain ⟨letter, accidental, negative, digits⟩ := n
  have haccidental := hn.accidental
  rw [PitchName.chars, List.cons_append, List.cons_append, List.append_assoc]
  dsimp only at *
  generalize ((if negative then ['-'] else []) ++ digits) = octave at *
  have hparts : ofName? (letter :: (accidental.toList ++ octave)) =
      class? letter accidental >>= fun semitones =>
        octave? octave >>= fun octave => ofMidi? (midi semitones octave) := by
    fin_cases haccidental
    · unfold ofName?
      rw [Option.toList_none, List.nil_append]
      dsimp only
      split
      · exact absurd rfl hsharp
      · exact absurd rfl hflat
      · rfl
    · rfl
    · rfl
  rw [hparts, hclass]
  rfl

/-- A name alone is the pitch that it is read as. Only with a minus sign can the limit itself be
reckoned with. -/
theorem ofName?_chars (hn : Named n) (hlimit : valueOf n.digits ≠ octaveLimit) :
    ofName? n.chars = some key ↔ ReadAs n key := by
  rw [ofName?_eq hn, octave?, integer?_octave hn, Score.readAs_iff]
  by_cases hoctave : valueOf n.digits < octaveLimit
  · have hrange : -(octaveLimit : ℤ) ≤ n.signed (valueOf n.digits) ∧
        n.signed (valueOf n.digits) < octaveLimit := by
      unfold PitchName.signed
      split_ifs <;> omega
    simp [hrange, hoctave]
  · have hfar : ¬ (-(octaveLimit : ℤ) ≤ n.signed (valueOf n.digits) ∧
        n.signed (valueOf n.digits) < octaveLimit) := by
      unfold PitchName.signed
      split_ifs <;> omega
    simp [hfar, hoctave]

end Pitch

lemma skipTrivia_chars (hn : Named n) (s : List Char) :
    (Cursor.start (n.chars ++ s)).skipTrivia = ⟨.start (n.chars ++ s), none⟩ := by
  obtain ⟨letter, accidental, negative, digits⟩ := n
  have hletter := hn.letter
  fin_cases hletter <;> rfl

namespace Score

lemma word_chars (hn : Named n) (s : List Char) :
    Reader.word (.start (n.chars ++ s)) =
      one (Reader.pitchElement n.letter .start) .start (.start (n.chars ++ s)) :=
  word_pitch hn.letter _ .start

theorem parse_chars_of_readAs (hn : Named n) (h : ReadAs n key) :
    parse n.chars = .ok [⟨.pitch key, .start⟩] := by
  obtain ⟨_, p, hread, rfl⟩ := takes_pitchElement hn h ends_nil .start .start
  have hword : Reader.word (.start (n.chars ++ [])) = .ok ([⟨.pitch key, .start⟩], ⟨[], p⟩) := by
    rw [word_chars hn, one, bind_apply, Cursor.start, hread]
    rfl
  rw [← List.append_nil n.chars, parse_eq_many, nextWord_eq_afterTrivia,
    many_afterTrivia_of_ok (skipTrivia_chars hn []) (List.cons_ne_nil _ _) hword]
  rfl

theorem parse_chars_of_silent (hn : Named n) (h : ∀ key, ¬ ReadAs n key) :
    ∃ cause, parse n.chars = .error (.domain cause (some .start)) := by
  obtain ⟨cause, hread⟩ := pitchElement_outside hn h ends_nil.noDigit .start .start
  have hword : Reader.word (.start (n.chars ++ [])) = .error (.domain cause (some .start)) := by
    rw [word_chars hn, one, bind_apply, Cursor.start, hread]
  refine ⟨cause, ?_⟩
  rw [← List.append_nil n.chars, parse_eq_many, nextWord_eq_afterTrivia,
    many_afterTrivia_of_error (skipTrivia_chars hn []) (List.cons_ne_nil _ _) hword]
  rfl

end Score

namespace Modulation

namespace Lexer

lemma takes_minus (hn : Named n) (s : List Char) :
    Takes (look (·.digitAfter '-')) [] ((if n.negative then ['-'] else []) ++ (n.digits ++ s))
      (· = n.negative) := by
  obtain ⟨c, ds, hds⟩ := List.exists_cons_of_ne_nil hn.digits_ne_nil
  have hc : c.isDigit := hn.digits c (by simp [hds])
  refine takes_look fun p => ?_
  cases hdash : n.negative with
  | true =>
    rw [hds]
    exact digitAfter_eq_true hc p
  | false =>
    have hne := hn.head?_octave_ne (d := '-') (by decide) (by simp [hdash]) s
    rw [hdash] at hne
    exact digitAfter_eq_false hne p

/-- A name is read off a text as itself, with any octave. -/
theorem takes_name (hn : Named n) {s : List Char} (hs : NoDigit s) :
    Takes (Lexer.pitch n.letter) n.chars s (· = .pitch n.text (midiOf n)) := by
  unfold pitch
  rw [Named.chars_eq]
  refine (takes_advance n.letter).bind fun _ _ => ?_
  refine (hn.takes_accidental s).bind ?_
  rintro _ rfl
  have hminus := takes_minus hn s
  rw [← List.append_assoc] at hminus
  rw [List.append_nil]
  refine hminus.bind_nil ?_
  rintro _ rfl
  extract_lets octave
  have hoctave : Takes (octave ()) n.digits s (· = .pitch n.text (midiOf n)) := by
    rw [← List.append_nil n.digits]
    refine (takes_digits hn.digits (by simpa using hs)).bind ?_
    rintro _ rfl
    rw [if_neg (by simpa using hn.digits_ne_nil)]
    exact takes_pure rfl
  split_ifs
  · exact (takes_advance '-').bind fun _ _ => hoctave
  · exact hoctave

lemma token_pitch {c : Char} (hc : c ∈ ['A', 'B', 'C', 'D', 'E', 'F', 'G']) (t : List Char)
    (p : Position) : token ⟨c :: t, p⟩ = pitch c ⟨c :: t, p⟩ := by
  fin_cases hc <;> rfl

lemma value_digit_one : Decimal.value ⟨['1'], []⟩ = 1.0 := by decide +kernel

/-- What follows a pitch in the shortest of assignments. -/
lemma many_velocity (rounds : ℕ) (p : Position) : ∃ ts d,
    many (afterTrivia located) (rounds + 4) ⟨" velocity = 1".toList, p⟩ = .ok (ts, d) ∧
      ts.map (·.value) = [.word "velocity", .equals, .number 1.0] := by
  rw [← value_digit_one]
  exact ⟨_, _, rfl, rfl⟩

lemma noDigit_velocity : NoDigit " velocity = 1".toList :=
  (ends_cons (by decide) "velocity = 1".toList).noDigit

end Lexer

/-- A name alone in front of a setting of the velocity. -/
theorem tokenize_velocity (hn : Named n) : ∃ ts,
    tokenize (n.chars ++ " velocity = 1".toList) =
        .ok (⟨.pitch n.text (Lexer.midiOf n), .start⟩ :: ts) ∧
      ts.map (·.value) = [.word "velocity", .equals, .number 1.0, .finish] := by
  obtain ⟨_, p, hname, rfl⟩ := Lexer.takes_name hn Lexer.noDigit_velocity .start
  obtain ⟨ts, d, htail, hts⟩ := Lexer.many_velocity (n.chars.length + 9) p
  have hlocated : Lexer.located (.start (n.chars ++ " velocity = 1".toList)) =
      .ok (⟨.pitch n.text (Lexer.midiOf n), .start⟩, ⟨" velocity = 1".toList, p⟩) := by
    have htoken : Lexer.token (.start (n.chars ++ " velocity = 1".toList)) = _ :=
      (Lexer.token_pitch hn.letter _ .start).trans hname
    unfold Lexer.located
    rw [bind_apply]
    dsimp only [here]
    rw [bind_apply, htoken]
    rfl
  have hrounds : (n.chars ++ " velocity = 1".toList).length = n.chars.length + 9 + 4 :=
    List.length_append
  refine ⟨ts ++ [⟨.finish, d.position⟩], ?_, by simp [hts]⟩
  rw [tokenize_eq_many, many_afterTrivia_of_ok (skipTrivia_chars hn _) (List.cons_ne_nil _ _)
    hlocated, hrounds, htail]
  rfl

/-- An octave beyond reckoning stays out of range with the octave that stands for it. -/
theorem ofMidi?_midiOf : Pitch.ofMidi? (Lexer.midiOf n) = some key ↔ ReadAs n key := by
  rw [Score.readAs_iff, Lexer.midiOf]
  by_cases hoctave : valueOf n.digits < Pitch.octaveLimit
  · simp [hoctave]
  · obtain ⟨hlow, hhigh⟩ := Score.semitones_bounds n
    have hfar : Lexer.farOctave = 89478485 := by decide
    have hkey := key.toNat_lt
    rw [if_neg hoctave, hfar, Pitch.ofMidi?_eq_some_iff]
    refine iff_of_false (fun h => ?_) fun h => hoctave h.1
    have htop : key.toNat ≤ 127 := UInt8.le_iff_toNat_le.mp h.2
    have hmidi := h.1
    unfold PitchName.signed at hmidi
    split_ifs at hmidi <;> rw [Pitch.midi_of_near hlow hhigh] at hmidi <;> omega

namespace Parse

/-- An assignment is refused where it begins if it begins with a pitch out of range. -/
lemma assignment_outside {t : Located Token} {name : String} {midi : ℤ}
    (ht : t.value = .pitch name midi) (hmidi : Pitch.ofMidi? midi = none) (ts : Tokens) :
    assignment (t :: ts) = .error (.domain (.pitchOutside name midi) (some t.position)) := by
  have hpitch : pitch (t :: ts) =
      .error (.domain (.pitchOutside name midi) (some t.position)) := by
    rw [pitch, here_bind, next_bind, tokenAt_zero, ht]
    dsimp only
    rw [hmidi]
    rfl
  have hrange : pitchRange (t :: ts) =
      .error (.domain (.pitchOutside name midi) (some t.position)) := by
    rw [pitchRange, here_bind, bind_of_error hpitch]
  have hfirst : isPitch (tokenAt (t :: ts) 0) = true := by rw [tokenAt_zero, ht, isPitch]
  have hlimit : pitchLimit (t :: ts) =
      .error (.domain (.pitchOutside name midi) (some t.position)) := by
    rw [pitchLimit, next_bind, if_pos hfirst, map_eq_pure_bind, bind_of_error hrange]
  rw [assignment, here_bind, bind_of_error hlimit]

lemma assignments_outside {t : Located Token} {name : String} {midi : ℤ}
    (ht : t.value = .pitch name midi) (hmidi : Pitch.ofMidi? midi = none) (ts : Tokens)
    (rounds : ℕ) : assignments (rounds + 1) (t :: ts) =
      .error (.domain (.pitchOutside name midi) (some t.position)) := by
  have hnotEnd : tokenAt (t :: ts) 0 ≠ .finish := by
    rw [tokenAt_zero, ht]
    exact (BeginsAssignment.pitch name midi).ne_finish
  rw [assignments, next_bind, if_neg hnotEnd, bind_of_error (assignment_outside ht hmidi ts)]

lemma assignments_single {sp : Spelling} {a : Assignment} {ts : Tokens} (ha : a.wellFormed)
    (hts : ts.map (·.value) = Program.tokens sp [a]) (rounds : ℕ) : ∃ last,
    assignments (rounds + 2) ts = .ok ([{ a with position := positionOf ts }], last) := by
  rw [Program.tokens, List.flatMap_singleton] at hts
  obtain ⟨as, last, rfl, has, hlast⟩ := List.map_eq_append_iff.mp hts
  have hread := assignment_read ha has (@endsSum_program sp [] last hlast)
  have hend : assignments (rounds + 1) last = .ok ([], last) := by
    obtain ⟨t, rfl, ht⟩ := List.map_eq_singleton_iff.mp hlast
    simp [assignments, ht]
  refine ⟨last, ?_⟩
  rw [assignments, next_bind, if_neg (tokenAt_assignment has last).ne_finish, bind_of_ok hread,
    bind_of_ok hend, pure_apply]

end Parse

namespace Program

theorem parse_velocity_of_readAs (hn : Named n) (h : ReadAs n key) :
    parse (n.chars ++ " velocity = 1".toList) =
      .ok [⟨some ⟨key, key⟩, none, .velocity, .set, .number 1.0, .start⟩] := by
  obtain ⟨ts, htokenize, hts⟩ := tokenize_velocity hn
  obtain ⟨hmidi, hkey⟩ := Pitch.ofMidi?_eq_some_iff.mp (ofMidi?_midiOf.mpr h)
  let sp : Spelling := ⟨fun _ => n.text, fun _ => false, fun _ => false⟩
  let a : Assignment := ⟨some ⟨key, key⟩, none, .velocity, .set, .number 1.0, .start⟩
  have ha : a.wellFormed := by
    simp [a, Assignment.wellFormed, PitchRange.wellFormed, Expr.wellFormed, hkey]
  have htokens : (⟨.pitch n.text (Lexer.midiOf n), .start⟩ :: ts : Tokens).map (·.value) =
      Program.tokens sp [a] := by
    rw [List.map_cons, hts, hmidi]
    simp [sp, a, Program.tokens, Assignment.tokens, PitchRange.tokens, Assign.token, Expr.tokens,
      Parameter.keyword]
  obtain ⟨last, hread⟩ := Parse.assignments_single ha htokens ts.length
  unfold parse
  rw [htokenize]
  change (Parse.assignments (ts.length + 2) _).map _ = _
  rw [hread]
  rfl

theorem parse_velocity_of_silent (hn : Named n) (h : ∀ key, ¬ ReadAs n key) :
    ∃ cause, parse (n.chars ++ " velocity = 1".toList) = .error (.domain cause (some .start)) := by
  obtain ⟨ts, htokenize, -⟩ := tokenize_velocity hn
  have hnone : Pitch.ofMidi? (Lexer.midiOf n) = none :=
    Option.eq_none_iff_forall_ne_some.mpr fun key hkey => h key (ofMidi?_midiOf.mp hkey)
  refine ⟨.pitchOutside n.text (Lexer.midiOf n), ?_⟩
  unfold parse
  rw [htokenize]
  change (Parse.assignments (ts.length + 2) _).map _ = _
  rw [Parse.assignments_outside rfl hnone]
  rfl

end Program

end Modulation

/-- The octave that a name is reckoned with: its own, or the one that stands for those beyond
reckoning. -/
def PitchName.reckoned (n : PitchName) : ℤ :=
  n.signed (if valueOf n.digits < Pitch.octaveLimit then valueOf n.digits
    else Modulation.Lexer.farOctave)

lemma PitchName.reckoned_bounds
    (hoctave : valueOf n.digits < 178956960 ∨ 2147483648 < valueOf n.digits) :
    -178956960 < n.reckoned ∧ n.reckoned < 178956960 := by
  have hfar : Modulation.Lexer.farOctave = 89478485 := by decide
  unfold reckoned signed Pitch.octaveLimit
  rw [hfar]
  split_ifs <;> omega

/-- **The three readers of pitch names agree** on a name with any number of digits: a pitch is what
its octave and its class come to, or all three refuse it, the two parsers where the name begins.
Octaves that words of 32 bits would wrap around are left out, and with all others they come to the
same number. -/
theorem pitch_readers_agree (hn : Named n)
    (hoctave : valueOf n.digits < 178956960 ∨ 2147483648 < valueOf n.digits) :
    ∃ semitones, Pitch.class? n.letter n.accidental = some semitones ∧
      (let m : ℤ := (n.signed (valueOf n.digits) + 2) * 12 + semitones
      let modulation := n.chars ++ " velocity = 1".toList
      if 0 ≤ m ∧ m ≤ 127 then
        ∃ key : UInt8, key.toNat = m ∧ Pitch.ofName? n.chars = some key ∧
          Score.parse n.chars = .ok [⟨.pitch key, .start⟩] ∧
          Modulation.Program.parse modulation =
            .ok [⟨some ⟨key, key⟩, none, .velocity, .set, .number 1.0, .start⟩]
      else
        Pitch.ofName? n.chars = none ∧
          (∃ cause, Score.parse n.chars = .error (.domain cause (some .start))) ∧
          ∃ cause, Modulation.Program.parse modulation = .error (.domain cause (some .start))) ∧
      (Pitch.midiWord (Int32.ofInt semitones) (Int32.ofInt n.reckoned)).toInt =
        Modulation.Lexer.midiOf n ∧
      Modulation.Lexer.midiOf n = (n.reckoned + 2) * 12 + semitones := by
  obtain ⟨hlow, hhigh⟩ := Score.semitones_bounds n
  obtain ⟨hleast, hmost⟩ := PitchName.reckoned_bounds hoctave
  refine ⟨n.semitones, Pitch.class?_eq hn, ?_, rfl, Pitch.midi_of_near hlow hhigh hleast hmost⟩
  -- the octaves that wrap around lie between the two bounds
  have hreadAs (key : UInt8) : ReadAs n key ↔ Score.midiOf n = key.toNat ∧ key ≤ 127 := by
    refine or_iff_left fun hwraps => ?_
    have hge := hwraps.octave_ge
    have hlt := hwraps.octave_lt
    omega
  have hname (key : UInt8) : Pitch.ofName? n.chars = some key ↔ ReadAs n key := by
    refine Pitch.ofName?_chars hn ?_
    unfold Pitch.octaveLimit
    omega
  change if 0 ≤ Score.midiOf n ∧ Score.midiOf n ≤ 127 then _ else _
  split_ifs with hm
  · obtain ⟨key, hkey⟩ := Option.ne_none_iff_exists'.mp fun h => Pitch.ofMidi?_eq_none_iff.mp h hm
    have hkey := Pitch.ofMidi?_eq_some_iff.mp hkey
    have h := (hreadAs key).mpr hkey
    exact ⟨key, hkey.1.symm, (hname key).mpr h, Score.parse_chars_of_readAs hn h,
      Modulation.Program.parse_velocity_of_readAs hn h⟩
  · have hsilent (key : UInt8) : ¬ ReadAs n key := fun h => by
      obtain ⟨hkey, hle⟩ := (hreadAs key).mp h
      have htop : key.toNat ≤ 127 := UInt8.le_iff_toNat_le.mp hle
      exact hm ⟨by omega, by omega⟩
    exact ⟨Option.eq_none_iff_forall_ne_some.mpr fun key hkey => hsilent key ((hname key).mp hkey),
      Score.parse_chars_of_silent hn hsilent,
      Modulation.Program.parse_velocity_of_silent hn hsilent⟩

/-- Zeros in front of an octave say nothing, and a sharp may lead into the next one. -/
theorem pitch_readers_agree_zeros :
    let n : PitchName := ⟨'B', some '#', true, ['0', '0', '0', '2']⟩
    Named n ∧ valueOf n.digits < 178956960 ∧ n.text = "B#-0002" ∧
      Pitch.ofName? n.chars = some 12 ∧ Score.parse n.chars = .ok [⟨.pitch 12, .start⟩] ∧
      Modulation.Program.parse (n.chars ++ " velocity = 1".toList) =
        .ok [⟨some ⟨12, 12⟩, none, .velocity, .set, .number 1.0, .start⟩] := by
  intro n
  have hn : Named n := ⟨by decide, by decide, nofun, List.all_eq_true.mp rfl⟩
  have hoctave : valueOf n.digits < 178956960 := by decide
  obtain ⟨semitones, hclass, hread, -⟩ := pitch_readers_agree hn (.inl hoctave)
  obtain rfl : 12 = semitones := Option.some.inj hclass
  have hm : (n.signed (valueOf n.digits) + 2) * 12 + 12 = 12 := by decide
  dsimp only at hread
  rw [hm, if_pos (by decide)] at hread
  obtain ⟨key, hkey, hread⟩ := hread
  have hkey : key.toNat = 12 := by exact_mod_cast hkey
  obtain rfl : key = 12 := UInt8.toNat_inj.mp hkey
  exact ⟨hn, hoctave, rfl, hread⟩

end Barline
