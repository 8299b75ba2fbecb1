import Barline.Proofs.Modulation.Elsewhere
import Barline.Proofs.Modulation.Transfer

/-!
# One program below another

Limits, keywords and signs end where no assignment goes on with them, as expressions do. So two
programs, one below the other, are read as one.
-/

namespace Barline.Modulation

open Barline.Score (down)

/-- The assignment in a text that was moved. -/
def Assignment.moved (f : Position → Position) (a : Assignment) : Assignment :=
  { a with position := f a.position }

namespace Parse

section

variable {α β : Type} {s : Site} {ts us : Tokens}

lemma transfers_pitch (s : Site) : Transfers s Anything pitch pitch := by
  unfold pitch
  refine .here fun p q => .next (fun _ => .expected _) fun t ts us ht hp => ?_
  split
  · split
    · exact Transfers.advance (.pure _) ht hp
    · exact .refuse _ _
  · exact .expected _

/-- A range of pitches could go on with a minus sign. -/
lemma transfers_pitchRange (s : Site) :
    Transfers s (fun rest => tokenAt rest 0 ≠ .minus) pitchRange pitchRange := by
  unfold pitchRange
  refine .here fun p q => (transfers_pitch s).bind fun low => ?_
  extract_lets atFront atSite
  have hgo (high : UInt8) :
      Transfers s (fun rest => tokenAt rest 0 ≠ .minus) (atFront high) (atSite high) := by
    unfold atFront atSite
    split_ifs
    · exact .refuse _ _
    · exact .pure _
  have hlow : atFront low = pure ⟨low, low⟩ ∧ atSite low = pure ⟨low, low⟩ :=
    ⟨if_neg (UInt8.lt_irrefl low), if_neg (UInt8.lt_irrefl low)⟩
  intro ts us hp
  refine .ahead (.ahead ?_)
  -- One pitch is a range in order, so nothing more is read or refused where no second one follows.
  rw [pure_bind, pure_bind, hlow.1, hlow.2]
  simp only [Bool.and_eq_true, decide_eq_true_iff]
  refine .ite (fun h => ?_) (fun _ hminus h => ?_) rfl hp le_rfl
  · have hpitch : tokenAt ts 1 ≠ .finish := fun hfinish => by
      rw [hfinish] at h
      cases h.2
    obtain ⟨t, ts, us, rfl, rfl, ht, hp'⟩ := hp.uncons h.1 (by simp)
    rw [hp.tokenAt_eq hpitch]
    exact ⟨h, Transfers.advance ((transfers_pitch s).bind hgo) (by simp [ht]) hp'⟩
  · exact hminus ((hp.next_eq_iff (k := .minus) rfl).mp h.1)

lemma transfers_quotient (s : Site) {F : Tokens → Prop} (n d : Float) (p q : Position) :
    Transfers s F (quotient n d p) (quotient n d q) := by
  unfold quotient
  split_ifs
  · exact .refuse _ _
  · exact .pure _

/-- The next token cannot go on with a number. -/
def EndsLiteral (ts : Tokens) : Prop := tokenAt ts 0 ≠ .slash ∧ tokenAt ts 0 ≠ .plus

lemma transfers_literal (s : Site) : Transfers s EndsLiteral literal literal := by
  unfold literal
  refine .here fun p q => .next (fun _ => .expected _) fun t ts us ht hp => ?_
  split
  · refine .advance ht (.ahead (.ahead (.ahead (.ahead ?_))))
    split
    · rename_i hslash hnumber
      obtain ⟨t₀, ts, us, rfl, rfl, ht₀, hp⟩ := hp.uncons hslash (by simp)
      obtain ⟨t₁, ts, us, rfl, rfl, ht₁, hp⟩ := hp.uncons hnumber (by simp)
      simp only [tokenAt_succ, tokenAt_zero, Located.moved_value, ht₀, ht₁]
      refine .advance (by simp [ht₀]) (.advance (by simp [ht₁]) ?_)
      refine (transfers_quotient s _ _ p q hp).mono ?_
      simp only [List.length_cons]
      omega
    · rename_i hplus hn hslash hd
      obtain ⟨t₀, ts, us, rfl, rfl, ht₀, hp⟩ := hp.uncons hplus (by simp)
      obtain ⟨t₁, ts, us, rfl, rfl, ht₁, hp⟩ := hp.uncons hn (by simp)
      obtain ⟨t₂, ts, us, rfl, rfl, ht₂, hp⟩ := hp.uncons hslash (by simp)
      obtain ⟨t₃, ts, us, rfl, rfl, ht₃, hp⟩ := hp.uncons hd (by simp)
      simp only [tokenAt_succ, tokenAt_zero, Located.moved_value, ht₀, ht₁, ht₂, ht₃]
      refine .advance (by simp [ht₀]) (.advance (by simp [ht₁]) ?_)
      refine .advance (by simp [ht₂]) (.advance (by simp [ht₃]) ?_)
      have hquotient (n d : Float) : Transfers s Anything (quotient n d p) (quotient n d q) :=
        transfers_quotient s n d p q
      refine TransfersAt.mono ((hquotient _ _).bind (fun y => .pure _) hp) ?_
      simp only [List.length_cons]
      omega
    · -- What is left does not go on with a number, so it does not in the other place.
      refine .of_pure fun hends => ?_
      split
      · rename_i h _
        exact absurd ((hp.next_eq_iff (k := .slash) rfl).mp h) hends.1
      · rename_i h _ _ _
        exact absurd ((hp.next_eq_iff (k := .plus) rfl).mp h) hends.2
      · exact .pure rfl hp (Nat.le_succ _)
  · exact .expected _

lemma transfers_place (s : Site) : Transfers s EndsLiteral place place := by
  unfold place
  refine .here fun p q => .next (fun _ => .expected _) fun t ts us ht hp => ?_
  split
  · split_ifs
    · exact .refuse _ _
    · refine Transfers.advance ((transfers_require (by decide) _).bind fun _ => ?_) ht hp
      exact (transfers_literal s).map _
  · exact .expected _

lemma tokenAt_of_require {k : Token} {words : List String} {f : Unit → Parse α} {ts rest : Tokens}
    {a : α} (h : (require k words >>= f) ts = .ok (a, rest)) : tokenAt ts 0 = k := by
  by_contra hne
  rw [require, bind_assoc, next_bind, if_neg hne] at h
  cases h

/-- Behind the first place a minus sign has to stand, so that its beat ends there. -/
lemma transfers_timeRange (s : Site) : Transfers s EndsLiteral timeRange timeRange := by
  unfold timeRange
  refine (transfers_place s).bind_of (fun first mid range rest h _ => ?_) fun first => ?_
  · have hminus := tokenAt_of_require h
    exact ⟨by simp [hminus], by simp [hminus]⟩
  · exact (transfers_require (by decide) _).bind fun _ => (transfers_place s).map _

section

variable {position : Position} {pitches : Option PitchRange} {stretch : Option TimeRange}
  {rest : Tokens} {a : Assignment}

lemma assigned_begins (h : assigned position pitches stretch ts = .ok (a, rest)) :
    ∃ name, tokenAt ts 0 = .word name := by
  rw [assigned, next_bind] at h
  cases hnext : tokenAt ts 0 with
  | word name => exact ⟨name, rfl⟩
  | _ =>
    rw [hnext] at h
    cases h

lemma stretchLimit_begins
    (h : (stretchLimit >>= assigned position pitches) ts = .ok (a, rest)) :
    BeginsAssignment (tokenAt ts 0) := by
  cases hnext : tokenAt ts 0 with
  | number x => exact .number x
  | _ =>
    rw [stretchLimit, bind_assoc, next_bind, hnext] at h
    obtain ⟨name, hword⟩ := assigned_begins h
    rw [← hnext, hword]
    exact .word name

lemma assignment_begins (h : assignment ts = .ok (a, rest)) : BeginsAssignment (tokenAt ts 0) := by
  cases hnext : tokenAt ts 0 with
  | pitch name midi => exact .pitch name midi
  | _ =>
    rw [assignment, here_bind, pitchLimit, bind_assoc, next_bind, hnext] at h
    rw [← hnext]
    exact stretchLimit_begins h

end

lemma transfers_pitchLimit (s : Site) :
    Transfers s (fun rest => BeginsAssignment (tokenAt rest 0)) pitchLimit pitchLimit := by
  unfold pitchLimit
  intro ts us hp
  refine .ahead (.ite (fun h => ?_) (fun h hbegins => ?_) rfl hp le_rfl)
  · have hnext : tokenAt ts 0 ≠ .finish := fun hfinish => by
      rw [hfinish] at h
      cases h
    rw [hp.tokenAt_eq hnext, map_eq_pure_bind]
    refine ⟨h, (((transfers_pitchRange s).map some).anti fun rest hbegins hminus => ?_) hp⟩
    rw [hminus] at hbegins
    cases hbegins
  · rwa [hp.tokenAt_eq hbegins.ne_finish]

lemma transfers_stretchLimit (s : Site) :
    Transfers s (fun rest => ∃ name, tokenAt rest 0 = .word name) stretchLimit stretchLimit := by
  unfold stretchLimit
  intro ts us hp
  refine .ahead (.ahead ?_)
  simp only [Bool.and_eq_true, decide_eq_true_iff]
  refine .ite (fun h => ?_) (fun h hword => ?_) rfl hp le_rfl
  · have hnext : tokenAt ts 0 ≠ .finish := fun hfinish => by
      rw [hfinish] at h
      cases h.1
    have hpipe : tokenAt us 1 = .pipe := (hp.tokenAt_eq (by simp [h.2])).trans h.2
    rw [hp.tokenAt_eq hnext, map_eq_pure_bind]
    refine ⟨⟨h.1, hpipe⟩, (((transfers_timeRange s).map some).anti ?_) hp⟩
    rintro rest ⟨name, hname⟩
    exact ⟨by simp [hname], by simp [hname]⟩
  · obtain ⟨name, hname⟩ := hword
    rw [hp.tokenAt_eq (by simp [hname]), hname]
    exact fun hnumber => by cases hnumber.1

/-- An assignment is the same in the other place but for its position. -/
abbrev Site.Moves (s : Site) (a b : Assignment) : Prop := b = a.moved s.move

lemma transfersAt_valued (position : Position) (pitches : Option PitchRange)
    (stretch : Option TimeRange) (parameter : Parameter) (assign : Assign) {t : Located Token}
    (ht : t.value ≠ .finish) (hp : s.Places ts us) :
    TransfersAt s ts.length Anything s.Moves (valued position pitches stretch parameter assign)
      (valued (s.move position) pitches stretch parameter assign) (t :: ts)
      (t.moved s.move :: us) := by
  unfold valued
  refine .advance ht (((transfers_expression s) hp).bind (fun _ _ _ _ _ _ => trivial) ?_)
  rintro value _ mid mid' rfl hp' hle
  exact .pure rfl hp' hle

lemma transfersAt_assigned (position : Position) (pitches : Option PitchRange)
    (stretch : Option TimeRange) (hp : s.Places ts us) :
    TransfersAt s (ts.length - 1) Anything s.Moves (assigned position pitches stretch)
      (assigned (s.move position) pitches stretch) ts us := by
  unfold assigned
  refine .ahead ?_
  cases hp with
  | closing p => exact .expected _
  | @cons t ts us ht hp =>
    simp only [tokenAt_zero, Located.moved_value]
    split
    · exact .expected _
    · refine .advance ht (.ahead ?_)
      cases hp with
      | closing p => exact .expected _
      | cons ht' hp =>
        have hgo (parameter : Parameter) (assign : Assign) :=
          (transfersAt_valued position pitches stretch parameter assign ht' hp).mono
            (Nat.le_succ _)
        simp only [tokenAt_zero, Located.moved_value]
        split
        · exact hgo _ .set
        · exact hgo _ .add
        · exact .expected _

lemma transfersAt_assignment {t : Located Token} (ht : t.value ≠ .finish) (hp : s.Places ts us) :
    TransfersAt s ts.length Anything s.Moves assignment assignment (t :: ts)
      (t.moved s.move :: us) := by
  unfold assignment
  refine .here ?_
  have hpitches := transfers_pitchLimit s (.cons ht hp)
  refine hpitches.bind (fun pitches mid a rest h _ => stretchLimit_begins h) ?_
  rintro pitches _ mid mid' rfl hp' hle
  refine (transfers_stretchLimit s hp').bind (fun stretch mid a rest h _ => assigned_begins h) ?_
  rintro stretch _ last last' rfl hp'' hle'
  refine (transfersAt_assigned _ pitches stretch hp'').mono ?_
  simp only [List.length_cons] at hle
  omega

lemma begins_of_assignments {n : ℕ} {program : Program} {rest : Tokens}
    (h : assignments (n + 1) ts = .ok (program, rest)) :
    tokenAt ts 0 = .finish ∨ BeginsAssignment (tokenAt ts 0) := by
  rw [assignments, next_bind] at h
  split_ifs at h with hfinish
  · exact .inl hfinish
  · obtain ⟨a, mid, ha, -⟩ := bind_eq_ok.mp h
    exact .inr (assignment_begins ha)

/-- A program is read in the other place, and what stands there behind it after it. -/
theorem assignments_below {n m : ℕ} {program : Program} {rest : Tokens} (hp : s.Places ts us)
    (h : assignments n ts = .ok (program, rest)) (hn : ts.length < n) (hm : us.length < m) :
    ∃ k, s.behind.length < k ∧ assignments m us = (assignments k s.behind).map
      fun r => (program.map (·.moved s.move) ++ r.1, r.2) := by
  induction n generalizing ts us m program with
  | zero => exact absurd hn (Nat.not_lt_zero _)
  | succ n ih =>
    obtain ⟨m, rfl⟩ : ∃ k, m = k + 1 := ⟨m - 1, by omega⟩
    cases hp with
    | closing p =>
      obtain ⟨rfl, rfl⟩ := Prod.mk.inj (Except.ok.inj h)
      refine ⟨m + 1, hm, ?_⟩
      rcases assignments (m + 1) s.behind with e | r <;> rfl
    | @cons t ts us ht hp =>
      rw [assignments, next_bind, tokenAt_zero, if_neg ht] at h
      obtain ⟨a, mid, ha, h⟩ := bind_eq_ok.mp h
      obtain ⟨program, last, hprogram, h⟩ := bind_eq_ok.mp h
      obtain ⟨rfl, rfl⟩ := Prod.mk.inj (Except.ok.inj h)
      obtain ⟨hle, b, mid', hb, hp', rfl⟩ := transfersAt_assignment ht hp ha trivial
      have hlength := hp.length
      have hlength' := hp'.length
      simp only [List.length_cons] at hn hm
      obtain ⟨k, hk, hbelow⟩ := ih hp' hprogram (by omega) (by omega : mid'.length < m)
      refine ⟨k, hk, ?_⟩
      rw [assignments, next_bind, tokenAt_zero, Located.moved_value, if_neg ht, bind_of_ok hb]
      change (assignments m mid' >>= fun r => pure (_ :: r.1, r.2)) = _
      rw [hbelow]
      rcases assignments k s.behind with e | r <;> rfl

end

section

variable {n m : ℕ} {front : Tokens} {p : Position} {program : Program} {rest : Tokens}

lemma assignments_moved (f : Position → Position) (hfront : ∀ t ∈ front, t.value ≠ .finish)
    (h : assignments n (front ++ [⟨.finish, p⟩]) = .ok (program, rest)) (hn : front.length + 1 < n)
    (hm : front.length + 1 < m) :
    ∃ last, assignments m ((front ++ [(⟨.finish, p⟩ : Located Token)]).map (·.moved f)) =
      .ok (program.map (·.moved f), last) := by
  let site : Site := ⟨f, [⟨.finish, f p⟩], nofun, .inl rfl⟩
  have hplaces := site.places_append hfront p
  rw [show site.behind = [(⟨.finish, p⟩ : Located Token)].map (·.moved f) from rfl,
    show site.move = f from rfl, ← List.map_append] at hplaces
  obtain ⟨k, hk, hbelow⟩ := assignments_below hplaces h (by simpa using hn) (by simpa using hm)
  obtain ⟨k, rfl⟩ : ∃ n, k = n + 1 := ⟨k - 1, by omega⟩
  refine ⟨site.behind, hbelow.trans ?_⟩
  change Except.ok (program.map (·.moved f) ++ [], site.behind) = _
  rw [List.append_nil]

/-- Where the tokens of a program stand in front of those of another one both are read. -/
lemma assignments_joined {us : Tokens} {lower : Program} (hfront : ∀ t ∈ front, t.value ≠ .finish)
    (h : assignments n (front ++ [⟨.finish, p⟩]) = .ok (program, rest)) (hn : front.length + 1 < n)
    (hlower : ∀ k, us.length < k → ∃ last, assignments k us = .ok (lower, last))
    (hus : us ≠ []) (hm : front.length + us.length < m) :
    ∃ last, assignments m (front ++ us) = .ok (program ++ lower, last) := by
  obtain ⟨last, hlast⟩ := hlower (us.length + 1) (Nat.lt_succ_self _)
  let site : Site := ⟨id, us, hus, begins_of_assignments hlast⟩
  have hplaces := site.places_append hfront p
  rw [show (fun t : Located Token => t.moved site.move) = id from rfl, List.map_id] at hplaces
  obtain ⟨k, hk, hbelow⟩ := assignments_below hplaces h (by simpa using hn) (by simpa using hm)
  obtain ⟨last, hlast⟩ := hlower k hk
  refine ⟨last, hbelow.trans ?_⟩
  rw [hlast]
  change Except.ok (program.map id ++ lower, last) = _
  rw [List.map_id]

end

end Parse

namespace Program

lemma exists_of_map_eq_ok {ε α β : Type} {x : Except ε α} {f : α → β} {b : β}
    (h : x.map f = .ok b) : ∃ a, x = .ok a ∧ f a = b := by
  cases x with
  | error e => cases h
  | ok a => exact ⟨a, rfl, Except.ok.inj h⟩

lemma of_parse {text : List Char} {program : Program} (h : parse text = .ok program) :
    ∃ front rest, tokenize text = .ok (front ++ [⟨.finish, .behind text⟩]) ∧
      (∀ t ∈ front, t.value ≠ .finish) ∧
      Parse.assignments (front.length + 2) (front ++ [⟨.finish, .behind text⟩]) =
        .ok (program, rest) := by
  unfold parse at h
  cases htokens : tokenize text with
  | error e =>
    rw [htokens] at h
    cases h
  | ok ts =>
    obtain ⟨front, rfl, hfront⟩ := closing_of_tokenize htokens
    rw [htokens] at h
    change (Parse.assignments _ _).map (·.1) = _ at h
    rw [List.length_append, List.length_singleton] at h
    obtain ⟨r, hread, rfl⟩ := exists_of_map_eq_ok h
    exact ⟨front, r.2, rfl, fun t ht => (hfront t ht).1.1, hread⟩

/-- **Joined programs.** One program below another is a program: the assignments of the first, then
those of the second, further down by the lines of the first. -/
theorem parse_joined {a b : List Char} {as bs : Program} (ha : parse a = .ok as)
    (hb : parse b = .ok bs) :
    parse (a ++ '\n' :: b) = .ok (as ++ bs.map (·.moved (down (1 + a.count '\n')))) := by
  obtain ⟨front, rest, htokens, hfront, hread⟩ := of_parse ha
  obtain ⟨front', rest', htokens', hfront', hread'⟩ := of_parse hb
  have hlines := tokenize_below htokens b
  rw [htokens', show (Position.behind a).line = 1 + a.count '\n' from Nat.add_comm _ _] at hlines
  obtain ⟨last, hread⟩ := Parse.assignments_joined hfront hread (Nat.lt_succ_self _)
    (fun k hk => Parse.assignments_moved (down (1 + a.count '\n')) hfront' hread'
      (Nat.lt_succ_self _) (by simpa using hk)) (by simp) (Nat.lt_succ_self _)
  rw [parse, hlines]
  change (Parse.assignments _ _).map (·.1) = _
  rw [List.length_append, hread]
  rfl

/-- An expression that a comment ends. Below it, an assignment begins with the number of a bar. -/
theorem parse_joined_comment :
    let a := "timing = 2 // late".toList
    let b := "3|1-4|1 velocity += -5".toList
    ∃ as bs : Program, parse a = .ok as ∧ parse b = .ok bs ∧
      as.map (·.parameter) = [.timing] ∧ bs.map (·.stretch) = [some ⟨3, 1.0, 4, 1.0⟩] ∧
      parse (a ++ '\n' :: b) = .ok (as ++ bs.map (·.moved (down 1))) := by
  intro a b
  have ha : (parse a).map (List.map (·.parameter)) = .ok [.timing] := by decide +kernel
  have hb : (parse b).map (List.map (·.stretch)) = .ok [some ⟨3, 1.0, 4, 1.0⟩] := by
    decide +kernel
  obtain ⟨as, has, hparameter⟩ := exists_of_map_eq_ok ha
  obtain ⟨bs, hbs, hstretch⟩ := exists_of_map_eq_ok hb
  exact ⟨as, bs, has, hbs, hparameter, hstretch, parse_joined has hbs⟩

end Program

end Barline.Modulation
