import Barline.Proofs.Score.Acceptance

/-!
# The elements of a text

Two things hold of the elements of every text that is read: each of them has values that an element
may have, and each of them stands behind those before it, so their positions tell them apart.
-/

namespace Barline

/-- Positions are ordered by line, and by column within a line. -/
def Position.key (p : Position) : ℕ ×ₗ ℕ := toLex (p.line, p.column)

namespace Position

lemma key_lt_past (p : Position) (c : Char) : p.key < (p.past c).key := by
  unfold key past
  rw [Prod.Lex.toLex_lt_toLex]
  split_ifs
  · exact .inl (Nat.lt_succ_self _)
  · exact .inr ⟨rfl, Nat.lt_succ_self _⟩

lemma key_le_pastAll (p : Position) (w : List Char) : p.key ≤ (p.pastAll w).key := by
  induction w generalizing p with
  | nil => exact le_rfl
  | cons c w ih => exact (p.key_lt_past c).le.trans (ih (p.past c))

lemma key_lt_pastAll (p : Position) {w : List Char} (h : w ≠ []) :
    p.key < (p.pastAll w).key := by
  obtain ⟨c, w, rfl⟩ := List.exists_cons_of_ne_nil h
  exact (p.key_lt_past c).trans_le ((p.past c).key_le_pastAll w)

end Position

namespace Score

open Scan

variable {p q r : Position} {w : List Char} {es fs : Elements}

/-- Elements that stand one behind another, from one position on and in front of another. -/
structure Stand (p q : Position) (es : Elements) : Prop where
  increasing : (es.map (·.position.key)).Pairwise (· < ·)
  from_le : ∀ e ∈ es, p.key ≤ e.position.key
  lt_to : ∀ e ∈ es, e.position.key < q.key

lemma stand_nil (p q : Position) : Stand p q [] :=
  ⟨.nil, List.forall_mem_nil _, List.forall_mem_nil _⟩

lemma Stand.append (h : Stand p q es) (h' : Stand q r fs) (hpq : p.key ≤ q.key)
    (hqr : q.key ≤ r.key) : Stand p r (es ++ fs) where
  increasing := by
    rw [List.map_append, List.pairwise_append]
    refine ⟨h.increasing, h'.increasing, ?_⟩
    intro a ha b hb
    obtain ⟨e, he, rfl⟩ := List.mem_map.mp ha
    obtain ⟨f, hf, rfl⟩ := List.mem_map.mp hb
    exact (h.lt_to e he).trans_le (h'.from_le f hf)
  from_le := by
    intro e he
    rcases List.mem_append.mp he with he | he
    · exact h.from_le e he
    · exact hpq.trans (h'.from_le e he)
  lt_to := by
    intro e he
    rcases List.mem_append.mp he with he | he
    · exact (h.lt_to e he).trans_le hqr
    · exact h'.lt_to e he

lemma stand_single (e : Element) (p : Position) (hw : w ≠ []) :
    Stand p (p.pastAll w) [⟨e, p⟩] where
  increasing := List.pairwise_singleton _ _
  from_le := by
    intro f hf
    rw [List.mem_singleton.mp hf]
  lt_to := by
    intro f hf
    rw [List.mem_singleton.mp hf]
    exact p.key_lt_pastAll hw

lemma Written.text_ne_nil {d : Number.Decimal} (h : Written d) : d.text ≠ [] := by
  intro htext
  obtain ⟨hwhole, hfraction⟩ := List.append_eq_nil_iff.mp htext
  have hempty := h.not_isEmpty
  unfold Number.Decimal.isEmpty at hempty
  rw [hwhole] at hempty
  rw [if_neg (by simpa using hempty)] at hfraction
  cases hfraction

lemma Numeral.ne_nil {x : Float} (h : Numeral w x) : w ≠ [] := by
  cases h with
  | decimal hd => exact hd.text_ne_nil
  | fraction hn => exact List.append_ne_nil_of_left_ne_nil hn.text_ne_nil _
  | mixed hw => exact List.append_ne_nil_of_left_ne_nil hw.text_ne_nil _

lemma DenotesBeat.ne_nil {b : Beat} (h : DenotesBeat w b) : w ≠ [] := by
  cases h with
  | single h => exact h.ne_nil
  | series h => exact List.append_ne_nil_of_left_ne_nil h.ne_nil _
  | seriesStep h => exact List.append_ne_nil_of_left_ne_nil h.ne_nil _

lemma pastAll_concat (p : Position) (u : List Char) (c : Char) (v : List Char) :
    (p.pastAll (u ++ [c])).pastAll v = p.pastAll (u ++ c :: v) := by
  rw [← pastAll_append, List.append_assoc, List.singleton_append]

lemma DenotesBeats.stand {bar : Option UInt32} (h : DenotesBeats bar p w es) :
    Stand p (p.pastAll w) es := by
  induction h with
  | last h => exact stand_single _ _ h.ne_nil
  | @more p w v b es h _ ih =>
    have hfirst : Stand p (p.pastAll (w ++ [','])) [⟨.position bar b, p⟩] :=
      stand_single _ p (by simp)
    have hle := (p.pastAll (w ++ [','])).key_le_pastAll v
    rw [pastAll_concat] at ih hle
    exact hfirst.append ih (p.key_le_pastAll _) hle

lemma DenotesWord.stand (h : DenotesWord ReadAs p w es) : Stand p (p.pastAll w) es := by
  have hne : w ≠ [] := h.begins.ne_nil
  cases h with
  | element _ => exact stand_single _ p hne
  | @positions u v bar _ _ hes =>
    have hstand := hes.stand
    have hle := (p.pastAll (u ++ ['|'])).key_le_pastAll v
    rw [pastAll_concat] at hstand hle
    exact (stand_nil p _).append hstand (p.key_le_pastAll _) hle

lemma NextWord.stand {s : List Char} (h : NextWord p w s es) : Stand p (p.pastAll w) es := by
  obtain ⟨t, v, rfl, -, hv, -⟩ := h
  rw [pastAll_append]
  exact (stand_nil p _).append hv.stand (p.key_le_pastAll t) (Position.key_le_pastAll _ v)

lemma many_of_parse {text : List Char} (h : parse text = .ok es) :
    ∃ ess, Many NextWord LastTrivia [] .start text ess ∧ es = ess.flatten := by
  obtain ⟨c, hc⟩ := elements_of_parse h
  obtain ⟨w, s, rfl, -, ess, hess, heq⟩ := parses_elements.sound trivial hc
  obtain rfl := eq_nil_of_many hess
  rw [List.append_nil]
  exact ⟨ess, hess, heq⟩

/-- The elements of a text stand one behind another. -/
theorem positions_increase {text : List Char} (h : parse text = .ok es) :
    (es.map (·.position.key)).Pairwise (· < ·) := by
  have hstand {p : Position} {w s : List Char} {ess : List Elements}
      (h : Many NextWord LastTrivia s p w ess) : Stand p (p.pastAll w) ess.flatten := by
    induction h with
    | last _ => exact stand_nil _ _
    | @more p w v es ess h _ _ ih =>
      rw [← pastAll_append] at ih
      refine h.stand.append ih (p.key_le_pastAll w) ?_
      rw [pastAll_append]
      exact Position.key_le_pastAll _ v
  obtain ⟨ess, hess, rfl⟩ := many_of_parse h
  exact (hstand hess).increasing

/-- No two elements of a text stand at one position. -/
theorem positions_nodup {text : List Char} (h : parse text = .ok es) :
    (es.map (·.position)).Nodup := by
  have hkeys : ((es.map (·.position)).map Position.key).Nodup := by
    rw [List.map_map]
    exact (positions_increase h).imp ne_of_lt
  exact hkeys.of_map

/-- Bars count from one, and a range does not run backwards. -/
def Bars.Proper : Bars → Prop
  | .single bar => bar ≠ 0
  | .range first last => first ≠ 0 ∧ first ≤ last

/-- No beat lies before the first, a series has beats and they lie apart. -/
def Beat.Proper : Beat → Prop
  | .single beat => ¬ beat < 1.0
  | .series first times step => ¬ first < 1.0 ∧ times ≠ 0 ∧ ∀ x ∈ step, (x == 0.0) = false

/-- The values that an element may have. -/
def Element.Proper : Element → Prop
  | .clear => True
  | .copy destination .previous => destination.Proper
  | .copy destination (.bars source) => destination.Proper ∧ source.Proper
  | .position bar beat => (∀ n ∈ bar, n ≠ 0) ∧ beat.Proper
  | .probability x => 0.0 ≤ x ∧ x ≤ 1.0
  | .velocityRange low high => low ≤ high ∧ high ≤ 127
  | .velocity v => v ≤ 127
  | .duration length => length.isPositive
  | .pitch n => n ≤ 127

lemma DenotesBars.proper {b : Bars} (h : DenotesBars w b) : b.Proper := by
  cases h with
  | single h => exact h.ne_zero
  | range hfirst _ hle => exact ⟨hfirst.ne_zero, hle⟩

lemma DenotesVelocity.le {v : UInt8} (h : DenotesVelocity w v) : v ≤ 127 := by
  obtain ⟨n, -, hn, rfl⟩ := h
  rw [UInt8.le_iff_toNat_le]
  rw [UInt32.le_iff_toNat_le] at hn
  rw [UInt32.toNat_toUInt8]
  exact (Nat.mod_le _ _).trans hn

lemma Denotes.proper {e : Element} (h : Denotes ReadAs w e) : e.Proper := by
  cases h with
  | pitch _ hpitch => exact hpitch.le
  | velocity h => exact h.le
  | velocityRange _ hhigh hle => exact ⟨hle, hhigh.le⟩
  | duration _ hpos => exact hpos
  | probability _ h0 h1 => exact ⟨h0, h1⟩
  | clear => trivial
  | copyPrevious h => exact h.proper
  | copy hdestination hsource => exact ⟨hdestination.proper, hsource.proper⟩

lemma DenotesBeat.proper {b : Beat} (h : DenotesBeat w b) : b.Proper := by
  cases h with
  | single _ hx => exact hx
  | series _ hx _ hne => exact ⟨hx, hne, by simp⟩
  | seriesStep _ hx _ hne _ hzero => exact ⟨hx, hne, by simpa using hzero⟩

section

variable {Q : Element → Prop} (helement : ∀ {w e}, Denotes ReadAs w e → Q e)
  (hposition : ∀ {w bar beat}, (∀ n ∈ bar, n ≠ 0) → DenotesBeat w beat → Q (.position bar beat))

include hposition in
lemma DenotesBeats.forall_value {bar : Option UInt32} (h : DenotesBeats bar p w es)
    (hbar : ∀ n ∈ bar, n ≠ 0) : ∀ e ∈ es, Q e.value := by
  induction h with
  | last h =>
    intro e he
    rw [List.mem_singleton.mp he]
    exact hposition hbar h
  | more h _ ih => exact List.forall_mem_cons.mpr ⟨hposition hbar h, ih⟩

include helement hposition in
lemma DenotesWord.forall_value (h : DenotesWord ReadAs p w es) : ∀ e ∈ es, Q e.value := by
  cases h with
  | element h =>
    intro e he
    rw [List.mem_singleton.mp he]
    exact helement h
  | positions hbar hes =>
    refine hes.forall_value hposition ?_
    cases hbar with
    | none => simp
    | some h => simpa using h.ne_zero

include helement hposition in
/-- What holds of all elements that can be written holds of the elements of every text. -/
theorem forall_of_parse {text : List Char} (h : parse text = .ok es) : ∀ e ∈ es, Q e.value := by
  have hwords {p : Position} {w s : List Char} {ess : List Elements}
      (h : Many NextWord LastTrivia s p w ess) : ∀ e ∈ ess.flatten, Q e.value := by
    induction h with
    | last _ => exact List.forall_mem_nil _
    | more h _ _ ih =>
      obtain ⟨t, v, -, -, hv, -⟩ := h
      exact List.forall_mem_append.mpr ⟨hv.forall_value helement hposition, ih⟩
  obtain ⟨ess, hess, rfl⟩ := many_of_parse h
  exact hwords hess

end

/-- The elements of a text have the values that they may have. -/
theorem proper_of_parse {text : List Char} (h : parse text = .ok es) :
    ∀ e ∈ es, e.value.Proper :=
  forall_of_parse Denotes.proper (fun hbar hbeat => ⟨hbar, hbeat.proper⟩) h

end Score

end Barline
