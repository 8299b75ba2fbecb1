import Barline.Proofs.Modulation.Finite
import Barline.Proofs.Score.RoundTrip

/-!
# Writing modulated notes

A score cannot say notes that start too early or too late, that do not last, or that would read as
deletions. The limits of the parameters keep a modulation from making such notes, as long as it does
not move starts and adds nothing to durations.
-/

namespace Barline.Modulation

open Binary64 Number
open Barline.Random (Source Tape)
open Barline.Score (Writable)

/-- Each of the edits is one of an assignment of the program. -/
def Edits.Of (program : Program) (edits : Edits) : Prop :=
  ∀ p, ∀ edit ∈ edits p, ∃ a ∈ program, a.parameter = p ∧ a.assign = edit.assign

lemma Edits.Of.put {program : Program} {edits : Edits} (h : edits.Of program) {a : Assignment}
    (ha : a ∈ program) (x : Float) : (edits.put a.parameter ⟨a.assign, x⟩).Of program := by
  intro p edit hedit
  unfold Edits.put at hedit
  split_ifs at hedit with hp
  · obtain rfl := Option.some.inj hedit
    exact ⟨a, ha, hp.symm, rfl⟩
  · exact h p edit hedit

section

variable {σ : Type} [Source σ]

/-- Whatever is drawn, a run of assignments of a program only makes edits of the program. -/
lemma Program.foldlM_of {program rest : Program} (hrest : rest ⊆ program) {signature : Signature}
    {clip : Span} {n : Note} {p : Progress} (h : p.edits.Of program) (source : σ) :
    ((rest.foldlM (Assignment.step signature clip n) p).run source).1.edits.Of program := by
  induction rest generalizing p source with
  | nil => exact h
  | cons a rest ih =>
    obtain ⟨ha, hrest⟩ := List.cons_subset.mp hrest
    rw [List.foldlM_cons, StateT.run_bind]
    refine ih hrest ?_ _
    obtain hsame | ⟨x, -, hput⟩ := a.step_edits signature clip n p source
    · rwa [hsame]
    · rw [hput]
      exact h.put ha x

end

section

variable {x : Float}

lemma not_round_lt_one (hx : x.isFinite) (h : 1 ≤ value x) : ¬ round x < 1.0 := by
  have hfloor : 1 ≤ ⌊value x + 1 / 2⌋₊ := Nat.le_floor (by push_cast; linarith)
  rw [lt_iff (isNaN_round hx) rfl, value_one, value_round hx (zero_le_one.trans h), not_lt]
  exact_mod_cast hfloor

lemma isFinite_or_of_not_round_lt_one (hx : x.isNaN = false) (h : ¬ round x < 1.0) :
    x.isFinite ∨ x = 1.0 / 0.0 := by
  by_cases hfinite : x.isFinite
  · exact .inl hfinite
  · rw [Bool.not_eq_true] at hfinite
    rcases eq_of_not_isFinite hfinite with rfl | rfl | rfl
    · exact .inr rfl
    · exact absurd (by decide +kernel) h
    · cases hx

lemma Edit.isNaN_apply_infinity {e : Edit} (he : e.value.isFinite) :
    (e.apply (1.0 / 0.0)).isNaN = false := by
  unfold Edit.apply
  split
  · exact isNaN_of_isFinite he
  · rw [infinity_add he]
    rfl

end

@[simp] lemma Edit.apply_set (x current : Float) : Edit.apply ⟨.set, x⟩ current = x := rfl

@[simp] lemma Parameter.limit_velocity (x : Float) : limit x .velocity = clamp 1.0 127.0 x := rfl

@[simp] lemma Parameter.limit_duration (x : Float) : limit x .duration = larger x leastDuration :=
  rfl

namespace Edits

variable {signature : Signature} {n : Note} {edits : Edits}

lemma result_of_none {p : Parameter} (h : edits p = none) : edits.result n p = p.read n := by
  rw [result, h]

lemma result_of_some {p : Parameter} {e : Edit} (h : edits p = some e) :
    edits.result n p = p.limit (e.apply (p.read n)) := by
  rw [result, h]

/-- A velocity is moved to one from 1 to 127, also from infinity. -/
lemma Finite.writable_velocity (h : edits.Finite) (hn : Writable signature n) :
    (edits.result n .velocity).isNaN = false ∧ ¬ round (edits.result n .velocity) < 1.0 := by
  cases he : edits .velocity with
  | none =>
    rw [result_of_none he]
    exact hn.velocity
  | some e =>
    have hvalue : e.value.isFinite := h _ e he
    have hnumber : (e.apply n.velocity).isNaN = false := by
      obtain hfinite | hinfinity := isFinite_or_of_not_round_lt_one hn.velocity.1 hn.velocity.2
      · exact e.isNaN_apply hvalue hfinite
      · rw [hinfinity]
        exact e.isNaN_apply_infinity hvalue
    have hlimits : value 1.0 ≤ value 127.0 := by decide +kernel
    have hfinite := isFinite_clamp rfl rfl hnumber hlimits
    rw [result_of_some he, Parameter.limit_velocity]
    refine ⟨isNaN_of_isFinite hfinite, not_round_lt_one hfinite ?_⟩
    change 1 ≤ value (clamp 1.0 127.0 (e.apply n.velocity))
    rw [value_clamp rfl rfl hnumber hlimits, value_one]
    exact le_max_left ..

lemma Finite.writable_duration (h : edits.Finite) (hn : Writable signature n)
    (hset : ∀ e ∈ edits .duration, e.assign = .set) :
    (edits.result n .duration).isFinite ∧ ¬ edits.result n .duration ≤ 0.0 := by
  rcases he : edits .duration with _ | ⟨assign, x⟩
  · rw [result_of_none he]
    exact hn.duration
  · obtain rfl : assign = .set := hset _ he
    have hx : x.isFinite := h .duration ⟨.set, x⟩ he
    have hleast : leastDuration.isFinite := rfl
    have hnumber := isNaN_of_isFinite hleast
    have hpos : value 0.0 < value leastDuration := (lt_iff rfl hnumber).mp (by decide +kernel)
    obtain ⟨hlarger, hle⟩ := value_larger x hnumber
    rw [result_of_some he, Parameter.limit_duration, Edit.apply_set]
    refine ⟨(isFinite_larger (isNaN_of_isFinite hx) hleast).mpr ?_, ?_⟩
    · rintro rfl
      cases hx
    · rw [le_iff hlarger rfl, not_le]
      exact hpos.trans_le hle

/-- Edits that leave the start alone and add nothing to the duration keep a note writable. -/
theorem Finite.writable (h : edits.Finite) (hn : Writable signature n)
    (htiming : edits .timing = none) (hset : ∀ e ∈ edits .duration, e.assign = .set) :
    Writable signature (edits.apply n) := by
  have hstart : (edits.apply n).start = n.start := result_of_none htiming
  exact ⟨hstart ▸ hn.start, hstart ▸ hn.bar, h.writable_duration hn hset, h.writable_velocity hn⟩

end Edits

namespace Program

variable {σ : Type} [Source σ]

/-- **Modulated notes can still be written.** Where notes can be engraved, so can be what a program
makes of them that moves no start and adds nothing to a duration, whatever else it does and whatever
it draws. -/
theorem engrave_apply {program : Program} (htiming : ∀ a ∈ program, a.parameter ≠ .timing)
    (hduration : ∀ a ∈ program, a.parameter = .duration → a.assign = .set) {timing : Timing}
    {signature : Signature} (hsignature : timing.resolve = .ok signature) {notes : List Note}
    {text : List Char} (hwritten : Score.engrave notes timing = .ok text) (source : σ) :
    ∃ modulated, Score.engrave ((program.apply signature notes).run source).1.1 timing =
      .ok modulated := by
  obtain ⟨same, hsame, hnotes, -⟩ := Score.engrave_eq_ok hwritten
  obtain rfl : signature = same := Except.ok.inj (hsignature.symm.trans hsame)
  refine ⟨_, Score.engrave_eq_ok_iff.mpr ⟨signature, hsignature, ?_, rfl⟩⟩
  rw [apply_fst, ← List.map_uncurry_zip_eq_zipWith, List.forall_mem_map]
  intro x hx
  obtain ⟨hnote, hprogress⟩ := List.of_mem_zip hx
  have hfinite := mapM_run_forall (P := (·.edits.Finite))
    (fun n s => program.foldlM_finite (p := .initial) nofun s) notes source x.2 hprogress
  have hof := mapM_run_forall (P := (·.edits.Of program))
    (fun n s => foldlM_of (List.Subset.refl program) (p := .initial) nofun s) notes source x.2
    hprogress
  have hn : Writable signature x.1 := Score.checkWritable_eq_ok_iff.mp (hnotes x.1 hnote)
  refine Score.checkWritable_eq_ok_iff.mpr (hfinite.writable hn ?_ ?_)
  · rw [Option.eq_none_iff_forall_not_mem]
    intro e he
    obtain ⟨a, ha, hparameter, -⟩ := hof .timing e he
    exact htiming a ha hparameter
  · intro e he
    obtain ⟨a, ha, hparameter, hassign⟩ := hof .duration e he
    exact hassign ▸ hduration a ha hparameter

/-- An infinite velocity gets a noise on top, a note is shortened to nothing, and a probability has
no value. -/
theorem engrave_apply_infinite :
    let program : Program :=
      [⟨none, none, .velocity, .add, .binary .multiply (.number 9.0) (.call .noise []), ⟨1, 1⟩⟩,
        ⟨some ⟨62, 62⟩, none, .duration, .set, .number 0.0, ⟨2, 1⟩⟩,
        ⟨none, none, .probability, .set, .binary .divide (.number 1.0) (.number 0.0), ⟨3, 1⟩⟩]
    let notes : List Note := [⟨60, 0.0, 1.0, 1.0 / 0.0, 1.0, 0.0⟩, ⟨62, 1.0, 2.0, 0.5, 0.5, 0.0⟩]
    let source : Tape := .ofWords [0, 9223372036854775808]
    (∀ a ∈ program, a.parameter ≠ .timing) ∧
    (∀ a ∈ program, a.parameter = .duration → a.assign = .set) ∧
    Timing.unstated.resolve = .ok .common ∧
    (∃ text, Score.engrave notes .unstated = .ok text) ∧
    ∃ modulated, Score.engrave ((program.apply .common notes).run source).1.1 .unstated =
      .ok modulated := by
  intro program notes source
  have htiming : ∀ a ∈ program, a.parameter ≠ .timing := by decide
  have hduration : ∀ a ∈ program, a.parameter = .duration → a.assign = .set := by decide
  have hsignature : Timing.unstated.resolve = .ok .common := by decide +kernel
  have hsort : notes.mergeSort Score.writtenNoLater = notes :=
    List.mergeSort_of_pairwise (by decide +kernel)
  have hwritten : Score.engrave notes .unstated =
      .ok "v127 C3 1|1 v1 t2 p0.5 D3 |2".toList := by
    unfold Score.engrave
    rw [hsort]
    decide +kernel
  exact ⟨htiming, hduration, hsignature, ⟨_, hwritten⟩,
    engrave_apply htiming hduration hsignature hwritten source⟩

end Program

end Barline.Modulation
