import Barline.Proofs.Modulation.Permutation

/-!
# The order of the assignments

Every expression sees the note as it was, and the last standing edit is found for each parameter by
itself. So only the range that holds can carry something from one parameter to another, and it
carries nothing where every assignment declares its own or none does.
-/

namespace Barline.Modulation

open Barline.Random (Source)

namespace Program

variable {program program' : Program} {signature : Signature} {clip : Span} {n : Note}

/-- Either every assignment declares a range of pitches or none does. -/
def Uniform (program : Program) : Prop :=
  (∀ a ∈ program, a.pitches.isSome) ∨ ∀ a ∈ program, a.pitches = none

lemma Uniform.of_subset (h : program.Uniform) (hsubset : program' ⊆ program) : program'.Uniform :=
  h.imp (fun h a ha => h a (hsubset ha)) fun h a ha => h a (hsubset ha)

lemma Uniform.range_last {a : Assignment} (h : Uniform (program ++ [a])) :
    (a.pitches <|> (program.filterMap (·.pitches)).getLast?) = a.pitches := by
  rcases h with h | h
  · obtain ⟨r, hr⟩ := Option.isSome_iff_exists.mp (h a (by simp))
    rw [hr]
    rfl
  · have hnone : program.filterMap (·.pitches) = [] :=
      List.filterMap_eq_nil_iff.mpr fun b hb => h b (List.mem_append_left _ hb)
    rw [hnone, h a (by simp)]
    rfl

/-- An assignment of a uniform program is about the notes that it covers itself. -/
lemma Uniform.about_eq (h : program.Uniform) (signature : Signature) (n : Note) :
    program.about signature n = program.filter fun a => a.covers a.pitches n signature := by
  induction program using List.reverseRecOn with
  | nil => rfl
  | append_singleton program a ih =>
    rw [about_append, ih (h.of_subset (List.subset_append_left _ _)), h.range_last,
      List.filter_append, List.filter_cons, List.filter_nil]

lemma Uniform.standing_eq (h : program.Uniform) (p : Parameter) :
    program.standing signature clip n p =
      ((program.filter (·.parameter = p)).filter fun a => a.covers a.pitches n signature).filterMap
        fun a => (a.outcome signature clip n).toOption.map (⟨a.assign, ·⟩) := by
  rw [List.filter_comm, List.filterMap_filter, standing, h.about_eq]
  simp only [decide_eq_true_iff]

/-- The assignments that are about a note and have no value for it fail, in order. -/
lemma failures_progress (program : Program) (signature : Signature) (clip : Span) (n : Note) :
    (program.progress signature clip n).failures =
      (program.about signature n).filterMap fun a => match a.outcome signature clip n with
        | .ok _ => none
        | .error e => some (a.failure ⟨n, signature, a.span clip signature⟩ e) := by
  induction program using List.reverseRecOn with
  | nil => rfl
  | append_singleton program a ih =>
    have hlast : progress (program ++ [a]) signature clip n =
        a.advance signature clip n (progress program signature clip n) := List.foldl_concat ..
    have hrange := (tells_progress program signature clip n).pitches
    rw [hlast, about_append, List.filterMap_append, ← ih, ← hrange]
    unfold Assignment.advance
    dsimp only
    split_ifs with hcovers
    · cases ho : a.outcome signature clip n <;> simp [ho]
    · simp

/-- One program is another in an order that keeps the assignments to each parameter in theirs. -/
structure Reorders (program' program : Program) : Prop where
  perm : program'.Perm program
  keeps (p : Parameter) : program'.filter (·.parameter = p) = program.filter (·.parameter = p)

lemma reorders_ofFn {count : ℕ} (assignments : Fin count → Assignment)
    (order : Equiv.Perm (Fin count))
    (h : ∀ i j, i < j → (assignments (order i)).parameter = (assignments (order j)).parameter →
      order i < order j) :
    Reorders (List.ofFn (assignments ∘ order)) (List.ofFn assignments) where
  perm := Equiv.Perm.ofFn_comp_perm order assignments
  keeps p := by
    let targets (i : Fin count) : Bool := (assignments i).parameter = p
    -- Both sides take the places of the assignments to `p` from the first to the last.
    have hsorted : ((List.ofFn order).filter targets).Pairwise (· < ·) := by
      rw [List.pairwise_filter, List.pairwise_ofFn]
      intro i j hij hi hj
      exact h i j hij ((of_decide_eq_true hi).trans (of_decide_eq_true hj).symm)
    have hsorted' : ((List.ofFn id).filter targets).Pairwise (· < ·) := by
      rw [List.pairwise_filter, List.pairwise_ofFn]
      exact fun i j hij _ _ => hij
    have hplaces : (List.ofFn order).filter targets = (List.ofFn id).filter targets :=
      List.Perm.eq_of_pairwise (fun i j _ _ hij hji => absurd hij hji.asymm) hsorted hsorted'
        ((Equiv.Perm.ofFn_comp_perm order id).filter _)
    have hmap (f : Fin count → Fin count) :
        (List.ofFn (assignments ∘ f)).filter (·.parameter = p) =
          ((List.ofFn f).filter targets).map assignments := by
      rw [← List.map_ofFn, List.filter_map]
      rfl
    exact (hmap order).trans ((congrArg _ hplaces).trans (hmap id).symm)

lemma Reorders.edited_eq (h : Reorders program' program) (huniform : program.Uniform) :
    program'.edited signature clip n = program.edited signature clip n := by
  have hedits : (program'.progress signature clip n).edits =
      (program.progress signature clip n).edits := by
    funext p
    rw [(program'.tells_progress signature clip n).edits,
      (program.tells_progress signature clip n).edits, huniform.standing_eq,
      (huniform.of_subset h.perm.subset).standing_eq, h.keeps]
  rw [edited, edited, hedits]

lemma Reorders.failures_perm (h : Reorders program' program) (huniform : program.Uniform) :
    (program'.progress signature clip n).failures.Perm
      (program.progress signature clip n).failures := by
  rw [failures_progress, failures_progress, huniform.about_eq,
    (huniform.of_subset h.perm.subset).about_eq]
  exact (h.perm.filter _).filterMap _

lemma Reorders.outcomeOf_perm (h : Reorders program' program) (huniform : program.Uniform)
    (signature : Signature) (notes : List Note) :
    (program'.outcomeOf signature notes).changed = (program.outcomeOf signature notes).changed ∧
      (program'.outcomeOf signature notes).failures.Perm
        (program.outcomeOf signature notes).failures := by
  have hedited (clip : Span) : program'.edited signature clip = program.edited signature clip :=
    funext fun n => h.edited_eq huniform
  have hempty : program'.isEmpty = program.isEmpty := h.perm.isEmpty_eq
  unfold outcomeOf
  dsimp only
  rw [hempty, hedited]
  split_ifs
  · exact ⟨rfl, .refl _⟩
  · exact ⟨rfl, .flatMap_left notes fun n _ => h.failures_perm huniform⟩

variable {σ : Type} [Source σ]

/-- **The order of the assignments does not matter from one parameter to another.** Where every
assignment declares its pitches or none does, a program without noise gives the same notes in every
order that keeps the assignments to each parameter in theirs. As many notes are changed, and the
same assignments fail. -/
theorem apply_reordered {count : ℕ} (assignments : Fin count → Assignment)
    (order : Equiv.Perm (Fin count))
    (horder : ∀ i j, i < j →
      (assignments (order i)).parameter = (assignments (order j)).parameter → order i < order j)
    (hfree : ∀ i, (assignments i).value.noiseFree)
    (hranges : (∀ i, (assignments i).pitches.isSome) ∨ ∀ i, (assignments i).pitches = none)
    (signature : Signature) (notes : List Note) (source source' : σ) :
    ∃ (after : List Note) (outcome outcome' : Outcome),
      (apply (List.ofFn assignments) signature notes).run source = ((after, outcome), source) ∧
      (apply (List.ofFn (assignments ∘ order)) signature notes).run source' =
        ((after, outcome'), source') ∧
      outcome'.changed = outcome.changed ∧ outcome'.failures.Perm outcome.failures := by
  have hreorders := reorders_ofFn assignments order horder
  have huniform : Uniform (List.ofFn assignments) := by
    simpa only [Uniform, List.forall_mem_ofFn_iff] using hranges
  have hall : ∀ a ∈ List.ofFn assignments, a.value.noiseFree :=
    (List.forall_mem_ofFn_iff).mpr hfree
  have hall' : ∀ a ∈ List.ofFn (assignments ∘ order), a.value.noiseFree := fun a ha =>
    hall a (hreorders.perm.subset ha)
  have hsame : edited (List.ofFn (assignments ∘ order)) signature (clipOf signature notes) =
      edited (List.ofFn assignments) signature (clipOf signature notes) :=
    funext fun n => hreorders.edited_eq huniform
  refine ⟨_, _, _, apply_run hall signature notes source, ?_,
    hreorders.outcomeOf_perm huniform signature notes⟩
  rw [apply_run hall', hsame]

/-- An assignment that fails moves in front of two to another parameter, which keep their order. -/
theorem apply_reordered_failing :
    let assignments : Fin 3 → Assignment :=
      ![⟨some ⟨36, 60⟩, none, .velocity, .set, .number 80.0, ⟨1, 1⟩⟩,
        ⟨some ⟨60, 72⟩, none, .velocity, .add, .property "probability", ⟨2, 1⟩⟩,
        ⟨some ⟨60, 60⟩, none, .timing, .add, .property "nothing", ⟨3, 1⟩⟩]
    let order : Equiv.Perm (Fin 3) := Equiv.swap 0 1 * Equiv.swap 0 2
    let notes : List Note := [⟨60, 0.0, 1.0, 100.0, 1.0, 0.0⟩, ⟨72, 1.0, 1.0, 100.0, 1.0, 0.0⟩]
    order 0 = 2 ∧ order 1 = 0 ∧ order 2 = 1 ∧
    ∃ (after : List Note) (outcome outcome' : Outcome),
      (apply (List.ofFn assignments) .common notes).run () = ((after, outcome), ()) ∧
      (apply (List.ofFn (assignments ∘ order)) .common notes).run () = ((after, outcome'), ()) ∧
      outcome'.changed = outcome.changed ∧ outcome'.failures.Perm outcome.failures := by
  intro assignments order notes
  refine ⟨by decide, by decide, by decide, ?_⟩
  exact apply_reordered assignments order (by decide) (by decide) (.inl (by decide)) .common notes
    () ()

end Program

end Barline.Modulation
