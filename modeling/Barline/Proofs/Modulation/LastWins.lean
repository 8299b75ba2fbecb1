import Barline.Proofs.Modulation.Noiseless
import Barline.Proofs.Modulation.Worth

/-!
# The last assignment wins

What a program without noise does to a note, said without going through the program. An assignment
counts for a note if it is about the note and is worth a finite number there. Of those to a
parameter, the last one is made to the note as it was, and what comes of it is confined to the range
of the parameter.
-/

namespace Barline.Modulation

open Number (larger)
open Barline.Random (Source)

/-- What an assignment is worth for a note. Ramps run over its stretch, or else over the clip. -/
def Assignment.worth (a : Assignment) (signature : Signature) (clip : Span) (n : Note) :
    Option Float :=
  a.value.worth ⟨n, signature, a.stretch.elim clip fun r =>
    let first := Meter.beatsAt r.startBar r.startBeat signature.beatsPerBar
    ⟨first, Meter.beatsAt r.endBar r.endBeat signature.beatsPerBar - first⟩⟩

namespace Program

variable (program : Program) (signature : Signature) (clip : Span) (n : Note)

/-- The assignment `a` with index `i` is about a note: the range that holds there has its pitch, and
the stretch of the assignment has its start, give or take a thousandth of a beat. -/
structure Concerns (i : ℕ) (a : Assignment) : Prop where
  getElem? : program[i]? = some a
  pitch : ∀ r ∈ program.rangeAt i, r.low ≤ n.pitch ∧ n.pitch ≤ r.high
  start : ∀ r ∈ a.stretch,
    Meter.beatsAt r.startBar r.startBeat signature.beatsPerBar - 0.001 ≤
      signature.toBeats n.start ∧
    signature.toBeats n.start ≤
      Meter.beatsAt r.endBar r.endBeat signature.beatsPerBar + 0.001

/-- The assignment `a` with index `i` counts for a note, with the value `x`. -/
structure Counts (i : ℕ) (a : Assignment) (x : Float) : Prop
    extends program.Concerns signature n i a where
  worth : a.worth signature clip n = some x
  finite : x.isFinite

/-- The assignment with index `i` is about a note and has no value for it. -/
def FailsAt (i : ℕ) : Prop :=
  ∃ a, program.Concerns signature n i a ∧ ∀ x, ¬ program.Counts signature clip n i a x

/-- The assignment `a` is the last one to the parameter `p` that counts, with the value `x`. -/
def Wins (p : Parameter) (a : Assignment) (x : Float) : Prop :=
  ∃ i, program.Counts signature clip n i a x ∧ a.parameter = p ∧
    ∀ j b y, i < j → program.Counts signature clip n j b y → b.parameter ≠ p

/-- What the parameter `p` comes to if it was `before` and is confined by `confine`. -/
inductive Settles (p : Parameter) (confine : Float → Float) (before : Float) : Float → Prop
  | same (h : ∀ a x, ¬ program.Wins signature clip n p a x) : Settles p confine before before
  | set {a : Assignment} {x : Float} (h : program.Wins signature clip n p a x)
    (hassign : a.assign = .set) : Settles p confine before (confine x)
  | add {a : Assignment} {x : Float} (h : program.Wins signature clip n p a x)
    (hassign : a.assign = .add) : Settles p confine before (confine (before + x))

/-- What a program without noise makes of a note. -/
structure Makes (n m : Note) : Prop where
  pitch : m.pitch = n.pitch
  deviation : m.deviation = n.deviation
  velocity : program.Settles signature clip n .velocity
    (fun x => if x < 1.0 then 1.0 else if 127.0 < x then 127.0 else x) n.velocity m.velocity
  start : program.Settles signature clip n .timing id n.start m.start
  duration : program.Settles signature clip n .duration
    (fun x => if x.isNaN ∨ x < 0.001 then 0.001 else x) n.duration m.duration
  probability : program.Settles signature clip n .probability
    (fun x => if x < 0.0 then 0.0 else if 1.0 < x then 1.0 else x) n.probability m.probability

variable {program signature clip n}

lemma concerns_iff {i : ℕ} {a : Assignment} : program.Concerns signature n i a ↔
    (a, i) ∈ program.zipIdx ∧ a.covers (program.rangeAt i) n signature := by
  rw [List.mem_zipIdx_iff_getElem?]
  simp only [Assignment.covers, Option.all_eq_true, Bool.and_eq_true, PitchRange.contains,
    TimeRange.contains, decide_eq_true_iff]
  exact ⟨fun h => ⟨h.getElem?, h.pitch, h.start⟩, fun h => ⟨h.1, h.2.1, h.2.2⟩⟩

lemma worth_eq_some_iff {a : Assignment} (hfree : a.value.noiseFree) {x : Float} :
    a.worth signature clip n = some x ∧ x.isFinite ↔ a.outcome signature clip n = .ok x := by
  rw [Assignment.outcome, Expr.outcome_eq_ok_iff hfree, Assignment.worth, Assignment.span]
  cases a.stretch <;> rfl

lemma counts_iff (hfree : ∀ a ∈ program, a.value.noiseFree) {i : ℕ} {a : Assignment} {x : Float} :
    program.Counts signature clip n i a x ↔ (a, i) ∈ program.zipIdx ∧
      a.covers (program.rangeAt i) n signature ∧ a.outcome signature clip n = .ok x := by
  constructor
  · intro h
    obtain ⟨hmem, hcovers⟩ := concerns_iff.mp h.toConcerns
    exact ⟨hmem, hcovers,
      (worth_eq_some_iff (hfree a (List.fst_mem_of_mem_zipIdx hmem))).mp ⟨h.worth, h.finite⟩⟩
  · rintro ⟨hmem, hcovers, houtcome⟩
    obtain ⟨hworth, hfinite⟩ :=
      (worth_eq_some_iff (hfree a (List.fst_mem_of_mem_zipIdx hmem))).mpr houtcome
    exact ⟨concerns_iff.mpr ⟨hmem, hcovers⟩, hworth, hfinite⟩

/-- The edit that the assignment with an index makes to the parameter `p`. -/
def editAt (program : Program) (signature : Signature) (clip : Span) (n : Note) (p : Parameter)
    (x : Assignment × ℕ) : Option Edit :=
  if x.1.covers (program.rangeAt x.2) n signature then
    if x.1.parameter = p then (x.1.outcome signature clip n).toOption.map (⟨x.1.assign, ·⟩)
    else none
  else none

lemma standing_eq_filterMap (p : Parameter) : program.standing signature clip n p =
    program.zipIdx.filterMap (program.editAt signature clip n p) := by
  rw [standing, about, List.filterMap_map, List.filterMap_filter]
  rfl

lemma editAt_eq_some_iff (hfree : ∀ a ∈ program, a.value.noiseFree) {p : Parameter}
    {a : Assignment} {i : ℕ} (hmem : (a, i) ∈ program.zipIdx) {e : Edit} :
    program.editAt signature clip n p (a, i) = some e ↔
      program.Counts signature clip n i a e.value ∧ a.parameter = p ∧ a.assign = e.assign := by
  rw [counts_iff hfree, editAt]
  cases ho : a.outcome signature clip n with
  | ok x =>
    obtain ⟨assign, y⟩ := e
    simp [hmem, Except.toOption]
    tauto
  | error _ => simp [Except.toOption]

/-- Of what comes of the elements of a list, the last is that of the greatest index. -/
lemma getLast?_filterMap_zipIdx {α β : Type} (l : List α) (f : α × ℕ → Option β) (b : β) :
    (l.zipIdx.filterMap f).getLast? = some b ↔
      ∃ x ∈ l.zipIdx, f x = some b ∧ ∀ y ∈ l.zipIdx, x.2 < y.2 → f y = none := by
  -- in the reversed list the last match is the first one
  have hsorted : l.zipIdx.Pairwise (·.2 < ·.2) := by
    rw [← List.pairwise_map (f := Prod.snd) (R := (· < ·)), List.zipIdx_map_snd]
    exact List.pairwise_lt_range'
  rw [List.getLast?_filterMap, List.findSome?_eq_some_iff]
  constructor
  · rintro ⟨later, x, before, hsplit, hx, hlater⟩
    rw [List.reverse_eq_iff, List.reverse_append, List.reverse_cons, List.append_assoc] at hsplit
    rw [hsplit] at hsorted ⊢
    refine ⟨x, by simp, hx, fun y hy hlt => ?_⟩
    obtain hy | rfl | hy : y ∈ before ∨ y = x ∨ y ∈ later := by simpa using hy
    · have hbefore := (List.pairwise_append.mp hsorted).2.2 y (by simpa using hy) x (by simp)
      omega
    · omega
    · exact hlater y hy
  · rintro ⟨x, hx, hfx, hlast⟩
    obtain ⟨before, later, hsplit⟩ := List.append_of_mem hx
    refine ⟨later.reverse, x, before.reverse, by simp [hsplit], hfx, fun y hy => ?_⟩
    rw [List.mem_reverse] at hy
    rw [hsplit] at hsorted
    have hlt := List.rel_of_pairwise_cons (List.pairwise_append.mp hsorted).2.1 hy
    exact hlast y (by simp [hsplit, hy]) hlt

lemma standing_getLast? (hfree : ∀ a ∈ program, a.value.noiseFree) {p : Parameter} {e : Edit} :
    (program.standing signature clip n p).getLast? = some e ↔
      ∃ a, program.Wins signature clip n p a e.value ∧ a.assign = e.assign := by
  have hnone {b : Assignment} {j : ℕ} (hmem : (b, j) ∈ program.zipIdx) :
      program.editAt signature clip n p (b, j) = none ↔
        ∀ y, program.Counts signature clip n j b y → b.parameter ≠ p := by
    rw [Option.eq_none_iff_forall_ne_some]
    constructor
    · exact fun h y hcounts hp =>
        h ⟨b.assign, y⟩ ((editAt_eq_some_iff hfree hmem).mpr ⟨hcounts, hp, rfl⟩)
    · intro h e he
      obtain ⟨hcounts, hp, -⟩ := (editAt_eq_some_iff hfree hmem).mp he
      exact h _ hcounts hp
  rw [standing_eq_filterMap, getLast?_filterMap_zipIdx]
  constructor
  · rintro ⟨⟨a, i⟩, hmem, he, hlast⟩
    obtain ⟨hcounts, hp, hassign⟩ := (editAt_eq_some_iff hfree hmem).mp he
    refine ⟨a, ⟨i, hcounts, hp, fun j b y hlt hb => ?_⟩, hassign⟩
    have hj := (concerns_iff.mp hb.toConcerns).1
    exact (hnone hj).mp (hlast (b, j) hj hlt) y hb
  · rintro ⟨a, ⟨i, hcounts, hp, hlast⟩, hassign⟩
    have hi := (concerns_iff.mp hcounts.toConcerns).1
    exact ⟨(a, i), hi, (editAt_eq_some_iff hfree hi).mpr ⟨hcounts, hp, hassign⟩,
      fun x hx hlt => (hnone hx).mpr fun y hy => hlast _ _ y hlt hy⟩

/-- The result of the edits is what the parameter settles at, if the parameter is limited as it
should be. -/
lemma settles_result (hfree : ∀ a ∈ program, a.value.noiseFree) {p : Parameter}
    {confine : Float → Float} (hconfine : ∀ x, p.limit x = confine x) :
    program.Settles signature clip n p confine (p.read n)
      ((program.progress signature clip n).edits.result n p) := by
  have hedits := (program.tells_progress signature clip n).edits p
  unfold Edits.result
  cases he : (program.progress signature clip n).edits p with
  | none =>
    refine .same fun a x h => ?_
    rw [he] at hedits
    have hlast := (standing_getLast? hfree (e := ⟨a.assign, x⟩)).mpr ⟨a, h, rfl⟩
    exact absurd hlast (by simp [← hedits])
  | some e =>
    obtain ⟨assign, x⟩ := e
    obtain ⟨a, hwins, hassign⟩ := (standing_getLast? hfree).mp (hedits.symm.trans he)
    dsimp only
    rw [hconfine]
    cases assign with
    | set => exact .set hwins hassign
    | add => exact .add hwins hassign

/-- A program without noise makes of a note what the law says. -/
theorem makes_edited (hfree : ∀ a ∈ program, a.value.noiseFree) (signature : Signature)
    (clip : Span) (n : Note) :
    program.Makes signature clip n (program.edited signature clip n) where
  pitch := rfl
  deviation := rfl
  velocity := settles_result hfree fun _ => rfl
  start := settles_result hfree fun _ => rfl
  duration := settles_result hfree fun x => by
    change larger x 0.001 = _
    unfold larger
    have hleast : (0.001 : Float).isNaN = false := rfl
    simp only [hleast, Bool.false_eq_true, if_false, ite_or]
  probability := settles_result hfree fun _ => rfl

lemma failing_length (hfree : ∀ a ∈ program, a.value.noiseFree) (signature : Signature)
    (clip : Span) (n : Note) : (program.failing signature clip n).length =
      {i | program.FailsAt signature clip n i}.ncard := by
  let fails (x : Assignment × ℕ) : Bool := x.1.covers (program.rangeAt x.2) n signature &&
    !(x.1.outcome signature clip n).isOk
  have hiff (i : ℕ) : program.FailsAt signature clip n i ↔
      i ∈ ((program.zipIdx.filter fails).map (·.2)).toFinset := by
    simp only [FailsAt, concerns_iff, counts_iff hfree, List.mem_toFinset, List.mem_map,
      List.mem_filter, Prod.exists, exists_eq_right, fails, Bool.and_eq_true]
    refine exists_congr fun a => ?_
    cases a.outcome signature clip n <;> simp [Except.isOk, Except.toBool]
  have hnodup : ((program.zipIdx.filter fails).map (·.2)).Nodup := by
    refine List.Nodup.sublist (List.filter_sublist.map _) ?_
    rw [List.zipIdx_map_snd]
    exact List.nodup_range'
  have hset : {i | program.FailsAt signature clip n i} =
      ((program.zipIdx.filter fails).map (·.2)).toFinset := Set.ext hiff
  rw [hset, Set.ncard_coe_finset, List.toFinset_card_of_nodup hnodup, failing, about,
    List.filter_map, List.filter_filter, List.length_map, List.length_map]
  simp only [fails, Function.comp_apply, Bool.and_comm]

/-- **The last assignment wins.** A program without noise leaves the random source alone and the
notes in their order, and makes of every note what the law says. It counts one failure for each
assignment that is about a note and has no value for it, and as many changes as there are notes that
differ from what they were. -/
theorem apply_lastWins {σ : Type} [Source σ] {program : Program}
    (hfree : ∀ a ∈ program, a.value.noiseFree) (signature : Signature) (notes : List Note)
    (source : σ) :
    let clip : Span := ⟨0.0, signature.toBeats
      ((notes.map fun n => n.start + n.duration).foldl larger 0.0)⟩
    ∃ after outcome, (program.apply signature notes).run source = ((after, outcome), source) ∧
      List.Forall₂ (program.Makes signature clip) notes after ∧
      outcome.failures.length =
        (notes.map fun n => {i | program.FailsAt signature clip n i}.ncard).sum ∧
      outcome.changed = if program.isEmpty then 0
        else (notes.zip after).countP fun x => !x.1.agrees x.2 := by
  intro clip
  refine ⟨_, _, apply_run hfree signature notes source, ?_, ?_, ?_⟩
  · rw [List.forall₂_map_right_iff, List.forall₂_same]
    exact fun n _ => makes_edited hfree signature clip n
  · have hlength (n : Note) : (program.progress signature clip n).failures.length =
        {i | program.FailsAt signature clip n i}.ncard :=
      (program.tells_progress signature clip n).failures.trans
        (failing_length hfree signature clip n)
    unfold outcomeOf
    split_ifs with hempty
    · obtain rfl := List.isEmpty_iff.mp hempty
      simp [Outcome.failures, ← hlength, progress, Progress.initial]
    · rw [Outcome.failures, List.length_flatMap]
      simp only [← hlength]
      rfl
  · unfold outcomeOf
    split_ifs <;> rfl

/-- A range that is written once also limits the assignments after it. A failure does not displace
the addition before it, and what is added is added to the velocity as it was. -/
theorem apply_lastWins_sticky :
    let program : Program :=
      [⟨some ⟨36, 60⟩, none, .velocity, .set, .number 20.0, ⟨1, 1⟩⟩,
        ⟨none, none, .velocity, .add, .property "velocity", ⟨2, 1⟩⟩,
        ⟨none, none, .velocity, .set, .binary .divide (.number 1.0) (.number 0.0), ⟨3, 1⟩⟩,
        ⟨none, none, .duration, .add, .number (-5.0), ⟨4, 1⟩⟩]
    let notes : List Note := [⟨60, 0.0, 1.0, 50.0, 1.0, 0.0⟩, ⟨60, 1.0, 1.0, 100.0, 1.0, 0.0⟩,
      ⟨72, 2.0, 1.0, 100.0, 1.0, 0.0⟩]
    let after : List Note := [⟨60, 0.0, 0.001, 100.0, 1.0, 0.0⟩, ⟨60, 1.0, 0.001, 127.0, 1.0, 0.0⟩,
      ⟨72, 2.0, 1.0, 100.0, 1.0, 0.0⟩]
    let clip : Span := ⟨0.0, Signature.common.toBeats
      ((notes.map fun n => n.start + n.duration).foldl larger 0.0)⟩
    (∀ a ∈ program, a.value.noiseFree) ∧
    ∃ outcome, (program.apply .common notes).run () = ((after, outcome), ()) ∧
      List.Forall₂ (program.Makes .common clip) notes after ∧
      outcome.failures.length =
        (notes.map fun n => {i | program.FailsAt .common clip n i}.ncard).sum ∧
      outcome.changed = 2 ∧ outcome.failures.length = 2 := by
  intro program notes after clip
  have hfree : ∀ a ∈ program, a.value.noiseFree := by decide
  refine ⟨hfree, ?_⟩
  obtain ⟨after', outcome, hrun, hmakes, hfailures, -⟩ := apply_lastWins hfree .common notes ()
  have hresult : after' = after ∧ outcome.changed = 2 ∧ outcome.failures.length = 2 := by
    have hcomputed : ((program.apply .common notes).run ()).1.1 = after ∧
        ((program.apply .common notes).run ()).1.2.changed = 2 ∧
        ((program.apply .common notes).run ()).1.2.failures.length = 2 := by decide +kernel
    rwa [hrun] at hcomputed
  obtain ⟨rfl, hchanged, hcount⟩ := hresult
  exact ⟨outcome, hrun, hmakes, hfailures, hchanged, hcount⟩

end Program

end Barline.Modulation
