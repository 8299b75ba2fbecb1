import Barline.Proofs.Score.Sorting

/-!
# What deletions take

A deletion takes the latest of the earlier notes that it can delete and that no deletion before it
has taken. This matches deletions with notes in one way only, and what no deletion takes is left, in
the order in which it was placed.
-/

namespace Barline.Score

/-- Whether an event is a deletion and not a note. -/
def isDeletion (e : Note) : Bool := e.velocity == 0.0

section

variable (window : Float) (events : List Note) (taken : ℕ → Option ℕ)

/-- The note at index `j` may be taken by the deletion at index `i`: it stands before the deletion,
is one that it deletes, and no earlier deletion has taken it. -/
structure Available (i j : ℕ) : Prop where
  earlier : j < i
  deleted : ∃ e n, events[i]? = some e ∧ events[j]? = some n ∧ isDeletion n = false ∧
    deletes window e n
  free : ∀ k < i, taken k ≠ some j

/-- By their indices, each deletion is sent to the note that it takes: the latest that is available,
if there is any. -/
structure Matched : Prop where
  deletion : ∀ i j, taken i = some j → ∃ e, events[i]? = some e ∧ isDeletion e
  available : ∀ i j, taken i = some j → Available window events taken i j
  latest : ∀ i j, taken i = some j → ∀ k, Available window events taken i k → k ≤ j
  exhausted : ∀ i e, events[i]? = some e → isDeletion e → taken i = none →
    ∀ j, ¬ Available window events taken i j

/-- The notes that no deletion takes, with their indices. -/
def spared : List (Note × ℕ) :=
  events.zipIdx.filter fun x => isDeletion x.1 = false ∧ ∀ i < events.length, taken i ≠ some x.2

end

section

variable {window : Float} {events : List Note} {taken taken' : ℕ → Option ℕ}

/-- What a deletion takes hangs on what those before it take. -/
theorem Matched.unique (h : Matched window events taken) (h' : Matched window events taken') :
    taken = taken' := by
  funext i
  induction i using Nat.strong_induction_on with
  | _ i ih =>
    have havailable (j : ℕ) :
        Available window events taken i j ↔ Available window events taken' i j := by
      constructor
      · exact fun ⟨hlt, hdeleted, hfree⟩ => ⟨hlt, hdeleted, fun k hk => ih k hk ▸ hfree k hk⟩
      · exact fun ⟨hlt, hdeleted, hfree⟩ => ⟨hlt, hdeleted, fun k hk => ih k hk ▸ hfree k hk⟩
    cases hi : taken i with
    | none =>
      cases hi' : taken' i with
      | none => rfl
      | some j =>
        obtain ⟨e, he, hdeletion⟩ := h'.deletion i j hi'
        exact absurd ((havailable j).mpr (h'.available i j hi')) (h.exhausted i e he hdeletion hi j)
    | some j =>
      have hj := (havailable j).mp (h.available i j hi)
      cases hi' : taken' i with
      | none =>
        obtain ⟨e, he, hdeletion⟩ := h.deletion i j hi
        exact absurd hj (h'.exhausted i e he hdeletion hi' j)
      | some j' =>
        have hj' := (havailable j').mpr (h'.available i j' hi')
        exact congrArg some (le_antisymm (h'.latest i j' hi' j hj) (h.latest i j hi j' hj'))

end

section

variable (window : Float)

/-- Whether a deletion deletes a note with its index. -/
def takes (e : Note) (x : Note × ℕ) : Bool := deletes window e x.1

/-- One step of the deletions, on the notes kept so far with their indices. -/
def keepAt (kept : List (Note × ℕ)) (x : Note × ℕ) : List (Note × ℕ) :=
  if isDeletion x.1 then kept.eraseP (takes window x.1) else x :: kept

/-- The notes that are kept of some events, with their indices, the latest first. -/
def keptOf (events : List Note) : List (Note × ℕ) := events.zipIdx.foldl (keepAt window) []

/-- The index of the note that the deletion at an index takes. -/
def takenBy (events : List Note) (i : ℕ) : Option ℕ :=
  events[i]?.bind fun e =>
    if isDeletion e then ((keptOf window (events.take i)).find? (takes window e)).map (·.2)
    else none

variable {window : Float} {events : List Note}

lemma keptOf_concat (events : List Note) (e : Note) :
    keptOf window (events ++ [e]) = keepAt window (keptOf window events) (e, events.length) := by
  unfold keptOf
  rw [List.zipIdx_append, List.foldl_append]
  simp

/-- The indices are only written beside the notes. -/
lemma map_keptOf (events : List Note) :
    (keptOf window events).map (·.1) = events.foldl (keep window) [] := by
  induction events using List.reverseRecOn with
  | nil => rfl
  | append_singleton events e ih =>
    have herase : ((keptOf window events).eraseP (takes window e)).map (·.1) =
        ((keptOf window events).map (·.1)).eraseP (deletes window e) := List.eraseP_map.symm
    rw [keptOf_concat, List.foldl_append, List.foldl_cons, List.foldl_nil, ← ih]
    unfold keepAt keep isDeletion
    split_ifs
    · exact herase
    · rfl

lemma mem_keptOf {x : Note × ℕ} (h : x ∈ keptOf window events) :
    events[x.2]? = some x.1 ∧ isDeletion x.1 = false := by
  induction events using List.reverseRecOn with
  | nil => cases h
  | append_singleton events e ih =>
    have hold (h : x ∈ keptOf window events) :
        (events ++ [e])[x.2]? = some x.1 ∧ isDeletion x.1 = false := by
      obtain ⟨hx, hnote⟩ := ih h
      obtain ⟨hlt, -⟩ := List.getElem?_eq_some_iff.mp hx
      exact ⟨by rw [List.getElem?_append_left hlt, hx], hnote⟩
    rw [keptOf_concat, keepAt] at h
    split_ifs at h with hdeletion
    · exact hold (List.mem_of_mem_eraseP h)
    · rcases List.mem_cons.mp h with rfl | h
      · exact ⟨List.getElem?_concat_length, by simpa using hdeletion⟩
      · exact hold h

lemma lt_of_mem_keptOf {x : Note × ℕ} (h : x ∈ keptOf window events) : x.2 < events.length :=
  (List.getElem?_eq_some_iff.mp (mem_keptOf h).1).1

lemma keptOf_decreasing (events : List Note) : (keptOf window events).Pairwise (·.2 > ·.2) := by
  induction events using List.reverseRecOn with
  | nil => exact .nil
  | append_singleton events e ih =>
    rw [keptOf_concat, keepAt]
    split_ifs
    · exact ih.eraseP _
    · exact .cons (fun x hx => lt_of_mem_keptOf hx) ih

lemma takenBy_append {i : ℕ} (h : i < events.length) (more : List Note) :
    takenBy window (events ++ more) i = takenBy window events i := by
  unfold takenBy
  rw [List.getElem?_append_left h, List.take_append_of_le_length h.le]

lemma takenBy_length (events : List Note) (e : Note) :
    takenBy window (events ++ [e]) events.length =
      if isDeletion e then ((keptOf window events).find? (takes window e)).map (·.2) else none := by
  unfold takenBy
  rw [List.getElem?_concat_length, List.take_left]
  rfl

/-- A deletion that takes a note takes one that it deletes from those kept of the events before. -/
lemma exists_of_takenBy {i j : ℕ} (h : takenBy window events i = some j) :
    ∃ e, events[i]? = some e ∧ isDeletion e ∧
      ∃ n, (keptOf window (events.take i)).find? (takes window e) = some (n, j) := by
  obtain ⟨e, he, hj⟩ := Option.bind_eq_some_iff.mp h
  split_ifs at hj with hdeletion
  obtain ⟨⟨n, j⟩, hfind, rfl⟩ := Option.map_eq_some_iff.mp hj
  exact ⟨e, he, hdeletion, n, hfind⟩

lemma lt_of_takenBy {i j : ℕ} (h : takenBy window events i = some j) : j < i := by
  obtain ⟨e, -, -, n, hfind⟩ := exists_of_takenBy h
  exact (lt_of_mem_keptOf (List.mem_of_find?_eq_some hfind)).trans_le (List.length_take_le _ _)

lemma free_concat (events : List Note) (e : Note) (j : ℕ) :
    (∀ i < (events ++ [e]).length, takenBy window (events ++ [e]) i ≠ some j) ↔
      (∀ i < events.length, takenBy window events i ≠ some j) ∧
        takenBy window (events ++ [e]) events.length ≠ some j := by
  rw [List.length_append, List.length_singleton]
  constructor
  · intro h
    refine ⟨fun i hi => ?_, h _ (Nat.lt_succ_self _)⟩
    rw [← takenBy_append hi [e]]
    exact h i (Nat.lt_succ_of_lt hi)
  · rintro ⟨h, hlast⟩ i hi
    rcases Nat.lt_succ_iff_lt_or_eq.mp hi with hi | rfl
    · rw [takenBy_append hi]
      exact h i hi
    · exact hlast

/-- Of what was spared, the next event takes at most one note, and it is spared unless it is a
deletion. -/
lemma spared_concat (events : List Note) (e : Note) :
    spared (events ++ [e]) (takenBy window (events ++ [e])) =
      ((spared events (takenBy window events)).filter fun x =>
        takenBy window (events ++ [e]) events.length ≠ some x.2) ++
      if isDeletion e then [] else [(e, events.length)] := by
  have hnext : ∀ i < (events ++ [e]).length,
      takenBy window (events ++ [e]) i ≠ some events.length := by
    intro i hi h
    rw [List.length_append, List.length_singleton] at hi
    exact absurd (lt_of_takenBy h) (by omega)
  have hconcat : (events ++ [e]).zipIdx = events.zipIdx ++ [(e, events.length)] := by
    rw [List.zipIdx_append]
    simp
  unfold spared
  rw [hconcat, List.filter_append, List.filter_filter]
  congr 1
  · refine List.filter_congr fun x _ => ?_
    rw [Bool.eq_iff_iff, Bool.and_eq_true, decide_eq_true_eq, decide_eq_true_eq, decide_eq_true_eq,
      free_concat, and_comm (b := isDeletion x.1 = false ∧ _), and_assoc]
  · cases hdeletion : isDeletion e with
    | true => simp [hdeletion]
    | false =>
      rw [List.filter_cons_of_pos (by simpa only [decide_eq_true_eq] using ⟨hdeletion, hnext⟩)]
      rfl

/-- What is taken from a list by its first match is told by the index of that match. -/
lemma eraseP_eq_filter (q : Note × ℕ → Bool) {kept : List (Note × ℕ)}
    (h : kept.Pairwise (·.2 > ·.2)) :
    kept.eraseP q = kept.filter fun x => (kept.find? q).map (·.2) ≠ some x.2 := by
  induction kept with
  | nil => rfl
  | cons x kept ih =>
    obtain ⟨hx, hkept⟩ := List.pairwise_cons.mp h
    cases hq : q x with
    | true =>
      have hrest : kept.filter (fun y => x.2 ≠ y.2) = kept :=
        List.filter_eq_self.mpr fun y hy => by simpa using (hx y hy).ne'
      rw [List.eraseP_cons_of_pos hq, List.find?_cons_of_pos hq]
      simpa using hrest.symm
    | false =>
      have hfirst : (kept.find? q).map (·.2) ≠ some x.2 := by
        intro hfind
        obtain ⟨y, hy, hyx⟩ := Option.map_eq_some_iff.mp hfind
        exact (hx y (List.mem_of_find?_eq_some hy)).ne hyx
      rw [List.eraseP_cons_of_neg (by simp [hq]), List.find?_cons_of_neg (by simp [hq]), ih hkept,
        List.filter_cons_of_pos (by simpa using hfirst)]

/-- What is kept is what no deletion takes. -/
theorem keptOf_eq (events : List Note) :
    keptOf window events = (spared events (takenBy window events)).reverse := by
  induction events using List.reverseRecOn with
  | nil => rfl
  | append_singleton events e ih =>
    rw [keptOf_concat, spared_concat, List.reverse_append, takenBy_length, ← List.filter_reverse,
      ← ih, keepAt]
    split_ifs with hdeletion
    · exact eraseP_eq_filter _ (keptOf_decreasing events)
    · simp

lemma takenBy_take {i k : ℕ} (hi : i ≤ events.length) (hk : k < i) :
    takenBy window (events.take i) k = takenBy window events k := by
  have htake : k < (events.take i).length := by rwa [List.length_take_of_le hi]
  rw [← takenBy_append htake (events.drop i), List.take_append_drop]

lemma available_iff {i j : ℕ} {e : Note} (he : events[i]? = some e) :
    Available window events (takenBy window events) i j ↔
      ∃ n, (n, j) ∈ keptOf window (events.take i) ∧ takes window e (n, j) := by
  have hi : i < events.length := (List.getElem?_eq_some_iff.mp he).1
  have hmem (n : Note) : (n, j) ∈ keptOf window (events.take i) ↔
      (events.take i)[j]? = some n ∧ isDeletion n = false ∧
        ∀ k < i, takenBy window events k ≠ some j := by
    rw [keptOf_eq, List.mem_reverse, spared, List.mem_filter, List.mem_zipIdx_iff_getElem?,
      decide_eq_true_eq, List.length_take_of_le hi.le]
    refine and_congr_right fun _ => and_congr_right fun _ => forall₂_congr fun k hk => ?_
    rw [takenBy_take hi.le hk]
  constructor
  · rintro ⟨hlt, ⟨e', n, he', hn, hnote, hdeletes⟩, hfree⟩
    obtain rfl : e = e' := Option.some.inj (he.symm.trans he')
    refine ⟨n, (hmem n).mpr ⟨?_, hnote, hfree⟩, hdeletes⟩
    rw [List.getElem?_take_of_lt hlt, hn]
  · rintro ⟨n, hn, htakes⟩
    obtain ⟨hget, hnote, hfree⟩ := (hmem n).mp hn
    have hlt : j < i := by
      have hlength := (List.getElem?_eq_some_iff.mp hget).1
      exact hlength.trans_le (List.length_take_le _ _)
    rw [List.getElem?_take_of_lt hlt] at hget
    exact ⟨hlt, ⟨e, n, he, hget, hnote, htakes⟩, hfree⟩

lemma le_of_find? {q : Note × ℕ → Bool} {kept : List (Note × ℕ)} {x y : Note × ℕ}
    (h : kept.Pairwise (·.2 > ·.2)) (hx : kept.find? q = some x) (hy : y ∈ kept) (hq : q y) :
    y.2 ≤ x.2 := by
  obtain ⟨-, before, after, rfl, hbefore⟩ := List.find?_eq_some_iff_append.mp hx
  rcases List.mem_append.mp hy with hy | hy
  · have hnot := hbefore y hy
    simp [hq] at hnot
  · rcases List.mem_cons.mp hy with rfl | hy
    · exact le_rfl
    · exact ((List.pairwise_cons.mp (List.pairwise_append.mp h).2.1).1 y hy).le

/-- The deletions are carried out along a matching. -/
theorem matched_takenBy (events : List Note) :
    Matched window events (takenBy window events) where
  deletion i j h := by
    obtain ⟨e, he, hdeletion, -⟩ := exists_of_takenBy h
    exact ⟨e, he, hdeletion⟩
  available i j h := by
    obtain ⟨e, he, -, n, hfind⟩ := exists_of_takenBy h
    exact (available_iff he).mpr ⟨n, List.mem_of_find?_eq_some hfind, List.find?_some hfind⟩
  latest i j h k hk := by
    obtain ⟨e, he, -, n, hfind⟩ := exists_of_takenBy h
    obtain ⟨m, hm, htakes⟩ := (available_iff he).mp hk
    exact le_of_find? (keptOf_decreasing _) hfind hm htakes
  exhausted i e he hdeletion h j hj := by
    obtain ⟨n, hn, htakes⟩ := (available_iff he).mp hj
    have hnone : (keptOf window (events.take i)).find? (takes window e) = none := by
      simpa [takenBy, he, hdeletion] using h
    exact List.find?_eq_none.mp hnone _ hn htakes

/-- What is left by the deletions is what no deletion takes. -/
theorem applyDeletions_eq (events : List Note) :
    applyDeletions window events = (spared events (takenBy window events)).map (·.1) := by
  rw [applyDeletions, ← map_keptOf, keptOf_eq, List.map_reverse, List.reverse_reverse]

end

end Barline.Score
