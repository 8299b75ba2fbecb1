import Barline.Proofs.Number.Order
import Barline.Proofs.Score.Performing

/-!
# Notes in order

Notes are sorted by their starts when they were performed. The order compares keys, and the sort
leaves notes of the same key as they stand.
-/

namespace Barline.Score

section

variable {α β γ : Type} [LinearOrder β] {key : α → β} {le : α → α → Bool}

lemma trans_of_key (hle : ∀ a b, le a b ↔ key a ≤ key b) (a b c : α) (hab : le a b)
    (hbc : le b c) : le a c :=
  (hle a c).mpr (((hle a b).mp hab).trans ((hle b c).mp hbc))

lemma total_of_key (hle : ∀ a b, le a b ↔ key a ≤ key b) (a b : α) : le a b || le b a := by
  simpa only [Bool.or_eq_true, hle] using le_total (key a) (key b)

lemma pairwise_mergeSort_key (hle : ∀ a b, le a b ↔ key a ≤ key b) (l : List α) :
    (l.mergeSort le).Pairwise (key · ≤ key ·) :=
  (List.pairwise_mergeSort (trans_of_key hle) (total_of_key hle) l).imp (hle _ _).mp

lemma filter_mergeSort_key (hle : ∀ a b, le a b ↔ key a ≤ key b) (l : List α) (k : β) :
    (l.mergeSort le).filter (key · = k) = l.filter (key · = k) := by
  have hties : (l.filter (key · = k)).Pairwise (le · ·) := by
    refine List.pairwise_of_forall_mem_list fun a ha b hb => ?_
    have ha : key a = k := by simpa using (List.mem_filter.mp ha).2
    have hb : key b = k := by simpa using (List.mem_filter.mp hb).2
    exact (hle a b).mpr (ha.trans hb.symm).le
  have hsublist : (l.filter (key · = k)).Sublist (l.mergeSort le) :=
    List.sublist_mergeSort (trans_of_key hle) (total_of_key hle) hties List.filter_sublist
  have hfilter := hsublist.filter (key · = k)
  simp only [List.filter_filter, Bool.and_self] at hfilter
  exact (hfilter.eq_of_length ((List.mergeSort_perm l le).filter _).length_eq.symm).symm

/-- Where a key tells the image, the images come in one order however the list was ordered. -/
lemma map_mergeSort_of_perm (hle : ∀ a b, le a b ↔ key a ≤ key b) {l m : List α} (h : l.Perm m)
    {f : α → γ} (hf : ∀ a ∈ l, ∀ b ∈ l, key a = key b → f a = f b) :
    (l.mergeSort le).map f = (m.mergeSort le).map f := by
  let g (a : α) : β × γ := (key a, f a)
  have hsorted (l : List α) : ((l.mergeSort le).map g).Pairwise (·.1 ≤ ·.1) :=
    List.pairwise_map.mpr (pairwise_mergeSort_key hle l)
  have hperm : ((l.mergeSort le).map g).Perm ((m.mergeSort le).map g) :=
    ((List.mergeSort_perm l le).trans (h.trans (List.mergeSort_perm m le).symm)).map g
  have hmem {x : β × γ} {n : List α} (hn : ∀ a ∈ n, a ∈ l) (hx : x ∈ (n.mergeSort le).map g) :
      ∃ a ∈ l, g a = x := by
    obtain ⟨a, ha, rfl⟩ := List.mem_map.mp hx
    exact ⟨a, hn a (List.mem_mergeSort.mp ha), rfl⟩
  have heq : (l.mergeSort le).map g = (m.mergeSort le).map g := by
    refine List.Perm.eq_of_pairwise (fun x y hx hy hxy hyx => ?_) (hsorted l) (hsorted m) hperm
    obtain ⟨a, ha, rfl⟩ := hmem (fun _ => id) hx
    obtain ⟨b, hb, rfl⟩ := hmem (fun _ => h.mem_iff.mpr) hy
    have hkey : key a = key b := le_antisymm hxy hyx
    exact Prod.ext hkey (hf a ha b hb hkey)
  have hsnd := congrArg (List.map Prod.snd) heq
  rwa [List.map_map, List.map_map] at hsnd

end

/-- The notes by their starts, those that start together in the order that they had. The keys also
order zeros of both signs and what is no number. -/
structure SortedByStart (notes sorted : List Note) : Prop where
  perm : sorted.Perm notes
  ordered : sorted.Pairwise (Number.orderKey ·.start ≤ Number.orderKey ·.start)
  ascending : sorted.Pairwise fun a b =>
    a.start.isNaN = false → b.start.isNaN = false → a.start ≤ b.start
  stable : ∀ start, sorted.filter (·.start = start) = notes.filter (·.start = start)

lemma startsNoLater_iff (a b : Note) :
    startsNoLater a b ↔ Number.orderKey a.start ≤ Number.orderKey b.start := by
  simp [startsNoLater]

theorem sortedByStart_mergeSort (notes : List Note) :
    SortedByStart notes (notes.mergeSort startsNoLater) where
  perm := List.mergeSort_perm notes startsNoLater
  ordered := pairwise_mergeSort_key startsNoLater_iff notes
  ascending := (pairwise_mergeSort_key startsNoLater_iff notes).imp fun h ha hb =>
    Number.le_of_orderKey_le ha hb h
  stable start := by
    have hkey := filter_mergeSort_key startsNoLater_iff notes (Number.orderKey start)
    simpa only [Number.orderKey_inj] using hkey

end Barline.Score
