import Barline.Proofs.Score.Shorthand

/-!
# Reckoning without overflow

Words wrap around where a difference falls below zero or a sum runs past the last word. A checked
performance reckons in the same way, but has no outcome at all where a word would wrap around. On
the elements of a text it has one: velocities of a range are in order, bars count from one, and
ranges of bars do not run backwards.
-/

namespace Barline.Score

/-- A computation that refuses, or that has no outcome because a word would wrap around. -/
abbrev Checked := ExceptT Error Option

namespace Checked

def overflow {α : Type} : Checked α := .mk none

def subtract8 (a b : UInt8) : Checked UInt8 := if b ≤ a then return a - b else overflow

def subtract (a b : UInt32) : Checked UInt32 := if b ≤ a then return a - b else overflow

def add (a b : UInt32) : Checked UInt32 :=
  if a.toNat + b.toNat < Number.bound32 then return a + b else overflow

def remainder (a b : UInt32) : Checked UInt32 := if b = 0 then overflow else return a % b

end Checked

/-- The pairs of a copy. Sources and destinations are counted as they come. -/
def checkedPairs (destination : Bars) (source : Source) (position : Position) :
    Checked (List (UInt32 × UInt32)) :=
  match source, destination with
  | .previous, destination =>
    if destination.first = 1 then throw (.domain .nothingBeforeFirstBar (some position))
    else destination.toList.mapM fun d => do return (← Checked.subtract d 1, d)
  | .bars (.single source), destination => return destination.toList.map fun d => (source, d)
  | .bars (.range first last), .single destination =>
    (barsFrom first last).zipIdx.mapM fun (source, i) =>
      if destination.toNat + i < Number.bound32 then return (source, destination + .ofNat i)
      else throw (.domain (.copyPastLastBar first last destination) (some position))
  | .bars (.range first last), .range start finish => do
    let turns ← Checked.add (← Checked.subtract last first) 1
    (barsFrom start finish).zipIdx.mapM fun (d, i) => do
      return (← Checked.add first (← Checked.remainder (.ofNat i) turns), d)

namespace Performer

/-- A step in checked arithmetic. Only ranges of velocities and copies reckon with words. -/
def checkedStep (p : Performer) (s : State) (element : Located Element) : Checked State :=
  let position := element.position
  match element.value with
  | .velocityRange low high => do
    return s.change (.velocity low.toFloat (← Checked.subtract8 high low).toFloat) position
  | .copy destination source => do
    let pairs ← checkedPairs destination source position
    return pairs.foldl (State.copyBar p.signature.beatsPerBar position) (s.dropPitches position)
  | _ => .mk (some (p.step s element))

end Performer

/-- No word wraps around, and the outcome is that of a computation on words. -/
def Reckons {α : Type} (x : Checked α) (r : Except Error α) : Prop := x.run = some r

section

variable {α β : Type} {x : Checked α} {r : Except Error α}

namespace Reckons

lemma pure (a : α) : Reckons (pure a) (.ok a) := rfl

lemma throw (e : Error) : Reckons (throw e : Checked α) (.error e) := rfl

lemma bind {f : α → Checked β} {g : α → Except Error β} (h : Reckons x r)
    (hf : ∀ a, r = .ok a → Reckons (f a) (g a)) : Reckons (x >>= f) (r >>= g) := by
  unfold Reckons at *
  rw [ExceptT.run_bind, h]
  cases r with
  | error e => rfl
  | ok a => exact hf a rfl

lemma bind_ok {a : α} {f : α → Checked β} {r : Except Error β} (h : Reckons x (.ok a))
    (hf : Reckons (f a) r) : Reckons (x >>= f) r :=
  h.bind (g := fun _ => r) fun _ ha => Except.ok.inj ha ▸ hf

lemma mapM {f : α → Checked β} {g : α → Except Error β} {as : List α}
    (h : ∀ a ∈ as, Reckons (f a) (g a)) : Reckons (as.mapM f) (as.mapM g) := by
  induction as with
  | nil => exact .pure []
  | cons a as ih =>
    obtain ⟨ha, has⟩ := List.forall_mem_cons.mp h
    rw [List.mapM_cons, List.mapM_cons]
    exact ha.bind fun b _ => (ih has).bind fun bs _ => .pure _

end Reckons

end

lemma reckons_subtract8 {a b : UInt8} (h : b ≤ a) :
    Reckons (Checked.subtract8 a b) (.ok (a - b)) := by
  rw [Checked.subtract8, if_pos h]
  exact .pure _

lemma reckons_subtract {a b : UInt32} (h : b ≤ a) :
    Reckons (Checked.subtract a b) (.ok (a - b)) := by
  rw [Checked.subtract, if_pos h]
  exact .pure _

lemma reckons_add {a b : UInt32} (h : a.toNat + b.toNat < Number.bound32) :
    Reckons (Checked.add a b) (.ok (a + b)) := by
  rw [Checked.add, if_pos h]
  exact .pure _

lemma reckons_remainder {a b : UInt32} (h : b ≠ 0) :
    Reckons (Checked.remainder a b) (.ok (a % b)) := by
  rw [Checked.remainder, if_neg h]
  exact .pure _

lemma zipIdx_barsFrom (first last : UInt32) :
    (barsFrom first last).zipIdx =
      (List.range (last.toNat + 1 - first.toNat)).map fun i => (first + .ofNat i, i) := by
  refine List.ext_getElem (by simp [barsFrom]) fun i hi _ => ?_
  simp [barsFrom]

/-- Where several steps may each refuse for the same reason, they refuse as soon as one does. -/
lemma mapM_ite {α β : Type} {l : List α} {c : α → Prop} [DecidablePred c] {f : α → β}
    {e : Error} :
    l.mapM (fun a => if c a then (.ok (f a) : Except Error β) else .error e) =
      if ∀ a ∈ l, c a then .ok (l.map f) else .error e := by
  induction l with
  | nil => simp; rfl
  | cons a as ih =>
    rw [List.mapM_cons, ih]
    by_cases ha : c a
    · by_cases has : ∀ a ∈ as, c a
      · rw [if_pos ha, if_pos has, if_pos (List.forall_mem_cons.mpr ⟨ha, has⟩)]
        rfl
      · rw [if_pos ha, if_neg has, if_neg fun h => has (List.forall_mem_cons.mp h).2]
        rfl
    · rw [if_neg ha, if_neg fun h => ha (List.forall_mem_cons.mp h).1]
      rfl

section

variable {first last start finish destination : UInt32} {position : Position}

lemma one_le_of_ne_zero {n : UInt32} (h : n ≠ 0) : 1 ≤ n := by
  rw [UInt32.le_iff_toNat_le]
  rw [← UInt32.toNat_inj.ne] at h
  exact Nat.one_le_iff_ne_zero.mpr h

lemma turn_le (h : (Bars.range first last).Proper) (i : UInt32) :
    first.toNat + (i % (last - first + 1)).toNat ≤ last.toNat := by
  have hle := UInt32.le_iff_toNat_le.mp h.2
  have hturn : i.toNat % (last.toNat - first.toNat + 1) < last.toNat - first.toNat + 1 :=
    Nat.mod_lt _ (Nat.succ_pos _)
  rw [UInt32.toNat_mod, toNat_turns (one_le_of_ne_zero h.1) h.2]
  omega

lemma turn_mem (h : (Bars.range first last).Proper) (i : UInt32) :
    first ≤ first + i % (last - first + 1) ∧ first + i % (last - first + 1) ≤ last := by
  have hturn := turn_le h i
  have hsum : (first + i % (last - first + 1)).toNat =
      first.toNat + (i % (last - first + 1)).toNat := by
    rw [UInt32.toNat_add, Nat.mod_eq_of_lt (hturn.trans_lt last.toNat_lt)]
  rw [UInt32.le_iff_toNat_le, UInt32.le_iff_toNat_le, hsum]
  exact ⟨Nat.le_add_right _ _, hturn⟩

lemma reckons_previous {destination : Bars} (h : destination.Proper) :
    Reckons (checkedPairs destination .previous position)
      (copyPairs destination .previous position) := by
  simp only [checkedPairs, copyPairs]
  split_ifs
  · exact .throw _
  · have hpairs : destination.toList.mapM (fun d => (.ok (d - 1, d) : Except Error _)) =
        .ok (destination.toList.map fun d => (d - 1, d)) := List.mapM_pure
    rw [← hpairs]
    refine .mapM fun d hd => ?_
    have hone := one_le_of_ne_zero (h.ne_zero d hd)
    exact (reckons_subtract hone).bind_ok (.pure _)

lemma reckons_from (h : (Bars.range first last).Proper) :
    Reckons (checkedPairs (.single destination) (.bars (.range first last)) position)
      (copyPairs (.single destination) (.bars (.range first last)) position) := by
  have hle := UInt32.le_iff_toNat_le.mp h.2
  have hroom : (∀ i ∈ List.range (last.toNat + 1 - first.toNat),
      destination.toNat + i < Number.bound32) ↔
        destination.toNat + (last.toNat - first.toNat) < Number.bound32 := by
    constructor
    · intro hall
      exact hall _ (List.mem_range.mpr (by omega))
    · intro hlast i hi
      have := List.mem_range.mp hi
      omega
  have hpairs := mapM_ite (l := List.range (last.toNat + 1 - first.toNat))
    (c := fun i => destination.toNat + i < Number.bound32)
    (f := fun i => (first + UInt32.ofNat i, destination + UInt32.ofNat i))
    (e := .domain (.copyPastLastBar first last destination) (some position))
  have hbars : (barsFrom first last).map (fun source => (source, destination + (source - first))) =
      (List.range (last.toNat + 1 - first.toNat)).map fun i =>
        (first + UInt32.ofNat i, destination + UInt32.ofNat i) := by
    rw [barsFrom, List.map_map]
    refine List.map_congr_left fun i _ => ?_
    rw [Function.comp_apply, add_sub_cancel_left]
  simp only [hroom] at hpairs
  rw [checkedPairs, copyPairs, zipIdx_barsFrom, List.mapM_map, hbars, ← hpairs]
  refine .mapM fun i _ => ?_
  rw [Function.comp_apply]
  dsimp only
  split_ifs
  · exact .pure _
  · exact .throw _

lemma reckons_turns (h : (Bars.range first last).Proper) :
    Reckons (checkedPairs (.range start finish) (.bars (.range first last)) position)
      (copyPairs (.range start finish) (.bars (.range first last)) position) := by
  have hone := one_le_of_ne_zero h.1
  have hlength := toNat_turns hone h.2
  have h1 : (1 : UInt32).toNat = 1 := rfl
  have hbound : (last - first).toNat + (1 : UInt32).toNat < Number.bound32 := by
    have hfirst := UInt32.le_iff_toNat_le.mp hone
    have hle := UInt32.le_iff_toNat_le.mp h.2
    have hlast : last.toNat < Number.bound32 := last.toNat_lt
    rw [UInt32.toNat_sub_of_le _ _ h.2]
    omega
  have hne : last - first + 1 ≠ 0 := by
    rw [← UInt32.toNat_inj.ne, hlength]
    exact Nat.succ_ne_zero _
  have hpairs : (List.range (finish.toNat + 1 - start.toNat)).mapM (fun i =>
      (.ok (first + UInt32.ofNat i % (last - first + 1), start + UInt32.ofNat i) :
        Except Error _)) =
      copyPairs (.range start finish) (.bars (.range first last)) position := by
    rw [copyPairs, barsFrom, List.map_map]
    refine List.mapM_pure.trans (congrArg Except.ok (List.map_congr_left fun i _ => ?_))
    rw [Function.comp_apply, add_sub_cancel_left]
  rw [checkedPairs, ← hpairs, zipIdx_barsFrom]
  simp only [List.mapM_map]
  refine (reckons_subtract h.2).bind_ok ((reckons_add hbound).bind_ok (.mapM fun i _ => ?_))
  have hturn := (turn_le h (.ofNat i)).trans_lt last.toNat_lt
  exact (reckons_remainder hne).bind_ok ((reckons_add hturn).bind_ok (.pure _))

end

lemma reckons_copy {destination : Bars} {source : Source} (position : Position)
    (h : (Element.copy destination source).Proper) :
    Reckons (checkedPairs destination source position)
      (copyPairs destination source position) := by
  match source, destination, h with
  | .previous, destination, h => exact reckons_previous h
  | .bars (.single source), destination, _ =>
    rw [checkedPairs, copyPairs]
    exact .pure _
  | .bars (.range first last), .single destination, h => exact reckons_from h.2
  | .bars (.range first last), .range start finish, h => exact reckons_turns h.2

variable {p : Performer} {s : State}

lemma reckons_step {e : Located Element} (h : e.value.Proper) :
    Reckons (p.checkedStep s e) (p.step s e) := by
  obtain ⟨value, position⟩ := e
  cases value with
  | velocityRange low high => exact (reckons_subtract8 h.1).bind_ok (.pure _)
  | copy destination source => exact (reckons_copy position h).bind fun pairs _ => .pure _
  | _ => rfl

theorem reckons_run {elements : Elements} (h : ∀ e ∈ elements, e.value.Proper) :
    Reckons (elements.foldlM p.checkedStep s) (elements.foldlM p.step s) := by
  induction elements generalizing s with
  | nil => exact .pure s
  | cons e elements ih =>
    obtain ⟨he, helements⟩ := List.forall_mem_cons.mp h
    rw [List.foldlM_cons, List.foldlM_cons]
    exact (reckons_step he).bind fun s' _ => ih helements

/-- **No word wraps around.** Whatever the performer, from every state the elements of a text are
performed without an overflow. The bars that a copy from one range onto another reads lie in the
first one, and a copy of a range from one bar on is refused exactly if it runs past the last bar
that there is a word for. -/
theorem parse_reckons {text : List Char} {elements : Elements} (h : parse text = .ok elements)
    (p : Performer) (s : State) :
    Reckons (elements.foldlM p.checkedStep s) (elements.foldlM p.step s) ∧
      ∀ e ∈ elements, ∀ first last : UInt32,
        (∀ start finish, e.value = .copy (.range start finish) (.bars (.range first last)) →
          ∃ pairs : List (UInt32 × UInt32), p.step s e = .ok (pairs.foldl
              (State.copyBar p.signature.beatsPerBar e.position) (s.dropPitches e.position)) ∧
            pairs.map (·.2) = barsFrom start finish ∧
            ∀ pair ∈ pairs, first ≤ pair.1 ∧ pair.1 ≤ last) ∧
        (∀ destination, e.value = .copy (.single destination) (.bars (.range first last)) →
          first ≤ last ∧
            if destination.toNat + (last.toNat - first.toNat) ≤ 4294967295 then
              ∃ s', p.step s e = .ok s'
            else
              p.step s e =
                .error (.domain (.copyPastLastBar first last destination) (some e.position))) := by
  have hproper := proper_of_parse h
  refine ⟨reckons_run hproper, ?_⟩
  rintro ⟨value, position⟩ he first last
  refine ⟨?_, ?_⟩
  · rintro start finish rfl
    obtain ⟨-, hsource⟩ : (Bars.range start finish).Proper ∧ (Bars.range first last).Proper :=
      hproper _ he
    refine ⟨_, step_copy p s rfl, ?_, ?_⟩
    · rw [List.map_map]
      exact List.map_id' _
    · intro pair hpair
      obtain ⟨d, -, rfl⟩ := List.mem_map.mp hpair
      exact turn_mem hsource (d - start)
  · rintro destination rfl
    obtain ⟨-, hsource⟩ :
        (Bars.single destination).Proper ∧ (Bars.range first last).Proper := hproper _ he
    refine ⟨hsource.2, ?_⟩
    split_ifs with hroom
    · exact ⟨_, step_copy p s (if_pos (Nat.lt_succ_of_le hroom))⟩
    · exact step_copy_error p s (if_neg (by rwa [Number.bound32, Nat.lt_succ_iff]))

/-- A copy from the bar before, one between ranges of which the source comes round again, and one
that would run past the last bar. -/
theorem parse_reckons_last :
    let text := "v80-127 C3 1|1 @2 @3-7=1-2 @4294967295=1-2".toList
    let last : Located Element := ⟨.copy (.single 4294967295) (.bars (.range 1 2)), ⟨1, 28⟩⟩
    let elements : Elements :=
      [⟨.velocityRange 80 127, ⟨1, 1⟩⟩, ⟨.pitch 60, ⟨1, 9⟩⟩,
        ⟨.position (some 1) (.single 1.0), ⟨1, 14⟩⟩, ⟨.copy (.single 2) .previous, ⟨1, 16⟩⟩,
        ⟨.copy (.range 3 7) (.bars (.range 1 2)), ⟨1, 19⟩⟩, last]
    let p : Performer := ⟨.common, .usual⟩
    parse text = .ok elements ∧
      Reckons (elements.foldlM p.checkedStep .initial) (elements.foldlM p.step .initial) ∧
      p.step .initial last =
        .error (.domain (.copyPastLastBar 1 2 4294967295) (some ⟨1, 28⟩)) := by
  intro text last elements p
  have hparse : parse text = .ok elements := by decide +kernel
  obtain ⟨hrun, hcopies⟩ := parse_reckons hparse p .initial
  have hlast : last ∈ elements := by decide +kernel
  obtain ⟨-, hrefused⟩ := (hcopies last hlast 1 2).2 4294967295 rfl
  exact ⟨hparse, hrun, hrefused⟩

end Barline.Score
