import Barline.Proofs.Text.Pointing
import Barline.Score.Reader

/-!
# Where errors in scores point

Each reader of a score stays inside of the text and says what is true of it. A value is refused
where it begins, which is never at the end of the text.
-/

namespace Barline.Score

open Number Scan Reader

section

variable {text : List Char} {opens : Position → Prop}
  {shows : Position → String → Prop} {n : ℕ} {position : Position}

lemma aims_endOfElement (continuations : List String) :
    Aims text opens shows n (endOfElement continuations) := by
  unfold endOfElement
  exact (leads_look _).bind fun _ => .ite (fun _ => aims_pure ()) fun _ => leads_expected _

lemma aims_integer (what : String) : Aims text opens shows n (integer what) := by
  unfold integer
  refine aims_here (fun position hposition => ?_) fun position => ⟨[what], rfl⟩
  refine aims_digits.bind fun digits => .ite (fun _ => leads_expected _) fun _ => ?_
  exact .ite (fun _ => aims_pure _) fun _ => leads_refuse _ hposition

lemma aims_quotient (numerator denominator : Float) (hposition : Inside text position) :
    Aims text opens shows n (quotient numerator denominator position) := by
  unfold quotient
  exact .ite (fun _ => leads_refuse _ hposition) fun _ => aims_pure _

lemma aims_mixedPart (hposition : Inside text position) :
    Aims text opens shows n (mixedPart position) := by
  unfold mixedPart
  refine aims_get fun mark hmark => aims_advance.bind fun _ => ?_
  refine aims_decimal.bind fun numerator => (leads_look _).bind fun slash => ?_
  refine .ite (fun _ => ?_) fun _ => ?_
  · refine aims_advance.bind fun _ => aims_decimal.bind fun denominator => ?_
    exact (aims_quotient _ _ hposition).bind fun _ => aims_pure _
  · exact (aims_set hmark).bind fun _ => aims_pure _

lemma aims_number (what : String) : Aims text opens shows n (number what) := by
  unfold number
  refine aims_here (fun position hposition => ?_) fun position => ⟨[what], rfl⟩
  refine aims_decimal.bind fun first => .ite (fun _ => leads_expected _) fun _ => ?_
  refine (leads_look _).bind fun slash => .ite (fun _ => ?_) fun _ => ?_
  · exact aims_advance.bind fun _ => aims_decimal.bind fun _ => aims_quotient _ _ hposition
  refine (leads_look _).bind fun plus => .ite (fun _ => ?_) fun _ => aims_pure _
  refine (aims_mixedPart hposition).bind fun part => ?_
  cases part with
  | none => exact aims_pure _
  | some part => exact aims_pure _

lemma aims_barNumber : Aims text opens shows n barNumber := by
  unfold barNumber
  refine aims_here (fun position hposition => ?_) fun position => ⟨["bar number"], rfl⟩
  refine (aims_integer _).bind fun bar => ?_
  exact .ite (fun _ => leads_refuse _ hposition) fun _ => aims_pure _

lemma aims_bars : Aims text opens shows n bars := by
  unfold bars
  refine aims_here (fun position hposition => ?_) fun position => ⟨["bar number"], rfl⟩
  refine aims_barNumber.bind fun first => (aims_eat _).bind fun range => ?_
  refine .ite (fun _ => aims_barNumber.bind fun last => ?_) fun _ => aims_pure _
  exact .ite (fun _ => leads_refuse _ hposition) fun _ => aims_pure _

lemma aims_copyElement : Aims text opens shows n copyElement := by
  unfold copyElement
  refine aims_advance.bind fun _ => (aims_eatWord _).bind fun clear => ?_
  refine .ite (fun _ => ?_) fun _ => ?_
  · exact (aims_endOfElement _).bind fun _ => aims_pure _
  refine (leads_look _).bind fun digit => .ite (fun _ => leads_expected _) fun _ => ?_
  refine aims_bars.bind fun destination => (aims_eat _).bind fun equals => ?_
  extract_lets finish
  have hfinish (source : Source) : Aims text opens shows n (finish source) :=
    (aims_endOfElement _).bind fun _ => aims_pure _
  refine .ite (fun _ => (leads_look _).bind fun digit => ?_) fun _ => (aims_pure _).bind hfinish
  refine .ite (fun _ => ?_) fun _ => (leads_expected _).bind hfinish
  exact (aims_bars.bind fun bars => aims_pure (Source.bars bars)).bind hfinish

lemma aims_step : Aims text opens shows n step := by
  unfold step
  refine aims_here (fun position hposition => ?_) fun position => ⟨["repeat step"], rfl⟩
  refine (aims_number _).bind fun x => ?_
  exact .ite (fun _ => leads_refuse _ hposition) fun _ => aims_pure _

lemma aims_beat : Aims text opens shows n beat := by
  unfold beat
  refine aims_here (fun position hposition => ?_) fun position => ⟨["beat"], rfl⟩
  refine (aims_number _).bind fun first => .ite (fun _ => leads_refuse _ hposition) fun _ => ?_
  refine (aims_eat _).bind fun series => .ite (fun _ => ?_) fun _ => aims_pure _
  refine aims_here (fun position hposition => ?_) fun position => ⟨["repeat count"], rfl⟩
  refine (aims_integer _).bind fun times => .ite (fun _ => leads_refuse _ hposition) fun _ => ?_
  refine (aims_eat _).bind fun step => .ite (fun _ => ?_) fun _ => aims_pure _
  exact aims_step.bind fun step => aims_pure _

lemma aims_positionBar : Aims text opens shows n positionBar := by
  unfold positionBar
  refine (leads_look _).bind fun digit => .ite (fun _ => ?_) fun _ => ?_
  · refine aims_barNumber.bind fun bar => (aims_eat _).bind fun pipe => ?_
    exact .ite (fun _ => aims_pure _) fun _ => leads_expected _
  · exact aims_advance.bind fun _ => aims_pure _

lemma aims_locatedBeat (bar : Option UInt32) : Aims text opens shows n (locatedBeat bar) := by
  intro c hc
  have hbeat : Aims text opens shows n (do return (⟨.position bar (← beat), c.position⟩ :
      Located Element)) := aims_beat.bind fun beat => aims_pure _
  exact hbeat c hc

lemma aims_nextBeat (bar : Option UInt32) : Aims text opens shows n (nextBeat bar) := by
  unfold nextBeat
  refine (aims_eat _).bind fun comma => .ite (fun _ => ?_) fun _ => aims_pure _
  exact (aims_locatedBeat bar).bind fun beat => aims_pure _

lemma aims_positionElements : Aims text opens shows n positionElements := by
  unfold positionElements
  refine aims_positionBar.bind fun bar => (aims_locatedBeat bar).bind fun first => ?_
  refine (leads_look _).bind fun rounds => ?_
  refine (leads_many (aims_nextBeat bar) rounds).bind fun others => ?_
  exact (aims_endOfElement _).bind fun _ => aims_pure _

lemma aims_probabilityElement (hposition : Inside text position) :
    Aims text opens shows n (probabilityElement position) := by
  unfold probabilityElement
  refine aims_advance.bind fun _ => (aims_number _).bind fun value => ?_
  refine .ite (fun _ => ?_) fun _ => ?_
  · exact (aims_endOfElement _).bind fun _ => aims_pure _
  · exact leads_refuse _ hposition

lemma aims_velocityValue : Aims text opens shows n velocityValue := by
  unfold velocityValue
  refine aims_here (fun position hposition => ?_) fun position => ⟨["velocity"], rfl⟩
  refine (aims_integer _).bind fun value => ?_
  exact .ite (fun _ => aims_pure _) fun _ => leads_refuse _ hposition

lemma aims_velocityElement (hposition : Inside text position) :
    Aims text opens shows n (velocityElement position) := by
  unfold velocityElement
  refine aims_advance.bind fun _ => aims_velocityValue.bind fun low => ?_
  refine (aims_eat _).bind fun range => ?_
  extract_lets finish
  have hfinish (element : Element) : Aims text opens shows n (finish element) :=
    (aims_endOfElement _).bind fun _ => aims_pure _
  refine .ite (fun _ => aims_velocityValue.bind fun high => ?_) fun _ => (aims_pure _).bind hfinish
  exact .ite (fun _ => (leads_refuse _ hposition).bind hfinish) fun _ => (aims_pure _).bind hfinish

lemma aims_length (hposition : Inside text position) :
    Aims text opens shows n (length position) := by
  unfold length
  refine aims_get fun mark hmark => aims_digits.bind fun whole => ?_
  refine (leads_look _).bind fun colon => ?_
  refine .ite (fun _ => .ite (fun _ => ?_) fun _ => leads_refuse _ hposition) fun _ => ?_
  · exact aims_advance.bind fun _ => (aims_number _).bind fun beats => aims_pure _
  · exact (aims_set hmark).bind fun _ => (aims_number _).bind fun beats => aims_pure _

lemma aims_durationElement (hposition : Inside text position) :
    Aims text opens shows n (durationElement position) := by
  unfold durationElement
  refine aims_advance.bind fun _ => (aims_length hposition).bind fun length => ?_
  refine .ite (fun _ => ?_) fun _ => leads_refuse _ hposition
  exact (aims_endOfElement _).bind fun _ => aims_pure _

lemma aims_pitchName (letter : Char) : Aims text opens shows n (pitchName letter) := by
  unfold pitchName
  refine aims_advance.bind fun _ => aims_accidental.bind fun accidental => ?_
  refine (aims_eat _).bind fun negative => aims_digits.bind fun digits => ?_
  exact .ite (fun _ => leads_expected _) fun _ => aims_pure _

lemma aims_pitchElement (letter : Char) (hposition : Inside text position) :
    Aims text opens shows n (pitchElement letter position) := by
  unfold pitchElement
  refine (aims_pitchName letter).bind fun name => .ite (fun _ => ?_) fun _ => ?_
  · dsimp only
    split
    · exact (aims_endOfElement _).bind fun _ => aims_pure _
    · exact leads_refuse _ hposition
  · exact leads_refuse _ hposition

lemma aims_word : Aims text opens shows n word := by
  unfold word
  refine aims_here (fun position hposition => ?_) fun position => ⟨elementStarts, rfl⟩
  have hone {scan : Scan Element} (h : Aims text opens shows n scan) :
      Aims text opens shows n (do return [⟨← scan, position⟩] : Scan Elements) :=
    h.bind fun element => aims_pure _
  refine (leads_look _).bind fun next => ?_
  dsimp only
  split
  · exact hone aims_copyElement
  · exact aims_positionElements
  · exact hone (aims_probabilityElement hposition)
  · exact hone (aims_velocityElement hposition)
  · exact hone (aims_durationElement hposition)
  · refine .ite (fun _ => aims_positionElements) fun _ => .ite (fun _ => ?_) fun _ => ?_
    · exact hone (aims_pitchElement _ hposition)
    · exact leads_expected _
  · exact leads_expected _

lemma leads_nextWord : Leads (Error.Points text (OpensComment nextWord text) shows)
    (Between nextWord text n) nextWord fun _ => Between nextWord text n := by
  refine leads_reaches ?_
  unfold nextWord
  refine leads_skipTrivia.bind fun _ => (leads_look _).bind fun finished => .ite ?_ ?_
  · exact fun _ => aims_pure _
  · exact fun _ => aims_word.bind fun elements => aims_pure _

lemma leads_elements : Leads (Error.Points text (OpensComment nextWord text) shows)
    (Between nextWord text n) elements fun _ => Between nextWord text n := by
  unfold elements
  refine (leads_look _).bind fun rounds => (leads_many leads_nextWord rounds).bind fun words => ?_
  exact .pure fun _ hc => hc

/-- What an error in a score says is true of its text. There are no tokens to be found. -/
theorem parse_points {e : Error} (h : parse text = .error e) :
    e.Points text (OpensComment nextWord text) fun _ _ => False := by
  have hleads : Leads (Error.Points text (OpensComment nextWord text) fun _ _ => False)
    (Between nextWord text text.length) _ _ := leads_elements
  exact hleads.error_of_map ⟨.start text, .refl⟩ h

end

end Barline.Score
