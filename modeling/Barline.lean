import Barline.CommandLine.Directory
import Barline.Main
import Barline.Session
import Barline.Proofs.Binary64.Value
import Barline.Proofs.Binary64.Rounding
import Barline.Proofs.Binary64.Arithmetic
import Barline.Proofs.Modulation.LastWins
import Barline.Proofs.Modulation.Permutation
import Barline.Proofs.Modulation.Finite
import Barline.Proofs.Binary64.Whole
import Barline.Proofs.Binary64.Infinite
import Barline.Proofs.Meter.Moving
import Barline.Proofs.Number.Rounding
import Barline.Proofs.Number.Decimal
import Barline.Proofs.Score.Amount
import Barline.Proofs.Score.Words
import Barline.Proofs.Score.Spelling
import Barline.Proofs.Score.Spaced
import Barline.Proofs.Score.Chords
import Barline.Proofs.Score.Engraved
import Barline.Proofs.Score.RoundTrip
import Barline.Proofs.Text.Carrying
import Barline.Proofs.Score.Elsewhere
import Barline.Proofs.Score.Lines
import Barline.Proofs.Score.Additive
import Barline.Proofs.Score.Binding
import Barline.Proofs.Score.Index
import Barline.Proofs.Modulation.Inverse
import Barline.Proofs.Score.Acceptance
import Barline.Proofs.Score.Elements
import Barline.Proofs.Score.Remarks
import Barline.Proofs.Score.Ranges
import Barline.Proofs.Score.Groups
import Barline.Proofs.Score.Changes
import Barline.Proofs.Score.Unheard
import Barline.Proofs.Score.Terse
import Barline.Proofs.Score.Timely
import Barline.Proofs.Score.Origins
import Barline.Proofs.Score.Joining
import Barline.Proofs.Score.Matching
import Barline.Proofs.Score.Rearranging
import Barline.Proofs.Score.Shorthand
import Barline.Proofs.Score.Sorting
import Barline.Proofs.Score.Unordered
import Barline.Proofs.Score.Tuning
import Barline.Proofs.Modulation.Pointing
import Barline.Proofs.Modulation.Joining
import Barline.Proofs.Modulation.Reordering
import Barline.Proofs.Modulation.Appending
import Barline.Proofs.Modulation.Idempotence
import Barline.Proofs.Modulation.Writing
import Barline.Proofs.Modulation.Strict
import Barline.Proofs.Modulation.WellFormed
import Barline.Proofs.Score.Reckoning
import Barline.Proofs.Modulation.PitchNames
import Barline.Proofs.Text.Skipping
import Barline.Proofs.Text.Operations
import Barline.Proofs.Score.Literals
import Barline.Proofs.Modulation.Lexemes
import Barline.Proofs.Modulation.Cutting
import Barline.Proofs.Modulation.Unplaced
import Barline.Proofs.Modulation.Spacing
import Barline.Proofs.Modulation.Literals
import Barline.Proofs.Modulation.Draws
import Barline.Proofs.Modulation.Tiling
import Barline.Proofs.Modulation.Indexed
import Barline.Proofs.Modulation.Fallbacks
import Barline.Proofs.Score.Apart
