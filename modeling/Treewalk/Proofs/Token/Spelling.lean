import Treewalk.Proofs.Token.Items

/-!
How the words of a source are spelled. No identifier is spelled as a keyword, and each keyword is spelled as itself.
-/

namespace Treewalk

/-- The token is spelled as its kind asks for, if it is a word. -/
structure Token.Spelled (t : Token) : Prop where
  identifier : t.kind = .identifier → Symbol.keyword? t.lexeme = none
  keyword : ∀ s ∈ Symbol.keywords, t.kind = .symbol s → Symbol.keyword? t.lexeme = some s

namespace Lexer

theorem spelled_word (path : Bool) (lexeme : String) (line offset : Nat) :
    Token.Spelled ⟨wordKind path lexeme, lexeme, line, offset⟩ := by
  unfold wordKind
  split
  · exact ⟨nofun, nofun⟩
  · split
    · next s hs =>
      refine ⟨nofun, fun symbol _ hsymbol => ?_⟩
      cases hsymbol
      exact hs
    · next hnone => exact ⟨fun _ => hnone, nofun⟩

/-- Bytes that are a token are spelled as its kind asks for: no mark is a keyword. -/
theorem Reads.spelled {bytes after : List UInt8} {kind : Token.Kind} (h : Reads bytes (.token kind) after)
    (line offset : Nat) : Token.Spelled ⟨kind, Text.decodeLossy bytes, line, offset⟩ := by
  generalize hr : Reading.token kind = r at h
  cases h with
  | @mark s _ hs =>
    cases hr
    refine ⟨nofun, fun symbol hsymbol heq => ?_⟩
    cases heq
    have hmarks : ∀ s ∈ Symbol.marks, s ∉ Symbol.keywords := by decide
    exact absurd hsymbol (hmarks s hs)
  | string | number =>
    cases hr
    exact ⟨nofun, nofun⟩
  | word =>
    cases hr
    exact spelled_word _ _ line offset
  | space | comment | unterminated | glued | unexpected => cases hr

end Lexer

theorem Token.spelled_scan {source : List UInt8} : ∀ t ∈ Token.good (Token.scan source), t.Spelled := by
  intro t ht
  rw [Token.scan_eq_items] at ht
  rcases Lexer.exists_reads 0 1 source t (Token.mem_good.mp ht) with hfinish | ⟨bytes, after, hreads, hlexeme⟩
  · constructor <;> simp [hfinish]
  · have hspelled := hreads.spelled t.line t.offset
    rwa [← hlexeme] at hspelled

end Treewalk
