import ModuleForge.Proofs.Cursor

/-!
# The loops of the lexer

Every token but the end marker takes a part of the text, so that the checks on the length of the
rest hold wherever a loop of the lexer makes them: it goes on to what ends it, and needs no other
way out. Likewise the count of open braces is taken from only where it is not zero.

- `tokensFrom_eq`: tokens are read up to the end marker.
- `substitution_eq`, `templateBody_dollar`: a substitution is read up to the brace that closes it,
  and behind it the template goes on.
-/

namespace ModuleForge.Token

open Cursor

theorem nextToken_left_lt {r after : Reader} {t : Token} (h : nextToken r = (t, after))
    (ht : t.kind ≠ .eof) : after.left < r.left := by
  have hreads := nextToken_reads r
  rw [h] at hreads
  exact (hreads.passes ht).left_lt

/-- **Tokens are read up to the end marker.** -/
theorem tokensFrom_eq (r : Reader) :
    tokensFrom r =
      if (nextToken r).1.kind = .eof then [(nextToken r).1]
      else (nextToken r).1 :: tokensFrom (nextToken r).2 := by
  rw [tokensFrom]
  cases hn : nextToken r with | mk token after
  simp only [beq_iff_eq]
  split
  · rfl
  · rename_i heof
    rw [if_pos (nextToken_left_lt hn heof)]

/-- Puts tokens in front of those that were read, if there was no error. -/
def prepend (ts : List Token) (out : Except Token (List Token) × Reader) :
    Except Token (List Token) × Reader :=
  (out.1.map (ts ++ ·), out.2)

/-- What is read of a substitution from the token `t` on, which ends at `after`, where `depth` braces
are open. -/
def substitutionFrom (start depth : Nat) (t : Token) (after : Reader) :
    Except Token (List Token) × Reader :=
  match t.kind, depth with
  | .eof, _ => (.error (ofError start after.cursor.pos .unterminatedTemplate), after)
  | .error, _ => (.error t, after)
  | .rbrace, 0 => (.ok [], after)
  | .rbrace, depth + 1 => prepend [t] (substitution start depth after)
  | .lbrace, depth => prepend [t] (substitution start (depth + 1) after)
  | _, depth => prepend [t] (substitution start depth after)

/-- **A substitution is read up to the brace that closes it.** -/
theorem substitution_eq (start depth : Nat) (r : Reader) :
    substitution start depth r =
      substitutionFrom start depth (nextToken r).1 (nextToken r).2 := by
  rw [substitution]
  cases hn : nextToken r with | mk token after
  have hlt := nextToken_left_lt hn
  dsimp only
  by_cases heof : token.kind = .eof
  · simp [substitutionFrom, heof]
  by_cases herr : token.kind = .error
  · simp [substitutionFrom, herr]
  simp only [heof, herr, hlt heof, beq_iff_eq, if_true, if_false]
  by_cases hclose : token.kind = .rbrace
  · cases depth with
    | zero => simp [substitutionFrom, hclose]
    | succ depth => simp [substitutionFrom, hclose, prepend]
  by_cases hopen : token.kind = .lbrace
  · simp [substitutionFrom, hopen, prepend]
  · simp only [substitutionFrom]
    split <;> simp_all [prepend]

/-- A substitution leaves less to read than there was before its opening marks. -/
theorem substitution_left_lt {start : Nat} {r after : Reader} {rest : List Char}
    {result : Except Token (List Token)} (h : r.cursor.rest = '$' :: '\x7b' :: rest)
    (hs : substitution start 0 ⟨some .lbrace, ⟨r.cursor.pos + 2, rest⟩⟩ = (result, after)) :
    after.left < r.left := by
  have hinside := substitution_inside start 0 ⟨some .lbrace, ⟨r.cursor.pos + 2, rest⟩⟩
  rw [hs] at hinside
  obtain ⟨taken, hrest, -⟩ := hinside.1
  simp only [Reader.left, h, List.length_cons, show rest = _ from hrest, List.length_append]
  omega

/-- **A template goes on behind a substitution.** -/
theorem templateBody_dollar (start : Nat) (last : Option Kind) (pos : Nat) (rest : List Char) :
    templateBody start ⟨last, ⟨pos, '$' :: '\x7b' :: rest⟩⟩ =
      match substitution start 0 ⟨some .lbrace, ⟨pos + 2, rest⟩⟩ with
      | (.error token, after) => (.error token, after)
      | (.ok tokens, after) => prepend tokens (templateBody start after) := by
  rw [templateBody]
  simp only
  cases hs : substitution start 0 ⟨some .lbrace, ⟨pos + 2, rest⟩⟩ with | mk result after
  cases result with
  | error token => rfl
  | ok tokens =>
    have hlt : after.left < Reader.left ⟨last, ⟨pos, '$' :: '\x7b' :: rest⟩⟩ :=
      substitution_left_lt rfl hs
    simp only [if_pos hlt]
    rfl

end ModuleForge.Token
