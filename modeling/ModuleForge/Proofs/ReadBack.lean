import Mathlib.Data.List.Basic
import ModuleForge.Proofs.Generated

/-!
# Printed programs, read back

The text of a program is read as the tokens of its statements, one statement after another, because a
generated statement starts on a line of its own and ends with a mark.

- `ReadsBefore`: how a text is read, given what may follow it.
- `ReadBack`: statements whose texts are read one after another.
- `ReadBack.printFrom`: they are printed as a text that is read as all their tokens.
- `scan_literal`: a string literal alone is read as its text, and a call with it as a dependency.
-/

namespace ModuleForge

open Token Text

/-- A line ends between the two texts, or nothing follows the first. -/
def LineBetween (text rest : List Char) : Prop :=
  text.getLast? = some '\n' ∨ ∀ c, rest.head? = some c → c = '\n'

/-- A comment behind which a line ends is complete. -/
theorem blanks_of_getLast {text : List Char} (h : Blanks true text)
    (hlast : text.getLast? = some '\n') : Blanks false text := by
  induction h with
  | nil => exact .nil
  | @blank c cs hc _ ih =>
    cases cs with
    | nil => exact .blank hc .nil
    | cons d cs => exact .blank hc (ih (by simpa using hlast))
  | @line body c cs hbody hc _ ih =>
    refine .line hbody hc (ih ?_)
    rw [← List.cons_append, ← List.cons_append, List.getLast?_append_cons] at hlast
    exact hlast
  | @lastLine body _ hbody =>
    -- The comment would have to end with the line feed.
    have hmem : '\n' ∈ '/' :: '/' :: body := List.mem_of_getLast? hlast
    have hbreak := hbody '\n' (by simpa using hmem)
    cases hbreak
  | @block body cs hbody _ ih =>
    cases cs with
    | nil => exact .block hbody .nil
    | cons d cs =>
      refine .block hbody (ih ?_)
      have hcut : '/' :: '*' :: (body ++ '*' :: '/' :: d :: cs) =
          ('/' :: '*' :: body ++ ['*', '/']) ++ d :: cs := by simp
      rw [hcut, List.getLast?_append_cons] at hlast
      exact hlast

/-! ## Texts -/

/-- What is seen of tokens does not depend on their places. -/
def Placeless {β : Type} (v : Token → β) : Prop :=
  ∀ t, v t.bare = v t

theorem Placeless.map {β : Type} {v : Token → β} (hv : Placeless v) (ts : List Token) :
    (ts.map bare).map v = ts.map v := by
  rw [List.map_map]
  exact List.map_congr_left fun t _ => hv t

/-- **The text is read as tokens of which `us` is seen** behind a token of the kind `last`, if what
follows is as it has to be; `last'` is the kind of the last token then. -/
def ReadsBefore {β : Type} (v : Token → β) (P : List Char → Prop) (last : Option Kind)
    (text : List Char) (us : List β) (last' : Option Kind) : Prop :=
  ∀ pos rest, P rest →
    (tokensFrom ⟨last, ⟨pos, text ++ rest⟩⟩).map v =
      us ++ (tokensFrom ⟨last', ⟨pos + byteLength text, rest⟩⟩).map v

section
variable {β : Type} {v : Token → β} (hv : Placeless v)
include hv

theorem readsBefore_blanks {text : List Char} (h : Blanks true text) (last : Option Kind) :
    ReadsBefore v (LineBetween text) last text [] last := by
  intro pos rest hrest
  rw [← hv.map, ← hv.map (tokensFrom ⟨last, ⟨pos + byteLength text, rest⟩⟩)]
  rcases hrest with hlast | hrest
  · rw [tokensFrom_blanks (blanks_of_getLast h hlast) (fun h => by cases h) last pos]
    rfl
  · rw [tokensFrom_blanks h (fun _ c hc => by rw [hrest c hc]; rfl) last pos]
    rfl

/-- **A generated statement is read as what it spells.** -/
theorem Statement.readsBefore_generated {st : Statement} (h : st.IsGenerated)
    (hnames : ∀ n ∈ st.names, isPlain n.toList = true) (last : Option Kind) :
    ReadsBefore v (fun _ => True) last (Lexeme.text st.lexemes)
      ((Lexeme.spell last st.lexemes).map v) (st.lexemes.foldl Lexeme.kindBehind last) := by
  intro pos rest _
  rw [← hv.map, tokensFrom_lexemes (readable_generated hnames) (wellSpaced_generated h) rest last pos,
    List.map_append, hv.map]

theorem tokensFrom_feed (rest : List Char) (last : Option Kind) (pos : Nat) :
    (tokensFrom ⟨last, ⟨pos, '\n' :: rest⟩⟩).map v =
      (tokensFrom ⟨last, ⟨pos + 1, rest⟩⟩).map v := by
  have hfeed : Blanks false ['\n'] := .blank (.inl rfl) .nil
  rw [← hv.map, ← hv.map (tokensFrom ⟨last, ⟨pos + 1, rest⟩⟩)]
  exact congrArg _ (@tokensFrom_blanks false ['\n'] rest hfeed (fun h => by cases h) last pos)

end

/-! ## Programs -/

/-- Statements whose texts are read one after another, from a token of the kind `last` on. A text of
the source comes first, behind a synthesized statement, or behind a text that ends a line; `free` if
one may come first. -/
inductive ReadBack {β : Type} (v : Token → β) (src : List Char) :
    Bool → Option Kind → List Statement → List β → Prop
  | nil {free : Bool} {last : Option Kind} : ReadBack v src free last [] []
  | source {free : Bool} {last last' : Option Kind} {f : Fragment} {text : List Char} {us us' : List β}
      {rest : List Statement} : f.render? src = some text → text ≠ [] →
      (free = true → text.getLast? = some '\n') →
      ReadsBefore v (LineBetween text) last text us last' → ReadBack v src free last' rest us' →
      ReadBack v src true last (.verbatim f :: rest) (us ++ us')
  | synthesized {free : Bool} {last last' : Option Kind} {st : Statement} {text : List Char}
      {us us' : List β} {rest : List Statement} : st.isSynthesized = true →
      st.print? src = some text → ReadsBefore v (fun _ => True) last text us last' →
      ReadBack v src true last' rest us' → ReadBack v src free last (st :: rest) (us ++ us')

/-- The end marker without its place. -/
def endMarker : Token :=
  { kind := .eof, span := ⟨0, 0⟩, value := "" }

theorem nextToken_nil (last : Option Kind) (pos : Nat) :
    nextToken ⟨last, ⟨pos, []⟩⟩ =
      ({ kind := .eof, span := ⟨pos, pos⟩, value := "" }, ⟨some .eof, ⟨pos, []⟩⟩) := by
  rw [nextToken_eq, skipTrivia]
  rfl

theorem tokensFrom_nil (last : Option Kind) (pos : Nat) :
    (tokensFrom ⟨last, ⟨pos, []⟩⟩).map bare = [endMarker] := by
  rw [tokensFrom_eq, nextToken_nil]
  rfl

/-- **The text of the statements is read as all their tokens.** What follows a text of the source
starts on a new line. -/
theorem ReadBack.printFrom {β : Type} {v : Token → β} (hv : Placeless v) {src : List Char}
    {free : Bool} {last : Option Kind} {ss : List Statement} {us : List β}
    (h : ReadBack v src free last ss us) (before : Option Char) :
    ∃ text, printFrom? src before ss = some text ∧
      (free = false → before = none ∨ before = some '\n' ∨ ∀ c, text.head? = some c → c = '\n') ∧
      ∀ pos, (tokensFrom ⟨last, ⟨pos, text⟩⟩).map v = us ++ [v endMarker] := by
  induction h generalizing before with
  | nil =>
    refine ⟨[], rfl, fun _ => .inr (.inr (by simp)), fun pos => ?_⟩
    rw [← hv.map, tokensFrom_nil]
    rfl
  | @source free last last' f text us us' rest hprint hne hfree hread _ ih =>
    obtain ⟨tail, htail, hline, htokens⟩ := ih (text.getLast?.or before)
    refine ⟨text ++ tail, ?_, nofun, fun pos => ?_⟩
    · simp [printFrom?, Statement.print?, Statement.isSynthesized, hprint, htail]
    · have hbetween : LineBetween text tail := by
        cases free with
        | true => exact .inl (hfree rfl)
        | false =>
          rw [List.getLast?_eq_some_getLast hne, Option.some_or,
            ← List.getLast?_eq_some_getLast hne] at hline
          rcases hline rfl with hnone | hfeed | hhead
          · exact absurd (List.getLast?_eq_none_iff.1 hnone) hne
          · exact .inl hfeed
          · exact .inr hhead
      rw [hread pos tail hbetween, htokens, List.append_assoc]
  | @synthesized free last last' st text us us' rest hsynth hprint hread _ ih =>
    cases hfeed : before.any (· != '\n') with
    | true =>
      obtain ⟨tail, htail, -, htokens⟩ := ih (('\n' :: text).getLast?.or before)
      refine ⟨'\n' :: text ++ tail, ?_, fun _ => .inr (.inr ?_), fun pos => ?_⟩
      · simp [printFrom?, hprint, hsynth, hfeed, htail]
      · intro c hc
        exact (Option.some.inj hc).symm
      · rw [List.cons_append, tokensFrom_feed hv, hread _ tail trivial, htokens, List.append_assoc]
    | false =>
      obtain ⟨tail, htail, -, htokens⟩ := ih (text.getLast?.or before)
      refine ⟨text ++ tail, ?_, fun _ => ?_, fun pos => ?_⟩
      · simp [printFrom?, hprint, hsynth, hfeed, htail]
      · cases before with
        | none => exact .inl rfl
        | some c => exact .inr (.inl (by simpa using hfeed))
      · rw [hread pos tail trivial, htokens, List.append_assoc]

/-! ## String literals -/

/-- **A generated statement alone** loads the module that it requires, if it requires one. -/
theorem Statement.callsFrom_tokensFrom {st : Statement} (h : st.IsGenerated)
    (hnames : ∀ n ∈ st.names, isPlain n.toList = true) :
    Dependency.callsFrom none (tokensFrom ⟨none, ⟨0, Lexeme.text st.lexemes⟩⟩) = st.loads := by
  have hread := tokensFrom_lexemes (readable_generated hnames) (wellSpaced_generated h) [] none 0
  rw [List.append_nil, tokensFrom_nil] at hread
  have hend (last : Option Kind) : Dependency.callsFrom last [endMarker] = [] := by
    simp [Dependency.callsFrom, Dependency.ofToken?, Dependency.isCallee, Token.isWord, endMarker]
  rw [← Dependency.callsFrom_bare, hread, callsFrom_generated h (by simp) (by simp), hend,
    List.append_nil]

theorem text_requireStatement (specifier : String) :
    Lexeme.text (Statement.require none specifier).lexemes =
      ("require(" ++ String.ofList (CommonJs.literal specifier) ++ ");").toList := by
  have hend : ");".toList = [')'] ++ [';'] := by decide
  have hsemicolon : Lexeme.text [.mark .semicolon] = [';'] := rfl
  rw [Statement.lexemes, text_append, text_requireLexemes, String.toList_append,
    String.toList_append, @String.toList_ofList (CommonJs.literal specifier), hend, hsemicolon]
  unfold CommonJs.requireCall
  rw [List.append_assoc _ [')'] [';']]

/-- **A string literal is read as the text that it was written for**: as one token from the first
quote to the last, whatever characters the text has. A call with the literal loads the module of
this name and nothing else. -/
theorem scan_literal (text : String) :
    let quoted := CommonJs.literal text
    scan (String.ofList quoted) =
        [{ kind := .string, span := ⟨0, byteLength quoted⟩, value := text },
         { kind := .eof, span := ⟨byteLength quoted, byteLength quoted⟩, value := "" }] ∧
      Dependency.ofTokens (scan ("require(" ++ String.ofList quoted ++ ");")) =
        [{ path := text }] := by
  dsimp only
  constructor
  · have hskip : skipHashbang ⟨0, CommonJs.literal text⟩ = ⟨0, CommonJs.literal text⟩ :=
      skipHashbang_of_ne fun tail h => by cases h
    have hquote := nextToken_quote text.toList [] none 0
    rw [List.append_nil, String.ofList_toList, Nat.zero_add] at hquote
    rw [scan, String.toList_ofList, hskip, tokensFrom_eq, CommonJs.literal, hquote,
      if_neg (by simp), tokensFrom_eq, nextToken_nil, if_pos rfl]
  · have hskip : skipHashbang ⟨0, Lexeme.text (Statement.require none text).lexemes⟩ =
        ⟨0, Lexeme.text (Statement.require none text).lexemes⟩ := by
      refine skipHashbang_of_ne fun tail h => ?_
      have hfirst : 'r' = '#' := (List.cons.inj h).1
      cases hfirst
    rw [Dependency.ofTokens, scan, ← text_requireStatement, hskip,
      Statement.callsFrom_tokensFrom ⟨rfl, rfl⟩ (by simp [Statement.names])]
    rfl

end ModuleForge
