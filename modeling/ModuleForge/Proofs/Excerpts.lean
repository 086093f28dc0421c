import ModuleForge.Proofs.Course
import ModuleForge.Proofs.Insertions

/-!
# Excerpts of a source

What is kept of a module item is cut out of the source from the start of one token to the end of
another. It is read alike behind a token that makes no difference, and before a text that no token
goes on with.

- `Excerpt`: the text between two places in the tokens of a source.
- `exists_excerpt`: the text of a span that covers tokens is one.
- `Excerpt.copies`: its tokens in another text.
- `Excerpt.leads`: the kinds of its tokens, with insertions among them.
- `Excerpt.scan`: its tokens if it is a source of its own.
-/

namespace ModuleForge.Grammar

open Token (Kind Reader Runs nextToken tokensFrom Cursor Leads Cut SameNext Blanks isPoint look)
open Tokens Text

section
variable {src : List Char} {s s' : Tokens} {r r' : Reader} {last' : Option Kind}

/-- Behind a token that was read, the reader is known by the place. -/
theorem Stands.unique (h : Stands src s r) (h' : Stands src s r') (hs : s.before ≠ none) :
    r' = r := by
  obtain ⟨last, pos, rest⟩ := r
  obtain ⟨last', pos', rest'⟩ := r'
  obtain rfl : last' = last := h'.lastKind.symm.trans h.lastKind
  obtain rfl : pos' = pos := (h'.lastEnd hs).symm.trans (h.lastEnd hs)
  obtain ⟨before, hsrc, hpos⟩ := h.reaches
  obtain ⟨before', hsrc', hpos'⟩ := h'.reaches
  have hsplit := Text.splitBytes?_byteLength before rest
  have hsplit' := Text.splitBytes?_byteLength before' rest'
  simp only [Nat.zero_add] at hsrc hsrc' hpos hpos'
  rw [← hsrc, ← hpos] at hsplit
  rw [← hsrc', ← hpos', hsplit] at hsplit'
  obtain ⟨-, rfl⟩ := Prod.mk.inj (Option.some.inj hsplit')
  rfl

/-- **The text `x` of the tokens `ts`** from one reader to another, without the blanks before it. -/
structure Excerpt (r : Reader) (ts : List Token) (r' : Reader) (x : List Char) : Prop where
  runs : Runs r ts r'
  ne_nil : ts ≠ []
  text_ne_nil : x ≠ []
  ahead : r.ahead = x ++ r'.cursor.rest
  rest : ∃ b, r.cursor.rest = b ++ (x ++ r'.cursor.rest) ∧ Blanks false b

theorem exists_excerpt {span : Span} (h : Stands src s r) (hspan : Spans span s s') :
    ∃ ts r' x, Excerpt r ts r' x ∧ Stands src s' r' ∧ span.text? src = some x := by
  obtain ⟨ts, r', hruns, hs', hlength⟩ := h.runs hspan.reaches
  have hlt := hspan.left_lt
  have hcurrent := h.current
  have hend := hs'.lastEnd (before_ne_none hspan.reaches hspan.left_lt)
  cases hruns with
  | nil =>
    simp only [List.length_nil] at hlength
    omega
  | @cons _ _ ts herr heof hruns =>
    obtain ⟨start, htrivia, hcovers⟩ := Token.nextToken_covers herr heof
    obtain ⟨b, hb, hblanks, -⟩ := Token.skipTrivia_blanks htrivia
    obtain ⟨x, hx, hpos⟩ := hcovers.passes.1.trans hruns.reaches
    have hpasses := hcovers.passes.trans_reaches hruns.reaches
    have hne : x ≠ [] := by
      rintro rfl
      have := hpasses.2
      rw [hpos, byteLength_nil] at this
      omega
    have hnonempty : start.rest.isEmpty = false := by
      rw [hx]
      cases x with
      | nil => exact absurd rfl hne
      | cons c x => rfl
    rw [hnonempty] at hblanks
    have hahead : r.ahead = x ++ r'.cursor.rest := by
      rw [Reader.ahead, htrivia]
      exact hx
    refine ⟨_, r', x, ⟨.cons herr heof hruns, by simp, hne, hahead, b, ?_, hblanks⟩, hs', ?_⟩
    · rw [hb, hx]
    · have hreach := h.reaches.trans (Token.reaches_of_clear htrivia)
      rw [hspan.eq, hcurrent, hcovers.span, hend]
      exact Token.slice?_of_reaches hreach hx hpos

variable {ts : List Token} {x : List Char}

theorem Excerpt.nextToken_ne (h : Excerpt r ts r' x) :
    (nextToken r).1.kind ≠ .error ∧ (nextToken r).1.kind ≠ .eof := by
  cases h.runs with
  | nil => exact absurd rfl h.ne_nil
  | cons herr heof _ => exact ⟨herr, heof⟩

theorem Excerpt.sameNext_forward (h : Excerpt r ts r' x) (hlast : SameNext r last') :
    SameNext r.forward last' := by
  have hahead : r.forward.ahead = r.ahead :=
    congrArg (·.cursor.rest) (Token.forward_forward h.nextToken_ne.1)
  intro c hc
  rw [hahead] at hc
  exact hlast c hc

theorem Excerpt.start_eq {span : Span} (h : Excerpt r ts r' x) (hs : Stands src s r)
    (hspan : Spans span s s') : span.start = r.forward.cursor.pos := by
  rw [hspan.eq, hs.current]
  exact span_start h.nextToken_ne.1 h.nextToken_ne.2

/-- **The tokens of an excerpt look the same** behind a token that makes no difference, but for the
line that may start with the first. -/
theorem Excerpt.copies {t : Token} (h : Excerpt r (t :: ts) r' x) (hb : r.AllBounded)
    (hlast : SameNext r last') {out : List Char} (hcut : Cut x [] r'.cursor.rest out r'.last)
    (pos : Nat) :
    ∃ t' ts' pos', tokensFrom ⟨last', ⟨pos, x ++ out⟩⟩ =
        t' :: (ts' ++ tokensFrom ⟨r'.last, ⟨pos', out⟩⟩) ∧
      t'.kind = t.kind ∧ ts'.map look = ts.map look := by
  obtain ⟨us, pos', hread, hlooks⟩ := h.runs.forward.copies h.ahead (List.nil_append _).symm (by simp)
    (h.sameNext_forward hlast) (fun _ => hcut) (.inl (hb.forward h.nextToken_ne.1)) pos
  obtain ⟨t', ts', rfl, ht', hts'⟩ := List.map_eq_cons_iff.1 hlooks
  rw [if_neg (List.cons_ne_nil _ _)] at hread
  have hkind := Token.kind_of_look ht'
  exact ⟨t', ts', pos', hread, hkind, hts'⟩

/-- **The kinds of the tokens of an excerpt with insertions** are its own, with those of exports among
them. -/
theorem Excerpt.leads {marks : Nat → Prop} (h : Excerpt r ts r' x) (hb : r.AllBounded)
    (hmarked : r.Marked marks) {x' : List Char} (hins : Inserted marks r.forward.cursor.pos x x')
    (hlast : SameNext r last') {out : List Char} (hcut : Cut x [] r'.cursor.rest out r'.last) :
    ∃ ks, Widened (ts.map (·.kind)) ks ∧ Leads last' x' out ks r'.last := by
  obtain ⟨herr, heof⟩ := h.nextToken_ne
  obtain ⟨t, ts, rfl⟩ := List.exists_cons_of_ne_nil h.ne_nil
  have hblanks (last : Option Kind) : Leads last [] out [] last :=
    @Token.leads_blanks [] out false .nil (by simp) last
  obtain ⟨ks, hks, hread⟩ := hins.leads rfl h.runs.forward h.ahead (List.nil_append _).symm (by simp)
    (fun herr heof => (forward_pos_lt herr heof).1) (hmarked.forward herr heof)
    (h.sameNext_forward hlast) hcut (hb.forward herr) hblanks
  rw [if_neg (List.cons_ne_nil _ _)] at hread
  exact ⟨ks, hks, hread⟩

/-- An excerpt does not end with a blank, and with a semicolon only if that is its last token. -/
theorem Excerpt.ends (h : Excerpt r ts r' x) (hb : r.AllBounded) :
    ∀ c, x.getLast? = some c → isBlank c = false ∧ (c = ';' → r'.last = some .semicolon) := by
  obtain ⟨b, hrest, -⟩ := h.rest
  rw [← List.append_assoc] at hrest
  intro c hc
  refine h.runs.ends hb hrest c ?_
  rw [List.getLast?_append, hc, Option.some_or]

theorem Excerpt.getLast? (h : Excerpt r ts r' x) (hb : r.AllBounded) :
    ∃ c, x.getLast? = some c ∧ c ≠ '\n' := by
  refine ⟨_, List.getLast?_eq_some_getLast h.text_ne_nil, fun hfeed => ?_⟩
  have hends := (h.ends hb _ (List.getLast?_eq_some_getLast h.text_ne_nil)).1
  rw [hfeed] at hends
  cases hends

/-- Two excerpts, one behind the other, with the blanks between them. -/
theorem Excerpt.append {r1 : Reader} {us : List Token} {b y : List Char} (hx : Excerpt r ts r1 x)
    (hy : Excerpt r1 us r' y) (hrest : r1.cursor.rest = b ++ (y ++ r'.cursor.rest)) :
    Excerpt r (ts ++ us) r' (x ++ (b ++ y)) := by
  obtain ⟨b', hx', hblanks⟩ := hx.rest
  refine ⟨hx.runs.trans hy.runs, by simp [hx.ne_nil], by simp [hx.text_ne_nil], ?_, b', ?_, hblanks⟩
  · rw [hx.ahead, hrest]
    simp
  · rw [hx', hrest]
    simp

/-- What follows the keyword of a function or class without name starts with a parenthesis, a brace
or a word, and a word does not follow directly. -/
theorem AfterKeyword.follows {r0 : Reader} {us : List Token} {b y : List Char} (h : AfterKeyword s)
    (hs : Stands src s r) (hruns : Runs r0 us r) (hus : us ≠ []) (hy : Excerpt r ts r' y)
    (hrest : r.cursor.rest = b ++ (y ++ r'.cursor.rest)) (hblanks : Blanks false b) :
    r.last ≠ some .kwImport ∧ SameNext r (some .identifier) ∧
      Token.EndsWord (b ++ y) := by
  obtain ⟨c, tail, rfl⟩ := List.exists_cons_of_ne_nil hy.text_ne_nil
  have hc : r.ahead.head? = some c := by rw [hy.ahead]; rfl
  have hstart := Token.startsWith_of_ahead hc hy.nextToken_ne.1
  have hlast := hs.lastKind
  have hcurrent := hs.current
  have hsame (hslash : c ≠ '/') (hpoint : isPoint r.last = false) :
      SameNext r (some .identifier) := by
    intro d hd
    obtain rfl : c = d := Option.some.inj (hc.symm.trans hd)
    exact ⟨fun h => absurd h hslash, fun _ => hpoint⟩
  -- Behind blanks, what comes first does not matter.
  have hends (hfirst : b = [] → Token.isIdentifierPart c = false ∧ c ≠ '\\') :
      Token.EndsWord (b ++ c :: tail) := by
    intro d hd
    cases hblanks with
    | nil =>
      obtain rfl := Option.some.inj hd
      exact hfirst rfl
    | blank hblank =>
      obtain rfl := Option.some.inj hd
      rcases hblank with hblank | rfl
      · refine ⟨Token.isIdentifierPart_of_stops (Token.stops_of_isBlank hblank), ?_⟩
        rintro rfl
        cases hblank
      · exact ⟨by decide +kernel, by decide⟩
    | line | lastLine | block =>
      obtain rfl := Option.some.inj hd
      exact ⟨by decide +kernel, by decide⟩
  rcases h with ⟨hkind, hparen⟩ | ⟨hkind, hnext⟩
  · rw [hlast] at hkind
    rw [hcurrent] at hparen
    rw [hparen] at hstart
    obtain rfl : c = '(' := beq_iff_eq.1 hstart
    have hkind' : r.last = some .kwFunction ∨ r.last = some .star := by simpa using hkind
    refine ⟨?_, hsame (by decide) ?_, hends fun _ => by decide +kernel⟩
    · rcases hkind' with hk | hk <;> rw [hk] <;> decide
    · rcases hkind' with hk | hk <;> rw [hk] <;> rfl
  · rw [hlast] at hkind
    rw [hcurrent] at hnext
    have hpoint : isPoint r.last = false := by rw [hkind]; rfl
    have himport : r.last ≠ some .kwImport := by rw [hkind]; decide
    have hnext' : (nextToken r).1.kind = .lbrace ∨ (nextToken r).1.kind = .kwExtends := by
      simpa using hnext
    rcases hnext' with hk | hk
    · rw [hk] at hstart
      obtain rfl : c = '\x7b' := beq_iff_eq.1 hstart
      exact ⟨himport, hsame (by decide) hpoint, hends fun _ => by decide +kernel⟩
    · have hofWord : (nextToken r).1.kind.isOfWord = true := by rw [hk]; rfl
      refine ⟨himport, Token.sameNext_of_isOfWord hofWord hpoint rfl, hends fun hb => ?_⟩
      · obtain ⟨q, rfl, hq⟩ := hruns.exists_last hus
        have hword : (nextToken q).1.kind.isOfWord = true := by
          rw [← Option.some.inj (hkind.symm.trans hq)]
          rfl
        have hahead : (nextToken q).2.ahead = (nextToken q).2.cursor.rest := by
          rw [hy.ahead, hrest, hb, List.nil_append]
        rw [Token.isOfWord_behind_word hword rfl hahead] at hofWord
        cases hofWord

/-- **An excerpt has the same tokens as a source of its own**, if its first token is read alike at the
start of a source. -/
theorem Excerpt.scan {t : Token} (h : Excerpt r (t :: ts) r' x) (hb : r.AllBounded)
    (hlast : SameNext r none) :
    ∃ t' ts' e, Token.scan (String.ofList x) = t' :: (ts' ++ [e]) ∧ t'.kind = t.kind ∧
      ts'.map look = ts.map look ∧ e.kind = .eof := by
  have hskip : Token.skipHashbang ⟨0, x⟩ = ⟨0, x⟩ := by
    refine Token.skipHashbang_of_ne fun tail htail => h.nextToken_ne.1 ?_
    exact Token.nextToken_hashbang (h.ahead.trans (by rw [htail]; rfl))
  have hnil : Token.Stopped [] := by simp [Token.Stopped]
  obtain ⟨t', ts', pos', hread, ht', hts'⟩ := h.copies hb hlast
    (.inl (Token.agree_of_stops hnil _)) 0
  rw [List.append_nil, Token.tokensFrom_eq ⟨_, ⟨pos', []⟩⟩, nextToken_nil, if_pos rfl] at hread
  exact ⟨t', ts', _, by rw [Token.scan, String.toList_ofList, hskip, hread], ht', hts', rfl⟩

theorem Excerpt.scan_kinds (h : Excerpt r ts r' x) (hb : r.AllBounded) (hlast : SameNext r none) :
    (Token.scan (String.ofList x)).map (·.kind) = ts.map (·.kind) ++ [.eof] := by
  obtain ⟨t, ts, rfl⟩ := List.exists_cons_of_ne_nil h.ne_nil
  obtain ⟨t', ts', e, hscan, ht', hts', he⟩ := h.scan hb hlast
  rw [hscan, List.map_cons, List.map_append, ht', Token.kinds_of_looks hts', List.map_singleton, he]
  rfl

end

end ModuleForge.Grammar
