import ModuleForge.Proofs.QuickLook
import ModuleForge.Proofs.ReadBack
import ModuleForge.Proofs.Relex

/-!
# Passages of a source in another text

A passage that is cut out of a source at the end of a token is read as tokens that look the same
wherever a blank ends it, or something stands behind it that no token goes on with.

- `Runs r ts r'`: reading the tokens `ts` leads from `r` to `r'`.
- `Leads last x out ks last'`: the tokens of `x` are of the kinds `ks`, and those of `out` follow.
- `Cut x b g g' last`: where `g` followed the passage `x` in the source, `g'` may follow it as well.
- `Runs.copies`: the tokens of a passage with another text behind it.
-/

namespace ModuleForge.Token

open Text Cursor

variable {c : Char} {b g g' q w x : List Char} {ts : List Token} {last' : Option Kind}

/-! ## Runs of tokens -/

/-- **Reading the tokens `ts` leads from one reader to another.** None of them is an error. -/
inductive Runs : Reader → List Token → Reader → Prop
  | nil (r : Reader) : Runs r [] r
  | cons {r r' : Reader} {ts : List Token} : (nextToken r).1.kind ≠ .error →
      (nextToken r).1.kind ≠ .eof → Runs (nextToken r).2 ts r' → Runs r ((nextToken r).1 :: ts) r'

section
variable {r r' r'' : Reader} {ts us : List Token}

theorem Runs.trans (h : Runs r ts r') (h' : Runs r' us r'') : Runs r (ts ++ us) r'' := by
  induction h with
  | nil => exact h'
  | cons herr heof _ ih => exact .cons herr heof (ih h')

theorem Runs.tokensFrom (h : Runs r ts r') : tokensFrom r = ts ++ tokensFrom r' := by
  induction h with
  | nil => rfl
  | cons _ heof _ ih => rw [tokensFrom_eq, if_neg heof, ih, List.cons_append]

theorem Runs.reaches (h : Runs r ts r') : r.cursor.Reaches r'.cursor := by
  induction h with
  | nil => exact .refl _
  | cons _ _ _ ih => exact (nextToken_reads _).reaches.trans ih

theorem Runs.ne_error (h : Runs r ts r') : ∀ t ∈ ts, t.kind ≠ .error := by
  induction h with
  | nil => simp
  | cons herr _ _ ih => exact List.forall_mem_cons.2 ⟨herr, ih⟩

theorem Runs.eq_nil (h : Runs r ts r') (hle : r.cursor.rest.length ≤ r'.cursor.rest.length) :
    ts = [] := by
  cases h with
  | nil => rfl
  | cons _ heof h =>
    have hlt := ((nextToken_reads r).passes heof).left_lt
    obtain ⟨u, hu, -⟩ := h.reaches
    rw [hu] at hlt
    simp only [List.length_append] at hlt
    omega

theorem Runs.last (h : Runs r ts r') (hne : ts ≠ []) :
    r'.last = ts.getLast?.map (·.kind) := by
  induction h with
  | nil => exact absurd rfl hne
  | @cons r r' ts herr heof h ih =>
    cases ts with
    | nil =>
      cases h
      exact nextToken_last herr
    | cons t ts =>
      rw [ih (by simp), List.getLast?_cons_cons]

/-- Of two runs from one place, one goes on where the other ends. -/
theorem Runs.split {q : Reader} (hq : Runs r us q) (h : Runs r ts r') :
    (∃ vs, ts = us ++ vs ∧ Runs q vs r') ∨ ∃ vs, us = ts ++ vs ∧ Runs r' vs q := by
  induction hq generalizing ts with
  | nil => exact .inl ⟨ts, rfl, h⟩
  | cons herr heof hq ih =>
    cases h with
    | nil => exact .inr ⟨_, rfl, .cons herr heof hq⟩
    | cons _ _ h =>
      rcases ih h with ⟨vs, rfl, hvs⟩ | ⟨vs, rfl, hvs⟩
      · exact .inl ⟨vs, rfl, hvs⟩
      · exact .inr ⟨vs, rfl, hvs⟩

/-- Wherever a run ends, a word that ends the source there has no escapes. -/
def Reader.AllBounded (r : Reader) : Prop :=
  ∀ ts r', Runs r ts r' → Bounded (nextToken r').1.kind r'.ahead (nextToken r').2.cursor.rest

theorem Reader.AllBounded.of_runs (h : r.AllBounded) (hr : Runs r ts r') : r'.AllBounded :=
  fun _ r'' hr' => h _ r'' (hr.trans hr')

end

/-! ## Texts in front of others -/

/-- **The tokens of `x` come before those of `out`**: behind a token of the kind `last` they are of the
kinds `ks`, and `last'` is the kind of the last. Only the first token of `out` may take notice, since
a line may or may not start with it. -/
def Leads (last : Option Kind) (x out : List Char) (ks : List Kind) (last' : Option Kind) : Prop :=
  ∀ pos, ∃ ts pos' newline, tokensFrom ⟨last, ⟨pos, x ++ out⟩⟩ =
    ts ++ restart newline (tokensFrom ⟨last', ⟨pos', out⟩⟩) ∧ ts.map (·.kind) = ks

theorem kinds_restart (newline : Bool) (ts : List Token) :
    (restart newline ts).map (·.kind) = ts.map (·.kind) :=
  map_restart (fun _ _ => rfl) newline ts

section
variable {last last' last'' : Option Kind} {x y out : List Char} {ks ls : List Kind}

theorem Leads.append (hx : Leads last x (y ++ out) ks last') (hy : Leads last' y out ls last'') :
    Leads last (x ++ y) out (ks ++ ls) last'' := by
  intro pos
  obtain ⟨ts, pos', newline, hread, hts⟩ := hx pos
  obtain ⟨us, pos'', newline', hread', hus⟩ := hy pos'
  rw [hread'] at hread
  cases us with
  | nil =>
    refine ⟨ts, pos'', newline, ?_, ?_⟩
    · rw [List.append_assoc, hread, List.nil_append, restart_restart]
    · rw [hts, ← hus, List.map_nil, List.append_nil]
  | cons u us =>
    refine ⟨ts ++ restart newline (u :: us), pos'', newline', ?_, ?_⟩
    · rw [List.append_assoc, hread, restart_append (by simp), List.append_assoc]
    · rw [List.map_append, kinds_restart, hts, hus]

theorem leads_blanks {final : Bool} (h : Blanks final x)
    (hfinal : final = true → ∀ c, out.head? = some c → isLineBreak c = true) (last : Option Kind) :
    Leads last x out [] last := by
  intro pos
  obtain ⟨newline, hread⟩ := tokensFrom_restart h hfinal last pos
  exact ⟨[], _, newline, hread, rfl⟩

theorem leads_lexeme {l : Lexeme} (h : l.FitsBefore out) (last : Option Kind) :
    Leads last l.chars out ((l.token? last).toList.map (·.kind)) (l.kindBehind last) := by
  cases ht : l.token? last with
  | none =>
    cases l with
    | space =>
      exact @leads_blanks [' '] out false (.blank (.inl rfl) .nil) (fun h => by cases h) last
    | _ => cases ht
  | some t =>
    intro pos
    obtain ⟨newline, hnewline⟩ :=
      exists_restart (tokensFrom ⟨some t.kind, ⟨pos + byteLength l.chars, out⟩⟩)
    refine ⟨[{ t with span := ⟨pos, pos + byteLength l.chars⟩ }], pos + byteLength l.chars, newline,
      ?_, rfl⟩
    rw [tokensFrom_eq, nextToken_lexeme h ht, if_neg (token?_ne_eof ht), Lexeme.kindBehind, ht,
      Option.map_some, Option.some_or, hnewline]
    rfl

/-- Each of the lexemes is told apart from what follows it. -/
def Lexeme.FitAll (out : List Char) : List Lexeme → Prop
  | [] => True
  | l :: ls => l.FitsBefore (Lexeme.text ls ++ out) ∧ FitAll out ls

theorem Lexeme.fitAll_of_wellSpaced {lexemes : List Lexeme}
    (hr : ∀ l ∈ lexemes, l.isReadable = true) (hs : wellSpaced lexemes = true) (out : List Char) :
    FitAll out lexemes := by
  fun_induction wellSpaced lexemes with
  | case1 => cases hs
  | case2 m => exact ⟨.inl hs, trivial⟩
  | case3 => cases hs
  | case4 l l' ls ih =>
    obtain ⟨hl, hr'⟩ := List.forall_mem_cons.1 hr
    obtain ⟨hfits, hs'⟩ := Bool.and_eq_true_iff.1 hs
    have hnext := fitsBefore_of_fits hfits hl (hr' l' (by simp)) (Lexeme.text ls ++ out)
    rw [← List.append_assoc] at hnext
    exact ⟨hnext, ih hr' hs'⟩

/-- **Lexemes that are told apart are read as what they spell.** -/
theorem leads_lexemes {lexemes : List Lexeme} (h : Lexeme.FitAll out lexemes) (last : Option Kind) :
    Leads last (Lexeme.text lexemes) out ((Lexeme.spell last lexemes).map (·.kind))
      (lexemes.foldl Lexeme.kindBehind last) := by
  induction lexemes generalizing last with
  | nil => exact @leads_blanks [] out false .nil (by simp) last
  | cons l ls ih =>
    have hread := (leads_lexeme h.1 last).append (ih h.2 _)
    rw [Lexeme.spell, List.map_append]
    exact hread

end

/-! ## Passages -/

/-- A blank ends the text. -/
def EndsBlank (x : List Char) : Prop :=
  ∃ c, x.getLast? = some c ∧ isBlank c = true

/-- **Where `g` followed the passage `x`, `g'` may follow it as well.** A word may, unless it stands
directly behind a token that goes on with letters; `last` is the kind of the last token of the
passage, and the blanks `b` stand behind it. -/
def Cut (x b g g' : List Char) (last : Option Kind) : Prop :=
  Agree g g' ∨ EndsBlank x ∨ OpensWord g' ∧ (b = [] → last.all (!·.takesLetters) = true)

theorem Agree.refl (g : List Char) : Agree g g :=
  ⟨g, [], [], (List.append_nil g).symm, (List.append_nil g).symm, .inl nofun, fun _ => nofun⟩

theorem stopped_cons (h : stops c = true) (g : List Char) : Stopped (c :: g) := by
  intro d hd
  obtain rfl := Option.some.inj hd
  exact h

theorem agree_of_stops (h : Stopped g') (g : List Char) : Agree g g' :=
  ⟨[], g, g', rfl, rfl, .inl h, nofun⟩

theorem Agree.append {w g g' : List Char} (h : Agree g g')
    (hpoint : w = ['.'] → ∀ c, g.head? = some c → c.isDigit = false) :
    Agree (w ++ g) (w ++ g') := by
  obtain ⟨q, f, f', rfl, rfl, hf, hq⟩ := h
  refine ⟨w ++ q, f, f', (List.append_assoc ..).symm, (List.append_assoc ..).symm,
    hf.imp id fun hword => ⟨by simp [hword.1], hword.2⟩, ?_⟩
  intro hwq
  rcases List.append_eq_singleton_iff.1 hwq with ⟨rfl, rfl⟩ | ⟨rfl, rfl⟩
  · exact hq rfl
  · exact hpoint rfl

theorem agree_of_opensWord (h : OpensWord g') (hw : w ≠ [])
    (hpoint : w = ['.'] → ∀ c, g.head? = some c → c.isDigit = false) : Agree (w ++ g) (w ++ g') :=
  ⟨w, g, g', rfl, rfl, .inr ⟨hw, h⟩, hpoint⟩

/-- Behind a text that is not empty, what may follow it agrees. -/
theorem Cut.agree {last : Option Kind} (h : Cut w b g g' last) (hw : w ≠ [])
    (hpoint : w = ['.'] → ∀ c, g.head? = some c → c.isDigit = false) :
    Agree (w ++ g) (w ++ g') := by
  rcases h with h | ⟨c, hc, hblank⟩ | ⟨hword, -⟩
  · exact h.append hpoint
  · obtain ⟨a, rfl⟩ := List.getLast?_eq_some_iff.1 hc
    have hdigit : c.isDigit = false :=
      @false_of_stops Char.isDigit (by decide) c (stops_of_isBlank hblank)
    have hjoins : Joins (c :: g) (c :: g') :=
      joins_of_stops (by simpa using hdigit) (stopped_cons (stops_of_isBlank hblank) _)
    rw [List.append_assoc, List.append_assoc]
    exact hjoins a
  · exact agree_of_opensWord hword hw hpoint

theorem EndsBlank.behind (h : EndsBlank (q ++ w))
    (hends : ∀ c, q.getLast? = some c → isBlank c = false) : EndsBlank w := by
  obtain ⟨c, hc, hblank⟩ := h
  cases hw : w.getLast? with
  | some d =>
    rw [List.getLast?_append, hw, Option.some_or] at hc
    exact ⟨c, hw.trans hc, hblank⟩
  | none =>
    rw [List.getLast?_append, hw, Option.none_or] at hc
    rw [hends c hc] at hblank
    cases hblank

theorem Cut.behind {last : Option Kind} (h : Cut (q ++ w) b g g' last)
    (hends : ∀ c, q.getLast? = some c → isBlank c = false) : Cut w b g g' last :=
  h.imp id (·.imp (·.behind hends) id)

theorem nextToken_point {r : Reader} {d : Char} {rest : List Char} (hd : d.isDigit = true)
    (hrest : r.cursor.rest = '.' :: d :: rest) :
    (nextToken r).2.cursor.rest.length ≤ rest.length := by
  obtain ⟨last, pos, _⟩ := r
  obtain rfl : _ = '.' :: d :: rest := hrest
  have hnumber : plainToken last '.' ⟨pos, '.' :: d :: rest⟩ = numberToken ⟨pos, '.' :: d :: rest⟩ := by
    simp [plainToken, Cursor.next, hd]
  have hclear : skipTrivia false ⟨pos, '.' :: d :: rest⟩ = .clear false ⟨pos, '.' :: d :: rest⟩ :=
    skipTrivia_char (by simp) (by simp) false pos
  rw [nextToken_eq, hclear]
  show (plainToken last '.' ⟨pos, '.' :: d :: rest⟩).2.rest.length ≤ rest.length
  rw [hnumber]
  exact Nat.le_of_lt_succ (numberToken_point hd rest)

/-- A run that starts at a point takes what follows it, if that is a digit. -/
theorem Runs.point {r r' : Reader} (h : Runs r ts r') (hrest : r.cursor.rest = '.' :: g)
    (hb : r'.cursor.rest = b ++ g) (hne : b ≠ ['.']) :
    ∀ c, g.head? = some c → c.isDigit = false := by
  intro d hd
  rw [Bool.eq_false_iff]
  intro hdigit
  obtain ⟨tail, rfl⟩ := List.head?_eq_some_iff.1 hd
  cases h with
  | nil => exact hne (List.append_cancel_right (hb.symm.trans hrest))
  | cons _ _ h =>
    obtain ⟨u, hu, -⟩ := h.reaches
    have hlength := nextToken_point hdigit hrest
    rw [hu, hb] at hlength
    simp only [List.length_append, List.length_cons] at hlength
    omega

theorem nextToken_ends {r : Reader} (h : r.AllBounded) (hq : r.cursor.rest = q ++ g)
    (herr : (nextToken r).1.kind ≠ .error) (heof : (nextToken r).1.kind ≠ .eof)
    (hg : (nextToken r).2.cursor.rest = g) : EndsToken (nextToken r).1.kind q := by
  have hself := h [] r (.nil r)
  rw [hg] at hself
  exact (nextToken_local r hq herr heof hg (fun c _ => .refl c r.last) (.inl hself)
    (.inl (.refl _)) 0).2 hself

/-- **A run does not end with a blank**, and with a semicolon only if that is its last token. -/
theorem Runs.ends {r r' : Reader} (h : Runs r ts r') (hb : r.AllBounded)
    (hx : r.cursor.rest = x ++ r'.cursor.rest) :
    ∀ c, x.getLast? = some c → isBlank c = false ∧ (c = ';' → r'.last = some .semicolon) := by
  induction h generalizing x with
  | nil =>
    obtain rfl : x = [] := List.self_eq_append_left.1 hx
    simp
  | @cons r r' ts herr heof h ih =>
    obtain ⟨q, hq, -⟩ := (nextToken_reads r).reaches
    obtain ⟨w, hw, -⟩ := h.reaches
    obtain rfl : x = q ++ w := by
      refine List.append_cancel_right (?_ : x ++ r'.cursor.rest = _ ++ r'.cursor.rest)
      rw [← hx, hq, hw, List.append_assoc]
    intro c hc
    rw [List.getLast?_append] at hc
    cases hlast : w.getLast? with
    | some d =>
      rw [hlast, Option.some_or] at hc
      exact ih (hb.of_runs (.cons herr heof (.nil _))) hw c (hlast.trans hc)
    | none =>
      rw [hlast, Option.none_or] at hc
      obtain rfl := List.getLast?_eq_none_iff.1 hlast
      have hends := nextToken_ends hb hq herr heof rfl c hc
      refine ⟨hends.1, fun hsemi => ?_⟩
      cases h with
      | nil => rw [nextToken_last herr, hends.2 hsemi]
      | @cons _ _ ts herr' heof' h =>
        -- Another token would take some text.
        have hlt := ((nextToken_reads _).passes heof').left_lt
        obtain ⟨u, hu, -⟩ := h.reaches
        rw [hw, hu] at hlt
        simp only [List.length_append, List.nil_append] at hlt
        omega

/-- **The tokens of a passage look the same** before a text that may follow it. Nothing is asked of the
last word of a source if nothing follows it in the other text, too. -/
theorem Runs.copies {r r' : Reader} (h : Runs r ts r') (hx : r.cursor.rest = x ++ g)
    (hb : r'.cursor.rest = b ++ g) (hpoint : b ≠ ['.']) (hlast : SameNext r last')
    (hcut : ts ≠ [] → Cut x b g g' r'.last) (hend : r.AllBounded ∨ (g = [] ∧ g' = [])) (pos : Nat) :
    ∃ ts' pos', Token.tokensFrom ⟨last', ⟨pos, x ++ g'⟩⟩ =
        ts' ++ Token.tokensFrom ⟨if ts = [] then last' else r'.last, ⟨pos', b ++ g'⟩⟩ ∧
      ts'.map look = ts.map look := by
  induction h generalizing x last' pos with
  | nil r =>
    obtain rfl : x = b := List.append_cancel_right (hx.symm.trans hb)
    exact ⟨[], pos, rfl, rfl⟩
  | @cons r r' ts herr heof h ih =>
    obtain ⟨q, hq, -⟩ := (nextToken_reads r).reaches
    obtain ⟨u, hu, -⟩ := h.reaches
    rw [hb, ← List.append_assoc] at hu
    generalize hw : u ++ b = w at hu
    rw [hu] at hq
    obtain rfl : x = q ++ w := by
      refine List.append_cancel_right (?_ : x ++ g = _ ++ g)
      rw [← hx, hq, List.append_assoc]
    have hbounded : Bounded (nextToken r).1.kind r.ahead (w ++ g) ∨ w ++ g' = [] := by
      rcases hend with hend | ⟨rfl, rfl⟩
      · have := hend [] r (.nil r)
        rw [hu] at this
        exact .inl this
      · by_cases hw : w = []
        · exact .inr (by rw [hw]; rfl)
        · exact .inl fun _ hnil => absurd hnil (by simpa using hw)
    have hcut' : Cut w b g g' r'.last := by
      rcases hend with hend | ⟨rfl, rfl⟩
      · exact (hcut (by simp)).behind fun c hc => (nextToken_ends hend hq herr heof hu c hc).1
      · exact .inl (.refl _)
    have hfollow : MayFollow (nextToken r).1.kind (w ++ g) (w ++ g') := by
      by_cases hnil : w = []
      · -- The token is the last of the passage.
        subst hnil
        obtain ⟨rfl, rfl⟩ := List.append_eq_nil_iff.1 hw
        have hts := h.eq_nil (by rw [hu, hb])
        subst hts
        cases h
        rcases hcut' with hagree | ⟨c, hc, -⟩ | ⟨hword, hkind⟩
        · exact .inl hagree
        · cases hc
        · have hkind := hkind rfl
          rw [nextToken_last herr] at hkind
          exact .inr ⟨hword, by simpa using hkind⟩
      · refine .inl (hcut'.agree hnil ?_)
        rintro rfl
        exact h.point hu hb hpoint
    have halike := (nextToken_local r hq herr heof hu hlast hbounded hfollow pos).1
    rw [List.append_assoc, tokensFrom_eq, if_neg (by rw [halike.kind]; exact heof)]
    generalize nextToken ⟨last', ⟨pos, q ++ (w ++ g')⟩⟩ = out at halike
    obtain ⟨t, last, pos', rest⟩ := out
    obtain ⟨hlook, rfl, rfl⟩ := halike
    obtain ⟨ts', pos'', hread, hlooks⟩ := ih hu hb (fun c _ => .refl c _) (fun _ => hcut')
      (hend.imp (·.of_runs (.cons herr heof (.nil _))) id) pos'
    refine ⟨t :: ts', pos'', ?_, ?_⟩
    · dsimp only
      rw [← nextToken_last herr, hread, if_neg (List.cons_ne_nil _ _)]
      cases ts with
      | nil =>
        cases h
        rfl
      | cons t ts => rfl
    · rw [List.map_cons, List.map_cons, hlooks]
      exact congrArg (· :: _) hlook

theorem kinds_of_looks {us : List Token} (h : ts.map look = us.map look) :
    ts.map (·.kind) = us.map (·.kind) := by
  have hfst := congrArg (List.map Prod.fst) h
  rwa [List.map_map, List.map_map] at hfst

/-- **The kinds of the tokens of a passage** before a text that may follow it. -/
theorem Runs.leads {r r' : Reader} (h : Runs r ts r') (hx : r.cursor.rest = x ++ g)
    (hb : r'.cursor.rest = b ++ g) (hpoint : b ≠ ['.']) (hlast : SameNext r last')
    (hcut : ts ≠ [] → Cut x b g g' r'.last) (hend : r.AllBounded ∨ (g = [] ∧ g' = []))
    (hblanks : Leads (if ts = [] then last' else r'.last) b g' [] (if ts = [] then last' else
      r'.last)) : Leads last' x g' (ts.map (·.kind)) (if ts = [] then last' else r'.last) := by
  intro pos
  obtain ⟨ts', pos', hread, hlooks⟩ := h.copies hx hb hpoint hlast hcut hend pos
  obtain ⟨us, pos'', newline, hread', hus⟩ := hblanks pos'
  obtain rfl := List.map_eq_nil_iff.1 hus
  exact ⟨ts', pos'', newline, by rw [hread, hread', List.nil_append], kinds_of_looks hlooks⟩

/-! ## Words -/

theorem plainToken_isOfWord_of_start {last : Option Kind} {cur : Cursor} {rest : List Char}
    (hrest : cur.rest = c :: rest) (hc : isIdentifierStart c = true ∨ c = '\\')
    (herr : (plainToken last c cur).1.kind ≠ .error) :
    (plainToken last c cur).1.kind.isOfWord = true := by
  have hword : (wordToken last cur).1.kind.isOfWord = true := wordKind_isOfWord _ _
  by_cases hstart : isIdentifierStart c = true
  · rwa [plainToken_word hstart]
  obtain rfl := hc.resolve_left hstart
  have hplain : plainToken last '\\' cur =
      if cur.next.rest.head? = some 'u' then wordToken last cur else punctuatorToken '\\' cur := by
    simp [plainToken, hstart, show '\\'.isDigit = false from rfl]
  rw [hplain] at herr ⊢
  split
  · exact hword
  · rename_i hu
    -- A backslash alone is an error.
    rw [if_neg hu] at herr
    refine absurd ?_ herr
    have hnone : punctuator? ('\\' :: rest) = none := rfl
    simp only [punctuatorToken, hrest, hnone]
    rfl

/-- What starts like a word is read as a word. -/
theorem isOfWord_of_ahead {r : Reader} (h : r.ahead.head? = some c)
    (hc : isIdentifierStart c = true ∨ c = '\\') (herr : (nextToken r).1.kind ≠ .error) :
    (nextToken r).1.kind.isOfWord = true := by
  obtain ⟨newline, cur, htrivia⟩ := exists_clear herr
  rw [nextToken_eq, htrivia] at herr ⊢
  rw [Reader.ahead, htrivia] at h
  obtain ⟨rest, hrest⟩ := List.head?_eq_some_iff.1 h
  replace hrest : cur.rest = c :: rest := hrest
  have hquote : (c == '`') = false := by
    rcases hc with hc | rfl
    · rw [beq_eq_false_iff_ne]
      rintro rfl
      revert hc
      decide +kernel
    · rfl
  simp only [readBehind, hrest, hquote, Bool.false_eq_true, if_false] at herr ⊢
  exact plainToken_isOfWord_of_start hrest hc herr

theorem startsWith_of_ahead {r : Reader} (h : r.ahead.head? = some c)
    (herr : (nextToken r).1.kind ≠ .error) : (nextToken r).1.kind.startsWith c = true := by
  obtain ⟨newline, cur, htrivia⟩ := exists_clear herr
  rw [Reader.ahead, htrivia] at h
  obtain ⟨rest, hrest⟩ := List.head?_eq_some_iff.1 h
  exact nextToken_startsWith htrivia hrest

theorem start_of_ahead {r : Reader} (h : r.ahead.head? = some c)
    (hk : (nextToken r).1.kind.isOfWord = true) : c = '\\' ∨ isIdentifierStart c = true := by
  obtain ⟨newline, cur, d, rest, htrivia, hrest, hd, -⟩ := nextToken_isOfWord hk
  rw [Reader.ahead, htrivia] at h
  obtain rfl : d = c := Option.some.inj ((congrArg List.head? hrest).symm.trans h)
  exact hd

theorem identifierBody_ends (cur : Cursor) : EndsWordAt (identifierBody cur).2.rest := by
  fun_induction identifierBody cur with
  | case1 cur hrest => exact ⟨by simp [hrest], by simp [hrest]⟩
  | case2 _ _ _ _ _ _ _ hbody ih =>
    rw [hbody] at ih
    exact ih
  | case3 _ _ _ _ _ _ _ _ hbody ih =>
    rw [hbody] at ih
    exact ih
  | case4 cur c rest hescape hrest hpart =>
    refine ⟨fun d hd => ?_, fun tail htail => ?_⟩
    · rw [hrest] at hd
      obtain rfl := Option.some.inj hd
      simpa using hpart
    · obtain ⟨rfl, rfl⟩ := List.cons.inj (hrest.symm.trans htail)
      exact hescape tail rfl rfl

/-- No word follows a word directly. -/
theorem isOfWord_behind_word {q r : Reader} (hq : (nextToken q).1.kind.isOfWord = true)
    (hr : (nextToken q).2.cursor = r.cursor) (hahead : r.ahead = r.cursor.rest) :
    (nextToken r).1.kind.isOfWord = false := by
  rw [Bool.eq_false_iff]
  intro hk
  obtain ⟨_, cur, _, _, _, _, _, _, hnext⟩ := nextToken_isOfWord hq
  obtain ⟨_, cur', _, _, htrivia, _, _, hpasses, -⟩ := nextToken_isOfWord hk
  rw [Reader.ahead, htrivia] at hahead
  rw [hnext] at hr
  have hends : EndsWordAt cur'.rest := by
    have := identifierBody_ends cur
    rw [show cur'.rest = r.cursor.rest from hahead, ← hr]
    exact this
  have hlt := hpasses.2
  rw [wordToken] at hlt
  simp only [identifierBody_stop hends cur'.pos] at hlt
  exact Nat.lt_irrefl _ hlt

theorem Runs.exists_last {r r' : Reader} (h : Runs r ts r') (hne : ts ≠ []) :
    ∃ q, (nextToken q).2 = r' ∧ r'.last = some (nextToken q).1.kind := by
  induction h with
  | nil => exact absurd rfl hne
  | @cons r r' ts herr heof h ih =>
    cases ts with
    | nil =>
      cases h
      exact ⟨r, rfl, nextToken_last herr⟩
    | cons t ts => exact ih (by simp)

theorem kind_of_isPoint {r : Reader} (h : isPoint r.last = true)
    (hk : (nextToken r).1.kind.isOfWord = true) : (nextToken r).1.kind = .identifier := by
  obtain ⟨newline, cur, c, rest, -, -, -, -, hnext⟩ := nextToken_isOfWord hk
  rw [hnext]
  exact if_pos h

/-- A word is read alike behind all tokens that are no points. -/
theorem sameNext_of_isOfWord {r : Reader} (hk : (nextToken r).1.kind.isOfWord = true)
    (hlast : isPoint r.last = false) {last' : Option Kind} (hlast' : isPoint last' = false) :
    SameNext r last' := by
  intro c hc
  refine ⟨?_, fun _ => hlast.trans hlast'.symm⟩
  rintro rfl
  rcases start_of_ahead hc hk with h | h
  · cases h
  · exact absurd h (by decide +kernel)

/-! ## Readers in front of a token -/

/-- The reader that stands where the next token starts. -/
def Reader.forward (r : Reader) : Reader :=
  ⟨r.last, (skipTrivia false r.cursor).cursor⟩

section
variable {r r' : Reader} {ts : List Token}

/-- What stands in front of the next token. -/
theorem exists_blanks (herr : (nextToken r).1.kind ≠ .error) (heof : (nextToken r).1.kind ≠ .eof) :
    ∃ b, r.cursor.rest = b ++ r.ahead ∧ Blanks false b ∧
      r.forward.cursor.pos = r.cursor.pos + byteLength b := by
  obtain ⟨start, hclear, hcovers⟩ := nextToken_covers herr heof
  obtain ⟨b, hb, hblanks, -⟩ := skipTrivia_blanks hclear
  obtain ⟨b', hb', hpos⟩ := reaches_of_clear hclear
  obtain rfl : b = b' := List.append_cancel_right (hb.symm.trans hb')
  have hnonempty : start.rest.isEmpty = false := by
    have := hcovers.passes.left_lt
    cases hrest : start.rest with
    | nil => simp [hrest] at this
    | cons => rfl
  rw [hnonempty] at hblanks
  rw [Reader.ahead, Reader.forward, hclear]
  exact ⟨b, hb, hblanks, hpos⟩

theorem skipTrivia_idem {newline newline' : Bool} {cur start : Cursor}
    (h : skipTrivia newline cur = .clear newline' start) :
    skipTrivia false start = .clear false start := by
  obtain ⟨-, -, -, hno⟩ := skipTrivia_blanks h
  obtain ⟨pos, _ | ⟨c, rest⟩⟩ := start
  · rw [skipTrivia]
  · obtain ⟨hblank, hmark⟩ := hno c rfl
    have hcomment (tail : List Char) := @noComment_of_clear _ _ _ _ h tail
    have hline := isLineBreak_of_isBlank hblank
    rw [skipTrivia_char (fun tail hc hrest => (hcomment tail).1 (by rw [hc, hrest]))
      (fun tail hc hrest => (hcomment tail).2 (by rw [hc, hrest]))]
    simp [hline, hblank, hmark]

/-- The token is the same there, but for the line that may start with it. -/
theorem nextToken_forward (herr : (nextToken r).1.kind ≠ .error) :
    nextToken r.forward =
      ({ (nextToken r).1 with newlineBefore := false }, (nextToken r).2) := by
  obtain ⟨newline, cur, htrivia⟩ := exists_clear herr
  have hforward : r.forward = ⟨r.last, cur⟩ := by
    rw [Reader.forward, htrivia]
    rfl
  rw [hforward, nextToken_eq, nextToken_eq r, htrivia, skipTrivia_idem htrivia]
  simp only [readBehind]
  split
  · rfl
  · split
    · split <;> rfl
    · rfl

theorem Runs.forward {t : Token} (h : Runs r (t :: ts) r') :
    Runs r.forward ({ t with newlineBefore := false } :: ts) r' := by
  cases h with
  | cons herr heof h =>
    have hnext := nextToken_forward herr
    rw [show { (nextToken r).1 with newlineBefore := false } = (nextToken r.forward).1 by rw [hnext]]
    refine .cons (by rw [hnext]; exact herr) (by rw [hnext]; exact heof) ?_
    rw [hnext]
    exact h

theorem forward_forward (herr : (nextToken r).1.kind ≠ .error) : r.forward.forward = r.forward := by
  obtain ⟨newline, cur, htrivia⟩ := exists_clear herr
  simp only [Reader.forward, htrivia, Trivia.cursor, skipTrivia_idem htrivia]

theorem Reader.AllBounded.forward (h : r.AllBounded) (herr : (nextToken r).1.kind ≠ .error) :
    r.forward.AllBounded := by
  have hnext := nextToken_forward herr
  intro ts r' hruns
  cases hruns with
  | nil =>
    have hahead : r.forward.ahead = r.ahead := congrArg (·.cursor.rest) (forward_forward herr)
    rw [hnext, hahead]
    exact h [] r (.nil r)
  | @cons _ _ ts _ heof hruns =>
    rw [hnext] at heof hruns
    exact h _ r' (.cons herr heof hruns)

end

/-! ## Whole texts -/

theorem nextToken_hashbang {r : Reader} {tail : List Char} (h : r.ahead = '#' :: '!' :: tail) :
    (nextToken r).1.kind = .error := by
  rw [nextToken_eq]
  cases htrivia : skipTrivia false r.cursor with
  | unterminated start after => rfl
  | clear newline cur =>
    obtain ⟨pos, rest⟩ := cur
    rw [Reader.ahead, htrivia] at h
    obtain rfl : rest = '#' :: '!' :: tail := h
    have hspan : Cursor.span isIdentifierPart ⟨pos + 1, '!' :: tail⟩ =
        ([], ⟨pos + 1, '!' :: tail⟩) := by
      refine @span_append isIdentifierPart [] ('!' :: tail) nofun ?_ (pos + 1)
      intro c hc
      obtain rfl := Option.some.inj hc
      decide +kernel
    show (privateToken ⟨pos, '#' :: '!' :: tail⟩).1.kind = .error
    have hsize : '#'.utf8Size = 1 := rfl
    simp only [privateToken, Cursor.next, hsize, hspan, beq_self_eq_true, if_true]
    rfl

theorem exists_runs {r : Reader} (h : ∀ t ∈ tokensFrom r, t.kind ≠ .error) :
    ∃ ts r', Runs r ts r' ∧ (nextToken r').1.kind = .eof := by
  by_cases heof : (nextToken r).1.kind = .eof
  · exact ⟨[], r, .nil r, heof⟩
  · have hlt := ((nextToken_reads r).passes heof).left_lt
    obtain ⟨ts, r', hruns, hend⟩ := @exists_runs (nextToken r).2 fun t ht =>
      h t (mem_tokensFrom_of_next heof ht)
    exact ⟨_, r', .cons (h _ (nextToken_mem r)) heof hruns, hend⟩
termination_by r.left

theorem blanks_of_eof {r : Reader} (h : (nextToken r).1.kind = .eof) :
    Blanks true r.cursor.rest := by
  cases nextToken_reads r with
  | eof _ hclear hnil =>
    obtain ⟨b, hb, hblanks, -⟩ := skipTrivia_blanks hclear
    rw [hnil] at hb hblanks
    rw [hb, List.append_nil]
    exact hblanks
  | error hk => rw [hk] at h; cases h
  | token _ _ _ hcovers => exact absurd h hcovers.kind

/-- **A text without errors is read alike elsewhere.** -/
theorem kinds_of_clean {r : Reader} (h : ∀ t ∈ tokensFrom r, t.kind ≠ .error)
    (hlast : SameNext r last') (pos : Nat) :
    (tokensFrom ⟨last', ⟨pos, r.cursor.rest⟩⟩).map (·.kind) = (tokensFrom r).map (·.kind) := by
  obtain ⟨ts, r', hruns, hend⟩ := exists_runs h
  have hpoint : r'.cursor.rest ≠ ['.'] := by
    intro hrest
    have hblanks := blanks_of_eof hend
    rw [hrest] at hblanks
    cases hblanks with
    | blank hc => exact absurd hc (by decide)
  have hread : Leads last' r.cursor.rest [] (ts.map (·.kind)) (if ts = [] then last' else r'.last) :=
    hruns.leads (List.append_nil _).symm (List.append_nil _).symm hpoint hlast
      (fun _ => .inl (.refl _)) (.inr ⟨rfl, rfl⟩) (leads_blanks (blanks_of_eof hend) (by simp) _)
  obtain ⟨ts', pos', newline, hread, hkinds⟩ := hread pos
  rw [List.append_nil] at hread
  rw [hread, List.map_append, hkinds, kinds_restart, hruns.tokensFrom, List.map_append,
    tokensFrom_eq r', if_pos hend, tokensFrom_eq ⟨_, ⟨pos', []⟩⟩, nextToken_nil, if_pos rfl]
  simp [hend]

theorem ne_error_iff {r : Reader} {ks : List Kind} (h : (tokensFrom r).map (·.kind) = ks) :
    (∀ t ∈ tokensFrom r, t.kind ≠ .error) ↔ .error ∉ ks := by
  rw [← h, List.mem_map]
  exact ⟨fun hall ⟨t, ht, hk⟩ => hall t ht hk, fun hnone t ht hk => hnone ⟨t, ht, hk⟩⟩

end ModuleForge.Token
