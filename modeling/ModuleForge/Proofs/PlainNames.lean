import ModuleForge.Proofs.Generated
import ModuleForge.Proofs.Nesting
import ModuleForge.Proofs.NewBindings
import ModuleForge.Proofs.Slices

/-!
# Names that are written without escapes

The names in generated statements are given out by the walk or come from the identifiers of the
source. All of them can be written into the result as they are if the source writes its identifiers
without escapes.

- `isPlain_of_mem_scan`: an identifier whose text holds no backslash is that text.
- `importDecl_bindings`: what an import binds are identifiers of the source.
- `isPlain_of_isBindingName`: names of new bindings need no escapes.
-/

namespace ModuleForge

/-! ## Identifiers -/

namespace Token

open Text Cursor

theorem identifierBody_taken (cur : Cursor) {taken : List Char}
    (h : cur.rest = taken ++ (identifierBody cur).2.rest) (hback : '\\' ∉ taken) :
    (identifierBody cur).1 = taken ∧ ∀ c ∈ taken, isIdentifierPart c = true := by
  fun_induction identifierBody cur generalizing taken with
  | case1 cur hrest =>
    have : taken = [] := by simpa [hrest] using h
    simp [this]
  | case2 cur tail hrest _ _ _ after hbody =>
    -- An escape takes at least its backslash.
    have hafter : Reaches ⟨cur.pos + 2, tail⟩ after := by
      have := identifierBody_reaches (unicodeEscape ⟨cur.pos + 2, tail⟩).cursor
      rw [hbody] at this
      exact (unicodeEscape_reaches _).trans this
    obtain ⟨more, htail, -⟩ := hafter
    obtain rfl : tail = more ++ after.rest := htail
    have htaken : '\\' :: 'u' :: more = taken :=
      List.append_cancel_right (hrest.symm.trans h)
    exact absurd (htaken ▸ List.mem_cons_self) hback
  | case3 cur c rest _ hrest hpart name after hbody ih =>
    have hafter := identifierBody_reaches ⟨cur.pos + c.utf8Size, rest⟩
    rw [hbody] at hafter ih
    obtain ⟨more, hmore, -⟩ := hafter
    obtain rfl : rest = more ++ after.rest := hmore
    obtain rfl : c :: more = taken := List.append_cancel_right (hrest.symm.trans h)
    obtain ⟨hname, hparts⟩ := ih rfl fun hmem => hback (List.mem_cons_of_mem _ hmem)
    exact ⟨congrArg (c :: ·) hname, List.forall_mem_cons.2 ⟨hpart, hparts⟩⟩
  | case4 cur c rest _ hrest hpart =>
    have : taken = [] := by simpa using h
    simp [this]

theorem punctuator?_isOfWord {cs : List Char} {kind : Kind} {n : Nat}
    (h : punctuator? cs = some (kind, n)) : kind.isOfWord = false :=
  (by decide : ∀ x ∈ punctuators, x.2.isOfWord = false) _ (punctuator?_inv h).1

theorem plainToken_isOfWord {last : Option Kind} {c : Char} {cur : Cursor}
    (h : (plainToken last c cur).1.kind.isOfWord = true) :
    plainToken last c cur = wordToken last cur ∧ (c = '\\' ∨ isIdentifierStart c = true) := by
  have hread := plainToken_readBy last c cur
  generalize plainToken last c cur = out at hread h ⊢
  cases hread with
  | string =>
    simp only [stringToken] at h
    split at h <;> cases h
  | number => cases h
  | privateName =>
    simp only [privateToken] at h
    split at h <;> cases h
  | regex =>
    simp only [regexToken] at h
    split at h <;> cases h
  | word hc => exact ⟨rfl, hc.symm.imp And.left id⟩
  | punctuator =>
    simp only [punctuatorToken] at h
    split at h
    · rename_i hk
      exact absurd h (by simp [between, punctuator?_isOfWord hk])
    · cases h

theorem wordToken_isPlain {c : Char} {cur : Cursor} {rest taken : List Char} (last : Option Kind)
    (hcur : cur.rest = c :: rest) (hc : c = '\\' ∨ isIdentifierStart c = true)
    (htaken : cur.rest = taken ++ (wordToken last cur).2.rest) (hne : taken ≠ [])
    (hback : '\\' ∉ taken) : isPlain (wordToken last cur).1.value.toList = true := by
  obtain ⟨hname, hparts⟩ := identifierBody_taken cur htaken hback
  have hvalue : (wordToken last cur).1.value.toList = taken := by simp [wordToken, hname]
  rw [hvalue]
  cases taken with
  | nil => exact absurd rfl hne
  | cons d taken =>
    obtain rfl : c = d := (List.cons.inj (hcur.symm.trans htaken)).1
    have hstart : isIdentifierStart c = true := hc.resolve_left fun hc => hback (by simp [hc])
    exact Bool.and_eq_true_iff.2 ⟨hstart, List.all_eq_true.2 (List.forall_mem_cons.1 hparts).2⟩

/-- **A token of a word's kind is read as a word** behind blanks. -/
theorem nextToken_isOfWord {r : Reader} (hk : (nextToken r).1.kind.isOfWord = true) :
    ∃ newline cur c rest, skipTrivia false r.cursor = .clear newline cur ∧ cur.rest = c :: rest ∧
      (c = '\\' ∨ isIdentifierStart c = true) ∧ cur.Passes (wordToken r.last cur).2 ∧
      nextToken r = ({ (wordToken r.last cur).1 with newlineBefore := newline },
        ⟨some (wordToken r.last cur).1.kind, (wordToken r.last cur).2⟩) := by
  rw [nextToken_eq] at hk ⊢
  cases htrivia : skipTrivia false r.cursor with
  | unterminated start after =>
    rw [htrivia] at hk
    cases hk
  | clear newline cur =>
    rw [htrivia] at hk
    simp only [readBehind] at hk ⊢
    cases hrest : cur.rest with
    | nil =>
      simp only [hrest] at hk
      cases hk
    | cons c rest =>
      simp only [hrest] at hk ⊢
      split at hk
      · -- A template literal is a template or an error.
        have hbody := (templateBody_inside cur.pos ⟨r.last, ⟨cur.pos + 1, rest⟩⟩).2
        split at hk
        · rename_i token htoken
          simp only [hbody token htoken] at hk
          cases hk
        · cases hk
      · rename_i hquote
        obtain ⟨hword, hc⟩ := plainToken_isOfWord hk
        have hpasses := (plainToken_covers r.last hrest).passes
        rw [hword] at hpasses hk
        have herror : (wordToken r.last cur).1.kind ≠ .error := fun he => by
          simp only [he] at hk
          cases hk
        rw [if_neg hquote]
        simp only [hword, beq_iff_eq, if_neg herror]
        exact ⟨newline, cur, c, rest, rfl, hrest, hc, hpasses, rfl⟩

theorem nextToken_isPlain {src text : List Char} {r : Reader} (hr : Reaches ⟨0, src⟩ r.cursor)
    (hk : (nextToken r).1.kind = .identifier) (htext : (nextToken r).1.span.text? src = some text)
    (hback : '\\' ∉ text) : isPlain (nextToken r).1.value.toList = true := by
  obtain ⟨newline, cur, c, rest, htrivia, hrest, hc, hpasses, hword⟩ :=
    nextToken_isOfWord (by rw [hk]; rfl)
  have hcur := hr.trans (reaches_of_clear htrivia)
  obtain ⟨taken, htaken, hpos⟩ := hpasses.1
  have hslice := slice?_of_reaches hcur htaken hpos
  rw [hword] at htext ⊢
  obtain rfl : taken = text := Option.some.inj (hslice.symm.trans htext)
  refine wordToken_isPlain r.last hrest hc htaken ?_ hback
  rintro rfl
  exact absurd hpasses.2 (by simp [hpos])

theorem tokensFrom_isPlain {src text : List Char} (r : Reader) (hr : Reaches ⟨0, src⟩ r.cursor)
    {t : Token} (ht : t ∈ tokensFrom r) (hk : t.kind = .identifier)
    (htext : t.span.text? src = some text) (hback : '\\' ∉ text) :
    isPlain t.value.toList = true := by
  have hreads := nextToken_reads r
  rw [tokensFrom_eq] at ht
  have hlt := @nextToken_left_lt r (nextToken r).2 (nextToken r).1 rfl
  split at ht
  · obtain rfl := List.mem_singleton.1 ht
    exact nextToken_isPlain hr hk htext hback
  · rename_i heof
    rcases List.mem_cons.1 ht with rfl | ht
    · exact nextToken_isPlain hr hk htext hback
    · have := hlt heof
      exact tokensFrom_isPlain (nextToken r).2 (hr.trans hreads.reaches) ht hk htext hback
termination_by r.left

/-- **An identifier whose text holds no backslash is written without escapes.** -/
theorem isPlain_of_mem_scan {source : String} {t : Token} {text : List Char}
    (ht : t ∈ scan source) (hk : t.kind = .identifier)
    (htext : t.span.text? source.toList = some text) (hback : '\\' ∉ text) :
    isPlain t.value.toList = true :=
  tokensFrom_isPlain _ (skipHashbang_reaches ⟨0, source.toList⟩) ht hk htext hback

end Token

/-! ## The bindings of an import -/

def ImportSpecifier.binding : ImportSpecifier → Name
  | .default binding | .namespace binding | named _ binding => binding

namespace Grammar

open Token (Kind)

namespace Tokens

/-- No dot stands before the place, so that a name there is no property. -/
def IsFree (s : Tokens) : Prop :=
  ∀ t, s.before = some t → t.kind ≠ .dot ∧ t.kind ≠ .questionDot

/-- The name is that of an identifier from `s` on which is no property. -/
def ReadsName (s : Tokens) (name : String) : Prop :=
  ∃ s' t rest, s.Reaches s' ∧ s'.IsFree ∧ s'.rest = t :: rest ∧ t.kind = .identifier ∧
    t.value = name

theorem ReadsName.of_reaches {s s' : Tokens} {name : String} (hr : s.Reaches s')
    (h : s'.ReadsName name) : s.ReadsName name := by
  obtain ⟨s1, t, rest, hs, h⟩ := h
  exact ⟨s1, t, rest, hr.trans hs, h⟩

theorem isFree_advance {s : Tokens} {t : Token} {rest : List Token} (h : s.rest = t :: rest)
    (hend : t.kind ≠ .eof) (hdot : t.kind ≠ .dot) (hquestion : t.kind ≠ .questionDot) :
    s.advance.IsFree := by
  rw [advance_of_rest h hend]
  intro t' ht'
  obtain rfl : t = t' := Option.some.inj ht'
  exact ⟨hdot, hquestion⟩

theorem rest_of_isWord {s : Tokens} {w : String} (h : s.current.isWord w = true) :
    ∃ t rest, s.rest = t :: rest ∧ t.kind = .identifier := by
  simp only [Token.isWord, Bool.and_eq_true, beq_iff_eq] at h
  cases hr : s.rest with
  | nil => simp [current, hr] at h
  | cons t rest =>
    rw [current_of_rest hr] at h
    exact ⟨t, rest, rfl, h.1⟩

end Tokens

open Tokens

variable {s s' : Tokens}

theorem isFree_of_consume {kind : Kind} {t : Token} (h : consume kind s = .ok t s')
    (hdot : kind ≠ .dot) (hquestion : kind ≠ .questionDot) : s'.IsFree := by
  obtain ⟨rest, hr, rfl, hk, rfl⟩ := consume_eq_ok h
  rw [← advance_of_rest hr hk]
  exact isFree_advance hr hk hdot hquestion

theorem isFree_of_word {w : String} (h : s.current.isWord w = true) : s.advance.IsFree := by
  obtain ⟨t, rest, hr, hk⟩ := rest_of_isWord h
  refine isFree_advance hr ?_ ?_ ?_ <;> rw [hk] <;> decide

theorem identifier_readsName {name : Name} (hfree : s.IsFree) (h : identifier s = .ok name s') :
    s.ReadsName name.name := by
  obtain ⟨t, s1, h1, h⟩ := bind_eq_ok.1 h
  cases h
  obtain ⟨rest, hr, hk, -⟩ := consume_eq_ok h1
  exact ⟨s, t, rest, .refl s, hfree, hr, hk, rfl⟩

theorem optionalIdentifier_readsName {name : Name} (hfree : s.IsFree)
    (h : optionalIdentifier s = .ok (some name) s') : s.ReadsName name.name := by
  rcases optionalIdentifier_eq_ok h with ⟨hnone, -⟩ | ⟨t, rest, hr, hk, hname, -⟩
  · cases hnone
  · cases hname
    exact ⟨s, t, rest, .refl s, hfree, hr, hk, rfl⟩

theorem importSpecifier_readsName {spec : ImportSpecifier} (hfree : s.IsFree)
    (h : importSpecifier s = .ok spec s') : s.ReadsName spec.binding.name := by
  obtain ⟨first, s1, h1, h⟩ := bind_eq_ok.1 h
  cases h1
  obtain ⟨imported, s2, h2, h⟩ := bind_eq_ok.1 h
  obtain ⟨isAs, s3, h3, h⟩ := bind_eq_ok.1 h
  have hr := (forward_exportName.ok h2).trans ((forward_optionalWord _).ok h3)
  split at h
  · obtain ⟨binding, s4, h4, h⟩ := bind_eq_ok.1 h
    cases h
    have hfree3 : s3.IsFree := by
      rcases optionalWord_eq_ok h3 with ⟨-, hword, rfl⟩ | ⟨rfl, -⟩
      · exact isFree_of_word hword
      · contradiction
    exact (identifier_readsName hfree3 h4).of_reaches hr
  · cases hk : s.current.kind == .identifier with
    | true =>
      -- The name alone binds itself.
      rw [hk] at h
      cases h
      replace hk : s.current.kind = .identifier := by simpa using hk
      have hname : imported.name.text = s.current.value := by
        simp only [exportName] at h2
        split at h2
        · cases h2
          rfl
        · split at h2
          · cases h2
            rfl
          · cases h2
      obtain ⟨t, rest, hrest⟩ : ∃ t rest, s.rest = t :: rest := by
        cases hr : s.rest with
        | nil => simp [current, hr] at hk
        | cons t rest => exact ⟨t, rest, rfl⟩
      rw [current_of_rest hrest] at hk hname
      exact ⟨s, t, rest, .refl s, hfree, hrest, hk, hname.symm⟩
    | false =>
      rw [hk] at h
      cases h

/-- Behind a separator an element can start, or the closing brace follows. -/
theorem isFree_of_separator (h : separator .rbrace s = .ok () s') :
    s'.check .rbrace = true ∨ s'.IsFree := by
  rcases separator_eq_ok h with ⟨hclosing, rfl⟩ | ⟨comma, hcomma⟩
  · exact .inl hclosing
  · exact .inr (isFree_of_consume hcomma (by decide) (by decide))

theorem elementsToBrace_readsName {specs : List ImportSpecifier}
    (hfree : s.check .rbrace = true ∨ s.IsFree)
    (h : elementsToBrace importSpecifier s = .ok specs s') :
    ∀ spec ∈ specs, s.ReadsName spec.binding.name := by
  fun_induction elementsToBrace importSpecifier s generalizing specs with
  | case1 s hend =>
    obtain ⟨t, s1, -, h⟩ := seqRight_eq_ok.1 h
    cases h
    simp
  | case2 => cases h
  | case3 => cases h
  | case4 s hend spec s1 h1 s2 h2 hlt ih =>
    have hfirst := importSpecifier_readsName (hfree.resolve_left fun hc => hend (by simp [hc])) h1
    have hr := (forward_importSpecifier.ok h1).trans ((forward_separator _).ok h2)
    cases hrest : elementsToBrace importSpecifier s2 with
    | error e s3 =>
      rw [hrest] at h
      cases h
    | ok more s3 =>
      rw [hrest] at h
      cases h
      refine List.forall_mem_cons.2 ⟨hfirst, fun spec' hspec => ?_⟩
      exact (ih (isFree_of_separator h2) hrest spec' hspec).of_reaches hr
  | case5 s hend spec s1 h1 s2 h2 hlt =>
    cases h
    exact List.forall_mem_singleton.2
      (importSpecifier_readsName (hfree.resolve_left fun hc => hend (by simp [hc])) h1)

/-- What a step reads from `s` on binds names of identifiers. -/
def BindsFrom (s : Tokens) (p : Parse (List ImportSpecifier)) : Prop :=
  ∀ ⦃specs s'⦄, p s = .ok specs s' → ∀ spec ∈ specs, s.ReadsName spec.binding.name

theorem importClause_bindsFrom (s : Tokens) : BindsFrom s importClause := by
  intro specs s' h
  obtain ⟨t, s1, h1, h⟩ := bind_eq_ok.1 h
  cases h1
  refine (?_ : BindsFrom s _) h
  split
  · intro specs s' h
    obtain ⟨⟨⟩, s2, h2, h⟩ := bind_eq_ok.1 h
    obtain ⟨⟨⟩, s3, h3, h⟩ := bind_eq_ok.1 h
    obtain ⟨binding, s4, h4, h⟩ := bind_eq_ok.1 h
    cases h
    have hfree : s3.IsFree := by
      obtain ⟨hword, rfl⟩ := word_eq_ok h3
      exact isFree_of_word hword
    have hr := (forward_skip.ok h2).trans ((forward_word _).ok h3)
    exact List.forall_mem_singleton.2 ((identifier_readsName hfree h4).of_reaches hr)
  · intro specs s' h spec hspec
    obtain ⟨brace, s2, h2, h⟩ := bind_eq_ok.1 h
    have hfree := isFree_of_consume h2 (by decide) (by decide)
    exact (elementsToBrace_readsName (.inr hfree) h spec hspec).of_reaches
      ((forward_consume _).ok h2)
  · intro specs s' h
    cases h

theorem importSpecifiers_bindsFrom (hfree : s.IsFree) : BindsFrom s importSpecifiers := by
  intro specs s' h
  obtain ⟨binding, s1, h1, h⟩ := bind_eq_ok.1 h
  have hr := forward_optionalIdentifier.ok h1
  cases binding with
  | none => exact fun spec hspec => (importClause_bindsFrom s1 h spec hspec).of_reaches hr
  | some binding =>
    have hfirst := optionalIdentifier_readsName hfree h1
    obtain ⟨comma, s2, h2, h⟩ := bind_eq_ok.1 h
    split at h
    · obtain ⟨more, s3, h3, h⟩ := bind_eq_ok.1 h
      cases h
      refine List.forall_mem_cons.2 ⟨hfirst, fun spec hspec => ?_⟩
      exact (importClause_bindsFrom s2 h3 spec hspec).of_reaches
        (hr.trans ((forward_optional _).ok h2))
    · cases h
      exact List.forall_mem_singleton.2 hfirst

/-- **What an import binds are identifiers of the source.** -/
theorem importDecl_bindings {decl : ImportDecl} (h : importDecl s = .ok decl s') :
    ∀ spec ∈ decl.specifiers, s.ReadsName spec.binding.name := by
  obtain ⟨keyword, s1, h1, h⟩ := bind_eq_ok.1 h
  obtain ⟨t, s2, h2, h⟩ := bind_eq_ok.1 h
  cases h2
  have hfree := isFree_of_consume h1 (by decide) (by decide)
  split at h
  · obtain ⟨specifiers, s3, h3, h⟩ := bind_eq_ok.1 h
    obtain ⟨source, s4, h4, h⟩ := bind_eq_ok.1 h
    obtain ⟨⟨⟩, s5, h5, h⟩ := bind_eq_ok.1 h
    cases h
    cases h3
    simp
  · obtain ⟨specifiers, s3, h3, h⟩ := bind_eq_ok.1 h
    obtain ⟨source, s4, h4, h⟩ := bind_eq_ok.1 h
    obtain ⟨⟨⟩, s5, h5, h⟩ := bind_eq_ok.1 h
    cases h
    exact fun spec hspec => (importSpecifiers_bindsFrom hfree h3 spec hspec).of_reaches
      ((forward_consume _).ok h1)

theorem exportDefault_isExport (start : Nat) :
    Gives (fun st _ => st.isExport = true) (exportDefault start) := by
  refine .bind fun _ => .bind fun _ => .ite ?_ ?_
  · refine .bind fun _ => .bind fun found => ?_
    obtain ⟨kind, skipped⟩ := found
    exact gives_lastEnd fun _ => rfl
  · exact .bind fun _ => .bind fun _ => .bind fun _ => .bind fun _ => gives_lastEnd fun _ => rfl

theorem exportHoistable_isExport (start : Nat) :
    Gives (fun st _ => st.isExport = true) (exportHoistable start) := by
  refine .bind fun first => .bind fun found => ?_
  obtain ⟨kind, name, keywordEnd⟩ := found
  cases name with
  | some name => exact gives_lastEnd fun _ => rfl
  | none =>
    refine .bind fun stop => ?_
    intro s st s' h
    cases h

theorem exportItem_isExport : Gives (fun st _ => st.isExport = true) exportItem := by
  have hvariables (start : Nat) : Gives (fun st _ => st.isExport = true) (exportVariables start) :=
    .bind fun _ => .bind fun _ => .bind fun _ => .bind fun _ => gives_lastEnd fun _ => rfl
  refine .bind fun keyword => .bind fun t => ?_
  split
  · exact .bind fun _ => .bind fun _ => .ite
      (.bind fun _ => .bind fun _ => .bind fun _ => gives_lastEnd fun _ => rfl)
      (.bind fun _ => .bind fun _ => .bind fun _ => gives_lastEnd fun _ => rfl)
  · exact .bind fun _ => .bind fun _ => .bind fun _ => gives_lastEnd fun _ => rfl
  · exact exportDefault_isExport _
  · exact hvariables _
  · exact hvariables _
  · exact hvariables _
  · exact exportHoistable_isExport _
  · exact exportHoistable_isExport _
  · exact exportHoistable_isExport _
  · exact gives_fail _

theorem Tokens.Reaches.mem (h : s.Reaches s') {t : Token} (ht : t ∈ s'.rest) : t ∈ s.rest := by
  induction h with
  | refl => exact ht
  | step hr _ _ ih =>
    rw [hr]
    exact List.mem_cons_of_mem _ (ih ht)

/-- **The bindings of an import are identifiers of the source.** -/
theorem mem_scan_of_binding {source : String} {p : Program} {decl : ImportDecl}
    {spec : ImportSpecifier} (h : parse source = .ok p) (hst : .importFrom decl ∈ p.statements)
    (hspec : spec ∈ decl.specifiers) :
    ∃ t ∈ Token.scan source, t.kind = .identifier ∧ t.value = spec.binding.name := by
  rcases parse_statement h hst with ⟨span, hspan⟩ | ⟨s, s', hr, hs⟩
  · cases hspan
  obtain ⟨t, s1, ht, hs⟩ := bind_eq_ok.1 hs
  cases ht
  split at hs
  · obtain ⟨decl', hdecl, heq⟩ := map_eq_ok.1 hs
    cases heq
    obtain ⟨s2, t, rest, hr2, -, hrest, hk, hvalue⟩ := importDecl_bindings hdecl spec hspec
    exact ⟨t, (hr.trans hr2).mem (by rw [hrest]; exact List.mem_cons_self), hk, hvalue⟩
  · cases exportItem_isExport hs

end Grammar

/-! ## New bindings -/

namespace CommonJs

theorem isPlain_of_isBindingName {name : String} (h : IsBindingName name) :
    Token.isPlain name.toList = true :=
  isPlain_of_isIdentifierName h.1

end CommonJs

end ModuleForge
