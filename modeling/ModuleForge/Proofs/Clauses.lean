import ModuleForge.Proofs.Destructuring
import ModuleForge.Proofs.ItemShapes

/-!
# Import and export clauses

The grammar of what import and export statements are made of, as relations between tokens and what
they say, and how the steps of reading keep to it. `Reads` says that what is read is in the grammar;
`Takes`, that what is in the grammar is read.

- `CommaList`, `InBraces`: lists in braces, over the grammar of one element.
- `ImportElement`, `ExportElement`, `ImportClause`, `ImportNames`, `FromModule`: the clauses.
- `ReadsElements`: what a list in braces needs from the step that reads an element.
- `Unattributed`: no attributes follow. They are stepped over, and say nothing.
-/

namespace ModuleForge.Grammar

open Token (Kind)
open Tokens

/-! ## The grammar -/

/-- The name on the surface of a module that a token stands for: an identifier, a reserved word or a
string. -/
inductive SurfaceName : Token → ExportName → Prop
  | word {t : Token} : t.isIdentifierName = true → SurfaceName t (.ident t.value)
  | string {t : Token} : t.kind = .string → SurfaceName t (.str t.value)

/-- `name` or `name as binding` in an import. -/
inductive ImportElement : List Token → ImportSpecifier → Prop
  | plain {t : Token} : t.kind = .identifier →
      ImportElement [t] (.named (.ident t.value) (boundName t))
  | renamed {t as binding : Token} {name : ExportName} : SurfaceName t name →
      as.isWord "as" = true → binding.kind = .identifier →
      ImportElement [t, as, binding] (.named name (boundName binding))

/-- `name` or `name as exported` in an export. -/
inductive ExportElement : List Token → ExportSpecifier → Prop
  | plain {t : Token} {name : ExportName} : SurfaceName t name → ExportElement [t] ⟨name, name⟩
  | renamed {t as t' : Token} {name exported : ExportName} : SurfaceName t name →
      as.isWord "as" = true → SurfaceName t' exported → ExportElement [t, as, t'] ⟨name, exported⟩

/-- Elements with commas between them, and perhaps behind the last. -/
inductive CommaList {α : Type} (Element : List Token → α → Prop) : List Token → List α → Prop
  | nil : CommaList Element [] []
  | last {ts : List Token} {a : α} : Element ts a → CommaList Element ts [a]
  | cons {ts more : List Token} {comma : Token} {a : α} {as : List α} : Element ts a →
      comma.kind = .comma → CommaList Element more as →
      CommaList Element (ts ++ comma :: more) (a :: as)

/-- A comma list in braces. -/
inductive InBraces {α : Type} (Element : List Token → α → Prop) : List Token → List α → Prop
  | mk {opening closing : Token} {ts : List Token} {as : List α} : opening.kind = .lbrace →
      CommaList Element ts as → closing.kind = .rbrace →
      InBraces Element (opening :: (ts ++ [closing])) as

/-- `* as name`, or a list in braces. -/
inductive ImportClause : List Token → List ImportSpecifier → Prop
  | namespace {star as binding : Token} : star.kind = .star → as.isWord "as" = true →
      binding.kind = .identifier →
      ImportClause [star, as, binding] [.namespace (boundName binding)]
  | braces {ts : List Token} {specifiers : List ImportSpecifier} :
      InBraces ImportElement ts specifiers → ImportClause ts specifiers

/-- What stands between `import` and `from`. -/
inductive ImportNames : List Token → List ImportSpecifier → Prop
  | default {t : Token} : t.kind = .identifier → ImportNames [t] [.default (boundName t)]
  | defaultAnd {t comma : Token} {ts : List Token} {specifiers : List ImportSpecifier} :
      t.kind = .identifier → comma.kind = .comma → ImportClause ts specifiers →
      ImportNames (t :: comma :: ts) (.default (boundName t) :: specifiers)
  | clause {ts : List Token} {specifiers : List ImportSpecifier} : ImportClause ts specifiers →
      ImportNames ts specifiers

/-- `from "m"` -/
inductive FromModule : List Token → String → Prop
  | mk {t source : Token} : t.isWord "from" = true → source.kind = .string →
      FromModule [t, source] source.value

/-- No token could start the attributes of an import. -/
def Unattributed (ts : List Token) : Prop :=
  ∀ t ∈ ts, t.kind ≠ .kwWith ∧ t.isWord "assert" = false

/-! ## Single tokens -/

namespace Tokens

/-- From `s` over the tokens `ts` to `s'`. -/
structure Over (s : Tokens) (ts : List Token) (s' : Tokens) : Prop where
  rest : s.rest = ts ++ s'.rest
  before : s'.before = lastOf s.before ts

variable {s s' s'' : Tokens} {ts us : List Token}

theorem Over.refl (s : Tokens) : s.Over [] s :=
  ⟨rfl, rfl⟩

theorem Over.trans (h1 : s.Over ts s') (h2 : s'.Over us s'') : s.Over (ts ++ us) s'' :=
  ⟨by rw [h1.rest, h2.rest, List.append_assoc], by rw [h2.before, h1.before, lastOf_append]⟩

theorem over_advance (h : s.current.kind ≠ .eof) : s.Over [s.current] s.advance := by
  obtain ⟨rest, hrest⟩ := rest_of_current h
  rw [advance_of_rest hrest h]
  exact ⟨hrest, rfl⟩

end Tokens

section

variable {s s' : Tokens} {t : Token} {w : String}

theorem kind_of_isWord (h : t.isWord w = true) : t.kind = .identifier := by
  simp only [Token.isWord, Bool.and_eq_true, beq_iff_eq] at h
  exact h.1

theorem kind_ne_eof_of_isWord (h : t.isWord w = true) : t.kind ≠ .eof := by
  simp [kind_of_isWord h]

theorem isWord_of_kind (h : t.kind ≠ .identifier) : t.isWord w = false := by
  simp [Token.isWord, h]

theorem SurfaceName.kind {name : ExportName} (h : SurfaceName t name) :
    t.kind ≠ .rbrace ∧ t.kind ≠ .eof := by
  cases h with
  | word h =>
    have hkind := kind_of_isIdentifierName h
    simp only [List.mem_cons, not_or] at hkind
    exact ⟨hkind.2.2.2.2.1, hkind.2.2.2.2.2.1⟩
  | string h => simp [h]

theorem consume_over {kind : Kind} (h : consume kind s = .ok t s') :
    t.kind = kind ∧ s.Over [t] s' := by
  obtain ⟨rest, hrest, hkind, -, rfl⟩ := consume_eq_ok h
  exact ⟨hkind, hrest, rfl⟩

theorem word_over {u : Unit} (h : word w s = .ok u s') :
    s.current.isWord w = true ∧ s.Over [s.current] s' := by
  obtain ⟨hword, rfl⟩ := word_eq_ok h
  exact ⟨hword, over_advance (kind_ne_eof_of_isWord hword)⟩

theorem optionalWord_over {b : Bool} (h : optionalWord w s = .ok b s') :
    (b = true ∧ s.current.isWord w = true ∧ s.Over [s.current] s') ∨ (b = false ∧ s' = s) := by
  rcases optionalWord_eq_ok h with ⟨rfl, hword, rfl⟩ | hleft
  · exact .inl ⟨rfl, hword, over_advance (kind_ne_eof_of_isWord hword)⟩
  · exact .inr hleft

theorem identifier_over {name : Name} (h : identifier s = .ok name s') :
    ∃ t, t.kind = .identifier ∧ name = boundName t ∧ s.Over [t] s' := by
  obtain ⟨t, s1, h1, h2⟩ := bind_eq_ok.1 h
  cases h2
  obtain ⟨hkind, hover⟩ := consume_over h1
  exact ⟨t, hkind, rfl, hover⟩

theorem exportName_over {placed : PlacedName} (h : exportName s = .ok placed s') :
    SurfaceName s.current placed.name ∧ placed.span = s.current.span ∧
      s.Over [s.current] s' := by
  simp only [exportName] at h
  split at h
  · rename_i hkind
    have hname : SurfaceName s.current (.str s.current.value) := .string (by simpa using hkind)
    cases h
    exact ⟨hname, rfl, over_advance hname.kind.2⟩
  · split at h
    · rename_i hword
      cases h
      exact ⟨.word hword, rfl, over_advance (SurfaceName.word hword).kind.2⟩
    · cases h

theorem takes_word (h : t.isWord w = true) (rest : List Token) : Takes (word w) [t] rest () := by
  intro before
  have hcurrent : current ⟨before, [t] ++ rest⟩ = t := rfl
  rw [word, hcurrent, if_pos h, List.singleton_append, advance_cons (kind_ne_eof_of_isWord h)]
  rfl

theorem takes_optionalWord (h : t.isWord w = true) (rest : List Token) :
    Takes (optionalWord w) [t] rest true := by
  intro before
  have hcurrent : current ⟨before, [t] ++ rest⟩ = t := rfl
  rw [optionalWord, hcurrent, if_pos h, List.singleton_append,
    advance_cons (kind_ne_eof_of_isWord h)]
  rfl

theorem takes_optionalWord_other (h : t.isWord w = false) (rest : List Token) :
    Takes (optionalWord w) [] (t :: rest) false := by
  intro before
  have hcurrent : current ⟨before, [] ++ t :: rest⟩ = t := rfl
  rw [optionalWord, hcurrent, h]
  rfl

theorem takes_identifier (h : t.kind = .identifier) (rest : List Token) :
    Takes identifier [t] rest (boundName t) :=
  (takes_consume h (by decide) rest).bind_pure fun t => boundName t

theorem takes_exportName {name : ExportName} (h : SurfaceName t name) (rest : List Token) :
    Takes exportName [t] rest ⟨name, t.span⟩ := by
  intro before
  have hcurrent : current ⟨before, [t] ++ rest⟩ = t := rfl
  have hadvance : advance ⟨before, [t] ++ rest⟩ = ⟨some t, rest⟩ := advance_cons h.kind.2
  simp only [exportName, hcurrent, hadvance]
  cases h with
  | word h =>
    have hkind : t.kind ≠ .string := by
      have hkind := kind_of_isIdentifierName h
      simp only [List.mem_cons, not_or] at hkind
      exact hkind.2.2.1
    rw [if_neg (by simpa using hkind), if_pos h]
    rfl
  | string h =>
    rw [if_pos (by simpa using h)]
    rfl

end

/-! ## Lists in braces -/

/-- What is read is in the grammar: wherever the step succeeds, it went over tokens from which its
answer derives. -/
def Reads {α : Type} (p : Parse α) (Derives : List Token → α → Prop) : Prop :=
  ∀ ⦃s a s'⦄, p s = .ok a s' → ∃ ts, s.Over ts s' ∧ Derives ts a

/-- The step `element` reads what `Element` derives, as an element of a list in braces. -/
structure ReadsElements {α : Type} (element : Parse α) (Element : List Token → α → Prop) :
    Prop where
  shortens : Shortens element
  reads : Reads element Element
  starts : ∀ {ts a}, Element ts a → ∃ t us, ts = t :: us ∧ t.kind ≠ .rbrace ∧ t.kind ≠ .eof
  takes : ∀ {ts a}, Element ts a → ∀ {next : Token}, next.kind = .comma ∨ next.kind = .rbrace →
    ∀ rest, Takes element ts (next :: rest) a

section

variable {α : Type} {element : Parse α} {Element : List Token → α → Prop} {s s' : Tokens}

theorem separator_over {u : Unit} (h : separator .rbrace s = .ok u s') :
    (s.check .rbrace = true ∧ s' = s) ∨ ∃ comma, comma.kind = .comma ∧ s.Over [comma] s' := by
  exact (separator_eq_ok h).imp_right fun ⟨comma, hcomma⟩ => ⟨comma, consume_over hcomma⟩

theorem elementsToBrace_end {as : List α} (hend : (s.check .rbrace || s.atEnd) = true)
    (h : elementsToBrace element s = .ok as s') :
    as = [] ∧ ∃ closing, closing.kind = .rbrace ∧ s.Over [closing] s' := by
  rw [elementsToBrace, if_pos hend] at h
  obtain ⟨closing, s1, h1, h2⟩ := seqRight_eq_ok.1 h
  cases h2
  exact ⟨rfl, closing, consume_over h1⟩

theorem ReadsElements.elementsToBrace_over (he : ReadsElements element Element) {as : List α}
    (h : elementsToBrace element s = .ok as s') :
    ∃ ts closing, closing.kind = .rbrace ∧ s.Over (ts ++ [closing]) s' ∧
      CommaList Element ts as := by
  -- an element and its comma leave fewer tokens
  induction hn : s.left using Nat.strongRecOn generalizing s as with
  | ind n ih =>
    by_cases hend : (s.check .rbrace || s.atEnd) = true
    · obtain ⟨rfl, closing, hclosing, hover⟩ := elementsToBrace_end hend h
      exact ⟨[], closing, hclosing, hover, .nil⟩
    · rw [elementsToBrace_round he.shortens hend] at h
      obtain ⟨a, s1, h1, h⟩ := bind_eq_ok.1 h
      obtain ⟨⟨⟩, s2, h2, h⟩ := bind_eq_ok.1 h
      obtain ⟨more, s3, h3, hpure⟩ := bind_eq_ok.1 h
      cases hpure
      obtain ⟨ts, hover, helement⟩ := he.reads h1
      rcases separator_over h2 with ⟨hclose, rfl⟩ | ⟨comma, hcomma, hover'⟩
      · obtain ⟨rfl, closing, hclosing, hover'⟩ := elementsToBrace_end (by simp [hclose]) h3
        exact ⟨ts, closing, hclosing, hover.trans hover', .last helement⟩
      · have hlt : s2.left < n :=
          hn ▸ Nat.lt_of_le_of_lt ((forward_separator _).keeps h2) (he.shortens h1)
        obtain ⟨us, closing, hclosing, hover'', hmore⟩ := ih _ hlt h3 rfl
        refine ⟨ts ++ comma :: us, closing, hclosing, ?_, .cons helement hcomma hmore⟩
        simpa using hover.trans (hover'.trans hover'')

theorem takes_elementsToBrace_nil {closing : Token} (h : closing.kind = .rbrace)
    (rest : List Token) : Takes (elementsToBrace element) [closing] rest [] := by
  intro before
  rw [elementsToBrace, if_pos (by simp [check_cons, h])]
  exact seqRight_eq_ok.2 ⟨closing, _, takes_consume h (by decide) rest before, rfl⟩

/-- An element, and what is read behind it. -/
theorem ReadsElements.takes_round (he : ReadsElements element Element) {ts us rest : List Token}
    {a : α} {as : List α} (h : Element ts a) (hus : ∃ next more, us ++ rest = next :: more ∧
      (next.kind = .comma ∨ next.kind = .rbrace))
    (hmore : Takes (do
      separator .rbrace
      let more ← elementsToBrace element
      pure (a :: more)) us rest (a :: as)) :
    Takes (elementsToBrace element) (ts ++ us) rest (a :: as) := by
  intro before
  obtain ⟨t, tail, rfl, hbrace, heof⟩ := he.starts h
  obtain ⟨next, more, hnext, hkind⟩ := hus
  have hgoes : ¬ (check .rbrace ⟨before, t :: tail ++ us ++ rest⟩ ||
      atEnd ⟨before, t :: tail ++ us ++ rest⟩) = true := by
    simp [check, atEnd, current, hbrace, heof]
  rw [elementsToBrace_round he.shortens hgoes]
  have helement : Takes element (t :: tail) (us ++ rest) a := hnext ▸ he.takes h hkind more
  exact helement.bind hmore before

theorem ReadsElements.takes_elementsToBrace (he : ReadsElements element Element) {ts : List Token}
    {as : List α} (h : CommaList Element ts as) {closing : Token}
    (hclosing : closing.kind = .rbrace) (rest : List Token) :
    Takes (elementsToBrace element) (ts ++ [closing]) rest as := by
  induction h with
  | nil => exact takes_elementsToBrace_nil hclosing rest
  | @last ts a h =>
    refine he.takes_round h ⟨closing, rest, rfl, .inr hclosing⟩ ?_
    have hsep : Takes (separator .rbrace) [] (closing :: rest) () :=
      hclosing ▸ takes_separator_closing (by rw [hclosing]; rfl) rest
    exact hsep.bind_nil ((takes_elementsToBrace_nil hclosing rest).bind_pure _)
  | @cons ts more comma a as h hcomma _ ih =>
    rw [List.append_assoc]
    refine he.takes_round h ⟨comma, _, rfl, .inl hcomma⟩ ?_
    exact (takes_separator_comma hcomma rfl _).bind_cons (ih.bind_pure _)

theorem ReadsElements.reads_inBraces (he : ReadsElements element Element) :
    Reads (inBraces element) (InBraces Element) := by
  intro s as s' h
  obtain ⟨opening, s1, h1, h2⟩ := bind_eq_ok.1 h
  obtain ⟨hopening, hover⟩ := consume_over h1
  obtain ⟨ts, closing, hclosing, hover', hlist⟩ := he.elementsToBrace_over h2
  exact ⟨_, hover.trans hover', .mk hopening hlist hclosing⟩

theorem ReadsElements.takes_inBraces (he : ReadsElements element Element) {ts : List Token}
    {as : List α} (h : InBraces Element ts as) (rest : List Token) :
    Takes (inBraces element) ts rest as := by
  obtain ⟨hopening, hlist, hclosing⟩ := h
  refine (takes_consume hopening (by decide) _).bind_cons ?_
  exact he.takes_elementsToBrace hlist hclosing rest

end

/-! ## Elements -/

theorem isWord_of_separator {next : Token} {w : String}
    (h : next.kind = .comma ∨ next.kind = .rbrace) : next.isWord w = false :=
  isWord_of_kind (by rcases h with h | h <;> simp [h])

theorem reads_importSpecifier : Reads importSpecifier ImportElement := by
  intro s specifier s' h
  obtain ⟨first, s1, h1, h⟩ := bind_eq_ok.1 h
  cases h1
  obtain ⟨⟨name, span⟩, s2, h2, h⟩ := bind_eq_ok.1 h
  obtain ⟨hname, rfl, hover⟩ := exportName_over h2
  obtain ⟨isRenamed, s3, h3, hlast⟩ := bind_eq_ok.1 h
  rcases optionalWord_over h3 with ⟨rfl, hword, hover'⟩ | ⟨rfl, rfl⟩
  · obtain ⟨binding, s4, h4, hpure⟩ := bind_eq_ok.1 hlast
    cases hpure
    obtain ⟨t, hkind, rfl, hover''⟩ := identifier_over h4
    exact ⟨_, (hover.trans hover').trans hover'', .renamed hname hword hkind⟩
  · cases hkind : s.current.kind == .identifier <;> simp only [hkind] at hlast <;> cases hlast
    have hkind : s.current.kind = .identifier := by simpa using hkind
    refine ⟨_, hover, ?_⟩
    cases hname with
    | word => exact .plain hkind
    | string hstring => rw [hstring] at hkind; cases hkind

theorem takes_importSpecifier {ts : List Token} {specifier : ImportSpecifier}
    (h : ImportElement ts specifier) {next : Token}
    (hnext : next.kind = .comma ∨ next.kind = .rbrace) (rest : List Token) :
    Takes importSpecifier ts (next :: rest) specifier := by
  cases h with
  | @plain t hkind =>
    have hname : SurfaceName t (.ident t.value) := .word (by simp [Token.isIdentifierName, hkind])
    refine (takes_peek t _).bind_nil ?_
    refine (takes_exportName hname _).bind_cons ?_
    refine (takes_optionalWord_other (isWord_of_separator hnext) rest).bind_nil ?_
    simp only [hkind, beq_self_eq_true]
    exact takes_pure _ _
  | renamed hname has hbinding =>
    refine (takes_peek _ _).bind_nil ?_
    refine (takes_exportName hname _).bind_cons ?_
    refine (takes_optionalWord has _).bind_cons ?_
    exact (takes_identifier hbinding _).bind_pure _

theorem readsElements_importSpecifier : ReadsElements importSpecifier ImportElement where
  shortens := shortens_importSpecifier
  reads := reads_importSpecifier
  starts := by
    rintro ts a (hkind | ⟨hname, -, -⟩)
    · exact ⟨_, [], rfl, by simp [hkind], by simp [hkind]⟩
    · exact ⟨_, _, rfl, hname.kind⟩
  takes := takes_importSpecifier

theorem reads_exportSpecifier : Reads exportSpecifier ExportElement := by
  intro s specifier s' h
  obtain ⟨inner, s1, h1, h⟩ := bind_eq_ok.1 h
  obtain ⟨hname, -, hover⟩ := exportName_over h1
  obtain ⟨isRenamed, s2, h2, hlast⟩ := bind_eq_ok.1 h
  rcases optionalWord_over h2 with ⟨rfl, hword, hover'⟩ | ⟨rfl, rfl⟩
  · obtain ⟨exported, s3, h3, hpure⟩ := bind_eq_ok.1 hlast
    cases hpure
    obtain ⟨hname', -, hover''⟩ := exportName_over h3
    exact ⟨_, (hover.trans hover').trans hover'', .renamed hname hword hname'⟩
  · cases hlast
    exact ⟨_, hover, .plain hname⟩

theorem takes_exportSpecifier {ts : List Token} {specifier : ExportSpecifier}
    (h : ExportElement ts specifier) {next : Token}
    (hnext : next.kind = .comma ∨ next.kind = .rbrace) (rest : List Token) :
    Takes exportSpecifier ts (next :: rest) specifier := by
  cases h with
  | plain hname =>
    refine (takes_exportName hname _).bind_cons ?_
    exact (takes_optionalWord_other (isWord_of_separator hnext) rest).bind_nil (takes_pure _ _)
  | @renamed t as t' name exported hname has hexported =>
    refine (takes_exportName hname _).bind_cons ?_
    refine (takes_optionalWord has _).bind_cons ?_
    exact (takes_exportName hexported _).bind_pure fun exported =>
      (⟨name, exported.name⟩ : ExportSpecifier)

theorem readsElements_exportSpecifier : ReadsElements exportSpecifier ExportElement where
  shortens := shortens_exportSpecifier
  reads := reads_exportSpecifier
  starts := by
    rintro ts a (hname | ⟨hname, -, -⟩)
    · exact ⟨_, [], rfl, hname.kind⟩
    · exact ⟨_, _, rfl, hname.kind⟩
  takes := takes_exportSpecifier

/-! ## Clauses -/

section

variable {s s' : Tokens} {ts us : List Token} {m : String} {t : Token}
    {specifiers : List ImportSpecifier}

theorem reads_importClause : Reads importClause ImportClause := by
  intro s specifiers s' h
  have hopening := importClause_opening h
  obtain ⟨t, s1, h1, h⟩ := bind_eq_ok.1 h
  cases h1
  rcases hopening with hkind | hkind <;> simp only [hkind] at h
  · obtain ⟨⟨⟩, s1, h1, h⟩ := bind_eq_ok.1 h
    cases h1
    obtain ⟨⟨⟩, s2, h2, h⟩ := bind_eq_ok.1 h
    obtain ⟨binding, s3, h3, hpure⟩ := bind_eq_ok.1 h
    cases hpure
    obtain ⟨has, hover⟩ := word_over h2
    obtain ⟨t, hbinding, rfl, hover'⟩ := identifier_over h3
    have hstar : s.Over [s.current] s.advance := over_advance (by simp [hkind])
    exact ⟨_, hstar.trans (hover.trans hover'), .namespace hkind has hbinding⟩
  · obtain ⟨ts, hover, hbraces⟩ := readsElements_importSpecifier.reads_inBraces h
    exact ⟨ts, hover, .braces hbraces⟩

theorem takes_importClause (h : ImportClause ts specifiers) (rest : List Token) :
    Takes importClause ts rest specifiers := by
  cases h with
  | «namespace» hstar has hbinding =>
    refine (takes_peek _ _).bind_nil ?_
    simp only [hstar]
    refine (takes_skip (by simp [hstar]) _).bind_cons ?_
    refine (takes_word has _).bind_cons ?_
    exact (takes_identifier hbinding _).bind_pure _
  | braces h =>
    have htakes := readsElements_importSpecifier.takes_inBraces h rest
    obtain ⟨hopening, -, -⟩ := h
    refine (takes_peek _ _).bind_nil ?_
    simpa only [hopening] using htakes

theorem ImportClause.starts (h : ImportClause ts specifiers) :
    ∃ t us, ts = t :: us ∧ (t.kind = .star ∨ t.kind = .lbrace) := by
  cases h with
  | «namespace» hstar => exact ⟨_, _, rfl, .inl hstar⟩
  | braces h =>
    obtain ⟨hopening, -, -⟩ := h
    exact ⟨_, _, rfl, .inr hopening⟩

theorem optionalIdentifier_over {binding : Option Name}
    (h : optionalIdentifier s = .ok binding s') :
    (binding = none ∧ s' = s) ∨
      ∃ t, t.kind = .identifier ∧ binding = some (boundName t) ∧ s.Over [t] s' := by
  rcases optionalIdentifier_eq_ok h with hnone | ⟨t, rest, hrest, hkind, rfl, rfl⟩
  · exact .inl hnone
  · exact .inr ⟨t, hkind, rfl, hrest, rfl⟩

theorem takes_optionalIdentifier (h : t.kind = .identifier) (rest : List Token) :
    Takes optionalIdentifier [t] rest (some (boundName t)) := by
  intro before
  rw [List.singleton_append, optionalIdentifier, check_cons (by decide),
    if_pos (by simpa using h), advance_cons (by simp [h])]
  rfl

theorem takes_optionalIdentifier_other (h : t.kind ≠ .identifier) (rest : List Token) :
    Takes optionalIdentifier [] (t :: rest) none := by
  intro before
  rw [List.nil_append, optionalIdentifier, check_cons (by decide), if_neg (by simpa using h)]
  rfl

theorem reads_importSpecifiers : Reads importSpecifiers ImportNames := by
  intro s specifiers s' h
  obtain ⟨binding, s1, h1, hnames⟩ := bind_eq_ok.1 h
  rcases optionalIdentifier_over h1 with ⟨rfl, rfl⟩ | ⟨t, hkind, rfl, hover⟩
  · obtain ⟨ts, hover, hclause⟩ := reads_importClause hnames
    exact ⟨ts, hover, .clause hclause⟩
  · obtain ⟨hasMore, s2, h2, hlast⟩ := bind_eq_ok.1 hnames
    rcases optional_eq_ok h2 with ⟨rfl, hcomma, rfl⟩ | ⟨rfl, rfl⟩
    · obtain ⟨more, s3, h3, hpure⟩ := bind_eq_ok.1 hlast
      cases hpure
      obtain ⟨comma, rest, hrest, hcomma, heof⟩ := check_eq_true hcomma
      have hover' : s1.Over [comma] s1.advance := by
        rw [advance_of_rest hrest heof]
        exact ⟨hrest, rfl⟩
      obtain ⟨ts, hover'', hclause⟩ := reads_importClause h3
      exact ⟨_, hover.trans (hover'.trans hover''), .defaultAnd hkind hcomma hclause⟩
    · cases hlast
      exact ⟨_, hover, .default hkind⟩

theorem takes_importSpecifiers (h : ImportNames ts specifiers) {next : Token}
    (hnext : next.kind = .identifier) (rest : List Token) :
    Takes importSpecifiers ts (next :: rest) specifiers := by
  cases h with
  | default ht =>
    refine (takes_optionalIdentifier ht _).bind_cons ?_
    exact (takes_optional_other (by simp [hnext]) (by decide) _).bind_nil (takes_pure _ _)
  | defaultAnd ht hcomma hclause =>
    refine (takes_optionalIdentifier ht _).bind_cons ?_
    refine (takes_optional hcomma (by decide) _).bind_cons ?_
    exact (takes_importClause hclause _).bind_pure _
  | clause hclause =>
    have htakes := takes_importClause hclause (next :: rest)
    obtain ⟨t, us, rfl, hkind⟩ := hclause.starts
    have hother : t.kind ≠ .identifier := by rcases hkind with h | h <;> simp [h]
    refine (takes_optionalIdentifier_other hother _).bind_nil ?_
    exact htakes

theorem ImportNames.starts (h : ImportNames ts specifiers) :
    ∃ t us, ts = t :: us ∧ t.kind ≠ .string := by
  cases h with
  | default ht => exact ⟨_, _, rfl, by simp [ht]⟩
  | defaultAnd ht => exact ⟨_, _, rfl, by simp [ht]⟩
  | clause hclause =>
    obtain ⟨t, us, rfl, hkind⟩ := hclause.starts
    exact ⟨t, us, rfl, by rcases hkind with h | h <;> simp [h]⟩

/-! ## Sources -/

theorem Unattributed.of_over (h : Unattributed s.rest) (hover : s.Over ts s') :
    Unattributed s'.rest :=
  fun t ht => h t (by simp [hover.rest, ht])

theorem optionalAttributes_of_unattributed (h : Unattributed s.rest) :
    optionalAttributes s = .ok () s := by
  have hcurrent : s.current.kind ≠ .kwWith ∧ s.current.isWord "assert" = false := by
    by_cases heof : s.current.kind = .eof
    · exact ⟨by simp [heof], isWord_of_kind (by simp [heof])⟩
    · obtain ⟨rest, hrest⟩ := rest_of_current heof
      exact h _ (by rw [hrest]; exact List.mem_cons_self)
  simp [optionalAttributes, hcurrent.1, hcurrent.2]

theorem moduleSource_over (hplain : Unattributed s.rest) (h : moduleSource s = .ok (.literal m) s') :
    s.current.kind = .string ∧ s.current.value = m ∧ s.Over [s.current] s' := by
  obtain ⟨t, s1, h1, h⟩ := bind_eq_ok.1 h
  cases h1
  cases hkind : s.current.kind <;> simp only [hkind] at h
  case string =>
    obtain ⟨⟨⟩, s1, h1, h⟩ := bind_eq_ok.1 h
    cases h1
    obtain ⟨⟨⟩, s2, h2, hpure⟩ := bind_eq_ok.1 h
    have hover : s.Over [s.current] s.advance := over_advance (by simp [hkind])
    rw [optionalAttributes_of_unattributed (hplain.of_over hover)] at h2
    cases h2
    cases hpure
    exact ⟨rfl, rfl, hover⟩
  case eof => cases h
  -- any other source is not named by a string
  all_goals
    obtain ⟨⟨⟩, s1, -, hpure⟩ := bind_eq_ok.1 h
    cases hpure

theorem fromClause_over (hplain : Unattributed s.rest) (h : fromClause s = .ok (.literal m) s') :
    ∃ ts, s.Over ts s' ∧ FromModule ts m := by
  obtain ⟨⟨⟩, s1, h1, h2⟩ := bind_eq_ok.1 h
  obtain ⟨hword, hover⟩ := word_over h1
  obtain ⟨hkind, rfl, hover'⟩ := moduleSource_over (hplain.of_over hover) h2
  exact ⟨_, hover.trans hover', .mk hword hkind⟩

theorem takes_moduleSource (h : t.kind = .string) {rest : List Token} (hplain : Unattributed rest) :
    Takes moduleSource [t] rest (.literal t.value) := by
  refine (takes_peek t rest).bind_nil ?_
  simp only [h]
  refine (takes_skip (by simp [h]) rest).bind_cons ?_
  have hattributes : Takes optionalAttributes [] rest () :=
    fun before => optionalAttributes_of_unattributed (s := ⟨before, rest⟩) hplain
  exact hattributes.bind_nil (takes_pure _ _)

theorem takes_fromClause (h : FromModule ts m) {rest : List Token} (hplain : Unattributed rest) :
    Takes fromClause ts rest (.literal m) := by
  obtain ⟨hword, hkind⟩ := h
  exact (takes_word hword _).bind_cons (takes_moduleSource hkind hplain)

theorem FromModule.starts (h : FromModule ts m) :
    ∃ t us, ts = t :: us ∧ t.isWord "from" = true := by
  obtain ⟨hword, -⟩ := h
  exact ⟨_, _, rfl, hword⟩

end

end ModuleForge.Grammar
