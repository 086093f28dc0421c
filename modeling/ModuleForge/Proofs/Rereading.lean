import ModuleForge.Proofs.Course
import ModuleForge.Proofs.ExactItems
import ModuleForge.Proofs.Groups
import ModuleForge.Proofs.Tiling

/-!
# Module items that are read again

A module item whose source is an expression is left as it is. If it stands on one line and ends with a
semicolon, its tokens are read as such an item wherever they stand: its grammar depends only on what
is seen of the tokens, and the semicolon ends the expression whatever follows.

- `Recurs`: a grammar that depends only on what is seen of the tokens.
- `FromExpression`, `ItemHead`: the grammar of such items.
- `moduleItem_over`, `moduleItem_takes`: what is read is in the grammar, and what is in it is read.
- `itemsFrom_again`: the item is found again.
-/

namespace ModuleForge.Grammar

open Token (Kind look kind_of_look)
open Tokens

/-! ## Tokens that look the same -/

section
variable {t t' : Token}

theorem isWord_of_look (h : look t' = look t) (w : String) : t'.isWord w = t.isWord w := by
  have hkind := kind_of_look h
  by_cases hk : t.kind = .identifier
  · have hvalue : t'.value = t.value := by
      simpa [look, hkind, hk, Kind.isOfWord] using congrArg (·.2.2) h
    rw [Token.isWord, Token.isWord, hkind, hvalue]
  · rw [Token.isWord, Token.isWord, hkind, beq_false_of_ne hk, Bool.false_and, Bool.false_and]

theorem isOfWord_of_isIdentifierName (h : t.isIdentifierName = true) : t.kind.isOfWord = true := by
  have hall : ∀ e ∈ Token.keywords, e.2.isOfWord = true := by decide
  simp only [Token.isIdentifierName, Bool.or_eq_true, beq_iff_eq] at h
  rcases h with h | h
  · rw [h]
    rfl
  · obtain ⟨l1, l2, hl, -⟩ := List.lookup_eq_some_iff.1 h
    exact hall (t.value, t.kind) (by simp [hl])

theorem isIdentifierName_of_look (h : look t' = look t) (ht : t.isIdentifierName = true) :
    t'.isIdentifierName = true := by
  have hkind := kind_of_look h
  have hvalue : t'.value = t.value := by
    simpa [look, hkind, isOfWord_of_isIdentifierName ht] using congrArg (·.2.2) h
  rwa [Token.isIdentifierName, hkind, hvalue]

theorem SurfaceName.recurs {name : ExportName} (h : SurfaceName t name) (ht : look t' = look t) :
    ∃ name', SurfaceName t' name' := by
  cases h with
  | word h => exact ⟨_, .word (isIdentifierName_of_look ht h)⟩
  | string h => exact ⟨_, .string ((kind_of_look ht).trans h)⟩

end

theorem exists_of_three_looks {t u v : Token} {us : List Token}
    (h : us.map look = [t, u, v].map look) :
    ∃ t' u' v', us = [t', u', v'] ∧ look t' = look t ∧ look u' = look u ∧ look v' = look v := by
  obtain ⟨t', _, rfl, ht, h⟩ := List.map_eq_cons_iff.1 h
  obtain ⟨u', _, rfl, hu, h⟩ := List.map_eq_cons_iff.1 h
  obtain ⟨v', rfl, hv⟩ := List.map_eq_singleton_iff.1 h
  exact ⟨t', u', v', rfl, ht, hu, hv⟩

/-- What is in the grammar is in it, too, with other tokens that look the same. -/
def Recurs {α : Type} (Derives : List Token → α → Prop) : Prop :=
  ∀ ⦃ts ts' a⦄, Derives ts a → ts'.map look = ts.map look → ∃ a', Derives ts' a'

theorem recurs_importElement : Recurs ImportElement := by
  intro ts us a h hlook
  cases h with
  | plain ht =>
    obtain ⟨t', rfl, ht'⟩ := List.map_eq_singleton_iff.1 hlook
    exact ⟨_, .plain ((kind_of_look ht').trans ht)⟩
  | renamed hname has hbinding =>
    obtain ⟨t', as', binding', rfl, ht', has', hbinding'⟩ := exists_of_three_looks hlook
    obtain ⟨name', hname'⟩ := hname.recurs ht'
    exact ⟨_, .renamed hname' ((isWord_of_look has' _).trans has)
      ((kind_of_look hbinding').trans hbinding)⟩

theorem recurs_exportElement : Recurs ExportElement := by
  intro ts us a h hlook
  cases h with
  | plain hname =>
    obtain ⟨t', rfl, ht'⟩ := List.map_eq_singleton_iff.1 hlook
    obtain ⟨name', hname'⟩ := hname.recurs ht'
    exact ⟨_, .plain hname'⟩
  | renamed hname has hexported =>
    obtain ⟨t', as', u', rfl, ht', has', hu'⟩ := exists_of_three_looks hlook
    obtain ⟨name', hname'⟩ := hname.recurs ht'
    obtain ⟨exported', hexported'⟩ := hexported.recurs hu'
    exact ⟨_, .renamed hname' ((isWord_of_look has' _).trans has) hexported'⟩

theorem recurs_inBraces {α : Type} {Element : List Token → α → Prop} (h : Recurs Element) :
    Recurs (InBraces Element) := by
  have hlist : Recurs (CommaList Element) := by
    intro ts us as hts hlook
    induction hts generalizing us with
    | nil =>
      obtain rfl := List.map_eq_nil_iff.1 hlook
      exact ⟨_, .nil⟩
    | last hts =>
      obtain ⟨a', ha'⟩ := h hts hlook
      exact ⟨_, .last ha'⟩
    | cons hts hcomma _ ih =>
      rw [List.map_append] at hlook
      obtain ⟨ts', _, rfl, hts', hlook⟩ := List.map_eq_append_iff.1 hlook
      obtain ⟨comma', more', rfl, hcomma', hmore⟩ := List.map_eq_cons_iff.1 hlook
      obtain ⟨a', ha'⟩ := h hts hts'
      obtain ⟨as', has'⟩ := ih hmore
      exact ⟨_, .cons ha' ((kind_of_look hcomma').trans hcomma) has'⟩
  rintro ts us as ⟨hopening, hts, hclosing⟩ hlook
  obtain ⟨opening', _, rfl, hopening', hlook⟩ := List.map_eq_cons_iff.1 hlook
  rw [List.map_append] at hlook
  obtain ⟨ts', _, rfl, hts', hlook⟩ := List.map_eq_append_iff.1 hlook
  obtain ⟨closing', rfl, hclosing'⟩ := List.map_eq_singleton_iff.1 hlook
  obtain ⟨as', has'⟩ := hlist hts hts'
  exact ⟨as', .mk ((kind_of_look hopening').trans hopening) has'
    ((kind_of_look hclosing').trans hclosing)⟩

theorem recurs_importClause : Recurs ImportClause := by
  intro ts us a h hlook
  cases h with
  | «namespace» hstar has hbinding =>
    obtain ⟨star', as', binding', rfl, hstar', has', hbinding'⟩ := exists_of_three_looks hlook
    exact ⟨_, .namespace ((kind_of_look hstar').trans hstar) ((isWord_of_look has' _).trans has)
      ((kind_of_look hbinding').trans hbinding)⟩
  | braces h =>
    obtain ⟨a', h'⟩ := recurs_inBraces recurs_importElement h hlook
    exact ⟨a', .braces h'⟩

theorem recurs_importNames : Recurs ImportNames := by
  intro ts us a h hlook
  cases h with
  | default ht =>
    obtain ⟨t', rfl, ht'⟩ := List.map_eq_singleton_iff.1 hlook
    exact ⟨_, .default ((kind_of_look ht').trans ht)⟩
  | defaultAnd ht hcomma hclause =>
    obtain ⟨t', _, rfl, ht', hlook⟩ := List.map_eq_cons_iff.1 hlook
    obtain ⟨comma', _, rfl, hcomma', hlook⟩ := List.map_eq_cons_iff.1 hlook
    obtain ⟨a', hclause'⟩ := recurs_importClause hclause hlook
    exact ⟨_, .defaultAnd ((kind_of_look ht').trans ht) ((kind_of_look hcomma').trans hcomma) hclause'⟩
  | clause hclause =>
    obtain ⟨a', hclause'⟩ := recurs_importClause hclause hlook
    exact ⟨a', .clause hclause'⟩

theorem recurs_starHead : Recurs StarHead := by
  intro ts us a h hlook
  cases h with
  | all hstar =>
    obtain ⟨star', rfl, hstar'⟩ := List.map_eq_singleton_iff.1 hlook
    exact ⟨_, .all ((kind_of_look hstar').trans hstar)⟩
  | allAs hstar has hname =>
    obtain ⟨star', as', t', rfl, hstar', has', ht'⟩ := exists_of_three_looks hlook
    obtain ⟨name', hname'⟩ := hname.recurs ht'
    exact ⟨_, .allAs ((kind_of_look hstar').trans hstar) ((isWord_of_look has' _).trans has) hname'⟩

/-- Whether brackets match does not depend on the places of the tokens. -/
theorem Matched.recurs {outer : Kind → Bool} {ts us : List Token} (h : Matched outer ts)
    (hlook : us.map look = ts.map look) : Matched outer us := by
  induction h generalizing us with
  | nil =>
    obtain rfl := List.map_eq_nil_iff.1 hlook
    exact .nil
  | plain hopen hclose heof hkind _ ih =>
    obtain ⟨t', more', rfl, ht', hmore⟩ := List.map_eq_cons_iff.1 hlook
    rw [← kind_of_look ht'] at hopen hclose heof hkind
    exact .plain hopen hclose heof hkind (ih hmore)
  | group hclosing _ _ ih ih' =>
    obtain ⟨opening', _, rfl, hopening', hlook⟩ := List.map_eq_cons_iff.1 hlook
    rw [List.map_append] at hlook
    obtain ⟨inner', _, rfl, hinner, hlook⟩ := List.map_eq_append_iff.1 hlook
    obtain ⟨closing', more', rfl, hclosing', hmore⟩ := List.map_eq_cons_iff.1 hlook
    rw [← kind_of_look hopening', ← kind_of_look hclosing'] at hclosing
    exact .group hclosing (ih hinner) (ih' hmore)

/-! ## Sources -/

/-- What may stand outside of all brackets in a source, if that has no functions and no classes. -/
def isSourcePart (kind : Kind) : Bool :=
  kind != .kwFunction && kind != .kwClass && kind != .semicolon

theorem continues_isSourcePart : Continues false isSourcePart := by
  intro kind h hclose heof
  simp_all [isSourcePart, stopsExpression]

/-- `from` and an expression on one line that is no string. -/
inductive FromExpression : List Token → Prop
  | mk {t : Token} {ts : List Token} : t.isWord "from" = true → Matched isSourcePart ts → ts ≠ [] →
      (∀ u ∈ ts.head?, u.kind ≠ .string) → (∀ u ∈ ts, u.newlineBefore = false) →
      FromExpression (t :: ts)

/-- A token that goes on with a line, and with which no function and no class starts. -/
def isInline (t : Token) : Bool :=
  !t.newlineBefore && t.kind != .kwFunction && t.kind != .kwClass

section
variable {s s' : Tokens} {ts us : List Token} {st : Statement} {t : Token}

theorem all_isInline_of_looks (h : us.map look = ts.map look) : us.all isInline = ts.all isInline := by
  have hinline : isInline = (fun l => !l.2.1 && l.1 != .kwFunction && l.1 != .kwClass) ∘ look := rfl
  rw [hinline, ← List.all_map, ← List.all_map, h]

theorem Tokens.Reaches.exists_rest (h : s.Reaches s') : ∃ ts, s.rest = ts ++ s'.rest := by
  induction h with
  | refl => exact ⟨[], rfl⟩
  | step hr _ _ ih =>
    obtain ⟨ts, hts⟩ := ih
    exact ⟨_ :: ts, hr.trans (congrArg _ hts)⟩

theorem skipPart_over (hstop : stopsExpression false s.current.kind = false)
    (h : skipPart s = .ok () s') :
    ∃ t ts, s.rest = t :: (ts ++ s'.rest) ∧ (isInline t = true → Matched isSourcePart (t :: ts)) := by
  have hend : s.atEnd = false := by
    simp only [stopsExpression, Bool.or_eq_false_iff] at hstop
    exact hstop.1.1.1
  obtain ⟨us, hus⟩ := (forward_skipPart.ok h).exists_rest
  have hlt := skipPart_left hend h
  cases us with
  | nil => simp [left, hus] at hlt
  | cons t ts =>
    refine ⟨t, ts, hus, fun hplain => ?_⟩
    have heof : t.kind ≠ .eof := by simpa [atEnd, current_of_rest hus] using hend
    rw [skipPart, current_of_rest hus] at h
    rw [current_of_rest hus] at hstop
    simp only [isInline, Bool.and_eq_true, bne_iff_ne] at hplain
    by_cases hopen : t.kind.isOpen = true
    · have hskip : skipBalanced s = .ok () s' := by cases hk : t.kind <;> simp_all [Kind.isOpen]
      obtain ⟨group, rest, hs, hgroup⟩ := exists_isGroup_of_skipBalanced hskip
      rw [skipBalanced_of_isGroup hs hgroup] at hskip
      cases hskip
      obtain rfl : t :: ts = group := List.append_cancel_right (hus.symm.trans hs)
      obtain ⟨opening, inner, closing, heq, hclosing, hinner⟩ := hgroup
      rw [heq]
      exact .group hclosing hinner .nil
    · have hskip : s' = s.advance := by
        cases hk : t.kind <;> simp_all [Kind.isOpen, skip]
      rw [advance_of_rest hus heof] at hskip
      obtain rfl : ts = [] := List.self_eq_append_left.1 (congrArg Tokens.rest hskip)
      simp only [stopsExpression, Bool.or_eq_false_iff, beq_eq_false_iff_ne] at hstop
      refine .plain (Bool.eq_false_iff.2 hopen) hstop.2 heof ?_ .nil
      simp [isSourcePart, hplain.1.2, hplain.2, hstop.1.1.2]

theorem skipExpressionRest_over (h : skipExpressionRest false s = .ok () s') :
    ∃ ts, s.rest = ts ++ s'.rest ∧ (ts.all isInline = true → Matched isSourcePart ts) := by
  fun_induction skipExpressionRest false s with
  | case1 =>
    cases h
    exact ⟨[], rfl, fun _ => .nil⟩
  | case2 => cases h
  | case3 s hstop s1 hpart _ ih =>
    rw [Bool.not_eq_true, Bool.or_eq_false_iff] at hstop
    obtain ⟨t, ts, hts, hmatched⟩ := skipPart_over hstop.1 hpart
    obtain ⟨more, hmore, hmatched'⟩ := ih h
    refine ⟨t :: ts ++ more, by simp [hts, hmore], fun hplain => ?_⟩
    rw [List.all_append, Bool.and_eq_true] at hplain
    exact (hmatched (List.all_eq_true.1 hplain.1 t (by simp))).append (hmatched' hplain.2)

/-- A source that is no string is an expression. -/
theorem moduleSource_over_dynamic (h : moduleSource s = .ok .dynamic s') :
    s.current.kind ≠ .string ∧ ∃ t ts, s.rest = t :: (ts ++ s'.rest) ∧
      ((t :: ts).all isInline = true → Matched isSourcePart (t :: ts)) := by
  obtain ⟨t, s1, h1, h⟩ := bind_eq_ok.1 h
  cases h1
  have hexpr : s.current.kind ≠ .string ∧ skipExpression false s = .ok () s' := by
    cases hk : s.current.kind <;> simp only [hk] at h
    case string =>
      obtain ⟨_, _, -, h⟩ := bind_eq_ok.1 h
      obtain ⟨_, _, -, h⟩ := bind_eq_ok.1 h
      cases h
    case eof => cases h
    all_goals
      obtain ⟨⟨⟩, s1, h1, h⟩ := bind_eq_ok.1 h
      cases h
      exact ⟨by simp, h1⟩
  refine ⟨hexpr.1, ?_⟩
  obtain ⟨-, h⟩ := hexpr
  unfold skipExpression at h
  split at h
  · cases h
  · rename_i hstop
    split at h
    · cases h
    · rename_i s1 hpart
      obtain ⟨t, ts, hts, hmatched⟩ := skipPart_over (by simpa using hstop) hpart
      obtain ⟨more, hmore, hmatched'⟩ := skipExpressionRest_over h
      refine ⟨t, ts ++ more, by simp [hts, hmore], fun hplain => ?_⟩
      rw [← List.cons_append, List.all_append, Bool.and_eq_true] at hplain
      exact (hmatched (List.all_eq_true.1 hplain.1 t (by simp))).append (hmatched' hplain.2)

theorem fromClause_over_dynamic (h : fromClause s = .ok .dynamic s') :
    ∃ t ts, s.rest = t :: (ts ++ s'.rest) ∧ (ts.all isInline = true → FromExpression (t :: ts)) := by
  obtain ⟨⟨⟩, s1, h1, h⟩ := bind_eq_ok.1 h
  obtain ⟨hword, hover⟩ := word_over h1
  obtain ⟨hstring, t, ts, hts, hmatched⟩ := moduleSource_over_dynamic h
  refine ⟨_, t :: ts, by rw [hover.rest, hts]; rfl, fun hplain => ?_⟩
  refine .mk hword (hmatched hplain) (by simp) ?_ fun u hu => ?_
  · simpa [current_of_rest hts] using hstring
  · have hu := List.all_eq_true.1 hplain u hu
    simp only [isInline, Bool.and_eq_true, Bool.not_eq_true'] at hu
    exact hu.1.1

theorem takes_fromExpression (h : FromExpression us) {semi : Token} (hsemi : semi.kind = .semicolon)
    (rest : List Token) : Takes fromClause us (semi :: rest) .dynamic := by
  obtain ⟨hword, hmatched, hne, hstring, hline⟩ := h
  refine (takes_word hword _).bind_cons ?_
  have hstop : stopsExpression false semi.kind = true := by rw [hsemi]; rfl
  have hexpr := (takes_skipExpression hmatched continues_isSourcePart hne hline hstop rest).bind_pure
    fun _ => ModuleSource.dynamic
  obtain ⟨t, ts, rfl⟩ := List.exists_cons_of_ne_nil hne
  refine (takes_peek t _).bind_nil ?_
  have heof := hmatched.kind_ne_eof t (by simp)
  have hstring : t.kind ≠ .string := hstring t rfl
  cases hk : t.kind
  case string => exact absurd hk hstring
  case eof => exact absurd hk heof
  all_goals exact hexpr

theorem FromExpression.recurs (h : FromExpression ts) (hlook : us.map look = ts.map look) :
    FromExpression us := by
  obtain ⟨hword, hmatched, hne, hstring, hline⟩ := h
  obtain ⟨t', us, rfl, ht', hlook⟩ := List.map_eq_cons_iff.1 hlook
  refine .mk ((isWord_of_look ht' _).trans hword) (hmatched.recurs hlook) ?_ ?_ ?_
  · rintro rfl
    exact hne (List.map_eq_nil_iff.1 hlook.symm)
  · intro u hu
    obtain ⟨us, rfl⟩ := List.head?_eq_some_iff.1 hu
    obtain ⟨v, vs, rfl, hv, -⟩ := List.map_eq_cons_iff.1 hlook.symm
    rw [← kind_of_look hv]
    exact hstring v rfl
  · have hflags := congrArg (List.map (·.2.1)) hlook
    rw [List.map_map, List.map_map] at hflags
    intro u hu
    obtain ⟨v, hv, heq⟩ := List.mem_map.1 (hflags ▸ List.mem_map_of_mem hu)
    exact heq.symm.trans (hline v hv)

/-! ## Items -/

/-- **What stands in front of the source** of an item. -/
inductive ItemHead : List Token → Prop
  | importNames {first : Token} {ts : List Token} {specifiers : List ImportSpecifier} :
      first.kind = .kwImport → ImportNames ts specifiers → ItemHead (first :: ts)
  | exportNames {first : Token} {ts : List Token} {specifiers : List ExportSpecifier} :
      first.kind = .kwExport → InBraces ExportElement ts specifiers → ItemHead (first :: ts)
  | exportAll {first : Token} {ts : List Token} {asName : Option ExportName} :
      first.kind = .kwExport → StarHead ts asName → ItemHead (first :: ts)

theorem ItemHead.recurs {t' : Token} (h : ItemHead (t :: ts)) (ht : t'.kind = t.kind)
    (hlook : us.map look = ts.map look) : ItemHead (t' :: us) := by
  cases h with
  | importNames hfirst hnames =>
    obtain ⟨a', hnames'⟩ := recurs_importNames hnames hlook
    exact .importNames (ht.trans hfirst) hnames'
  | exportNames hfirst hbraces =>
    obtain ⟨a', hbraces'⟩ := recurs_inBraces recurs_exportElement hbraces hlook
    exact .exportNames (ht.trans hfirst) hbraces'
  | exportAll hfirst hhead =>
    obtain ⟨a', hhead'⟩ := recurs_starHead hhead hlook
    exact .exportAll (ht.trans hfirst) hhead'

theorem Matched.getLast? {outer : Kind → Bool} (h : Matched outer ts) (ht : ts.getLast? = some t) :
    outer t.kind = true ∨ t.kind.isClose = true := by
  induction h with
  | nil => cases ht
  | @plain _ u rest _ _ _ hkind _ ih =>
    rw [List.getLast?_cons] at ht
    cases hrest : rest.getLast? <;> rw [hrest] at ht <;> cases ht
    · exact .inl hkind
    · exact ih hrest
  | @group _ opening closing inner rest hclosing _ _ _ ih =>
    rw [← List.cons_append, List.getLast?_append, List.getLast?_cons, Option.some_or] at ht
    cases hrest : rest.getLast? <;> rw [hrest] at ht <;> cases ht
    · exact .inr (closing?_eq_some hclosing).2
    · exact ih hrest

/-- An item is made of what stands in front of its source, the source, and perhaps a semicolon. -/
theorem exists_itemHead (h : moduleItem s = .ok st s') (hdynamic : st.isDynamic = true) :
    ∃ ts s1 s2 semi, ItemHead ts ∧ s.Over ts s1 ∧ fromClause s1 = .ok .dynamic s2 ∧
      OptionalSemicolon semi ∧ s2.Over semi s' := by
  obtain ⟨t, s1, h1, h⟩ := bind_eq_ok.1 h
  cases h1
  split at h
  · obtain ⟨⟨specifiers, literal | _, span⟩, h1, rfl⟩ := map_eq_ok.1 h
    · cases hdynamic
    rcases importDecl_over h1 with ⟨-, first, s1, s2, semi, -, -, hkind, hsource, -⟩ |
      ⟨first, ts, s1, s2, semi, hfirst, hnames, hover, hsource, hsemi, hover'⟩
    · exact absurd hkind (moduleSource_over_dynamic hsource).1
    · exact ⟨_, s1, s2, semi, .importNames hfirst hnames, hover, hsource, hsemi, hover'⟩
  · obtain ⟨first, s1, hfirst, hover, h | h | ⟨decl, rfl⟩ | ⟨decl, rfl⟩⟩ := exportItem_over h
    · obtain ⟨ts, asName, literal | _, s2, s3, semi, hhead, hover1, hsource, hsemi, hover2, rfl⟩ :=
        exportAll_over h
      · cases hdynamic
      exact ⟨_, s2, s3, semi, .exportAll hfirst hhead, hover.trans hover1, hsource, hsemi, hover2⟩
    · obtain ⟨ts, specifiers, _ | literal | _, s2, s3, semi, hbraces, hover1, hsource, hsemi, hover2,
        rfl⟩ := exportNamed_over h
      · cases hdynamic
      · cases hdynamic
      rcases optionalFrom_over hsource with ⟨hsome, -⟩ | ⟨m, hsome, hsource⟩ <;> cases hsome
      exact ⟨_, s2, s3, semi, .exportNames hfirst hbraces, hover.trans hover1, hsource, hsemi, hover2⟩
    all_goals cases hdynamic

/-- **An item from an expression on one line that a semicolon ends** is in the grammar. -/
theorem moduleItem_over {w : List Token} (h : moduleItem s = .ok st s')
    (hdynamic : st.isDynamic = true) (hs : s.rest = t :: (w ++ s'.rest))
    (hplain : w.all isInline = true) (hlast : (t :: w).getLast?.map (·.kind) = some .semicolon) :
    ∃ ts us semi, w = ts ++ us ++ [semi] ∧ ItemHead (t :: ts) ∧ FromExpression us ∧
      semi.kind = .semicolon := by
  obtain ⟨ts, s1, s2, semi, hhead, hover, hsource, hsemi, hover'⟩ := exists_itemHead h hdynamic
  obtain ⟨next, us, hus, hfrom⟩ := fromClause_over_dynamic hsource
  obtain ⟨first, ts, rfl⟩ : ∃ first ts', ts = first :: ts' := by cases hhead <;> exact ⟨_, _, rfl⟩
  rw [hover.rest, hus, hover'.rest, List.cons_append] at hs
  obtain ⟨rfl, hw⟩ := List.cons.inj hs
  obtain rfl : ts ++ next :: us ++ semi = w :=
    List.append_cancel_right (by simpa only [List.append_assoc, List.cons_append] using hw)
  simp only [List.all_append, Bool.and_eq_true, List.all_cons] at hplain
  have hfrom := hfrom hplain.1.2.2
  cases hsemi with
  | none =>
    -- The expression would end with the semicolon.
    exfalso
    obtain ⟨-, hmatched, hne, -⟩ := hfrom
    obtain ⟨v, hv⟩ := Option.ne_none_iff_exists'.1 (mt List.getLast?_eq_none_iff.1 hne)
    rw [List.append_nil, ← List.cons_append, List.getLast?_append, List.getLast?_cons, hv] at hlast
    have hkind : v.kind = .semicolon := Option.some.inj hlast
    rcases hmatched.getLast? hv with h | h <;> rw [hkind] at h <;> cases h
  | @semicolon semi hsemi => exact ⟨ts, next :: us, semi, rfl, hhead, hfrom, hsemi⟩

/-- **What is in the grammar is read**, up to its semicolon. -/
theorem moduleItem_takes (hhead : ItemHead ts) (hfrom : FromExpression us) {semi : Token}
    (hsemi : semi.kind = .semicolon) (rest : List Token) (before : Option Token) :
    ∃ st, moduleItem ⟨before, ts ++ us ++ semi :: rest⟩ = .ok st ⟨some semi, rest⟩ ∧
      st.isDynamic = true := by
  have hadvance (before : Option Token) :
      advanceIf .semicolon ⟨before, semi :: rest⟩ = ⟨some semi, rest⟩ := by
    rw [advanceIf, check_cons (by decide), if_pos (by simpa using hsemi),
      advance_cons (by simp [hsemi])]
  have hsource := takes_fromExpression hfrom hsemi rest
  obtain ⟨next, us, rfl, hword⟩ : ∃ next us', us = next :: us' ∧ next.isWord "from" = true := by
    obtain ⟨hword, -⟩ := hfrom
    exact ⟨_, _, rfl, hword⟩
  have hexport {first : Token} {ts : List Token} (hfirst : first.kind = .kwExport)
      (h : TakesStatement exportItem (fun st => some st.isDynamic) (first :: ts) (semi :: rest) true) :
      ∃ st, moduleItem ⟨before, first :: ts ++ semi :: rest⟩ = .ok st ⟨some semi, rest⟩ ∧
        st.isDynamic = true := by
    obtain ⟨st, hst, hdynamic⟩ := h before
    rw [hadvance] at hst
    refine ⟨st, bind_eq_ok.2 ⟨first, _, rfl, ?_⟩, Option.some.inj hdynamic⟩
    rwa [if_neg (by simp [hfirst])]
  cases hhead with
  | @importNames first ts specifiers hfirst hnames =>
    have htakes : TakesStatement importDecl (fun decl => some (Statement.importFrom decl).isDynamic)
        (first :: (ts ++ next :: us)) (semi :: rest) true :=
      takesStatement_importNames hfirst hnames (kind_of_isWord hword) hsource fun _ => rfl
    obtain ⟨decl, hdecl, hdynamic⟩ := htakes before
    rw [hadvance] at hdecl
    refine ⟨.importFrom decl, bind_eq_ok.2 ⟨first, _, rfl, ?_⟩, Option.some.inj hdynamic⟩
    rw [if_pos (by simp [hfirst])]
    exact map_eq_ok.2 ⟨decl, hdecl, rfl⟩
  | exportNames hfirst hbraces =>
    exact hexport hfirst (takesStatement_exportNamed hfirst hbraces
      (takes_optionalFrom hword hsource) fun _ => rfl)
  | exportAll hfirst hhead =>
    exact hexport hfirst (takesStatement_exportAll hfirst hhead hword hsource fun _ => rfl)

/-- **An item that is left alone is the first of the items** in front of other tokens. -/
theorem itemsFrom_again {t' : Token} {w w' u' : List Token} (hat : atModuleItem s = true)
    (h : moduleItem s = .ok st s') (hdynamic : st.isDynamic = true)
    (hs : s.rest = t :: (w ++ s'.rest)) (hplain : w.all isInline = true)
    (hlast : (t :: w).getLast?.map (·.kind) = some .semicolon) (hkind : t'.kind = t.kind)
    (hlook : w'.map look = w.map look) (before : Option Token) :
    ∃ start st' stop before', st'.isDynamic = true ∧
      itemsFrom 0 ⟨before, t' :: (w' ++ u')⟩ = .found start st' stop :: itemsFrom 0 ⟨before', u'⟩ := by
  have hat' : atModuleItem ⟨before, t' :: (w' ++ u')⟩ = true := by
    rw [atModuleItem_eq, current_of_rest hs, kindAt?_one hs] at hat
    rw [atModuleItem_eq, current_of_rest rfl, kindAt?_one rfl, hkind]
    cases w with
    | nil =>
      rw [show t.kind = .semicolon from Option.some.inj hlast] at hat
      cases hat
    | cons v w =>
      obtain ⟨v', w', rfl, hv, -⟩ := List.map_eq_cons_iff.1 hlook
      rw [List.cons_append, List.map_cons, List.head?_cons] at hat ⊢
      rwa [kind_of_look hv]
  have hend : Tokens.atEnd ⟨before, t' :: (w' ++ u')⟩ = false := by
    rw [atModuleItem_eq] at hat'
    rcases opensItem_eq_true hat' with hk | hk <;> rw [atEnd, hk] <;> rfl
  obtain ⟨ts, us, semi, rfl, hhead, hfrom, hsemi⟩ := moduleItem_over h hdynamic hs hplain hlast
  rw [List.map_append, List.map_append] at hlook
  obtain ⟨_, _, rfl, hlook, hlook'⟩ := List.map_eq_append_iff.1 hlook
  obtain ⟨ts', us', rfl, hts, hus⟩ := List.map_eq_append_iff.1 hlook
  obtain ⟨semi', rfl, hsemi'⟩ := List.map_eq_singleton_iff.1 hlook'
  obtain ⟨st', h', hdynamic'⟩ := moduleItem_takes (hhead.recurs hkind hts) (hfrom.recurs hus)
    ((kind_of_look hsemi').trans hsemi) u' before
  refine ⟨t'.span.start, st', semi'.span.stop, some semi', hdynamic', ?_⟩
  have hlist : t' :: (ts' ++ us' ++ [semi'] ++ u') = t' :: ts' ++ us' ++ semi' :: u' := by simp
  rw [itemsFrom_eq, hend, if_neg (by simp), hat', hlist, h']
  rfl

end

end ModuleForge.Grammar
