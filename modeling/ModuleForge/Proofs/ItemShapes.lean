import ModuleForge.Proofs.QuickLook
import ModuleForge.Proofs.Relex
import ModuleForge.Proofs.Rounds

/-!
# The shapes of module items

What is kept of a module item is a run of its tokens: a declaration runs from behind the keywords of
the export to the end of the item, an expression up to the semicolon.

- `Settled`: no word follows a point.
- `settles_moduleItem`: every module item ends so, since an expression goes on behind a point.
- `Shape`: the places in the tokens of an item where what is kept of it starts and ends.
- `moduleItem_shape`: the shape of every module item.
-/

namespace ModuleForge.Grammar

open Token (Kind)
open Tokens

/-! ## Where a step ends -/

namespace Tokens

/-- The kind of the token that was read last. -/
def lastKind (s : Tokens) : Option Kind :=
  s.before.map (·.kind)

/-- No word follows a point. -/
def Settled (s : Tokens) : Prop :=
  Token.isPoint s.lastKind = true → s.current.kind.isOfWord = false

theorem settled_of_lastKind {s : Tokens} (h : Token.isPoint s.lastKind = false) : s.Settled := by
  intro hpoint
  rw [h] at hpoint
  cases hpoint

theorem settled_of_check {s : Tokens} {kind : Kind} (h : s.check kind = true)
    (hk : kind.isOfWord = false) : s.Settled := by
  obtain ⟨t, rest, hrest, rfl, -⟩ := check_eq_true h
  intro _
  rwa [current_of_rest hrest]

end Tokens

/-- Wherever a step ends, no word follows a point. -/
abbrev Settles {α : Type} (p : Parse α) : Prop :=
  Gives (fun _ s' => s'.Settled) p

section
variable {s s' s0 : Tokens} {st : Statement} {α β : Type} {u : Unit} {keywordEnd : Nat}

theorem consume_lastKind {kind : Kind} {t : Token} (h : consume kind s = .ok t s') :
    s'.lastKind = some kind := by
  obtain ⟨rest, -, hkind, -, rfl⟩ := consume_eq_ok h
  exact congrArg some hkind

theorem settles_consume {kind : Kind} (hk : Token.isPoint (some kind) = false) :
    Settles (consume kind) := by
  intro s t s' h
  refine settled_of_lastKind ?_
  rw [consume_lastKind h, hk]

theorem advance_lastKind {kind : Kind} (h : s.check kind = true) : s.advance.lastKind = some kind := by
  obtain ⟨t, rest, hrest, hk, heof⟩ := check_eq_true h
  rw [advance_of_rest hrest heof]
  exact congrArg some hk

theorem optionalSemicolon_eq_ok (h : optionalSemicolon s = .ok u s') :
    (s.check .semicolon = true ∧ s' = s.advance) ∨ s' = s := by
  obtain ⟨b, s1, h1, h2⟩ := bind_eq_ok.1 h
  cases h2
  rcases optional_eq_ok h1 with ⟨-, hcheck, rfl⟩ | ⟨-, rfl⟩
  · exact .inl ⟨hcheck, rfl⟩
  · exact .inr rfl

theorem Tokens.Settled.optionalSemicolon (hs : s.Settled) (h : optionalSemicolon s = .ok u s') :
    s'.Settled := by
  rcases optionalSemicolon_eq_ok h with ⟨hcheck, rfl⟩ | rfl
  · refine settled_of_lastKind ?_
    rw [advance_lastKind hcheck]
    rfl
  · exact hs

theorem Settles.close {p : Parse α} (hp : Settles p) (f : α → Nat → β) :
    Settles (do
      let a ← p
      optionalSemicolon
      let stop ← lastEnd
      pure (f a stop)) := by
  intro s b s' h
  obtain ⟨a, s1, h1, h⟩ := bind_eq_ok.1 h
  obtain ⟨⟨⟩, s2, h2, h⟩ := bind_eq_ok.1 h
  cases h
  exact (hp h1).optionalSemicolon h2

/-! ## Brackets, functions and classes -/

theorem closeBrackets_lastKind {opened : Span} {due : List Kind} {before : Option Token}
    {rest : List Token} (h : closeBrackets opened due before rest = .ok () s')
    (hbefore : due = [] → (before.map (·.kind)).any (·.isClose) = true) :
    s'.lastKind.any (·.isClose) = true := by
  fun_induction closeBrackets opened due before rest with
  | case1 => cases h; exact hbefore rfl
  | case2 => cases h
  | case3 => cases h
  | case4 => rename_i ih; exact ih h (by simp)
  | case5 wanted due before t rest _ _ hclose _ ih => exact ih h fun _ => hclose
  | case6 => cases h
  | case7 => rename_i ih; exact ih h (by simp)

/-- A step ends behind a closing bracket. -/
abbrev Closes {α : Type} (p : Parse α) : Prop :=
  Gives (fun _ s' => s'.lastKind.any (·.isClose) = true) p

theorem closes_skipBalanced : Closes skipBalanced := by
  intro s u s' h
  unfold skipBalanced at h
  split at h
  · cases h
  · exact closeBrackets_lastKind h nofun

theorem bracketed_eq_ok {opening : Kind} (h : bracketed opening s = .ok u s') :
    s.check opening = true ∧ skipBalanced s = .ok u s' := by
  unfold bracketed at h
  split at h
  · exact ⟨‹_›, h⟩
  · cases h

theorem closes_bracketed (opening : Kind) : Closes (bracketed opening) :=
  fun _ _ _ h => closes_skipBalanced (bracketed_eq_ok h).2

theorem Closes.pure_bind {p : Parse α} (hp : Closes p) (f : α → β) :
    Closes (do
      let a ← p
      pure (f a)) := by
  intro s b s' h
  obtain ⟨a, s1, h1, h2⟩ := bind_eq_ok.1 h
  cases h2
  exact hp h1

theorem closes_skipFunction : Closes skipFunction :=
  .bind fun _ => .bind fun _ => .bind fun _ => .bind fun _ => (closes_bracketed _).pure_bind _

theorem closes_skipClass : Closes skipClass :=
  .bind fun _ => .bind fun _ => .bind fun _ => (closes_bracketed _).pure_bind _

theorem closes_hoistable : Closes hoistable := by
  refine .bind fun _ => .bind fun t => ?_
  split
  · exact closes_skipFunction.pure_bind _
  · exact closes_skipClass.pure_bind _
  · exact gives_fail _

theorem isPoint_of_isClose (h : s.lastKind.any (·.isClose) = true) :
    Token.isPoint s.lastKind = false := by
  obtain ⟨kind, hkind, hclose⟩ := (Option.any_eq_true _ _).1 h
  rw [hkind]
  cases kind <;> first | rfl | cases hclose

theorem settled_of_isClose (h : s.lastKind.any (·.isClose) = true) : s.Settled :=
  settled_of_lastKind (isPoint_of_isClose h)

/-! ## Expressions -/

theorem isOfWord_of_stopsExpression {stopAtComma : Bool} {kind : Kind}
    (h : stopsExpression stopAtComma kind = true) : kind.isOfWord = false := by
  cases kind <;> first | rfl | (cases stopAtComma <;> cases h)

theorem isPoint_of_endsExpression {kind : Kind} (h : kind.endsExpression = true) :
    Token.isPoint (some kind) = false := by
  cases kind <;> first | rfl | cases h

/-- An expression does not end behind a point unless something closes it. -/
theorem settles_skipExpressionRest (stopAtComma : Bool) :
    Settles (skipExpressionRest stopAtComma) := by
  intro s u s' h
  fun_induction skipExpressionRest stopAtComma s with
  | case1 s hstop =>
    cases h
    rcases Bool.or_eq_true_iff.1 hstop with hstop | hbreak
    · exact fun _ => isOfWord_of_stopsExpression hstop
    · simp only [breaksHere, Bool.and_eq_true] at hbreak
      obtain ⟨t, ht, hends⟩ := (Option.any_eq_true _ _).1 hbreak.1.2
      refine settled_of_lastKind ?_
      rw [lastKind, ht]
      exact isPoint_of_endsExpression hends
  | case2 => cases h
  | case3 => rename_i ih; exact ih h

theorem settles_skipExpression (stopAtComma : Bool) : Settles (skipExpression stopAtComma) := by
  intro s u s' h
  unfold skipExpression at h
  split at h
  · cases h
  · split at h
    · cases h
    · exact settles_skipExpressionRest stopAtComma h

/-! ## Patterns -/

theorem Tokens.Settled.optionalDefault (hs : s.Settled) (h : optionalDefault s = .ok u s') :
    s'.Settled := by
  obtain ⟨b, s1, h1, h2⟩ := bind_eq_ok.1 h
  rcases optional_eq_ok h1 with ⟨rfl, -, -⟩ | ⟨rfl, rfl⟩
  · exact settles_skipExpression true h2
  · cases h2
    exact hs

theorem settles_separator {closing : Kind} (hk : closing.isOfWord = false) :
    Settles (separator closing) := by
  intro s u s' h
  rcases separator_eq_ok h with ⟨hclosing, rfl⟩ | ⟨comma, hcomma⟩
  · exact settled_of_check hclosing hk
  · exact settles_consume rfl hcomma

theorem settles_closing {closing : Kind} (hk : Token.isPoint (some closing) = false) (a : α) :
    Settles (consume closing *> pure a) := by
  intro s b s' h
  obtain ⟨t, s1, h1, h⟩ := seqRight_eq_ok.1 h
  cases h
  exact settles_consume hk h1

theorem mapOk_eq_ok {f : α → β} {r : Result α} {b : β} (h : mapOk f r = .ok b s') :
    ∃ a, r = .ok a s' := by
  cases r with
  | ok a s1 => cases h; exact ⟨a, rfl⟩
  | error => cases h

theorem settles_tail {closing : Kind} (hk : closing.isOfWord = false) :
    Settles (do
      optionalDefault
      separator closing) :=
  .bind fun _ => settles_separator hk

theorem objectPattern_settled (s : Tokens) {names : List Name}
    (h : objectPattern s = .ok names s') : s'.Settled := by
  rw [objectPattern] at h
  split at h
  · exact settles_closing rfl _ h
  split at h
  · cases h
  · rename_i start s1 _
    dsimp only at h
    split at h
    · cases h
    · rename_i s2 _
      split at h
      · cases h
      · rename_i s3 h3
        split at h
        · obtain ⟨more, h4⟩ := mapOk_eq_ok h
          exact objectPattern_settled s3 h4
        · cases h
          cases start with
          | restTarget => exact settles_separator rfl h3
          | _ => exact settles_tail rfl h3
termination_by s.left

theorem arrayPattern_settled (s : Tokens) {names : List Name}
    (h : arrayPattern s = .ok names s') : s'.Settled := by
  have htail := Gives.ite (c := s.check .ellipsis = true)
    (@settles_separator .rbracket rfl) (@settles_tail .rbracket rfl)
  rw [arrayPattern] at h
  split at h
  · exact settles_closing rfl _ h
  split at h
  · rename_i hcomma
    have hlt : s.advance.left < s.left := Tokens.left_advance_lt (Tokens.atEnd_of_check hcomma)
    exact arrayPattern_settled s.advance h
  · split at h
    · cases h
    · rename_i s1 _
      dsimp only at h
      split at h
      · cases h
      · rename_i s2 h2
        split at h
        · obtain ⟨more, h3⟩ := mapOk_eq_ok h
          exact arrayPattern_settled s2 h3
        · cases h
          exact htail h2
termination_by s.left

theorem settles_bindingPattern : Settles bindingPattern := by
  intro s names s' h
  rw [bindingPattern] at h
  split at h
  · cases h
  · split at h
    · rename_i hk
      cases h
      refine settled_of_lastKind ?_
      rw [lastKind, Option.map_some, hk]
      rfl
    · exact objectPattern_settled _ h
    · exact arrayPattern_settled _ h
    · cases h

theorem settles_declarators : Settles declarators := by
  intro s names s' h
  fun_induction declarators s generalizing names s' with
  | case1 => cases h
  | case2 => cases h
  | case3 s names s1 h1 s2 h2 _ _ ih =>
    obtain ⟨more, h3⟩ := mapOk_eq_ok h
    exact ih h3
  | case4 s names s1 h1 s2 h2 hcomma =>
    cases h
    refine settled_of_lastKind ?_
    rw [advance_lastKind hcomma]
    rfl
  | case5 s names s1 h1 s2 h2 =>
    cases h
    exact (settles_bindingPattern h1).optionalDefault h2

/-! ## Sources and lists -/

theorem settles_moduleSource : Settles moduleSource := by
  intro s source s' h
  obtain ⟨t, s1, h1, hrest⟩ := bind_eq_ok.1 h
  cases h1
  cases hk : s.current.kind <;> simp only [hk] at hrest
  case string =>
    obtain ⟨⟨⟩, s2, h2, hrest⟩ := bind_eq_ok.1 hrest
    obtain ⟨⟨⟩, s3, h3, hpure⟩ := bind_eq_ok.1 hrest
    cases hpure
    cases h2
    have hstring : s.check .string = true := by simp [check, atEnd, hk]
    unfold optionalAttributes at h3
    dsimp only at h3
    split at h3
    · exact settled_of_isClose (closes_skipBalanced h3)
    · cases h3
      refine settled_of_lastKind ?_
      rw [advance_lastKind hstring]
      rfl
  case eof => cases hrest
  all_goals
    obtain ⟨⟨⟩, s2, h2, hpure⟩ := bind_eq_ok.1 hrest
    cases hpure
    exact settles_skipExpression false h2

theorem settles_fromClause : Settles fromClause :=
  .bind fun _ => settles_moduleSource

theorem settles_elementsToBrace (element : Parse α) : Settles (elementsToBrace element) := by
  intro s as s' h
  fun_induction elementsToBrace element s generalizing as s' with
  | case1 => exact settles_closing rfl _ h
  | case2 => cases h
  | case3 => cases h
  | case4 s _ a s1 h1 s2 h2 _ ih =>
    obtain ⟨more, h3⟩ := mapOk_eq_ok h
    exact ih h3
  | case5 s _ a s1 h1 s2 h2 =>
    cases h
    exact settles_separator rfl h2

theorem settles_inBraces (element : Parse α) : Settles (inBraces element) :=
  .bind fun _ => settles_elementsToBrace element

theorem Tokens.Settled.optionalFrom {source : Option ModuleSource} (hs : s.Settled)
    (h : optionalFrom s = .ok source s') : s'.Settled := by
  obtain ⟨t, s1, h1, h2⟩ := bind_eq_ok.1 h
  cases h1
  split at h2
  · obtain ⟨source, h3, -⟩ := map_eq_ok.1 h2
    exact settles_fromClause h3
  · cases h2
    exact hs

/-! ## Items -/

theorem settles_importDecl : Settles importDecl := by
  refine .bind fun keyword => .bind fun t => ?_
  refine .ite (.bind fun specifiers => ?_) (.bind fun specifiers => ?_)
  · exact .ite (settles_moduleSource.close _) (settles_fromClause.close _)
  · exact .ite (settles_moduleSource.close _) (settles_fromClause.close _)

theorem settles_exportAll (start : Nat) : Settles (exportAll start) :=
  .bind fun _ => .bind fun _ => .ite (.bind fun _ => settles_fromClause.close _)
    (.bind fun _ => settles_fromClause.close _)

theorem settles_exportNamed (start : Nat) : Settles (exportNamed start) := by
  intro s st s' h
  obtain ⟨specifiers, s1, h1, h⟩ := bind_eq_ok.1 h
  obtain ⟨source, s2, h2, h⟩ := bind_eq_ok.1 h
  obtain ⟨⟨⟩, s3, h3, h⟩ := bind_eq_ok.1 h
  cases h
  exact ((settles_inBraces _ h1).optionalFrom h2).optionalSemicolon h3

theorem settles_exportVariables (start : Nat) : Settles (exportVariables start) :=
  .bind fun _ => .bind fun _ => settles_declarators.close _

theorem settles_exportHoistable (start : Nat) : Settles (exportHoistable start) := by
  refine .bind fun first => ?_
  intro s st s' h
  obtain ⟨⟨kind, name, keywordEnd⟩, s1, h1, h⟩ := bind_eq_ok.1 h
  cases name with
  | none => cases h
  | some name =>
    cases h
    exact settled_of_isClose (closes_hoistable h1)

theorem settles_exportDefault (start : Nat) : Settles (exportDefault start) := by
  refine .bind fun _ => .bind fun _ => .ite (.bind fun first => ?_) (.bind fun first => ?_)
  · intro s st s' h
    obtain ⟨found, s1, h1, h⟩ := bind_eq_ok.1 h
    cases h
    exact settled_of_isClose (closes_hoistable h1)
  · intro s st s' h
    obtain ⟨⟨⟩, s1, h1, hrest⟩ := bind_eq_ok.1 h
    obtain ⟨stop, s2, h2, hrest⟩ := bind_eq_ok.1 hrest
    obtain ⟨⟨⟩, s3, h3, hpure⟩ := bind_eq_ok.1 hrest
    cases hpure
    cases h2
    exact (settles_skipExpression false h1).optionalSemicolon h3

/-- **Where a module item ends, no word follows a point.** -/
theorem settles_moduleItem : Settles moduleItem := by
  refine .bind fun t => .ite ?_ (.bind fun keyword => .bind fun next => ?_)
  · intro s st s' h
    obtain ⟨decl, h1, -⟩ := map_eq_ok.1 h
    exact settles_importDecl h1
  · split
    · exact settles_exportAll _
    · exact settles_exportNamed _
    · exact settles_exportDefault _
    · exact settles_exportVariables _
    · exact settles_exportVariables _
    · exact settles_exportVariables _
    · exact settles_exportHoistable _
    · exact settles_exportHoistable _
    · exact settles_exportHoistable _
    · exact gives_fail _

/-! ## What is kept of an item -/

/-- The place `s1` is behind the keywords of an export that starts at `s`. -/
structure Opens (s s1 : Tokens) : Prop where
  reaches : s.Reaches s1
  lastKind : s1.lastKind = some .kwExport ∨ s1.lastKind = some .kwDefault

/-- The span covers the tokens from one place to the other, of which there is one at least. -/
structure Spans (span : Span) (s s' : Tokens) : Prop where
  reaches : s.Reaches s'
  left_lt : s'.left < s.left
  eq : span = ⟨s.current.span.start, s'.lastEnd⟩

/-- Behind the keyword of a function or class without name. -/
def AfterKeyword (s : Tokens) : Prop :=
  s.lastKind ∈ [some .kwFunction, some .star] ∧ s.current.kind = .lparen ∨
    s.lastKind = some .kwClass ∧ s.current.kind ∈ [Kind.lbrace, .kwExtends]

/-- **The shape of a module item** that was read from `s` to `s'`. A default declaration without name
is cut behind its keyword, where a parenthesis, a brace or `extends` follows. -/
inductive Shape (s s' : Tokens) : Statement → Prop
  | importFrom (decl : ImportDecl) : Shape s s' (.importFrom decl)
  | exportAll (decl : ExportAll) : Shape s s' (.exportAll decl)
  | exportNamed (decl : ExportNamed) : Shape s s' (.exportNamed decl)
  | exportDecl {decl : ExportDecl} {s1 : Tokens} : Opens s s1 → s1.current.kind.isOfWord = true →
      Spans decl.decl s1 s' → (decl.kind ≠ .var → Token.isPoint s'.lastKind = false) →
      Shape s s' (.exportDecl decl)
  | named {kind : DeclKind} {name : Name} {decl span : Span} {keywordEnd : Nat} {s1 : Tokens} :
      Opens s s1 → s1.current.kind.isOfWord = true → Spans decl s1 s' →
      Token.isPoint s'.lastKind = false → kind ≠ .var →
      Shape s s' (.exportDefault (.decl kind (some name) decl keywordEnd span))
  | unnamed {kind : DeclKind} {start stop keywordEnd : Nat} {span : Span} {s1 s2 : Tokens} :
      Opens s s1 → s1.current.kind.isOfWord = true → Spans ⟨start, keywordEnd⟩ s1 s2 →
      AfterKeyword s2 → s2.Reaches s' → s'.left < s2.left → stop = s'.lastEnd →
      Token.isPoint s'.lastKind = false → kind ≠ .var →
      Shape s s' (.exportDefault (.decl kind none ⟨start, stop⟩ keywordEnd span))
  | expr {e span : Span} {s1 s2 : Tokens} : Opens s s1 → s1.lastKind = some .kwDefault →
      Spans e s1 s2 → s2.Reaches s' → Shape s s' (.exportDefault (.expr e span))

theorem optionalIdentifier_none (h : optionalIdentifier s = .ok none s') : s' = s := by
  rcases optionalIdentifier_eq_ok h with ⟨-, rfl⟩ | ⟨t, rest, -, -, hname, -⟩
  · rfl
  · cases hname

theorem bracketed_current {opening : Kind} (h : bracketed opening s = .ok u s') :
    s.current.kind = opening := by
  obtain ⟨t, rest, hrest, hk, -⟩ := check_eq_true (bracketed_eq_ok h).1
  rwa [current_of_rest hrest]

/-- The place behind the keyword of a function or class without name. -/
structure Unnamed (s s2 s' : Tokens) (keywordEnd : Nat) : Prop where
  reaches : s.Reaches s2
  left_lt : s2.left < s.left
  keywordEnd : keywordEnd = s2.lastEnd
  keyword : AfterKeyword s2
  reaches' : s2.Reaches s'
  left_lt' : s'.left < s2.left

theorem skipFunction_unnamed (h : skipFunction s = .ok ⟨none, keywordEnd⟩ s') :
    ∃ s2, Unnamed s s2 s' keywordEnd := by
  obtain ⟨keyword, s1, h1, h⟩ := bind_eq_ok.1 h
  obtain ⟨stop, s2, h2, h⟩ := bind_eq_ok.1 h
  obtain ⟨name, s3, h3, h⟩ := bind_eq_ok.1 h
  obtain ⟨⟨⟩, s4, h4, h⟩ := bind_eq_ok.1 h
  obtain ⟨⟨⟩, s5, h5, h⟩ := bind_eq_ok.1 h
  cases h
  obtain rfl := optionalIdentifier_none h3
  have hlast : s1.lastKind = some .kwFunction := consume_lastKind h1
  have hend : keyword.span.stop = s1.lastEnd := by
    obtain ⟨rest, -, -, -, rfl⟩ := consume_eq_ok h1
    rfl
  have hlast' : s3.lastKind ∈ [some Kind.kwFunction, some .star] := by
    obtain ⟨b, s6, h6, h7⟩ := bind_eq_ok.1 h2
    rcases optional_eq_ok h6 with ⟨rfl, hcheck, rfl⟩ | ⟨rfl, rfl⟩
    · cases h7
      rw [advance_lastKind hcheck]
      simp
    · cases h7
      rw [hlast]
      simp
  exact ⟨s3, ((forward_consume _).ok h1).trans ((forward_optionalStar _).ok h2),
    Nat.lt_of_le_of_lt (keeps_optionalStar _ h2) (shortens_consume _ h1),
    optionalStar_eq_ok h2 hend, .inl ⟨hlast', bracketed_current h4⟩,
    ((forward_bracketed _).ok h4).trans ((forward_bracketed _).ok h5),
    Nat.lt_trans (shortens_bracketed _ h5) (shortens_bracketed _ h4)⟩

theorem skipClass_unnamed (h : skipClass s = .ok ⟨none, keywordEnd⟩ s') :
    ∃ s2, Unnamed s s2 s' keywordEnd := by
  obtain ⟨keyword, s1, h1, h⟩ := bind_eq_ok.1 h
  obtain ⟨name, s2, h2, h⟩ := bind_eq_ok.1 h
  obtain ⟨⟨⟩, s3, h3, h⟩ := bind_eq_ok.1 h
  obtain ⟨⟨⟩, s4, h4, h⟩ := bind_eq_ok.1 h
  cases h
  obtain rfl := optionalIdentifier_none h2
  have hcurrent : s2.current.kind ∈ [Kind.lbrace, .kwExtends] := by
    obtain ⟨b, s5, h5, h6⟩ := bind_eq_ok.1 h3
    rcases optional_eq_ok h5 with ⟨rfl, hcheck, -⟩ | ⟨rfl, rfl⟩
    · obtain ⟨t, rest, hrest, hk, -⟩ := check_eq_true hcheck
      simp [current_of_rest hrest, hk]
    · cases h6
      simp [bracketed_current h4]
  have hend : keyword.span.stop = s2.lastEnd := by
    obtain ⟨rest, -, -, -, rfl⟩ := consume_eq_ok h1
    rfl
  exact ⟨s2, (forward_consume _).ok h1, shortens_consume _ h1, hend,
    .inr ⟨consume_lastKind h1, hcurrent⟩,
    (forward_optionalHeritage.ok h3).trans ((forward_bracketed _).ok h4),
    Nat.lt_of_lt_of_le (shortens_bracketed _ h4) (keeps_optionalHeritage h3)⟩

theorem Unnamed.of_reaches {s2 : Tokens} (hr : s0.Reaches s) (h : Unnamed s s2 s' keywordEnd) :
    Unnamed s0 s2 s' keywordEnd :=
  { h with
    reaches := hr.trans h.reaches
    left_lt := Nat.lt_of_lt_of_le h.left_lt hr.left_le }

theorem hoistable_unnamed {kind : DeclKind} (h : hoistable s = .ok (kind, ⟨none, keywordEnd⟩) s') :
    ∃ s2, Unnamed s s2 s' keywordEnd := by
  obtain ⟨⟨⟩, s1, h1, h⟩ := bind_eq_ok.1 h
  obtain ⟨t, s2, h2, h⟩ := bind_eq_ok.1 h
  cases h2
  have hr := forward_optionalAsync.ok h1
  cases hk : s1.current.kind <;> simp only [hk] at h
  case kwFunction =>
    obtain ⟨skipped, s3, h3, h⟩ := bind_eq_ok.1 h
    cases h
    obtain ⟨s4, hunnamed⟩ := skipFunction_unnamed h3
    exact ⟨s4, hunnamed.of_reaches hr⟩
  case kwClass =>
    obtain ⟨skipped, s3, h3, h⟩ := bind_eq_ok.1 h
    cases h
    obtain ⟨s4, hunnamed⟩ := skipClass_unnamed h3
    exact ⟨s4, hunnamed.of_reaches hr⟩
  all_goals cases h

theorem hoistable_isOfWord {found : DeclKind × Skipped} (h : hoistable s = .ok found s') :
    s.current.kind.isOfWord = true := by
  obtain ⟨⟨⟩, s1, h1, h⟩ := bind_eq_ok.1 h
  obtain ⟨t, s2, h2, h⟩ := bind_eq_ok.1 h
  cases h2
  cases h1
  by_cases hasync : atAsyncFunction s = true
  · simp only [atAsyncFunction, Token.isWord, Bool.and_eq_true, beq_iff_eq] at hasync
    rw [hasync.1.1]
    rfl
  · rw [if_neg hasync] at h
    cases hk : s.current.kind <;> simp only [hk] at h <;> first | rfl | cases h

theorem hoistable_kind {kind : DeclKind} {skipped : Skipped}
    (h : hoistable s = .ok (kind, skipped) s') : kind ≠ .var := by
  refine (?_ : Gives (fun (found : DeclKind × Skipped) _ => found.1 ≠ .var) hoistable) h
  refine .bind fun _ => .bind fun t => ?_
  split
  · refine .bind fun skipped => ?_
    intro s found s' h
    cases h
    nofun
  · refine .bind fun skipped => ?_
    intro s found s' h
    cases h
    nofun
  · exact gives_fail _

theorem hoistable_spans {found : DeclKind × Skipped} (h : hoistable s = .ok found s') :
    Spans ⟨s.current.span.start, s'.lastEnd⟩ s s' :=
  ⟨forward_hoistable.ok h, shortens_hoistable h, rfl⟩

theorem exportDefault_shape {start : Nat} (hr : s0.Reaches s)
    (h : exportDefault start s = .ok st s') : Shape s0 s' st := by
  obtain ⟨keyword, s1, h1, h⟩ := bind_eq_ok.1 h
  obtain ⟨s2, s3, h2, h⟩ := bind_eq_ok.1 h
  cases h2
  have hlast : s1.lastKind = some .kwDefault := consume_lastKind h1
  have hopens : Opens s0 s1 := ⟨hr.trans ((forward_consume _).ok h1), .inr hlast⟩
  split at h
  · obtain ⟨first, s4, h4, h⟩ := bind_eq_ok.1 h
    obtain ⟨⟨kind, name, keywordEnd⟩, s5, h5, hpure⟩ := bind_eq_ok.1 h
    cases hpure
    cases h4
    cases name with
    | some name =>
      exact .named hopens (hoistable_isOfWord h5) (hoistable_spans h5)
        (isPoint_of_isClose (closes_hoistable h5)) (hoistable_kind h5)
    | none =>
      obtain ⟨s6, hunnamed⟩ := hoistable_unnamed h5
      exact .unnamed hopens (hoistable_isOfWord h5)
        ⟨hunnamed.reaches, hunnamed.left_lt, by rw [hunnamed.keywordEnd]⟩ hunnamed.keyword
        hunnamed.reaches' hunnamed.left_lt' rfl
        (isPoint_of_isClose (closes_hoistable h5)) (hoistable_kind h5)
  · obtain ⟨first, s4, h4, h⟩ := bind_eq_ok.1 h
    obtain ⟨⟨⟩, s5, h5, h⟩ := bind_eq_ok.1 h
    obtain ⟨stop, s6, h6, h⟩ := bind_eq_ok.1 h
    obtain ⟨⟨⟩, s7, h7, hpure⟩ := bind_eq_ok.1 h
    cases hpure
    cases h6
    cases h4
    exact .expr hopens hlast
      ⟨(forward_skipExpression _).ok h5, shortens_skipExpression _ h5, rfl⟩
      (forward_optionalSemicolon.ok h7)

theorem exportHoistable_shape {start : Nat} (hopens : Opens s0 s)
    (h : exportHoistable start s = .ok st s') : Shape s0 s' st := by
  obtain ⟨first, s1, h1, h⟩ := bind_eq_ok.1 h
  obtain ⟨⟨kind, name, keywordEnd⟩, s2, h2, hpure⟩ := bind_eq_ok.1 h
  cases name with
  | none => cases hpure
  | some name =>
    cases hpure
    cases h1
    exact .exportDecl hopens (hoistable_isOfWord h2) (hoistable_spans h2)
      fun _ => isPoint_of_isClose (closes_hoistable h2)

theorem exportVariables_shape {start : Nat} (hopens : Opens s0 s)
    (hword : s.current.kind.isOfWord = true) (h : exportVariables start s = .ok st s') :
    Shape s0 s' st := by
  obtain ⟨first, s1, h1, h⟩ := bind_eq_ok.1 h
  obtain ⟨⟨⟩, s2, h2, h⟩ := bind_eq_ok.1 h
  obtain ⟨names, s3, h3, h⟩ := bind_eq_ok.1 h
  obtain ⟨⟨⟩, s4, h4, hpure⟩ := bind_eq_ok.1 h
  cases hpure
  cases h1
  have hlt : s'.left < s.left :=
    Nat.lt_of_le_of_lt (keeps_optionalSemicolon h4)
      (Nat.lt_of_lt_of_le (shortens_declarators h3) (keeps_skip h2))
  exact .exportDecl hopens hword ⟨((forward_skip.ok h2).trans (forward_declarators.ok h3)).trans
    (forward_optionalSemicolon.ok h4), hlt, rfl⟩ fun hvar => absurd rfl hvar

/-- **Every module item has its shape.** -/
theorem moduleItem_shape (h : moduleItem s = .ok st s') : Shape s s' st := by
  obtain ⟨t, s1, h1, h⟩ := bind_eq_ok.1 h
  cases h1
  split at h
  · obtain ⟨decl, -, rfl⟩ := map_eq_ok.1 h
    exact .importFrom decl
  obtain ⟨keyword, s1, h1, h⟩ := bind_eq_ok.1 h
  obtain ⟨next, s2, h2, h⟩ := bind_eq_ok.1 h
  cases h2
  have hopens : Opens s s1 := ⟨(forward_consume _).ok h1, .inl (consume_lastKind h1)⟩
  cases hk : s1.current.kind <;> simp only [hk] at h
  case star =>
    obtain ⟨decl, rfl⟩ : ∃ decl, st = .exportAll decl := by
      refine (?_ : Gives (fun st _ => ∃ decl, st = .exportAll decl) _) h
      exact .bind fun _ => .bind fun _ => .ite
        (.bind fun _ => .bind fun _ => .bind fun _ => gives_lastEnd fun _ => ⟨_, rfl⟩)
        (.bind fun _ => .bind fun _ => .bind fun _ => gives_lastEnd fun _ => ⟨_, rfl⟩)
    exact .exportAll decl
  case lbrace =>
    obtain ⟨decl, rfl⟩ : ∃ decl, st = .exportNamed decl := by
      refine (?_ : Gives (fun st _ => ∃ decl, st = .exportNamed decl) _) h
      exact .bind fun _ => .bind fun _ => .bind fun _ => gives_lastEnd fun _ => ⟨_, rfl⟩
    exact .exportNamed decl
  case kwDefault => exact exportDefault_shape hopens.reaches h
  case kwVar | kwLet | kwConst => exact exportVariables_shape hopens (by rw [hk]; rfl) h
  case kwFunction | kwClass | identifier => exact exportHoistable_shape hopens h
  all_goals cases h

end

end ModuleForge.Grammar
