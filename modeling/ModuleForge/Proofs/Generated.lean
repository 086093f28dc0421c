import ModuleForge.CommonJs.Printer
import ModuleForge.Dependency
import ModuleForge.Proofs.Lexemes

/-!
# Generated statements, read back

A statement that takes nothing from the source is printed as lexemes. Read back, it loads the module
that it requires, if it requires one, and nothing else, whatever names and strings it holds.

- `print?_generated`, `wellSpaced_generated`: its text is that of lexemes which are well spaced.
- `callsFrom_generated`: its tokens are a call for the required module.
-/

namespace ModuleForge

open Token Lexeme

/-! ## The lexemes of a statement -/

namespace CommonJs

def requireLexemes (source : String) : List Lexeme :=
  [.word "require", .mark .lparen, .string source, .mark .rparen]

def memberLexemes (object property : String) : List Lexeme :=
  if isIdentifierName property then [.word object, .mark .dot, .word property]
  else [.word object, .mark .lbracket, .string property, .mark .rbracket]

def varLexemes (name : String) : List Lexeme :=
  [.word "var", .space, .word name, .space, .mark .assign, .space]

/-- The start of the statement that copies the keys of a binding, up to the binding. -/
def copyStart : List Lexeme :=
  [.word "Object", .mark .dot, .word "keys", .mark .lparen]

/-- The test that leaves out two of the keys. -/
def copyTest : List Lexeme :=
  [.mark .rparen, .mark .dot, .word "forEach", .mark .lparen, .word "function", .space,
   .mark .lparen, .word "key", .mark .rparen, .space, .mark .lbrace, .space, .word "if", .space,
   .mark .lparen, .word "key", .space, .mark .identical, .space, .string "default", .space,
   .mark .or, .space, .word "key", .space, .mark .identical, .space, .string "__esModule",
   .mark .rparen, .space, .word "return", .mark .semicolon, .space]

/-- The assignment to a key, up to the binding. -/
def copyAssign : List Lexeme :=
  [.word "exports", .mark .lbracket, .word "key", .mark .rbracket, .space, .mark .assign, .space]

/-- The end of the statement, behind the binding. -/
def copyEnd : List Lexeme :=
  [.mark .lbracket, .word "key", .mark .rbracket, .mark .semicolon, .space, .mark .rbrace,
   .mark .rparen, .mark .semicolon]

def markerLexemes : List Lexeme :=
  [.word "Object", .mark .dot, .word "defineProperty", .mark .lparen, .word "exports",
   .mark .comma, .space, .string "__esModule", .mark .comma, .space, .mark .lbrace, .space,
   .word "value", .mark .colon, .space, .word "true", .space, .mark .rbrace, .mark .rparen,
   .mark .semicolon]

/-- What stands behind the name of the helper. -/
def helperEnd : List Lexeme :=
  [.mark .lparen, .word "obj", .mark .rparen, .space, .mark .lbrace, .space, .word "return",
   .space, .word "obj", .space, .mark .and, .space, .word "obj", .mark .dot,
   .word "__esModule", .space, .mark .question, .space, .word "obj", .space, .mark .colon,
   .space, .mark .lbrace, .space, .word "default", .mark .colon, .space, .word "obj", .space,
   .mark .rbrace, .mark .semicolon, .space, .mark .rbrace]

end CommonJs

open CommonJs

def Expr.lexemes : Expr → List Lexeme
  | ident name => [.word name]
  | .member object property => memberLexemes object property
  | require specifier => requireLexemes specifier
  | interopDefault helper binding =>
    [.word helper, .mark .lparen, .word binding, .mark .rparen, .mark .dot, .word "default"]
  | source _ => []

/-- The lexemes of a statement that takes nothing from the source. -/
def Statement.lexemes : Statement → List Lexeme
  | require none source => requireLexemes source ++ [.mark .semicolon]
  | require (some binding) source =>
    varLexemes binding ++ requireLexemes source ++ [.mark .semicolon]
  | varBinding name init => varLexemes name ++ init.lexemes ++ [.mark .semicolon]
  | exportAssign exported value =>
    memberLexemes "exports" exported ++ [.space, .mark .assign, .space] ++ value.lexemes ++
      [.mark .semicolon]
  | exportAllKeys binding =>
    copyStart ++ .word binding :: copyTest ++ copyAssign ++ .word binding :: copyEnd
  | moduleMarker => markerLexemes
  | interopHelper name => [.word "function", .space] ++ .word name :: helperEnd
  | _ => []

/-- A statement of generated code alone. -/
def Statement.IsGenerated (st : Statement) : Prop :=
  st.isSynthesized = true ∧ st.fragment? = none

theorem text_append (ls ls' : List Lexeme) : text (ls ++ ls') = text ls ++ text ls' :=
  List.flatMap_append

theorem text_around {ls ls' : List Lexeme} {cs cs' : List Char} (h : text ls = cs)
    (h' : text ls' = cs') (w : String) : text (ls ++ .word w :: ls') = cs ++ w.toList ++ cs' := by
  have hcons : text (.word w :: ls') = w.toList ++ text ls' := List.flatMap_cons
  rw [text_append, hcons, h, h', List.append_assoc]

theorem text_requireLexemes (source : String) :
    text (requireLexemes source) = requireCall source := by
  have hcall : text [.word "require", .mark .lparen] = "require(".toList := by decide
  have hrest : text [.string source, .mark .rparen] = literal source ++ [')'] := by
    simp [text, Lexeme.chars, Mark.chars, literal]
  calc text (requireLexemes source)
      = text [.word "require", .mark .lparen] ++ text [.string source, .mark .rparen] :=
        text_append [.word "require", .mark .lparen] [.string source, .mark .rparen]
    _ = "require(".toList ++ (literal source ++ [')']) := congrArg₂ (· ++ ·) hcall hrest
    _ = requireCall source := (List.append_assoc _ _ _).symm

theorem text_memberLexemes (object property : String) :
    text (memberLexemes object property) = member object property := by
  unfold memberLexemes member
  split <;> simp [text, Lexeme.chars, Mark.chars, literal]

theorem text_equals : text [.space, .mark .assign, .space] = " = ".toList := by decide

theorem text_varLexemes (name : String) : text (varLexemes name) = varEquals name := by
  have hvar : text [.word "var", .space] = "var ".toList := by decide
  exact text_around hvar text_equals name

theorem text_helper (name : String) :
    text ([.word "function", .space] ++ .word name :: helperEnd) = helper name :=
  text_around (by decide) (by decide) name

theorem text_copyKeys (binding : String) :
    text (copyStart ++ .word binding :: copyTest ++ copyAssign ++ .word binding :: copyEnd) =
      copyKeys binding :=
  text_around ((text_append _ _).trans (congrArg₂ (· ++ ·)
    (text_around (by decide) (by decide) binding) (by decide)))
    (by decide) binding

theorem text_marker : text markerLexemes = marker := by decide

theorem Expr.print?_generated {e : Expr} (h : ∀ f, e ≠ .source f) (src : List Char) :
    e.print? src = some (text e.lexemes) := by
  cases e with
  | ident name => simp [Expr.print?, Expr.lexemes, text, Lexeme.chars]
  | member object property => rw [Expr.print?, Expr.lexemes, text_memberLexemes]
  | require source => rw [Expr.print?, Expr.lexemes, text_requireLexemes]
  | interopDefault helper binding =>
    simp [Expr.print?, Expr.lexemes, text, Lexeme.chars, Mark.chars]
  | source f => exact absurd rfl (h f)

/-- **A generated statement is printed as its lexemes.** -/
theorem Statement.print?_generated {st : Statement} (h : st.IsGenerated) (src : List Char) :
    st.print? src = some (text st.lexemes) := by
  have hsemi : text [.mark .semicolon] = [';'] := rfl
  cases st with
  | require binding source =>
    cases binding with
    | none => rw [print?, lexemes, text_append, text_requireLexemes, hsemi]
    | some binding =>
      rw [print?, lexemes, text_append, text_append, text_requireLexemes, text_varLexemes, hsemi]
  | varBinding name init =>
    have hinit : ∀ f, init ≠ .source f := by
      rintro f rfl
      cases h.2
    rw [print?, lexemes, Expr.print?_generated hinit, text_append, text_append, text_varLexemes,
      hsemi]
    rfl
  | exportAssign exported value =>
    have hvalue : ∀ f, value ≠ .source f := by
      rintro f rfl
      cases h.2
    rw [print?, lexemes, Expr.print?_generated hvalue, text_append, text_append, text_append,
      text_memberLexemes, text_equals, hsemi]
    rfl
  | exportAllKeys binding => rw [print?, lexemes, text_copyKeys]
  | moduleMarker => rw [print?, lexemes, text_marker]
  | interopHelper name => rw [print?, lexemes, text_helper]
  | verbatim | importFrom | exportAll | exportNamed | exportDecl | exportDefault => cases h.1
  | declaration => cases h.2

theorem Statement.wellSpaced_generated {st : Statement} (h : st.IsGenerated) :
    wellSpaced st.lexemes = true := by
  cases st with
  | require binding source => cases binding <;> rfl
  | varBinding name init =>
    cases init with
    | member object property =>
      simp only [lexemes, Expr.lexemes, memberLexemes]
      split <;> rfl
    | source f => cases h.2
    | _ => rfl
  | exportAssign exported value =>
    cases value with
    | member object property =>
      simp only [lexemes, Expr.lexemes, memberLexemes]
      split <;> split <;> rfl
    | source f => cases h.2
    | _ =>
      simp only [lexemes, memberLexemes]
      split <;> rfl
  | exportAllKeys | moduleMarker | interopHelper => rfl
  | verbatim | importFrom | exportAll | exportNamed | exportDecl | exportDefault => cases h.1
  | declaration => cases h.2

/-! ## The names in a statement -/

/-- The names that an expression refers to, but for names of properties. -/
def Expr.names : Expr → List String
  | ident name => [name]
  | .member object _ => [object]
  | interopDefault helper binding => [helper, binding]
  | require _ | source _ => []

/-- The names that a generated statement declares and refers to. -/
def Statement.names : Statement → List String
  | require binding _ => binding.toList
  | varBinding name init => name :: init.names
  | exportAssign _ value => value.names
  | exportAllKeys binding => [binding]
  | interopHelper name => [name]
  | _ => []

/-- A name that may stand behind a dot is written without escapes. -/
theorem isPlain_of_isIdentifierName {name : String} (h : isIdentifierName name = true) :
    isPlain name.toList = true := by
  unfold isIdentifierName at h
  split at h
  · cases h
  · rename_i c rest hname
    rw [hname]
    simp only [isPlain, isIdentifierStart, isIdentifierPart, Bool.and_eq_true, List.all_eq_true,
      Bool.or_eq_true] at h ⊢
    exact ⟨h.1, fun d hd => .inl (h.2 d hd)⟩

/-- The text of words that are written without escapes can be read back. -/
def Readable (ls : List Lexeme) : Prop :=
  ∀ l ∈ ls, l.isReadable = true

theorem readable_append {ls ls' : List Lexeme} (h : Readable ls) (h' : Readable ls') :
    Readable (ls ++ ls') :=
  List.forall_mem_append.2 ⟨h, h'⟩

theorem readable_cons {l : Lexeme} {ls : List Lexeme} (h : l.isReadable = true)
    (h' : Readable ls) : Readable (l :: ls) :=
  List.forall_mem_cons.2 ⟨h, h'⟩

theorem readable_requireLexemes (source : String) : Readable (requireLexemes source) :=
  readable_cons (by decide)
    (readable_cons rfl (readable_cons rfl (readable_cons rfl (by simp [Readable]))))

theorem readable_memberLexemes {object : String} (h : isPlain object.toList = true)
    (property : String) : Readable (memberLexemes object property) := by
  unfold memberLexemes
  split
  · rename_i hp
    exact readable_cons h (readable_cons rfl
      (readable_cons (isPlain_of_isIdentifierName hp) (by simp [Readable])))
  · exact readable_cons h (readable_cons rfl
      (readable_cons rfl (readable_cons rfl (by simp [Readable]))))

theorem readable_varLexemes {name : String} (h : isPlain name.toList = true) :
    Readable (varLexemes name) := by
  have hstart : Readable [.word "var", .space] := by unfold Readable; decide
  have hend : Readable [.space, .mark .assign, .space] := by unfold Readable; decide
  exact readable_append hstart (readable_cons h hend)

theorem readable_expr {e : Expr} (h : ∀ n ∈ e.names, isPlain n.toList = true) :
    Readable e.lexemes := by
  cases e with
  | ident name => exact readable_cons (h name (by simp [Expr.names])) (by simp [Readable])
  | member object property => exact readable_memberLexemes (h object (by simp [Expr.names])) _
  | require source => exact readable_requireLexemes source
  | interopDefault helper binding =>
    have hend : Readable [.mark .rparen, .mark .dot, .word "default"] := by
      unfold Readable; decide
    exact readable_cons (h helper (by simp [Expr.names])) (readable_cons rfl
      (readable_cons (h binding (by simp [Expr.names])) hend))
  | source f => simp [Readable, Expr.lexemes]

/-- **A generated statement can be read back** where its names are written without escapes. -/
theorem Statement.readable_generated {st : Statement}
    (h : ∀ n ∈ st.names, isPlain n.toList = true) : Readable st.lexemes := by
  have hsemi : Readable [.mark .semicolon] := by simp [Readable, Lexeme.isReadable]
  cases st with
  | require binding source =>
    cases binding with
    | none => exact readable_append (readable_requireLexemes source) hsemi
    | some binding =>
      exact readable_append (readable_append (readable_varLexemes (h binding (by simp [names])))
        (readable_requireLexemes source)) hsemi
  | varBinding name init =>
    obtain ⟨hname, hinit⟩ := List.forall_mem_cons.1 h
    exact readable_append (readable_append (readable_varLexemes hname) (readable_expr hinit)) hsemi
  | exportAssign exported value =>
    have hequals : Readable [.space, .mark .assign, .space] := by unfold Readable; decide
    have hexports : isPlain "exports".toList = true := by decide
    exact readable_append (readable_append (readable_append
      (readable_memberLexemes hexports exported) hequals) (readable_expr h)) hsemi
  | exportAllKeys binding =>
    have hb : (Lexeme.word binding).isReadable = true := h binding (by simp [names])
    have h1 : Readable copyStart := by unfold Readable; decide
    have h2 : Readable copyTest := by unfold Readable; decide
    have h3 : Readable copyAssign := by unfold Readable; decide
    have h4 : Readable copyEnd := by unfold Readable; decide
    exact readable_append (readable_append (readable_append h1 (readable_cons hb h2)) h3)
      (readable_cons hb h4)
  | moduleMarker => unfold Readable; decide
  | interopHelper name =>
    have hstart : Readable [.word "function", .space] := by unfold Readable; decide
    have hend : Readable helperEnd := by unfold Readable; decide
    exact readable_append hstart (readable_cons (h name (by simp [names])) hend)
  | _ => simp [Readable, lexemes]

/-! ## The calls in a statement -/

namespace Dependency

/-- Tokens among which no parenthesis opens in front of a string, and whose last one is no start of a
call. -/
def Quiet : List Token → Prop
  | [] => False
  | [t] => t.substitutions = [] ∧ t.kind ≠ .lparen ∧ isCallee t = false
  | t :: u :: rest =>
    t.substitutions = [] ∧ (t.kind = .lparen → u.kind ≠ .string ∧ u.kind ≠ .template) ∧
      Quiet (u :: rest)

theorem ofCall?_eq_none {callee opening argument closing : Token}
    (h : opening.kind = .lparen → argument.kind ≠ .string ∧ argument.kind ≠ .template) :
    ofCall? callee opening argument closing = none := by
  unfold ofCall?
  by_cases hopen : opening.kind = .lparen
  · obtain ⟨hs, ht⟩ := h hopen
    simp only [hopen, bne_self_eq_false, Bool.false_eq_true, if_false]
    split <;> simp_all
  · simp [hopen]

theorem ofToken?_quiet {t : Token} {ts : List Token} (h : Quiet (t :: ts))
    (prev : Option Token.Kind) (more : List Token) : ofToken? prev t (ts ++ more) = none := by
  unfold ofToken?
  split
  · rfl
  rename_i hcallee
  match ts, h with
  | [], h =>
    simp [h.2.2] at hcallee
  | [u], h =>
    have hu := h.2.2.2.1
    split
    · rename_i heq
      obtain ⟨rfl, -⟩ := List.cons.inj heq
      exact ofCall?_eq_none (absurd · hu)
    · rfl
  | u :: v :: ts, h =>
    split
    · rename_i heq
      obtain ⟨hu, heq⟩ := List.cons.inj heq
      obtain ⟨hv, -⟩ := List.cons.inj heq
      rw [← hu, ← hv]
      exact ofCall?_eq_none h.2.2.2.1
    · rfl

theorem callsFrom_cons (prev : Option Token.Kind) (t : Token) (rest : List Token) :
    callsFrom prev (t :: rest) = callsFrom none t.substitutions ++
      (ofToken? prev t rest).toList ++ callsFrom (some t.kind) rest := by
  obtain ⟨kind, span, value, newline, substitutions⟩ := t
  rw [callsFrom]

/-- Dependencies do not depend on the places of the tokens. -/
theorem callsFrom_bare (prev : Option Token.Kind) (ts : List Token) :
    callsFrom prev (ts.map bare) = callsFrom prev ts := by
  have hcall (prev : Option Token.Kind) (t : Token) (rest : List Token) :
      ofToken? prev t.bare (rest.map bare) = ofToken? prev t rest := by
    unfold ofToken?
    match rest with
    | [] | [_] | [_, _] | _ :: _ :: _ :: _ => rfl
  induction ts generalizing prev with
  | nil => rfl
  | cons t ts ih =>
    rw [List.map_cons, callsFrom_cons, callsFrom_cons, ih, hcall]
    rfl

/-- **Quiet tokens load nothing.** -/
theorem callsFrom_quiet {ts : List Token} (h : Quiet ts) (prev : Option Token.Kind)
    (more : List Token) :
    callsFrom prev (ts ++ more) = callsFrom (ts.getLast?.map (·.kind)) more := by
  fun_induction Quiet ts generalizing prev with
  | case1 => cases h
  | case2 t =>
    have hnone : ofToken? prev t more = none := @ofToken?_quiet t [] h prev more
    simp [callsFrom_cons, h.1, hnone, callsFrom]
  | case3 t u rest ih =>
    have hnone := @ofToken?_quiet t (u :: rest) h prev more
    rw [List.cons_append, callsFrom_cons, hnone, h.1, ih h.2.2]
    simp [callsFrom]

end Dependency

open Dependency

namespace Token.Lexeme

/-- A parenthesis before a string or a space. -/
def opensString : Lexeme → Lexeme → Bool
  | mark .lparen, string _ => true
  | mark .lparen, space => true
  | _, _ => false

/-- Lexemes among which no parenthesis opens in front of a string, and which end with another
punctuator, perhaps before a space. -/
def quiet : List Lexeme → Bool
  | [] => false
  | [mark m] => m != .lparen
  | [mark m, space] => m != .lparen
  | [_] => false
  | l :: l' :: ls => !opensString l l' && quiet (l' :: ls)

theorem spell_append (last : Option Kind) (ls ls' : List Lexeme) :
    spell last (ls ++ ls') = spell last ls ++ spell (ls.foldl kindBehind last) ls' := by
  induction ls generalizing last with
  | nil => rfl
  | cons l ls ih => simp [spell, ih]

theorem quiet_cons {t : Token} {ts : List Token} (hs : t.substitutions = [])
    (ht : t.kind = .lparen → ∀ u ∈ ts.head?, u.kind ≠ .string ∧ u.kind ≠ .template)
    (h : Quiet ts) : Quiet (t :: ts) := by
  cases ts with
  | nil => cases h
  | cons u rest => exact ⟨hs, fun hk => ht hk u rfl, h⟩

theorem mark_eq_lparen {m : Mark} (h : m.kind = .lparen) : m = .lparen := by
  cases m <;> first | rfl | cases h

theorem quiet_mark {m : Mark} (h : m ≠ .lparen) :
    Quiet [{ kind := m.kind, span := ⟨0, 0⟩, value := String.ofList m.chars }] :=
  ⟨rfl, fun hk => h (mark_eq_lparen hk), by cases m <;> rfl⟩

theorem quiet_spell {ls : List Lexeme} (h : quiet ls = true) (last : Option Kind) :
    Quiet (spell last ls) := by
  fun_induction quiet ls generalizing last with
  | case1 => cases h
  | case2 m => exact quiet_mark (by simpa using h)
  | case3 m => exact quiet_mark (by simpa using h)
  | case4 => cases h
  | case5 l l' ls _ ih =>
    obtain ⟨hopen, hrest⟩ := Bool.and_eq_true_iff.1 h
    have hquiet := ih hrest (l.kindBehind last)
    cases l with
    | space => exact hquiet
    | word w => exact quiet_cons rfl (fun hk => absurd hk (wordKind_ne (by decide) _ _)) hquiet
    | string text => exact quiet_cons rfl (fun hk => by cases hk) hquiet
    | mark m =>
      refine quiet_cons rfl (fun hk u hu => ?_) hquiet
      obtain rfl := mark_eq_lparen hk
      cases l' with
      | string | space => cases hopen
      | word w =>
        obtain rfl := Option.some.inj hu
        have hne {kind : Kind} (h : kind.isOfWord = false) : wordKind (some .lparen) w ≠ kind :=
          wordKind_ne h _ _
        exact ⟨@hne .string (by decide), @hne .template (by decide)⟩
      | mark m' =>
        obtain rfl := Option.some.inj hu
        cases m' <;> exact ⟨nofun, nofun⟩

theorem getLast?_spell {ls : List Lexeme} (h : quiet ls = true) (last : Option Kind) :
    (spell last ls).getLast?.map (·.kind) = ls.foldl kindBehind last := by
  fun_induction quiet ls generalizing last with
  | case1 => cases h
  | case2 m => rfl
  | case3 m => rfl
  | case4 => cases h
  | case5 l l' ls _ ih =>
    have hrest := (Bool.and_eq_true_iff.1 h).2
    have hne : spell (l.kindBehind last) (l' :: ls) ≠ [] := by
      intro hnil
      have hquiet := quiet_spell hrest (l.kindBehind last)
      rw [hnil] at hquiet
      exact hquiet
    rw [spell, List.getLast?_append, List.getLast?_eq_some_getLast hne, Option.some_or,
      ← List.getLast?_eq_some_getLast hne, ih hrest]
    rfl

/-- **Quiet lexemes load nothing.** -/
theorem callsFrom_quietSpell {ls : List Lexeme} (h : quiet ls = true) (last : Option Kind)
    (more : List Token) :
    callsFrom last (spell last ls ++ more) = callsFrom (ls.foldl kindBehind last) more := by
  rw [callsFrom_quiet (quiet_spell h last), getLast?_spell h]

/-- **A call is read as a dependency**, unless it calls the member of an object. -/
theorem callsFrom_require (source : String) {last : Option Kind} (hdot : last ≠ some .dot)
    (hquestion : last ≠ some .questionDot) (more : List Token) :
    callsFrom last (spell last (requireLexemes source) ++ more) =
      { path := source } :: callsFrom (some .rparen) more := by
  have hkind : wordKind last "require" = .identifier := by
    have hkeyword : keyword? "require" = none := by decide
    simp [wordKind, hkeyword]
  have hspell : spell last (requireLexemes source) =
      [{ kind := .identifier, span := ⟨0, 0⟩, value := "require" },
       { kind := .lparen, span := ⟨0, 0⟩, value := "(" },
       { kind := .string, span := ⟨0, 0⟩, value := source },
       { kind := .rparen, span := ⟨0, 0⟩, value := ")" }] := by
    simp only [requireLexemes, spell, token?, hkind]
    rfl
  rw [hspell]
  simp [callsFrom, ofToken?, isCallee, Token.isWord, ofCall?, hdot, hquestion]

end Token.Lexeme

/-- The module that a generated statement requires. -/
def Statement.loads : Statement → List Dependency
  | require _ source | varBinding _ (.require source) | exportAssign _ (.require source) =>
    [{ path := source }]
  | _ => []

/-- Generated code either calls for no module, or is the call with a start that calls for none. -/
theorem Statement.lexemes_split {st : Statement} (h : st.IsGenerated) :
    quiet st.lexemes = true ∧ st.loads = [] ∨
      ∃ ls source, st.lexemes = ls ++ requireLexemes source ++ [.mark .semicolon] ∧
        (ls = [] ∨ quiet ls = true ∧ ∀ last, ls.foldl kindBehind last = some .assign) ∧
        st.loads = [{ path := source }] := by
  cases st with
  | require binding source =>
    right
    cases binding with
    | none => exact ⟨[], source, rfl, .inl rfl, rfl⟩
    | some binding =>
      exact ⟨varLexemes binding, source, rfl, .inr ⟨rfl, fun _ => rfl⟩, rfl⟩
  | varBinding name init =>
    cases init with
    | member object property =>
      left
      simp only [lexemes, Expr.lexemes, memberLexemes]
      split <;> exact ⟨rfl, rfl⟩
    | require source => exact .inr ⟨varLexemes name, source, rfl, .inr ⟨rfl, fun _ => rfl⟩, rfl⟩
    | source f => cases h.2
    | _ => exact .inl ⟨rfl, rfl⟩
  | exportAssign exported value =>
    cases value with
    | member object property =>
      left
      simp only [lexemes, Expr.lexemes, memberLexemes]
      split <;> split <;> exact ⟨rfl, rfl⟩
    | require source =>
      refine .inr ⟨memberLexemes "exports" exported ++ [.space, .mark .assign, .space], source, rfl,
        .inr ?_, rfl⟩
      simp only [memberLexemes]
      split <;> exact ⟨rfl, fun _ => rfl⟩
    | source f => cases h.2
    | _ =>
      left
      simp only [lexemes, memberLexemes]
      split <;> exact ⟨rfl, rfl⟩
  | exportAllKeys | moduleMarker | interopHelper => exact .inl ⟨rfl, rfl⟩
  | verbatim | importFrom | exportAll | exportNamed | exportDecl | exportDefault => cases h.1
  | declaration => cases h.2

/-- **A generated statement is read as a call for the module that it requires.** -/
theorem Statement.callsFrom_generated {st : Statement} (h : st.IsGenerated) {last : Option Kind}
    (hdot : last ≠ some .dot) (hquestion : last ≠ some .questionDot) (more : List Token) :
    callsFrom last (spell last st.lexemes ++ more) =
      st.loads ++ callsFrom (st.lexemes.foldl kindBehind last) more := by
  rcases st.lexemes_split h with ⟨hquiet, hloads⟩ | ⟨ls, source, hls, hstart, hloads⟩
  · rw [callsFrom_quietSpell hquiet, hloads, List.nil_append]
  · have hsemi : quiet [.mark .semicolon] = true := rfl
    rw [hls, hloads, List.foldl_append, List.append_assoc, spell_append, spell_append,
      List.append_assoc, List.append_assoc]
    rcases hstart with rfl | ⟨hquiet, hassign⟩
    · rw [List.foldl_nil, spell, List.nil_append, callsFrom_require source hdot hquestion]
      exact congrArg _ (callsFrom_quietSpell hsemi _ more)
    · rw [callsFrom_quietSpell hquiet, hassign, callsFrom_require source (by decide) (by decide)]
      exact congrArg _ (callsFrom_quietSpell hsemi _ more)

theorem Statement.kindBehind_generated {st : Statement} (h : st.IsGenerated) (last : Option Kind) :
    st.lexemes.foldl kindBehind last = some .semicolon ∨
      st.lexemes.foldl kindBehind last = some .rbrace := by
  have hsemi (ls : List Lexeme) :
      (ls ++ [Lexeme.mark .semicolon]).foldl kindBehind last = some .semicolon := by
    rw [List.foldl_append]
    rfl
  cases st with
  | require binding source => cases binding <;> exact .inl (hsemi _)
  | varBinding | exportAssign => exact .inl (hsemi _)
  | exportAllKeys | moduleMarker => exact .inl rfl
  | interopHelper => exact .inr rfl
  | verbatim | importFrom | exportAll | exportNamed | exportDecl | exportDefault => cases h.1
  | declaration => cases h.2

end ModuleForge
