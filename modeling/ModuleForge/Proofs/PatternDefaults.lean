import ModuleForge.Proofs.ExportedTargets

/-!
# Default values in patterns

`[name = 1]` is an assignment in an expression and a default value in a pattern. The walk over
assignments does not tell the two apart, nor those after `key:` in braces. So a name that a pattern
binds gets an export exactly if it has a default value, but for the places where an assignment
around it is stepped over, or where the name is taken for a declarator or a field.

- `mem_targets_iff_takenForAssignment`: what the walk makes of a name directly behind `[`, `,` or
  `:`.
- `ofSource_exportedAt_patternName_iff`: the names of patterns that get an export.
-/

namespace ModuleForge

open CommonJs Reassignment

/-! ## Tokens of a source -/

namespace Token

variable {src : List Char} {ts : List Token} {i lo : Nat} {t : Token}

theorem Laid.lt_start (h : Laid src lo ts) (ht : ts[i]? = some t) : lo ≤ t.span.start := by
  induction h generalizing i with
  | eof _ hspan hlo =>
    obtain ⟨-, rfl⟩ : i = 0 ∧ _ = t := by simpa [List.getElem?_singleton] using ht
    rw [hspan]
    exact hlo
  | cons _ hlo hlt _ _ _ ih =>
    cases i with
    | zero =>
      obtain rfl := Option.some.inj ht
      exact hlo
    | succ i => exact Nat.le_trans (Nat.le_trans hlo (Nat.le_of_lt hlt)) (ih ht)

theorem Laid.start_lt_start (h : Laid src lo ts) {u : Token} {j : Nat} (hij : i < j)
    (ht : ts[i]? = some t) (hu : ts[j]? = some u) : t.span.start < u.span.start := by
  induction h generalizing i j with
  | eof =>
    cases j with
    | zero => cases hij
    | succ j => cases hu
  | cons _ _ hlt _ _ hrest ih =>
    cases j with
    | zero => cases hij
    | succ j =>
      cases i with
      | zero =>
        obtain rfl := Option.some.inj ht
        exact Nat.lt_of_lt_of_le hlt (hrest.lt_start hu)
      | succ i => exact ih (Nat.lt_of_succ_lt_succ hij) ht hu

theorem Laid.start_inj (h : Laid src lo ts) {u : Token} {j : Nat} (ht : ts[i]? = some t)
    (hu : ts[j]? = some u) (heq : t.span.start = u.span.start) : i = j := by
  rcases Nat.lt_trichotomy i j with hij | hij | hij
  · exact absurd heq (Nat.ne_of_lt (h.start_lt_start hij ht hu))
  · exact hij
  · exact absurd heq.symm (Nat.ne_of_lt (h.start_lt_start hij hu ht))

theorem Laid.eofLast (h : Laid src lo ts) : EofLast ts.toArray := by
  intro i t ht hk
  rw [List.getElem?_toArray] at ht ⊢
  induction h generalizing i with
  | eof =>
    cases i with
    | zero => rfl
    | succ i => cases ht
  | cons hne _ _ _ _ _ ih =>
    cases i with
    | zero =>
      obtain rfl := Option.some.inj ht
      exact absurd hk hne
    | succ i => exact ih i ht

end Token

namespace CommonJs.Reassignment

variable {tokens : Array Token} {name : String} {t : Token} {i o : Nat} {c : Context}

/-! ## Names in brackets -/

/-- The token stands directly in the bracket at `o`, as an element of `[..]` or behind the colon of
a property of `{..}`. -/
structure InBrackets (tokens : Array Token) (o i : Nat) : Prop where
  enclosed : enclosing? tokens i = some o
  place : (kindAt? tokens o = some .lbracket ∧
      (kindBefore? tokens i = some .lbracket ∨ kindBefore? tokens i = some .comma)) ∨
    (kindAt? tokens o = some .lbrace ∧ kindBefore? tokens i = some .colon)

/-- The bracket opens a destructuring pattern: it stands behind `var`, `let` or `const`, or is an
element of a list in parentheses. -/
def OpensPattern (tokens : Array Token) (o : Nat) : Prop :=
  (kindBefore? tokens o).any isDeclarator = true ∨
    ((enclosing? tokens o).bind (kindAt? tokens) = some .lparen ∧
      (kindBefore? tokens o = some .lparen ∨ kindBefore? tokens o = some .comma))

/-- A name that is bound by the pattern in the bracket at `o`. -/
structure PatternName (tokens : Array Token) (o i : Nat) : Prop extends InBrackets tokens o i where
  opens : OpensPattern tokens o

instance : Decidable (OpensPattern tokens o) :=
  inferInstanceAs (Decidable (_ ∨ _))

instance : Decidable (InBrackets tokens o i) :=
  decidable_of_iff (_ ∧ _) ⟨fun h => ⟨h.1, h.2⟩, fun h => ⟨h.enclosed, h.place⟩⟩

instance : Decidable (PatternName tokens o i) :=
  decidable_of_iff (InBrackets tokens o i ∧ OpensPattern tokens o)
    ⟨fun h => ⟨h.1, h.2⟩, fun h => ⟨h.toInBrackets, h.opens⟩⟩

/-- The name at `i` and the value behind it are taken for an assignment. -/
structure TakenForAssignment (tokens : Array Token) (name : String) (o i : Nat) : Prop where
  /-- It has a value. -/
  value : kindAt? tokens (i + 1) = some .assign ∨ kindAt? tokens (i + 1) = some .assignOp
  /-- No assignment around it is stepped over. -/
  outside : ¬ Inside tokens name i
  /-- It is not taken for one of several declarators. -/
  noDeclarator : kindBefore? tokens i = some .comma → ¬ DeclaresIn tokens name o i
  /-- It is not taken for a field of a class, at the start of a line. -/
  noField : frameOf tokens o = .classBody → (tokens[i]?).any (·.newlineBefore) = false

theorem frameOf_lbracket (h : kindAt? tokens o = some .lbracket) : frameOf tokens o = .code := by
  obtain ⟨t, ht, hk⟩ := Option.map_eq_some_iff.1 h
  simp [frameOf, ht, Brackets.frameAt, hk]

theorem isDeclaring_iff (h : c.Agrees tokens name i) (ho : enclosing? tokens i = some o) :
    c.isDeclaring = true ↔ DeclaresIn tokens name o i := by
  have h0 : (openBefore tokens i)[0]? = some o := by rw [← List.head?_eq_getElem?]; exact ho
  rw [← h.declaring 0 o h0, Context.isDeclaring, List.head?_eq_getElem?]
  cases c.declaring[0]? <;> simp

theorem head?_frames (h : c.Agrees tokens name i) (ho : enclosing? tokens i = some o) :
    c.frames.head? = some (frameOf tokens o) := by
  have ho : (openBefore tokens i).head? = some o := ho
  rw [h.frames, List.head?_map, ho]
  rfl

/-- What the walk makes of a name in brackets where it comes to it. -/
theorem isTarget_iff (h : c.Agrees tokens name i) (hin : InBrackets tokens o i)
    (ht : tokens[i]? = some t) :
    isTarget tokens i t c = true ↔
      (kindAt? tokens (i + 1) = some .assign ∨ kindAt? tokens (i + 1) = some .assignOp) ∧
        (kindBefore? tokens i = some .comma → ¬ DeclaresIn tokens name o i) ∧
        (frameOf tokens o = .classBody → (tokens[i]?).any (·.newlineBefore) = false) := by
  have hframe := head?_frames h hin.enclosed
  rw [← isDeclaring_iff h hin.enclosed]
  unfold isTarget
  by_cases hnext : kindAt? tokens (i + 1) = some .assign ∨ kindAt? tokens (i + 1) = some .assignOp
  · have hvalue : (kindAt? tokens (i + 1) != some .assign &&
        kindAt? tokens (i + 1) != some .assignOp) = false := by
      rcases hnext with hnext | hnext <;> simp [hnext]
    rcases hin.place with ⟨hkind, hprev | hprev⟩ | ⟨hkind, hprev⟩
    · simp [hvalue, hnext, hframe, hprev, frameOf_lbracket hkind]
    · simp [hvalue, hnext, hframe, hprev, frameOf_lbracket hkind]
    · -- a colon is no word, so that no `static` stands before the name
      obtain ⟨u, hu, hcolon⟩ := Option.map_eq_some_iff.1 hprev
      have hstatic : u.isWord "static" = false := by simp [Token.isWord, hcolon]
      cases hf : frameOf tokens o <;> simp [hvalue, hnext, hframe, hf, hprev, hu, ht, hstatic]
  · have hvalue : (kindAt? tokens (i + 1) != some .assign &&
        kindAt? tokens (i + 1) != some .assignOp) = true := by
      simpa using hnext
    simp [hvalue, hnext]

/-- **The walk takes a name in brackets for the target of an assignment** whether the brackets are
an expression or a pattern. -/
theorem mem_targets_iff_takenForAssignment (hends : EofLast tokens) (hin : InBrackets tokens o i)
    (ht : tokens[i]? = some t) (hword : t.isWord name = true) :
    i ∈ targets tokens name ↔ TakenForAssignment tokens name o i := by
  have hkind : t.kind ≠ .eof := fun hk => by simp [Token.isWord, hk] at hword
  have hlt : i < tokens.size := (Array.getElem?_eq_some_iff.1 ht).1
  have hvisits : (∃ c, Visits tokens name i c) ∨ Inside tokens name i :=
    visits_or_inside (Nat.le_of_lt hlt)
  rcases hvisits with ⟨c, hc⟩ | hinside
  · have hiff := isTarget_iff (hc.agrees hends ht hkind) hin ht
    rw [hc.mem_targets_iff ht, hword, Bool.true_and, hiff]
    constructor
    · rintro ⟨hvalue, hdeclarator, hfield⟩
      exact ⟨hvalue, hc.not_inside, hdeclarator, hfield⟩
    · exact fun h => ⟨h.value, h.noDeclarator, h.noField⟩
  · refine iff_of_false (fun hi => ?_) fun h => h.outside hinside
    obtain ⟨c, hc⟩ := exists_visits_of_mem_targets hi
    exact hc.not_inside hinside

end CommonJs.Reassignment

/-! ## Sources -/

namespace CommonJs

open Token (scan)

/-- A target that starts where an identifier starts is that identifier. -/
theorem targetAt_iff {src : List Char} {tokens : List Token} {parsed : List Statement} {t : Token}
    {i : Nat} (h : Token.Laid src 0 tokens) (ht : tokens.toArray[i]? = some t)
    (hname : t.value ∈ parsed.flatMap defaultNames) :
    TargetAt tokens parsed t.span.start ↔ i ∈ targets tokens.toArray t.value := by
  constructor
  · rintro ⟨name, -, j, hj, u, hu, heq⟩
    obtain rfl := h.start_inj (List.getElem?_toArray ▸ hu) (List.getElem?_toArray ▸ ht) heq
    rwa [(identifier_of_mem_targets hj ht).2]
  · exact fun hi => ⟨t.value, hname, i, hi, t, ht, rfl⟩

/-- **A name that is bound by a pattern and is that of a default export** gets an export in front of
it exactly if it has a default value which is taken for an assignment, in source that is kept. -/
theorem ofSource_exportedAt_patternName_iff {source text : String}
    (h : ofSource source = .ok text) :
    ∃ p, Grammar.parse source = .ok p ∧
      (lower (scan source) p).generate? source.toList = some text.toList ∧
      ∀ o i t, PatternName (scan source).toArray o i → (scan source).toArray[i]? = some t →
        t.kind = .identifier → t.value ∈ p.statements.flatMap defaultNames →
        (ExportedAt (lower (scan source) p).statements t.span.start ↔
          KeptAt p.statements t.span.start ∧
            TakenForAssignment (scan source).toArray t.value o i) := by
  obtain ⟨p, hp, htext⟩ := ofSource_eq_ok_iff.1 h
  have hlaid := Token.scan_laid source
  refine ⟨p, hp, htext, fun o i t hpattern ht hkind hname => ?_⟩
  have hword : t.isWord t.value = true := by simp [Token.isWord, hkind]
  rw [exportedAt_lower_iff hp, targetAt_iff hlaid ht hname,
    mem_targets_iff_takenForAssignment hlaid.eofLast hpattern.toInBrackets ht hword]

/-- Patterns in a parameter and in a declaration, each with a default value for a name that hides the
default export. -/
def patternDefaults : String :=
  "export default function f() \x7b\x7d\n" ++
    "function g([f = 1]) \x7b var \x7b k: f = 2 \x7d = o; \x7d"

/-- The brackets of the patterns in `patternDefaults`, each with the name `f` that it binds. -/
def patternPlaces : List (Nat × Nat) :=
  [(11, 12), (19, 22)]

theorem patternName_of_mem_patternPlaces : ∀ x ∈ patternPlaces,
    PatternName (scan patternDefaults).toArray x.1 x.2 ∧
      (scan patternDefaults).toArray[x.2]?.any (·.isWord "f") = true ∧
      x.2 ∈ targets (scan patternDefaults).toArray "f" := by
  decide +kernel

theorem ofSource_exportedAt_patternName_iff_patternDefaults :
    ∃ text p, ofSource patternDefaults = .ok text ∧ Grammar.parse patternDefaults = .ok p ∧
      ∀ x ∈ patternPlaces, ∃ t, (scan patternDefaults).toArray[x.2]? = some t ∧
        PatternName (scan patternDefaults).toArray x.1 x.2 ∧
        TakenForAssignment (scan patternDefaults).toArray "f" x.1 x.2 ∧
        ExportedAt (lower (scan patternDefaults) p).statements t.span.start := by
  have hprogram : (Grammar.parse patternDefaults).toOption.any (fun p =>
      p.statements.flatMap defaultNames == ["f"] && patternPlaces.all fun x =>
        (scan patternDefaults).toArray[x.2]?.any fun t =>
          (p.statements.filterMap Statement.keptSpan?).any (·.contains t.span.start)) = true := by
    decide +kernel
  obtain ⟨p, hp, hcheck⟩ := exists_ok_of_any hprogram
  obtain ⟨text, htext⟩ := generate?_lower hp
  have hok : ofSource patternDefaults = .ok (String.ofList text) :=
    ofSource_eq_ok_iff.2 ⟨p, hp, by rw [htext, String.toList_ofList]⟩
  obtain ⟨p', hp', -, hiff⟩ := ofSource_exportedAt_patternName_iff hok
  obtain rfl : p = p' := Except.ok.inj (hp.symm.trans hp')
  obtain ⟨hnames, hkept⟩ := Bool.and_eq_true_iff.1 hcheck
  refine ⟨_, p, hok, hp, fun x hx => ?_⟩
  obtain ⟨hpattern, hany, htarget⟩ := patternName_of_mem_patternPlaces x hx
  obtain ⟨t, ht, hword⟩ := (Option.any_eq_true _ _).1 hany
  have hkept := List.all_eq_true.1 hkept x hx
  simp only [ht, Option.any_some, List.any_eq_true, Span.contains, Bool.and_eq_true,
    decide_eq_true_eq] at hkept
  obtain ⟨hkind, hvalue⟩ : t.kind = .identifier ∧ t.value = "f" := by
    simpa [Token.isWord] using hword
  have htaken : TakenForAssignment (scan patternDefaults).toArray t.value x.1 x.2 := by
    rw [hvalue]
    exact (mem_targets_iff_takenForAssignment (Token.scan_laid _).eofLast
      hpattern.toInBrackets ht hword).1 htarget
  have hname : t.value ∈ p.statements.flatMap defaultNames := by
    rw [beq_iff_eq.1 hnames, hvalue]
    exact List.mem_singleton_self _
  exact ⟨t, ht, hpattern, hvalue ▸ htaken, (hiff _ _ t hpattern ht hkind hname).2 ⟨hkept, htaken⟩⟩

/-- Names that are bound, and are no targets of assignments, get an export. -/
theorem ofSource_patternDefaults :
    (∀ x ∈ patternPlaces, PatternName (scan patternDefaults).toArray x.1 x.2) ∧
      (ofSource patternDefaults).toOption = some
        ("Object.defineProperty(exports, \"__esModule\", \x7b value: true \x7d);\n" ++
          "exports.default = f;\nfunction f() \x7b\x7d\n" ++
          "function g([exports.default = f = 1]) \x7b " ++
          "var \x7b k: exports.default = f = 2 \x7d = o; \x7d") :=
  ⟨fun x hx => (patternName_of_mem_patternPlaces x hx).1, by decide +kernel⟩

end CommonJs

end ModuleForge
